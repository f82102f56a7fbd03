import TaskBoard.Value

/-!
Mappings that remember the order in which their keys were first written. Writing a key again keeps
its place and its first spelling and replaces the value.
-/

namespace TaskBoard

structure Mapping where
  entries : List (Value × Value) := []
  deriving Repr, Inhabited

namespace Mapping

def size (m : Mapping) : Nat := m.entries.length

def keys (m : Mapping) : List Value := m.entries.map (·.1)

def lookup (key : Value) : List (Value × Value) → Option Value
  | [] => none
  | (k, v) :: rest => if k.sameKey key then some v else lookup key rest

def get? (m : Mapping) (key : Value) : Option Value := lookup key m.entries

def contains (m : Mapping) (key : Value) : Bool := (m.get? key).isSome

def at? (m : Mapping) (name : String) : Option Value := m.get? (.text name)

def write (key value : Value) : List (Value × Value) → List (Value × Value)
  | [] => [(key, value)]
  | (k, v) :: rest =>
    if k.sameKey key then (k, value) :: rest else (k, v) :: write key value rest

def insert (m : Mapping) (key value : Value) : Mapping := ⟨write key value m.entries⟩

def ofList (pairs : List (Value × Value)) : Mapping :=
  pairs.foldl (fun m (key, value) => m.insert key value) {}

/-- A value that is written under a key is found under every other spelling of it. -/
theorem lookup_write_same {key other : Value} (v : Value) (same : key.sameKey other = true)
    (entries : List (Value × Value)) : lookup other (write key v entries) = some v := by
  induction entries with
  | nil => simp [write, lookup, same]
  | cons entry rest ih =>
    obtain ⟨k, before⟩ := entry
    by_cases here : k.sameKey key = true
    · simp [write, lookup, here, Value.sameKey_trans here same]
    · have apart : k.sameKey other = false := by
        cases joined : k.sameKey other with
        | false => rfl
        | true =>
          have back := same
          rw [Value.sameKey_comm] at back
          exact absurd (Value.sameKey_trans joined back) here
      simp [write, lookup, here, apart, ih]

theorem lookup_write_self (key value : Value) (entries : List (Value × Value)) :
    lookup key (write key value entries) = some value :=
  lookup_write_same value (Value.sameKey_refl key) entries

theorem lookup_write_other {key other : Value} (value : Value) (different : key.sameKey other = false)
    (entries : List (Value × Value)) :
    lookup other (write key value entries) = lookup other entries := by
  induction entries with
  | nil => simp [write, lookup, different]
  | cons entry rest ih =>
    obtain ⟨k, v⟩ := entry
    by_cases same : k.sameKey key = true
    · have apart : k.sameKey other = false := by
        cases joined : k.sameKey other
        · rfl
        · have reversed := Value.sameKey_comm k key
          rw [same] at reversed
          rw [Value.sameKey_trans reversed.symm joined] at different
          exact different
      simp [write, lookup, same, apart]
    · simp [write, lookup, same, ih]

theorem get?_insert_self (m : Mapping) (key value : Value) :
    (m.insert key value).get? key = some value := lookup_write_self key value m.entries

theorem get?_insert_other (m : Mapping) {key other : Value} (value : Value)
    (different : key.sameKey other = false) : (m.insert key value).get? other = m.get? other :=
  lookup_write_other value different m.entries

theorem keys_insert_eq (key v : Value) (m : Mapping) :
    (m.insert key v).keys = if m.keys.any (·.sameKey key) then m.keys else m.keys ++ [key] := by
  obtain ⟨entries⟩ := m
  change (write key v entries).map (·.1) =
    if (entries.map (·.1)).any (·.sameKey key) then entries.map (·.1) else entries.map (·.1) ++ [key]
  induction entries with
  | nil => rfl
  | cons entry rest ih =>
    obtain ⟨k, before⟩ := entry
    by_cases same : k.sameKey key = true
    · simp [write, same]
    · simp only [write, same, Bool.false_eq_true, if_false, List.map_cons, ih, List.any_cons, Bool.false_or]
      split <;> rfl

end Mapping

end TaskBoard
