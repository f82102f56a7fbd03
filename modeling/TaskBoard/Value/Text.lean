import TaskBoard.Heap
import TaskBoard.Number.Reading
import TaskBoard.Number.Shortest
import TaskBoard.Text.Quoted

/-!
The texts of values. `Heap.written` is the form in which a value is spelled inside other texts, with
quotes around a text; `Heap.shown` is the plain form, which differs for texts and moments only. A value
that holds an integer of too many digits has no text.
-/

namespace TaskBoard

namespace Heap

def listed (parts : List String) : String := String.intercalate ", " parts

/-- The form of a value inside other texts; lists and mappings are opened `depth` levels deep. -/
def written (h : Heap) : Nat → Value → Except Failure String
  | 0, _ => throw .tooDeep
  | depth + 1, v =>
    match v with
    | .nothing => pure "None"
    | .flag true => pure "True"
    | .flag false => pure "False"
    | .whole i => Number.writeWhole i
    | .real x => pure x.shown
    | .text s => pure (Text.quoted s)
    | .list cell => do
      let items ← (h.listAt cell).mapM (h.written depth)
      pure ("[" ++ listed items ++ "]")
    | .map cell => do
      let entry (pair : Value × Value) : Except Failure String := do
        pure ((← h.written depth pair.1) ++ ": " ++ (← h.written depth pair.2))
      let entries ← (h.mapAt cell).entries.mapM entry
      pure ("\x7b" ++ listed entries ++ "\x7d")
    | .tuple [item] => do pure ("(" ++ (← h.written depth item) ++ ",)")
    | .tuple items => do pure ("(" ++ listed (← items.mapM (h.written depth)) ++ ")")
    | .set cell => do
      let items ← (h.listAt cell).mapM (h.written depth)
      pure (if items.isEmpty then "set()" else "\x7b" ++ listed items ++ "\x7d")
    | .date d => pure d.shown
    | .moment m => pure (m.shownWith " ")
    | .bytes b => pure (Text.quotedBytes b)
    | .named name => do pure ("NamedRef(name=" ++ (← h.written depth name) ++ ")")
    | .direct target => do pure ("CallableRef(func=" ++ (← h.written depth target) ++ ")")
    | .noTask => pure "NoRef()"
    | .destination out mapper => do
      pure ("Destination(out=" ++ Text.quoted out ++ ", map=" ++ (← h.written depth mapper) ++ ")")
    | .callable _ => pure "<callable>"
    | .group _ => pure "<group>"
    | .eventTask .. => pure "<event task>"
    | .board _ => pure "<board>"
    | .routine _ => pure "<routine>"

def writingDepth : Nat := 1000

def shown (h : Heap) : Value → Except Failure String
  | .text s => pure s
  | v => h.written writingDepth v

/-- What can be a key refers to nothing in the heap, so it is written alike whatever the heap holds. -/
theorem written_of_hashable (h other : Heap) (depth : Nat) {v : Value} (hashable : v.hashable = true) :
    h.written depth v = other.written depth v := by
  induction depth generalizing v with
  | zero => rfl
  | succ depth ih =>
    cases v with
    | tuple items =>
      have same : items.mapM (h.written depth) = items.mapM (other.written depth) := by
        have each : ∀ item ∈ items, h.written depth item = other.written depth item := fun item member =>
          ih (Value.hashable_of_mem hashable member)
        clear hashable
        induction items with
        | nil => rfl
        | cons first rest next =>
          have others : rest.mapM (h.written depth) = rest.mapM (other.written depth) :=
            next fun item member => each item (by simp [member])
          rw [List.mapM_cons, List.mapM_cons, each first (by simp), others]
      match items with
      | [item] => simp only [written, ih (Value.hashable_of_mem hashable (List.mem_singleton.mpr rfl))]
      | [] => rfl
      | first :: second :: rest => simp only [written, same]
    | named name =>
      have inner : name.hashable = true := by simpa [Value.hashable, Value.key?] using hashable
      simp only [written, ih inner]
    | direct target =>
      have inner : target.hashable = true := by simpa [Value.hashable, Value.key?] using hashable
      simp only [written, ih inner]
    | destination out mapper =>
      have inner : mapper.hashable = true := by simpa [Value.hashable, Value.key?] using hashable
      simp only [written, ih inner]
    | list cell => cases hashable
    | map cell => cases hashable
    | set cell => cases hashable
    | flag b => cases b <;> rfl
    | _ => rfl

theorem shown_of_hashable (h other : Heap) {v : Value} (hashable : v.hashable = true) :
    h.shown v = other.shown v := by
  unfold shown
  split
  · rfl
  · rw [written_of_hashable h other writingDepth hashable]

end Heap

end TaskBoard
