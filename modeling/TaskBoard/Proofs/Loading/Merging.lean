import Mathlib.Data.List.Induction
import TaskBoard.Proofs.Collecting.Sharing

/-!
Merging entries into a mapping. Writing the entries one by one comes to the same as gathering them in a mapping of
their own first and writing what that holds: a key that is written twice keeps its first place and its last value
either way.
-/

namespace TaskBoard.Mapping

def insertAll (m : Mapping) (entries : List (Value × Value)) : Mapping :=
  entries.foldl (fun m entry => m.insert entry.1 entry.2) m

def Distinct (entries : List (Value × Value)) : Prop :=
  entries.Pairwise fun first second => first.1.sameKey second.1 = false

variable {entries : List (Value × Value)} {key other : Value}

theorem insertAll_append (m : Mapping) (first second : List (Value × Value)) :
    m.insertAll (first ++ second) = (m.insertAll first).insertAll second := List.foldl_append

theorem sameKey_of_sameKey_left (same : key.sameKey other = true) (third : Value) :
    key.sameKey third = other.sameKey third := by
  simp only [Value.sameKey, beq_iff_eq] at same ⊢
  rw [same]

theorem sameKey_of_sameKey_right (same : key.sameKey other = true) (third : Value) :
    third.sameKey key = third.sameKey other := by
  rw [Value.sameKey_comm, sameKey_of_sameKey_left same, Value.sameKey_comm]

theorem lookup_congr (same : key.sameKey other = true) (entries : List (Value × Value)) :
    lookup key entries = lookup other entries := by
  induction entries with
  | nil => rfl
  | cons entry rest ih =>
    obtain ⟨k, v⟩ := entry
    rw [lookup, lookup, ih, sameKey_of_sameKey_right same]

theorem write_write_of_sameKey (same : key.sameKey other = true) (first second : Value)
    (entries : List (Value × Value)) : write other second (write key first entries) = write key second entries := by
  induction entries with
  | nil => simp [write, same]
  | cons entry rest ih =>
    obtain ⟨k, v⟩ := entry
    have alike := sameKey_of_sameKey_right same k
    by_cases here : k.sameKey key = true
    · simp [write, here, ← alike]
    · simp [write, here, ← alike, ih]

theorem mem_keys_write {v : Value} {entry : Value × Value} (member : entry ∈ write key v entries) :
    entry.1 = key ∨ ∃ before ∈ entries, before.1 = entry.1 := by
  induction entries with
  | nil => exact .inl (by rw [List.mem_singleton.mp member])
  | cons first rest ih =>
    obtain ⟨k, old⟩ := first
    unfold write at member
    split at member
    · rcases List.mem_cons.mp member with rfl | later
      · exact .inr ⟨(k, old), List.mem_cons_self, rfl⟩
      · exact .inr ⟨entry, List.mem_cons_of_mem _ later, rfl⟩
    · rcases List.mem_cons.mp member with rfl | later
      · exact .inr ⟨(k, old), List.mem_cons_self, rfl⟩
      · refine (ih later).imp_right ?_
        rintro ⟨before, listed, same⟩
        exact ⟨before, List.mem_cons_of_mem _ listed, same⟩

theorem mem_keys_insertAll {m : Mapping} {entry : Value × Value} (member : entry ∈ (m.insertAll entries).entries) :
    (∃ before ∈ m.entries, before.1 = entry.1) ∨ ∃ written ∈ entries, written.1 = entry.1 := by
  induction entries generalizing m with
  | nil => exact .inl ⟨entry, member, rfl⟩
  | cons first rest ih =>
    rcases ih (m := m.insert first.1 first.2) member with ⟨before, listed, same⟩ | ⟨written, listed, same⟩
    · rcases mem_keys_write listed with own | ⟨earlier, stood, alike⟩
      · exact .inr ⟨first, List.mem_cons_self, own.symm.trans same⟩
      · exact .inl ⟨earlier, stood, alike.trans same⟩
    · exact .inr ⟨written, List.mem_cons_of_mem first listed, same⟩

theorem Distinct.write {v : Value} (distinct : Distinct entries) : Distinct (write key v entries) := by
  induction entries with
  | nil => exact List.pairwise_singleton _ _
  | cons first rest ih =>
    obtain ⟨k, old⟩ := first
    obtain ⟨apart, others⟩ := List.pairwise_cons.mp distinct
    unfold Mapping.write
    split
    next => exact List.pairwise_cons.mpr ⟨apart, others⟩
    next different =>
      refine List.pairwise_cons.mpr ⟨fun entry member => ?_, ih others⟩
      rcases mem_keys_write member with own | ⟨before, listed, same⟩
      · rw [own]
        exact Bool.eq_false_iff.mpr different
      · rw [← same]
        exact apart before listed

theorem distinct_insertAll {m : Mapping} (distinct : Distinct m.entries) (entries : List (Value × Value)) :
    Distinct (m.insertAll entries).entries := by
  induction entries generalizing m with
  | nil => exact distinct
  | cons entry rest ih => exact ih (m := m.insert entry.1 entry.2) (Distinct.write distinct)

theorem insert_insertAll {m : Mapping} (v : Value) (stands : (m.get? key).isSome = true)
    (apart : ∀ entry ∈ entries, entry.1.sameKey key = false) :
    (m.insertAll entries).insert key v = (m.insert key v).insertAll entries := by
  induction entries generalizing m with
  | nil => rfl
  | cons entry rest ih =>
    have different := apart entry List.mem_cons_self
    have still : ((m.insert entry.1 entry.2).get? key).isSome = true := by
      rwa [get?_insert_other m entry.2 different]
    have commutes := insert_comm (by rw [Value.sameKey_comm, different]) v entry.2 stands
    change ((m.insert entry.1 entry.2).insertAll rest).insert key v =
      ((m.insert key v).insert entry.1 entry.2).insertAll rest
    rw [ih still fun later member => apart later (List.mem_cons_of_mem entry member), commutes]

/-- One more entry among those that are written comes to one more write. -/
theorem insertAll_write (distinct : Distinct entries) (m : Mapping) (key v : Value) :
    m.insertAll (write key v entries) = (m.insertAll entries).insert key v := by
  induction entries generalizing m with
  | nil => rfl
  | cons entry rest ih =>
    obtain ⟨k, old⟩ := entry
    obtain ⟨apart, others⟩ := List.pairwise_cons.mp distinct
    unfold write
    split
    next same =>
      have stands : ((m.insert k old).get? key).isSome = true := by
        rw [get?, ← lookup_congr same, ← get?, get?_insert_self]
        rfl
      have later : ∀ entry ∈ rest, entry.1.sameKey key = false := fun entry member => by
        rw [Value.sameKey_comm, ← sameKey_of_sameKey_left same]
        exact apart entry member
      have absorbed : (m.insert k old).insert key v = m.insert k v :=
        congrArg Mapping.mk (write_write_of_sameKey same old v m.entries)
      change (m.insert k v).insertAll rest = ((m.insert k old).insertAll rest).insert key v
      rw [insert_insertAll v stands later, absorbed]
    next => exact ih others (m.insert k old)

/-- Gathering entries in a mapping of their own first changes nothing. -/
theorem insertAll_gathered (m : Mapping) (entries : List (Value × Value)) :
    m.insertAll (insertAll {} entries).entries = m.insertAll entries := by
  induction entries using List.reverseRecOn with
  | nil => rfl
  | append_singleton entries entry ih =>
    have distinct : Distinct (insertAll {} entries).entries := distinct_insertAll List.Pairwise.nil entries
    have gathered : (insertAll {} (entries ++ [entry])).entries =
        write entry.1 entry.2 (insertAll {} entries).entries := by
      rw [insertAll_append]
      rfl
    rw [gathered, insertAll_write distinct, ih, insertAll_append]
    rfl

end TaskBoard.Mapping
