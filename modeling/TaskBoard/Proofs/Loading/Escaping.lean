import TaskBoard.Proofs.Document.Reading
import TaskBoard.Proofs.Loading.Checking

/-!
How reading a configuration from a text ends. A text either gives a mapping that the check accepts, or is refused as a
faulty document, or another failure escapes; and what escapes has its cause in the text: a number that reaches too far,
collections that are nested too deep, a needed node that cannot be read, or a group whose name cannot be written. Only
the faults of syntax, and those that the check tells, are reported as what they are.
-/

namespace TaskBoard.Config

open Document

/-- The failures that escape, none of which tells of a faulty document. -/
def escaping : List Failure :=
  [.badValue, .missingKey, .outOfRange, .noMember, .wrongType, .overflow, .tooDeep]

/-- Why a failure escapes: the text cannot be read, or the first group of its value that is not as it should be has a
name that cannot be written. -/
inductive Slip (h : Heap) (text : List Char) (failure : Failure) : Prop where
  | unread (unreads : Unreads text failure) : Slip h text failure
  | unnamed {v : Value} {h' : Heap} (read : read text h = .ok (v, h')) (first : FirstUnnamed h' v failure) :
    Slip h text failure

section Outcomes

variable {text : List Char} {failure : Failure}

theorem escaping_of_misread {tag : Tag} (misread : Scalar.Misread text tag failure) : failure ∈ escaping := by
  cases misread <;> simp [escaping]

theorem escaping_of_unreads (unreads : Unreads text failure) : failure ∈ escaping := by
  cases unreads with
  | overreach _ reaches => cases reaches <;> simp [escaping]
  | deep => simp [escaping]
  | node _ _ unreadable =>
    cases unreadable with
    | misread _ wrong => exact escaping_of_misread wrong
    | misplaced => simp [escaping]
    | endless => simp [escaping]
    | entangled => simp [escaping]

theorem escaping_of_unnamed {h : Heap} {v : Value} (first : FirstUnnamed h v failure) : failure ∈ escaping := by
  rcases first.textless with rfl | rfl <;> simp [escaping]

theorem FirstFault.ofDocument {h : Heap} {v : Value} {fault : ConfigFault} (first : FirstFault h v fault) :
    fault.ofDocument = true := by
  cases first with
  | root => rfl
  | paths => rfl
  | group _ _ wrong => cases wrong <;> rfl

theorem mapAt_newMap (h : Heap) (content : Mapping) : (h.newMap content).2.mapAt (h.newMap content).1 = content :=
  h.mapAt_newMap_newest content

/-- A new empty mapping is accepted. -/
theorem accept_newMap (h : Heap) : accept (h.newMap {}).2 (.map (h.newMap {}).1) = .ok (.map (h.newMap {}).1) := by
  unfold accept check
  dsimp only
  rw [mapAt_newMap]
  rfl

theorem comes_accept {h h' : Heap} {v : Value} (given : read text h = .ok (v, h')) :
    Comes (fun accepted => ∃ cell, accepted = .map cell ∧ v = .map cell ∧ accept h' (.map cell) = .ok (.map cell))
      (fun failure => (∃ fault, ConfigFault.ofDocument fault = true ∧ failure = .config fault) ∨
        failure ∈ escaping ∧ Slip h text failure) (accept h' v) := by
  refine ⟨fun accepted passed => ?_, fun failure refused => ?_⟩
  · obtain ⟨rfl, checked⟩ := accept_eq_ok_iff.mp passed
    obtain ⟨cell, rfl, -⟩ := (check_eq_ok_iff.mp checked).1
    exact ⟨cell, rfl, rfl, passed⟩
  · rcases check_eq_error_iff.mp (accept_eq_error_iff.mp refused) with ⟨fault, rfl, first⟩ | first
    · exact .inl ⟨fault, first.ofDocument, rfl⟩
    · exact .inr ⟨escaping_of_unnamed first, .unnamed given first⟩

theorem comes_ofText (h : Heap) (text : List Char) :
    Comes (fun r => ∃ cell, r.1 = .map cell ∧ accept r.2 (.map cell) = .ok (.map cell) ∧
        (Vacant text → r.2.mapAt cell = {}) ∧ Readable text)
      (fun failure => (∃ fault, ConfigFault.ofDocument fault = true ∧ failure = .config fault) ∨
        failure ∈ escaping ∧ Slip h text failure) (ofText h text) := by
  refine ((Comes.self (read text h)).mono (fun _ given => given) fun failure failed => ?_).bind fun ⟨v, h'⟩ given => ?_
  · rcases (comes_read text h).failed failure failed with rfl | unreads
    · exact .inl ⟨.invalidSyntax, rfl, rfl⟩
    · exact .inr ⟨escaping_of_unreads unreads, .unread unreads⟩
  · obtain ⟨readable, nothing⟩ := (comes_read text h).returned _ given
    dsimp only
    cases absent : v.isNothing with
    | true =>
      rw [if_pos rfl]
      dsimp only
      rw [accept_newMap]
      exact .pure ⟨_, rfl, accept_newMap h', fun _ => mapAt_newMap h' {}, readable⟩
    | false =>
      rw [if_neg Bool.false_ne_true]
      refine (comes_accept given).bind fun accepted ⟨cell, same, is, passed⟩ => .pure ⟨cell, same, passed, ?_, readable⟩
      intro vacant
      cases is.symm.trans (nothing vacant)

theorem ofText_of_blank (h : Heap) (blank : Blank text) :
    ofText h text = .ok (.map (h.newMap {}).1, (h.newMap {}).2) := by
  refine Comes.eq_ok (.ok_bind (read_of_blank blank h) ?_)
  exact .ok_bind (accept_newMap h) (.pure rfl)

end Outcomes

/-- Whether a result is a failure, and which one. -/
def failsWith {α : Type} (failure : Failure) : Except Failure α → Bool
  | .error own => own == failure
  | .ok _ => false

theorem eq_error_of_failsWith {α : Type} {failure : Failure} {result : Except Failure α}
    (fails : failsWith failure result = true) : result = .error failure := by
  cases result with
  | error own => exact congrArg _ (beq_iff_eq.mp fails)
  | ok a => cases fails

/-- A text for each of the failures that escape. -/
def slips : List (Failure × String) :=
  [(.badValue, "released: 2024-02-30\n"), (.missingKey, "!!bool x"), (.outOfRange, "!!int ''"),
    (.noMember, "!!timestamp x"), (.wrongType, "!!timestamp {=: x}"), (.overflow, "\"\\UFFFFFFFF\""),
    (.tooDeep, "&a !!str {=: *a}")]

theorem ofText_of_slips {failure : Failure} {written : String} (slip : (failure, written) ∈ slips) :
    ofText {} written.toList = .error failure := by
  have each : ∀ slip ∈ slips, failsWith slip.1 (ofText {} slip.2.toList) = true := by decide +kernel
  have fails := each (failure, written) slip
  exact eq_error_of_failsWith fails

theorem exists_escape {failure : Failure} (escapes : failure ∈ escaping) : ∃ text, ofText {} text = .error failure := by
  have each : ∀ failure ∈ escaping, ∃ written, (failure, written) ∈ slips := by simp [escaping, slips]
  obtain ⟨written, slip⟩ := each failure escapes
  exact ⟨written.toList, ofText_of_slips slip⟩

/-- A text gives a mapping that the check accepts, which is empty if there is no document or a null one, and everything
that the mapping needs can be read; or the text is refused as a faulty document; or else a failure of another kind
escapes, for a slip in the text. A blank text always gives the empty mapping. -/
theorem accepted_refused_or_slips (h : Heap) (text : List Char) :
    ((∃ cell h', ofText h text = .ok (.map cell, h') ∧ accept h' (.map cell) = .ok (.map cell) ∧
        (Vacant text → h'.mapAt cell = {}) ∧ Readable text) ∨
      (∃ fault, ConfigFault.ofDocument fault = true ∧ ofText h text = .error (.config fault)) ∨
      ∃ failure ∈ escaping, ofText h text = .error failure ∧ Slip h text failure) ∧
    (Blank text → ∃ cell h', ofText h text = .ok (.map cell, h') ∧ h'.mapAt cell = {}) := by
  refine ⟨?_, fun blank => ⟨_, _, ofText_of_blank h blank, mapAt_newMap h {}⟩⟩
  have comes := comes_ofText h text
  cases ended : ofText h text with
  | ok r =>
    obtain ⟨v, h'⟩ := r
    obtain ⟨cell, same, accepted, empty, readable⟩ := comes.returned _ ended
    exact .inl ⟨cell, h', same ▸ rfl, accepted, empty, readable⟩
  | error failure =>
    rcases comes.failed failure ended with ⟨fault, document, rfl⟩ | ⟨escapes, slip⟩
    · exact .inr (.inl ⟨fault, document, rfl⟩)
    · exact .inr (.inr ⟨failure, escapes, rfl, slip⟩)

/-- A day that the calendar does not have slips through. -/
theorem accepted_refused_or_slips_day : Slip {} "released: 2024-02-30\n".toList .badValue := by
  have listed : (Failure.badValue, "released: 2024-02-30\n") ∈ slips := List.mem_cons_self
  have escapes := ofText_of_slips listed
  have outcome := (accepted_refused_or_slips {} "released: 2024-02-30\n".toList).1
  rw [escapes] at outcome
  rcases outcome with ⟨_, _, given, -⟩ | ⟨_, -, refused⟩ | ⟨failure, -, failed, slip⟩
  · cases given
  · cases refused
  · cases failed
    exact slip

end TaskBoard.Config
