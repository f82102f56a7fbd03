import Mathlib.Data.List.Infix
import Mathlib.Data.List.TakeWhile
import TaskBoard.Proofs.Document.Outcomes

/-!
How reading the scalars of a document fails. Every fault is one of syntax, but for a number that reaches too far; of
these only the code of an escape, in its longest form, stands in a scalar.
-/

namespace TaskBoard.Document

/-- A number in the text that reaches too far. -/
inductive Overreach (text : List Char) : Failure → Prop where
  | code {digits : List Char} (written : '\\' :: 'U' :: digits <:+: text) (eight : digits.length = 8)
    (hex : ∀ d ∈ digits, (Text.hexValue? d).isSome = true) (beyond : 0x10ffff < hexNumber digits)
    (fits : hexNumber digits ≤ 0x7fffffff) : Overreach text .badValue
  | wideCode {digits : List Char} (written : '\\' :: 'U' :: digits <:+: text) (eight : digits.length = 8)
    (hex : ∀ d ∈ digits, (Text.hexValue? d).isSome = true) (beyond : 0x7fffffff < hexNumber digits) :
    Overreach text .overflow
  | version {blanks major digits : List Char} (written : "%YAML".toList ++ blanks ++ major ++ digits <:+: text)
    (blank : ∀ c ∈ blanks, c = ' ')
    (first : major = [] ∨ ∃ run, major = run ++ ['.'] ∧ ∀ d ∈ run, Text.isAsciiDigit d = true)
    (numeral : ∀ d ∈ digits, Text.isAsciiDigit d = true) (long : Number.digitLimit < digits.length) :
    Overreach text .badValue

/-- The failures of the lexer: a fault of syntax, or a number that reaches too far. -/
def Unlexed (text : List Char) (failure : Failure) : Prop := failure = malformed ∨ Overreach text failure

theorem unlexed_malformed (text : List Char) : Unlexed text malformed := .inl rfl

/-- The place is one in the text. -/
def Within (text : List Char) (c : Cursor) : Prop := c.rest <:+ text

namespace Within

variable {text : List Char} {c : Cursor}

theorem next (within : Within text c) : Within text c.next := by
  unfold Within Cursor.next at *
  split
  next empty => exact within
  next ch rest cut =>
    rw [cut] at within
    have later := (List.suffix_cons ch rest).trans within
    split
    · exact later
    · split
      · exact later
      · exact later

theorem advance (within : Within text c) (n : Nat) : Within text (c.advance n) := by
  induction n generalizing c with
  | zero => exact within
  | succ n ih => exact ih within.next

theorem takeRun (within : Within text c) (p : Char → Bool) : Within text (c.takeRun p).2 := within.advance _

theorem skipRun (within : Within text c) (p : Char → Bool) : Within text (c.skipRun p) := within.takeRun p

theorem lineBreak (within : Within text c) : Within text c.lineBreak.2 := by
  unfold Cursor.lineBreak
  split
  · exact within.advance 2
  · split
    · exact within.next
    · split
      · exact within.next
      · exact within
  · exact within

end Within

theorem rest_next (c : Cursor) : c.next.rest = c.rest.tail := by
  unfold Cursor.next
  split
  next empty => rw [empty]; rfl
  next ch rest cut =>
    rw [cut]
    split
    · rfl
    · split <;> rfl

theorem rest_advance (c : Cursor) (n : Nat) : (c.advance n).rest = c.rest.drop n := by
  induction n generalizing c with
  | zero => rfl
  | succ n ih => rw [Cursor.advance, ih, rest_next, List.drop_tail]

theorem rest_eq_cons {c : Cursor} {ch : Char} (here : c.peek = ch) (notEnd : ch ≠ '\x00') :
    c.rest = ch :: c.next.rest := by
  unfold Cursor.peek Cursor.peekAt at here
  rw [rest_next]
  cases rest : c.rest with
  | nil =>
    rw [rest] at here
    exact absurd here.symm notEnd
  | cons d others =>
    rw [rest] at here
    rw [← here]
    rfl

theorem rest_takeRun (c : Cursor) (p : Char → Bool) : c.rest = (c.takeRun p).1 ++ (c.takeRun p).2.rest := by
  have dropped : (c.takeRun p).2.rest = c.rest.drop (c.rest.takeWhile p).length := rest_advance c _
  rw [dropped]
  exact (List.prefix_iff_eq_append.mp (List.takeWhile_prefix p)).symm

theorem of_mem_takeRun {c : Cursor} {p : Char → Bool} {ch : Char} (member : ch ∈ (c.takeRun p).1) : p ch = true :=
  List.mem_takeWhile_imp member

section Escapes

theorem hexValue?_lt {d : Char} {value : Nat} (read : Text.hexValue? d = some value) : value < 16 := by
  unfold Text.hexValue? Text.isAsciiDigit at read
  simp only [Bool.and_eq_true, decide_eq_true_eq, Char.le_def, UInt32.le_iff_toNat_le] at read
  have zero : '0'.val.toNat = 48 := rfl
  have nine : '9'.val.toNat = 57 := rfl
  have a : 'a'.val.toNat = 97 := rfl
  have f : 'f'.val.toNat = 102 := rfl
  have A : 'A'.val.toNat = 65 := rfl
  have F : 'F'.val.toNat = 70 := rfl
  simp only [Char.toNat] at read
  split at read
  · have := Option.some.inj read
    omega
  · split at read
    · have := Option.some.inj read
      omega
    · split at read
      · have := Option.some.inj read
        omega
      · cases read

theorem hexNumber_lt (digits : List Char) : hexNumber digits < Nat.pow 16 digits.length := by
  have bound : ∀ start, digits.foldl (fun n d => n * 16 + (Text.hexValue? d).getD 0) start <
      (start + 1) * 16 ^ digits.length := by
    induction digits with
    | nil => intro start; simp
    | cons d digits ih =>
      intro start
      have small : (Text.hexValue? d).getD 0 < 16 := by
        cases read : Text.hexValue? d with
        | none => simp
        | some value => exact hexValue?_lt read
      have next := ih (start * 16 + (Text.hexValue? d).getD 0)
      calc (d :: digits).foldl (fun n d => n * 16 + (Text.hexValue? d).getD 0) start
          < (start * 16 + (Text.hexValue? d).getD 0 + 1) * 16 ^ digits.length := next
        _ ≤ ((start + 1) * 16) * 16 ^ digits.length := by
            apply Nat.mul_le_mul_right
            omega
        _ = (start + 1) * 16 ^ (d :: digits).length := by rw [List.length_cons, Nat.pow_succ', Nat.mul_assoc]
  have whole := bound 0
  rw [Nat.zero_add, Nat.one_mul] at whole
  exact whole

variable {text : List Char} {c : Cursor}

/-- Only the longest form of an escape has codes that no character has. -/
theorem comes_charOfCode {letter : Char} {digits : List Char} (size : codeLength? letter = some digits.length)
    (written : '\\' :: letter :: digits <:+: text) (hex : ∀ d ∈ digits, (Text.hexValue? d).isSome = true) :
    Comes (fun _ => True) (Unlexed text) (charOfCode (hexNumber digits)) := by
  have bound : hexNumber digits < 16 ^ digits.length := hexNumber_lt digits
  by_cases beyond : 0x10ffff < hexNumber digits
  · have longest : letter = 'U' ∧ digits.length = 8 := by
      unfold codeLength? at size
      split at size
      · rw [← Option.some.inj size] at bound
        omega
      · rw [← Option.some.inj size] at bound
        omega
      · exact ⟨rfl, (Option.some.inj size).symm⟩
      · cases size
    obtain ⟨rfl, eight⟩ := longest
    unfold charOfCode
    by_cases wide : 0x7fffffff < hexNumber digits
    · rw [if_pos wide]
      exact .throw (.inr (.wideCode written eight hex wide))
    · rw [if_neg wide, if_pos beyond]
      exact .throw (.inr (.code written eight hex beyond (Nat.le_of_not_lt wide)))
  · have fits : ¬0x7fffffff < hexNumber digits := by omega
    unfold charOfCode
    rw [if_neg fits, if_neg beyond]
    split <;> exact .pure trivial

end Escapes

/-- A reader goes on in the text, or fails as the lexer does. -/
def Reads {α : Type} (text : List Char) (result : Read (α × Cursor)) : Prop :=
  Comes (fun r => Within text r.2) (Unlexed text) result

section Readers

variable {text : List Char} {c : Cursor}

theorem reads_quotedBreaks (lines : Nat) (within : Within text c) : Reads text (quotedBreaks lines c) := by
  induction lines generalizing c with
  | zero => exact .throw (unlexed_malformed text)
  | succ lines ih =>
    unfold quotedBreaks
    split
    · exact .throw (unlexed_malformed text)
    · have behind := within.skipRun fun ch => ch == ' ' || ch == '\t'
      dsimp only
      split
      · exact (ih behind.lineBreak).bind fun r later => .pure later
      · exact .pure behind

theorem reads_quotedSpaces (within : Within text c) : Reads text (quotedSpaces c) := by
  have behind := within.takeRun fun ch => ch == ' ' || ch == '\t'
  unfold quotedSpaces
  dsimp only
  split
  · exact .throw (unlexed_malformed text)
  · split
    · refine (reads_quotedBreaks _ behind.lineBreak).bind fun r later => ?_
      split
      · exact .pure later
      · split <;> exact .pure later
    · exact .pure behind

theorem reads_escapeSequence (within : '\\' :: c.rest <:+ text) : Reads text (escapeSequence c) := by
  have here : Within text c := (List.suffix_cons '\\' c.rest).trans within
  unfold escapeSequence
  split
  · exact .pure here.next
  next size simple coded =>
    dsimp only
    split
    next digits =>
      have letter : c.rest = c.peek :: c.next.rest := by
        apply rest_eq_cons rfl
        intro ends
        rw [ends] at coded
        cases coded
      have written : '\\' :: c.peek :: c.next.rest.take size <:+: text := by
        rw [letter] at within
        have stands : '\\' :: c.peek :: c.next.rest.take size <+: '\\' :: c.peek :: c.next.rest :=
          (List.prefix_cons_inj _).mpr ((List.prefix_cons_inj _).mpr (List.take_prefix size c.next.rest))
        exact stands.isInfix.trans within.isInfix
      rw [← digits.1] at coded
      refine (comes_charOfCode coded written (List.all_eq_true.mp digits.2)).bind fun ch _ => ?_
      exact .pure (here.advance _)
    next => exact .throw (unlexed_malformed text)
  · split
    · exact reads_quotedBreaks _ here.lineBreak
    · exact .throw (unlexed_malformed text)

theorem reads_quotedText (double : Bool) (steps : Nat) (within : Within text c) :
    Reads text (quotedText double steps c) := by
  induction steps generalizing c with
  | zero => exact .throw (unlexed_malformed text)
  | succ steps ih =>
    have behind := within.takeRun fun ch => !(endsWord ch || ch == '\'' || ch == '"' || ch == '\\')
    unfold quotedText
    dsimp only
    split
    · exact (ih (behind.advance 2)).bind fun r later => .pure later
    · split
      · exact (ih behind.next).bind fun r later => .pure later
      · split
        next escape =>
          have backslash := (Bool.and_eq_true_iff.mp escape).2
          have stands := rest_eq_cons (beq_iff_eq.mp backslash) (by decide)
          refine (reads_escapeSequence (stands ▸ behind)).bind fun r later => ?_
          exact (ih later).bind fun r last => .pure last
        next => exact .pure behind

theorem reads_quotedRest (double : Bool) (steps : Nat) (within : Within text c) :
    Reads text (quotedRest double steps c) := by
  induction steps generalizing c with
  | zero => exact .throw (unlexed_malformed text)
  | succ steps ih =>
    unfold quotedRest
    refine (reads_quotedText double _ within).bind fun r later => ?_
    dsimp only
    by_cases closed : (r.2.peek == if double then '"' else '\'') = true
    · rw [if_pos closed]
      exact .pure later.next
    · rw [if_neg closed]
      refine (reads_quotedSpaces later).bind fun gap behind => ?_
      exact (ih behind).bind fun others last => .pure last

theorem reads_quotedScalar (double : Bool) (within : Within text c) : Reads text (quotedScalar double c) :=
  reads_quotedRest double _ within.next

theorem reads_indentDigit (within : Within text c) : Reads text (indentDigit c) := by
  unfold indentDigit
  split
  · split
    · exact .throw (unlexed_malformed text)
    · exact .pure within.next
  · exact .pure within

theorem comes_blockHeader (within : Within text c) :
    Comes (fun r => Within text r.2.2) (Unlexed text) (blockHeader c) := by
  unfold blockHeader
  refine Comes.bind (?header : Comes (fun r : Chomping × Option Nat × Cursor => Within text r.2.2) _ _)
    fun r later => ?_
  case header =>
    split
    · exact (reads_indentDigit within.next).bind fun r later => .pure later
    · refine (reads_indentDigit within).bind fun r later => ?_
      dsimp only
      split
      · exact .pure later.next
      · exact .pure later
  dsimp only
  split
  · exact .pure later
  · exact .throw (unlexed_malformed text)

theorem comes_ignoredLine (within : Within text c) : Comes (Within text) (Unlexed text) (ignoredLine c) := by
  have behind := within.skipRun (· == ' ')
  unfold ignoredLine
  dsimp only
  split
  · split
    · exact .pure (behind.skipRun _).lineBreak
    · exact .throw (unlexed_malformed text)
  · split
    · exact .pure behind.lineBreak
    · exact .throw (unlexed_malformed text)

theorem within_blockIndentation (steps : Nat) (within : Within text c) :
    Within text (blockIndentation steps c).2.2 := by
  induction steps generalizing c with
  | zero => exact within
  | succ steps ih =>
    unfold blockIndentation
    split
    · exact ih within.next
    · split
      · exact ih within.lineBreak
      · exact within

theorem within_blockBreaks (indent steps : Nat) (within : Within text c) :
    Within text (blockBreaks indent steps c).2 := by
  induction steps generalizing c with
  | zero => exact within
  | succ steps ih =>
    have behind : Within text (skipIndent indent c) := within.advance _
    unfold blockBreaks
    dsimp only
    split
    · exact ih behind.lineBreak
    · exact behind

theorem within_blockLines (folded : Bool) (indent steps : Nat) (breaks : List Char) (within : Within text c) :
    Within text (blockLines folded indent steps breaks c).2.2.2 := by
  induction steps generalizing breaks c with
  | zero => exact within
  | succ steps ih =>
    unfold blockLines
    split
    · have behind := within_blockBreaks indent ((c.takeRun (!endsLine ·)).2.lineBreak.2.rest.length + 1)
        (within.takeRun (!endsLine ·)).lineBreak
      dsimp only
      split
      · exact ih _ behind
      · exact behind
    · exact within

theorem reads_blockScalar (folded : Bool) (parent : Int) (within : Within text c) :
    Reads text (blockScalar folded parent c) := by
  unfold blockScalar
  refine (comes_blockHeader within.next).bind fun header later => ?_
  refine (comes_ignoredLine later).bind fun line behind => ?_
  obtain ⟨chomping, increment, place⟩ := header
  have lines : ∀ indent breaks start, Within text start →
      Within text (blockLines folded indent (line.rest.length + 1) breaks start).2.2.2 :=
    fun indent breaks start => within_blockLines folded indent _ breaks
  cases increment with
  | none =>
    have start := within_blockIndentation (line.rest.length + 1) behind
    cases chomping <;> exact .pure (lines _ _ _ start)
  | some increment =>
    have start := within_blockBreaks ((max (parent + 1) 1).toNat + increment - 1) (line.rest.length + 1) behind
    cases chomping <;> exact .pure (lines _ _ _ start)

theorem within_plainBreaks (steps : Nat) (within : Within text c) : Within text (plainBreaks steps c).2 := by
  induction steps generalizing c with
  | zero => exact within
  | succ steps ih =>
    unfold plainBreaks
    split
    · exact ih within.next
    · split
      · dsimp only
        split
        · exact within.lineBreak
        · exact ih within.lineBreak
      · exact within

theorem within_plainSpaces (within : Within text c) : Within text (plainSpaces c).2.2 := by
  have behind := within.takeRun (· == ' ')
  unfold plainSpaces
  dsimp only
  split
  · split
    · exact behind.lineBreak
    · have later := within_plainBreaks ((c.takeRun (· == ' ')).2.lineBreak.2.rest.length + 1) behind.lineBreak
      split
      next given =>
        rw [given] at later
        exact later
      next given =>
        rw [given] at later
        split
        · exact later
        · split <;> exact later
  · exact behind

theorem within_plainParts (inFlow : Bool) (indent : Int) (steps : Nat) (spaces : List Char) (ended : Bool)
    (within : Within text c) : Within text (plainParts inFlow indent steps spaces ended c).2.2 := by
  induction steps generalizing spaces ended c with
  | zero => exact within
  | succ steps ih =>
    unfold plainParts
    split
    · exact within
    · dsimp only
      split
      · exact within
      · have behind := within_plainSpaces (within.advance (plainRun inFlow c.rest).length)
        split
        · exact behind
        · exact ih _ _ behind

theorem within_plainScalar (inFlow : Bool) (indent : Int) (within : Within text c) :
    Within text (plainScalar inFlow indent c).2.2 := within_plainParts inFlow indent _ _ _ within

end Readers

end TaskBoard.Document
