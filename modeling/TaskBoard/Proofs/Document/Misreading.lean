import TaskBoard.Proofs.Document.Outcomes

/-!
What scalars are misread. For each tag whose written forms are limited, the texts that are none of them are told, with
the failure that each of them causes. None of these failures is that of a document with a fault of syntax.
-/

namespace TaskBoard.Document

namespace Scalar

def truthWords : List String := ["yes", "true", "on", "no", "false", "off"]

/-- The numerals of an integer without its sign, each with its base. -/
def wholeParts (body : List Char) : List (Nat × List Char) :=
  if body = ['0'] then []
  else if startsWith "0b" body then [(2, body.drop 2)]
  else if startsWith "0x" body then [(16, body.drop 2)]
  else if body.head? = some '0' then [(8, body)]
  else if body.contains ':' then (Text.pieces ':' body).map (10, ·)
  else [(10, body)]

/-- The numerals of a floating-point number without its sign. -/
def realParts (body : List Char) : List (List Char) :=
  if body = ".inf".toList ∨ body = ".nan".toList then []
  else if body.contains ':' then Text.pieces ':' body
  else [body]

def dayOf (m : WrittenMoment) : Date := ⟨natural m.year, natural m.month, natural m.day⟩

/-- A day or a moment of the calendar. -/
def Occurs (m : WrittenMoment) : Prop :=
  match m.time with
  | none => (dayOf m).valid = true
  | some (hour, minute, second) =>
    (Moment.mk (dayOf m) (natural hour) (natural minute) (natural second) (millionths m.fraction)
      (offsetMinutes m)).valid = true

def IsWhole (part : Nat × List Char) : Prop := ∃ i, Number.readWhole part.1 part.2 = .ok i

def IsReal (part : List Char) : Prop := ∃ x, Number.readReal part = .ok x

/-- A text that is none of the written forms of a tag, and the failure that it causes. -/
inductive Misread (text : List Char) : Tag → Failure → Prop where
  | bool (other : String.ofList (Number.toLower text) ∉ truthWords) : Misread text .bool .missingKey
  /-- Nothing, or nothing but a sign. -/
  | noInt (bare : unsigned (withoutBars text) = []) : Misread text .int .outOfRange
  | int {part : Nat × List Char} (written : unsigned (withoutBars text) ≠ [])
    (stands : part ∈ wholeParts (unsigned (withoutBars text))) (other : ¬IsWhole part) : Misread text .int .badValue
  | noFloat (bare : withoutBars text = []) : Misread text .float .outOfRange
  | float {part : List Char} (written : withoutBars text ≠ [])
    (stands : part ∈ realParts (unsigned (Number.toLower (withoutBars text)))) (other : ¬IsReal part) :
    Misread text .float .badValue
  /-- A part of a number in base sixty whose weight is beyond the floating-point numbers. -/
  | heavy {place : Nat}
    (numerals : ∀ part ∈ realParts (unsigned (Number.toLower (withoutBars text))), IsReal part)
    (stands : place < (realParts (unsigned (Number.toLower (withoutBars text)))).length)
    (beyond : (Double.ofInt (Int.pow 60 place)).isInfinite = true) : Misread text .float .overflow
  | shapeless (other : moment? (withoutFinalBreak text) = none) : Misread text .timestamp .noMember
  | noDay {m : WrittenMoment} (shape : moment? (withoutFinalBreak text) = some m) (never : ¬Occurs m) :
    Misread text .timestamp .badValue

/-- A reader of scalars fails just on what is misread under a tag. -/
def Judges {α : Type} (tag : Tag) (text : List Char) (result : Except Failure α) : Prop :=
  Comes (fun _ => ∀ failure, ¬Misread text tag failure) (Misread text tag) result

theorem judges_toBool (text : List Char) : Judges .bool text (toBool text) := by
  have known : ∀ word ∈ truthWords, String.ofList (Number.toLower text) = word →
      ∀ failure, ¬Misread text .bool failure := by
    rintro word member rfl failure ⟨other⟩
    exact other member
  unfold toBool
  dsimp only
  split
  next yes =>
    have word := List.contains_iff_mem.mp yes
    exact .pure (known _ (List.mem_append_left _ word) rfl)
  next notYes =>
    split
    next no =>
      have word := List.contains_iff_mem.mp no
      exact .pure (known _ (List.mem_append_right ["yes", "true", "on"] word) rfl)
    next notNo =>
      refine .throw (.bool fun member => ?_)
      rcases List.mem_append (s := ["yes", "true", "on"]).mp member with yes | no
      · exact notYes (List.contains_iff_mem.mpr yes)
      · exact notNo (List.contains_iff_mem.mpr no)

section Numerals

theorem comes_readWhole (base : Nat) (text : List Char) :
    Comes (fun _ => True) (· = .badValue) (Number.readWhole base text) := by
  unfold Number.readWhole
  dsimp only
  split
  · exact .throw_bind rfl
  · refine Comes.bind (?_ : Comes (fun _ => True) _ _) fun _ _ => .pure trivial
    refine Comes.foldlM (fun n c _ => ?_) _ trivial
    split
    · exact .pure trivial
    · exact .throw rfl

theorem comes_exponent (text : List Char) : Comes (fun _ => True) (· = .badValue) (Number.exponent text) := by
  unfold Number.exponent
  split
  · exact .pure trivial
  · dsimp only
    split
    · exact .throw_bind rfl
    · split
      · exact .throw_bind rfl
      · exact .pure trivial

theorem comes_readReal (text : List Char) : Comes (fun _ => True) (· = .badValue) (Number.readReal text) := by
  unfold Number.readReal
  dsimp only
  split
  · exact .pure trivial
  · split
    · exact .pure trivial
    · split
      all_goals
        split
        · exact .throw_bind rfl
        · exact (comes_exponent _).bind fun _ _ => .pure trivial

theorem comes_first (text : List Char) :
    Comes (fun c => text.head? = some c) (fun failure => failure = .outOfRange ∧ text = []) (first text) := by
  cases text with
  | nil => exact .throw ⟨rfl, rfl⟩
  | cons c rest => exact .pure rfl

theorem comes_signedBody (text : List Char) :
    Comes (fun r => text ≠ [] ∧ r.2 = unsigned text) (fun failure => failure = .outOfRange ∧ text = [])
      (signedBody text) :=
  (comes_first text).bind fun c head => .pure ⟨(by rintro rfl; cases head), rfl⟩

theorem comes_isWhole (part : Nat × List Char) :
    Comes (fun _ => IsWhole part) (fun failure => failure = .badValue ∧ ¬IsWhole part)
      (Number.readWhole part.1 part.2) := by
  refine ⟨fun i given => ⟨i, given⟩, fun failure given => ⟨(comes_readWhole _ _).failed failure given, ?_⟩⟩
  rintro ⟨i, whole⟩
  exact absurd (given.symm.trans whole) nofun

theorem comes_isReal (part : List Char) :
    Comes (fun _ => IsReal part) (fun failure => failure = .badValue ∧ ¬IsReal part) (Number.readReal part) := by
  refine ⟨fun x given => ⟨x, given⟩, fun failure given => ⟨(comes_readReal part).failed failure given, ?_⟩⟩
  rintro ⟨x, real⟩
  exact absurd (given.symm.trans real) nofun

/-- The magnitude of an integer is read just if all of its numerals are. -/
def Counts {α : Type} (body : List Char) (magnitude : Except Failure α) : Prop :=
  Comes (fun _ => ∀ part ∈ wholeParts body, IsWhole part)
    (fun failure => failure = .badValue ∧ ∃ part ∈ wholeParts body, ¬IsWhole part) magnitude

theorem counts_single {body part : List Char} {base : Nat} (alone : wholeParts body = [(base, part)]) :
    Counts body (Number.readWhole base part) := by
  rw [Counts, alone]
  exact (comes_isWhole (base, part)).mono (fun _ whole => List.forall_mem_singleton.mpr whole)
    fun _ ⟨bad, other⟩ => ⟨bad, (base, part), List.mem_singleton_self _, other⟩

theorem counts_sixtieths {body : List Char} (pieces : wholeParts body = (Text.pieces ':' body).map (10, ·)) :
    Counts body ((Text.pieces ':' body).mapM (Number.readWhole 10)) := by
  rw [Counts, pieces]
  refine (Comes.mapM _ _).mono ?_ ?_
  · rintro _ ⟨_, made⟩ part member
    obtain ⟨piece, stands, rfl⟩ := List.mem_map.mp member
    exact made piece stands
  · rintro failure ⟨piece, stands, failed⟩
    obtain ⟨bad, other⟩ := (comes_isWhole (10, piece)).failed failure failed
    exact ⟨bad, (10, piece), List.mem_map_of_mem stands, other⟩

theorem judges_signed {text : List Char} (written : unsigned (withoutBars text) ≠ []) (minus : Bool)
    {magnitude : Except Failure Int} (counts : Counts (unsigned (withoutBars text)) magnitude) :
    Judges .int text (do
      let magnitude ← magnitude
      pure (Value.whole (if minus = true then -magnitude else magnitude))) := by
  refine (Comes.mono counts (fun _ => id) ?_).bind fun _ numerals => .pure ?_
  · rintro failure ⟨rfl, part, stands, other⟩
    exact .int written stands other
  · rintro failure (_ | bare | ⟨_, stands, other⟩)
    · exact written bare
    · exact other (numerals _ stands)

theorem judges_toInt (text : List Char) : Judges .int text (toInt text) := by
  unfold toInt
  refine ((comes_signedBody _).mono (fun _ => id) ?_).bind fun r ⟨_, same⟩ => ?_
  · rintro failure ⟨rfl, empty⟩
    exact .noInt (by rw [empty]; rfl)
  obtain ⟨minus, body⟩ := r
  obtain rfl := same
  dsimp only
  refine ((comes_first _).mono (fun _ => id) ?_).bind fun c head => ?_
  · rintro failure ⟨rfl, bare⟩
    exact .noInt bare
  have written : unsigned (withoutBars text) ≠ [] := by
    intro bare
    rw [bare] at head
    cases head
  have settled := @judges_signed text written minus
  generalize unsigned (withoutBars text) = body at head settled ⊢
  -- each notation has its own numerals
  split
  next zero =>
    refine settled (.pure ?_)
    rw [wholeParts, if_pos zero]
    exact List.forall_mem_nil _
  next notZero =>
    split
    next binary => exact settled (counts_single (by rw [wholeParts, if_neg notZero, if_pos binary]))
    next notBinary =>
      split
      next hex => exact settled (counts_single (by rw [wholeParts, if_neg notZero, if_neg notBinary, if_pos hex]))
      next notHex =>
        split
        next octal =>
          refine settled (counts_single ?_)
          rw [wholeParts, if_neg notZero, if_neg notBinary, if_neg notHex, if_pos (octal ▸ head)]
        next notOctal =>
          have decimal : body.head? ≠ some '0' := fun zero => notOctal (Option.some.inj (head.symm.trans zero))
          have parts : wholeParts body =
              if body.contains ':' then (Text.pieces ':' body).map (10, ·) else [(10, body)] := by
            rw [wholeParts, if_neg notZero, if_neg notBinary, if_neg notHex, if_neg decimal]
          split
          next sixtieths =>
            have counts := counts_sixtieths (parts.trans (if_pos sixtieths))
            exact settled (Comes.map counts fun _ numerals => numerals)
          next single => exact settled (counts_single (parts.trans (if_neg single)))

theorem comes_weights (items : List Double) (start : Double × Int) :
    Comes (fun _ => ∀ place < items.length, (Double.ofInt (start.2 * Int.pow 60 place)).isInfinite = false)
      (fun failure => failure = .overflow ∧
        ∃ place < items.length, (Double.ofInt (start.2 * Int.pow 60 place)).isInfinite = true)
      (items.foldlM (fun sum part => do
        if (Double.ofInt sum.2).isInfinite then throw Failure.overflow
        pure (sum.1.add (part.mul (Double.ofInt sum.2)), sum.2 * 60)) start) := by
  induction items generalizing start with
  | nil => exact .pure (fun place before => absurd before (Nat.not_lt_zero place))
  | cons part rest ih =>
    obtain ⟨total, weight⟩ := start
    rw [List.foldlM_cons]
    have next : ∀ place, weight * 60 * Int.pow 60 place = weight * Int.pow 60 (place + 1) := fun place => by
      change _ = weight * (Int.pow 60 place * 60)
      rw [Int.mul_assoc, Int.mul_comm 60]
    have first : weight * Int.pow 60 0 = weight := Int.mul_one weight
    by_cases infinite : (Double.ofInt weight).isInfinite = true
    · simp only [if_pos infinite]
      have reaches := (congrArg (fun n => (Double.ofInt n).isInfinite) first).trans infinite
      exact .throw_bind ⟨rfl, 0, Nat.zero_lt_succ _, reaches⟩
    · simp only [if_neg infinite]
      refine (ih _).mono (fun _ light place before => ?_) fun failure ⟨same, place, before, heavy⟩ => ?_
      · cases place with
        | zero =>
          rw [first]
          exact Bool.not_eq_true _ ▸ infinite
        | succ place => exact next place ▸ light place (Nat.lt_of_succ_lt_succ before)
      · exact ⟨same, place + 1, Nat.succ_lt_succ before, next place ▸ heavy⟩

theorem comes_weighSixtieths (parts : List Double) :
    Comes (fun _ => ∀ place < parts.length, (Double.ofInt (Int.pow 60 place)).isInfinite = false)
      (fun failure => failure = .overflow ∧ ∃ place < parts.length, (Double.ofInt (Int.pow 60 place)).isInfinite = true)
      (weighSixtieths parts) := by
  have weights := comes_weights parts.reverse (Double.withSign false 0, 1)
  simp only [List.length_reverse, Int.one_mul] at weights
  exact weights.bind fun _ light => .pure light

theorem not_misread_float {text : List Char} (written : withoutBars text ≠ []) {parts : List (List Char)}
    (are : realParts (unsigned (Number.toLower (withoutBars text))) = parts) (numerals : ∀ part ∈ parts, IsReal part)
    (light : ∀ place < parts.length, (Double.ofInt (Int.pow 60 place)).isInfinite = false) (failure : Failure) :
    ¬Misread text .float failure := by
  subst are
  intro misread
  cases misread with
  | noFloat bare => exact written bare
  | float _ stands other => exact other (numerals _ stands)
  | heavy _ stands beyond => exact Bool.false_ne_true ((light _ stands).symm.trans beyond)

theorem judges_toFloat (text : List Char) : Judges .float text (toFloat text) := by
  unfold toFloat
  refine ((comes_signedBody _).mono (fun _ => id) ?_).bind fun r ⟨there, same⟩ => ?_
  · rintro failure ⟨rfl, empty⟩
    exact .noFloat (List.map_eq_nil_iff.mp empty)
  obtain ⟨minus, body⟩ := r
  change body = _ at same
  have written : withoutBars text ≠ [] := fun bare => there (by rw [bare]; rfl)
  have apart := fun parts => same ▸ @not_misread_float text written parts
  have word : ∀ x : Double, body = ".inf".toList ∨ body = ".nan".toList →
      Judges .float text (Except.ok x : Except Failure Double) := fun x word =>
    .pure (apart [] (if_pos word) (List.forall_mem_nil _) fun place before => absurd before (Nat.not_lt_zero place))
  dsimp only
  split
  next infinite => exact word _ (.inl infinite)
  next finite =>
    split
    next none => exact word _ (.inr none)
    next number =>
      have plain : ¬(body = ".inf".toList ∨ body = ".nan".toList) := fun word => word.elim finite number
      split
      next sixtieths =>
        have parts : realParts body = Text.pieces ':' body := by rw [realParts, if_neg plain, if_pos sixtieths]
        refine ((Comes.mapM _ _).mono (fun _ => id) ?_).bind fun made ⟨size, numerals⟩ => ?_
        · rintro failure ⟨part, stands, failed⟩
          obtain ⟨rfl, other⟩ := (comes_isReal part).failed failure failed
          exact .float written (same ▸ parts ▸ stands) other
        · rw [← parts] at size numerals
          refine .map ((comes_weighSixtieths made).mono (fun _ => id) ?_) fun _ light => ?_
          · rintro failure ⟨rfl, place, stands, heavy⟩
            exact .heavy (same ▸ numerals) (same ▸ size ▸ stands) heavy
          · exact apart _ rfl numerals (size ▸ light)
      next single =>
        have parts : realParts body = [body] := by rw [realParts, if_neg plain, if_neg single]
        have alone : body ∈ realParts (unsigned (Number.toLower (withoutBars text))) :=
          same ▸ parts ▸ List.mem_singleton_self body
        refine ((comes_isReal body).mono (fun _ => id) ?_).map fun _ real =>
          apart _ parts (List.forall_mem_singleton.mpr real) fun place before => ?_
        · rintro failure ⟨rfl, other⟩
          exact .float written alone other
        · obtain rfl := Nat.lt_one_iff.mp before
          decide

theorem judges_toTimestamp (text : List Char) : Judges .timestamp text (toTimestamp text) := by
  unfold toTimestamp
  split
  next none =>
    exact .throw (.shapeless none)
  next m shape =>
    have occurs : Occurs m → ∀ failure, ¬Misread text .timestamp failure := by
      rintro holds failure (_ | _ | _ | _ | _ | _ | other | ⟨again, never⟩)
      · rw [shape] at other
        cases other
      · obtain rfl := Option.some.inj (shape.symm.trans again)
        exact never holds
    dsimp only
    split
    next allDay =>
      have only : Occurs m ↔ (dayOf m).valid = true := by rw [Occurs, allDay]
      split
      next valid => exact .pure (occurs (only.mpr valid))
      next never => exact .throw (.noDay shape fun holds => never (only.mp holds))
    next hour minute second timed =>
      have only : Occurs m ↔ (Moment.mk (dayOf m) (natural hour) (natural minute) (natural second)
          (millionths m.fraction) (offsetMinutes m)).valid = true := by rw [Occurs, timed]
      split
      next valid => exact .pure (occurs (only.mpr valid))
      next never => exact .throw (.noDay shape fun holds => never (only.mp holds))

theorem comes_toBinary (text : List Char) : Comes (fun _ => True) (· = malformed) (toBinary text) := by
  unfold toBinary
  split
  · split
    · exact .pure trivial
    · exact .throw rfl
  · exact .throw rfl

end Numerals

end Scalar

end TaskBoard.Document
