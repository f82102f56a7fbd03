import TaskBoard.Proofs.Document.Spelling

/-!
How cutting a document into tokens fails: with a fault of syntax, or as a number in the text reaches too far, which is
the code of an escape or a part of a version with more digits than a number may have.
-/

namespace TaskBoard.Document

namespace Lexer

section Readers

variable {text : List Char} {c : Cursor}

theorem comes_name (text : List Char) (c : Cursor) :
    Comes (fun r => c.rest = r.1 ++ r.2.rest) (Unlexed text) (name c) := by
  unfold name
  dsimp only
  split
  · exact .throw (unlexed_malformed text)
  · exact .pure (rest_takeRun c isNameChar)

theorem reads_name (within : Within text c) : Reads text (name c) := by
  refine (comes_name text c).mono (fun r cut => ?_) fun _ => id
  rw [Within, cut] at within
  exact (List.suffix_append _ _).trans within

theorem comes_expect (accepted : Char → Bool) (c : Cursor) :
    Comes (fun r => r = c ∧ accepted c.peek = true) (Unlexed text) (expect accepted c) := by
  unfold expect
  split
  next stands => exact .pure ⟨rfl, stands⟩
  next => exact .throw (unlexed_malformed text)

theorem comes_number
    (long : ∀ run, (∀ d ∈ run, Text.isAsciiDigit d = true) → run <+: c.rest → Number.digitLimit < run.length →
      Overreach text .badValue) :
    Comes (fun r => ∃ run, c.rest = run ++ r.2.rest ∧ ∀ d ∈ run, Text.isAsciiDigit d = true) (Unlexed text)
      (number c) := by
  have cut := rest_takeRun c Text.isAsciiDigit
  have numeral : ∀ d ∈ (c.takeRun Text.isAsciiDigit).1, Text.isAsciiDigit d = true :=
    fun d member => of_mem_takeRun member
  unfold number
  dsimp only
  split
  · exact .throw (unlexed_malformed text)
  · split
    next many => exact .throw (.inr (long _ numeral (cut ▸ List.prefix_append _ _) many))
    next => exact .pure ⟨_, cut, numeral⟩

theorem comes_decodeBytes (bytes : List Nat) : Comes (fun _ => True) (Unlexed text) (decodeBytes bytes) := by
  unfold decodeBytes
  split
  · exact .pure trivial
  · exact .throw (unlexed_malformed text)

theorem reads_escapedBytes (steps : Nat) (within : Within text c) : Reads text (escapedBytes steps c) := by
  induction steps generalizing c with
  | zero => exact .pure within
  | succ steps ih =>
    unfold escapedBytes
    split
    · split
      · exact (ih (within.advance 3)).bind fun r later => .pure later
      · exact .throw (unlexed_malformed text)
    · exact .throw (unlexed_malformed text)
    · exact .pure within

theorem reads_addressParts (steps : Nat) (within : Within text c) : Reads text (addressParts steps c) := by
  induction steps generalizing c with
  | zero => exact .pure within
  | succ steps ih =>
    have behind := within.takeRun fun ch => isAddressChar ch && ch != '%'
    unfold addressParts
    dsimp only
    split
    · refine (reads_escapedBytes _ behind).bind fun r later => ?_
      refine (comes_decodeBytes r.1).bind fun decoded _ => ?_
      exact (ih later).bind fun others last => .pure last
    · exact .pure behind

theorem reads_address (within : Within text c) : Reads text (address c) := by
  unfold address
  split
  · exact reads_addressParts _ within
  · exact .throw (unlexed_malformed text)

theorem reads_tagHandle (within : Within text c) : Reads text (tagHandle c) := by
  unfold tagHandle
  split
  · exact .throw (unlexed_malformed text)
  · split
    · exact .pure within.next
    · dsimp only
      split
      · exact .pure (within.next.takeRun _).next
      · exact .throw (unlexed_malformed text)

theorem reads_referenceName (within : Within text c) : Reads text (referenceName c) := by
  unfold referenceName
  refine (reads_name within.next).bind fun r later => ?_
  refine (comes_expect _ r.2).bind fun place same => ?_
  exact .pure (same.1 ▸ later)

theorem reads_tag (within : Within text c) : Reads text (tag c) := by
  have expected : ∀ (accepted : Char → Bool) (place : Cursor), Within text place →
      Comes (Within text) (Unlexed text) (expect accepted place) := fun accepted place behind =>
    (comes_expect accepted place).mono (fun r same => same.1 ▸ behind) fun _ => id
  unfold tag
  refine Comes.bind (?written : Reads text _) fun r later => ?_
  case written =>
    split
    · refine (reads_address (within.advance 2)).bind fun r later => ?_
      exact (expected _ r.2 later).bind fun place behind => .pure behind.next
    · split
      · exact .pure within.next
      · split
        · refine (reads_tagHandle within).bind fun r later => ?_
          exact (reads_address later).bind fun rest behind => .pure behind
        · exact (reads_address within.next).bind fun r later => .pure later
  exact (expected _ r.2 later).bind fun place behind => .pure behind

theorem reads_version {blanks : List Char} (within : "%YAML".toList ++ blanks ++ c.rest <:+ text)
    (blank : ∀ ch ∈ blanks, ch = ' ') :
    Reads text (do
      let (major, c) ← number c
      let c ← expect (· == '.') c
      let (minor, c) ← number c.next
      let c ← expect endsPart c
      pure (Directive.version major minor, c)) := by
  have first : ∀ run, (∀ d ∈ run, Text.isAsciiDigit d = true) → run <+: c.rest → Number.digitLimit < run.length →
      Overreach text .badValue := by
    rintro run numeral ⟨after, cut⟩ long
    have stands : "%YAML".toList ++ blanks ++ [] ++ run <:+: text := by
      rw [← cut, ← List.append_assoc] at within
      rw [List.append_nil]
      exact (List.prefix_append _ after).isInfix.trans within.isInfix
    exact .version stands blank (.inl rfl) numeral long
  refine (comes_number first).bind fun major ⟨run, cut, numeral⟩ => ?_
  refine (comes_expect _ major.2).bind fun dot ⟨same, point⟩ => ?_
  have behind : "%YAML".toList ++ blanks ++ (run ++ ['.']) ++ dot.next.rest <:+ text := by
    rw [cut, rest_eq_cons (beq_iff_eq.mp point) (by decide), ← same] at within
    simpa using within
  have second : ∀ digits, (∀ d ∈ digits, Text.isAsciiDigit d = true) → digits <+: dot.next.rest →
      Number.digitLimit < digits.length → Overreach text .badValue := by
    rintro digits more ⟨after, rest⟩ long
    have stands : "%YAML".toList ++ blanks ++ (run ++ ['.']) ++ digits <:+: text := by
      rw [← rest, ← List.append_assoc] at behind
      exact (List.prefix_append _ after).isInfix.trans behind.isInfix
    exact .version stands blank (.inr ⟨run, rfl, numeral⟩) more long
  refine (comes_number second).bind fun minor ⟨digits, rest, _⟩ => ?_
  refine (comes_expect _ minor.2).bind fun place ⟨last, _⟩ => .pure ?_
  have later : Within text minor.2 := by
    rw [rest, ← List.append_assoc] at behind
    exact (List.suffix_append _ _).trans behind
  exact last ▸ later

theorem reads_directive (within : Within text c) (mark : c.peek = '%') : Reads text (directive c) := by
  have opens := rest_eq_cons mark (by decide)
  unfold directive
  refine (comes_name text c.next).bind fun r word => ?_
  refine (comes_expect _ r.2).bind fun place ⟨same, _⟩ => ?_
  subst same
  have written : '%' :: r.1 ++ r.2.rest <:+ text := by
    rw [Within, opens, word] at within
    exact within
  have later : Within text r.2 := (List.suffix_append _ r.2.rest).trans written
  have behind := later.skipRun (· == ' ')
  refine Comes.bind (?content : Reads text _) fun d last => ?_
  case content =>
    split
    next version =>
      have blanks := rest_takeRun r.2 (· == ' ')
      rw [version, blanks, ← List.append_assoc] at written
      refine reads_version written fun ch member => ?_
      have blank := of_mem_takeRun member
      exact beq_iff_eq.mp blank
    next =>
      split
      · refine (reads_tagHandle behind).bind fun handle later => ?_
        refine (comes_expect _ handle.2).bind fun blank ⟨stays, _⟩ => ?_
        subst stays
        refine (reads_address (later.skipRun _)).bind fun replacement last => ?_
        refine (comes_expect _ replacement.2).bind fun ends ⟨stays, _⟩ => .pure ?_
        exact stays ▸ last
      · exact .pure (later.skipRun _)
  exact (comes_ignoredLine last).bind fun line last => .pure last

theorem reads_map1 {α β : Type} {read : Cursor → Read (α × Cursor)} (f : α → β) (reads : Reads text (read c)) :
    Reads text (map1 f read c) := reads.bind fun _ later => .pure later

end Readers

section Actions

variable {text : List Char} {l : Lexer}

/-- An action that leaves the place as it is. -/
def Stays {α : Type} (text : List Char) (act : Lex α) (l : Lexer) : Prop :=
  Goes act l (fun _ after => after.cursor = l.cursor) (Unlexed text)

/-- An action that goes on in the text. -/
def Proceeds {α : Type} (text : List Char) (act : Lex α) (l : Lexer) : Prop :=
  Within text l.cursor → Goes act l (fun _ after => Within text after.cursor) (Unlexed text)

theorem Stays.bind {α β : Type} {act : Lex α} {next : α → Lex β} (first : Stays text act l)
    (rest : ∀ a after, after.cursor = l.cursor → Stays text (next a) after) : Stays text (act >>= next) l :=
  Goes.bind first fun a after same => (rest a after same).mono fun _ _ again => again.trans same

theorem Stays.proceeds {α : Type} {act : Lex α} (stays : Stays text act l) : Proceeds text act l :=
  fun within => stays.mono fun _ _ same => same ▸ within

theorem Proceeds.bind {α β : Type} {act : Lex α} {next : α → Lex β} (first : Proceeds text act l)
    (rest : ∀ a after, Proceeds text (next a) after) : Proceeds text (act >>= next) l :=
  fun within => Goes.bind (first within) fun a after later => rest a after later

theorem stays_emit (t : Token) (l : Lexer) : Stays text (emit t) l := Goes.modify rfl

theorem stays_insertToken (place : Nat) (t : Token) (l : Lexer) : Stays text (insertToken place t) l := Goes.modify rfl

theorem stays_allowKey (allowed : Bool) (l : Lexer) : Stays text (allowKey allowed) l := Goes.modify rfl

theorem goes_cursor'_bind {α : Type} {next : Cursor → Lex α} {fit : α → Lexer → Prop} {fails : Failure → Prop}
    (rest : Goes (next l.cursor) l fit fails) : Goes (cursor' >>= next) l fit fails := rest

theorem goes_moveTo {c : Cursor} (within : Within text c) (l : Lexer) :
    Goes (moveTo c) l (fun _ after => Within text after.cursor) (Unlexed text) := Goes.modify within

theorem stays_set {after : Lexer} (same : after.cursor = l.cursor) : Stays text (set after) l := Goes.set same

theorem stays_modify {change : Lexer → Lexer} (same : (change l).cursor = l.cursor) : Stays text (modify change) l :=
  Goes.modify same

theorem stays_dropStaleKeys (l : Lexer) : Stays text dropStaleKeys l := by
  unfold dropStaleKeys
  apply Goes.get_bind
  dsimp only
  split
  · exact .throw_bind (unlexed_malformed text)
  · exact .set rfl

theorem stays_dropKey (l : Lexer) : Stays text dropKey l := by
  unfold dropKey
  apply Goes.get_bind
  dsimp only
  split
  · exact .throw_bind (unlexed_malformed text)
  · exact .set rfl

theorem stays_saveKey (l : Lexer) : Stays text saveKey l := by
  unfold saveKey
  apply Goes.get_bind
  split
  · exact (stays_dropKey l).bind fun _ _ _ => .modify rfl
  · exact .pure rfl

theorem stays_closeBlocks (column : Int) (steps : Nat) (l : Lexer) : Stays text (closeBlocks column steps) l := by
  induction steps generalizing l with
  | zero => exact .pure rfl
  | succ steps ih =>
    unfold closeBlocks
    apply Goes.get_bind
    split
    · split
      · exact .pure rfl
      · exact Stays.bind (.set rfl) fun _ after _ => ih after
    · exact .pure rfl

theorem stays_unwind (column : Int) (l : Lexer) : Stays text (unwind column) l := by
  unfold unwind
  apply Goes.get_bind
  exact stays_closeBlocks column _ l

theorem stays_openBlock (column : Nat) (l : Lexer) : Stays text (openBlock column) l := by
  unfold openBlock
  apply Goes.get_bind
  split
  · exact Stays.bind (.set rfl) fun _ _ _ => .pure rfl
  · exact .pure rfl

theorem stays_blockIndicator (l : Lexer) : Stays text blockIndicator l :=
  (stays_unwind (-1) l).bind fun _ after _ => (stays_dropKey after).bind fun _ after _ => stays_allowKey false after

theorem stays_indicateBlock (t : Token) (l : Lexer) : Stays text (indicateBlock t) l := by
  unfold indicateBlock
  apply Goes.get_bind
  dsimp only
  split
  · split
    · exact .throw_bind (unlexed_malformed text)
    · refine (stays_openBlock _ l).bind fun opened after _ => ?_
      split
      · exact stays_emit t after
      · exact .pure rfl
  · exact .pure rfl

theorem proceeds_reading {α : Type} {read : Cursor → Read (α × Cursor)}
    (reads : Within text l.cursor → Reads text (read l.cursor)) : Proceeds text (reading read) l := by
  intro within
  unfold reading
  apply goes_cursor'_bind
  have given := reads within
  split
  next a c read => exact Goes.bind (goes_moveTo (given.returned _ read) l) fun _ _ later => .pure later
  next failure read => exact .throw (given.failed _ read)

theorem proceeds_skipToToken (steps : Nat) (l : Lexer) : Proceeds text (skipToToken steps) l := by
  induction steps generalizing l with
  | zero => exact fun within => .pure within
  | succ steps ih =>
    intro within
    unfold skipToToken
    apply goes_cursor'_bind
    have behind : ∀ c, Within text c → Within text (if c.peek == '#' then c.skipRun (!endsLine ·) else c) := by
      intro c here
      split
      · exact here.skipRun _
      · exact here
    have later := behind _ (within.skipRun (· == ' '))
    dsimp only
    generalize (if (l.cursor.skipRun (· == ' ')).peek == '#' then (l.cursor.skipRun (· == ' ')).skipRun (!endsLine ·)
      else l.cursor.skipRun (· == ' ')) = c at later ⊢
    split
    · refine Goes.bind (goes_moveTo later.lineBreak l) fun _ moved last => ?_
      refine Goes.bind ((stays_modify ?_).proceeds last) fun _ allowed again => ih allowed again
      split <;> rfl
    · exact goes_moveTo later l

theorem proceeds_punctuation (t : Token) (length : Nat) (l : Lexer) : Proceeds text (punctuation t length) l := by
  intro within
  unfold punctuation
  apply goes_cursor'_bind
  exact Goes.bind (goes_moveTo (within.advance length) l) fun _ moved later => (stays_emit t moved).proceeds later

theorem proceeds_openFlow (t : Token) (l : Lexer) : Proceeds text (openFlow t) l :=
  (stays_saveKey l).proceeds.bind fun _ _ => (stays_modify rfl).proceeds.bind fun _ after =>
    proceeds_punctuation t 1 after

theorem proceeds_closeFlow (t : Token) (l : Lexer) : Proceeds text (closeFlow t) l :=
  (stays_dropKey l).proceeds.bind fun _ _ => (stays_modify rfl).proceeds.bind fun _ after =>
    proceeds_punctuation t 1 after

theorem proceeds_entry (l : Lexer) : Proceeds text entry l :=
  (stays_indicateBlock _ l).proceeds.bind fun _ after => (stays_allowKey true after).proceeds.bind fun _ after =>
    (stays_dropKey after).proceeds.bind fun _ after => proceeds_punctuation _ 1 after

theorem proceeds_key (l : Lexer) : Proceeds text key l := by
  refine (stays_indicateBlock _ l).proceeds.bind fun _ after => ?_
  exact fun within => Goes.get_bind ((((stays_allowKey _ after).proceeds.bind fun _ after =>
    (stays_dropKey after).proceeds.bind fun _ after => proceeds_punctuation _ 1 after)) within)

theorem proceeds_value (l : Lexer) : Proceeds text value l := by
  have last : ∀ after : Lexer, Proceeds text (allowKey false >>= fun _ => punctuation .value 1) after := fun after =>
    (stays_allowKey false after).proceeds.bind fun _ after => proceeds_punctuation _ 1 after
  intro within
  unfold value
  apply Goes.get_bind
  dsimp only
  split
  next start _ =>
    have kept : ∀ starts, Stays text (set { l with keyStarts := starts }) l := fun _ => stays_set rfl
    refine Goes.bind ((kept _).proceeds within) fun _ after later => ?_
    refine Goes.bind ((stays_insertToken start.token .key after).proceeds later) fun _ after later => ?_
    split
    · refine Goes.bind ((stays_openBlock start.column after).proceeds later) fun opened after later => ?_
      split
      · exact Goes.bind ((stays_insertToken start.token _ after).proceeds later) fun _ after later => last after later
      · exact last after later
    · exact last after later
  · refine Goes.bind ((stays_indicateBlock _ l).proceeds within) fun _ after later => ?_
    refine Goes.bind ((stays_allowKey _ after).proceeds later) fun _ after later => ?_
    exact Goes.bind ((stays_dropKey after).proceeds later) fun _ after later => proceeds_punctuation _ 1 after later

theorem proceeds_contentToken {read : Cursor → Read (Token × Cursor)}
    (reads : ∀ c, Within text c → Reads text (read c)) (l : Lexer) : Proceeds text (contentToken read) l :=
  (stays_saveKey l).proceeds.bind fun _ after => (stays_allowKey false after).proceeds.bind fun _ after =>
    (proceeds_reading (reads after.cursor)).bind fun t after => (stays_emit t after).proceeds

theorem proceeds_blockText (folded : Bool) (l : Lexer) : Proceeds text (blockText folded) l := by
  refine (stays_allowKey true l).proceeds.bind fun _ after => (stays_dropKey after).proceeds.bind fun _ after => ?_
  intro within
  apply Goes.get_bind
  exact (proceeds_reading (reads_blockScalar folded after.indent)).bind
    (fun t after => (stays_emit (.scalar t false) after).proceeds) within

theorem proceeds_plainText (l : Lexer) : Proceeds text plainText l := by
  refine (stays_saveKey l).proceeds.bind fun _ after => (stays_allowKey false after).proceeds.bind fun _ after => ?_
  intro within
  apply Goes.get_bind
  refine Goes.bind (goes_moveTo (within_plainScalar _ _ within) after) fun _ moved later => ?_
  exact ((stays_allowKey _ moved).proceeds.bind fun _ after => (stays_emit _ after).proceeds) later

/-- A step goes on in the text. The only token that needs to be seen coming is a directive, by its mark. -/
theorem proceeds_step (l : Lexer) : Proceeds text step l := by
  intro within
  unfold step
  apply goes_cursor'_bind
  refine Goes.bind (proceeds_skipToToken _ l within) fun _ after later => ?_
  refine Goes.bind ((stays_dropStaleKeys after).proceeds later) fun _ after later => ?_
  apply goes_cursor'_bind
  refine Goes.bind ((stays_unwind _ after).proceeds later) fun _ l here => ?_
  apply Goes.get_bind
  have marker : ∀ t, Proceeds text (blockIndicator >>= fun _ => punctuation t 3) l := fun t =>
    (stays_blockIndicator l).proceeds.bind fun _ after => proceeds_punctuation t 3 after
  refine .ite (fun _ => ?_) fun _ => ?_
  · refine Goes.bind ((stays_blockIndicator l).proceeds here) fun _ after later => ?_
    have kept : Stays text (modify fun l : Lexer => { l with keyStarts := [], finished := true }) after :=
      stays_modify rfl
    exact Goes.bind (kept.proceeds later) fun _ after last => (stays_emit .streamEnd after).proceeds last
  refine .ite (fun mark => ?_) fun _ => ?_
  · have percent : l.cursor.peek = '%' := beq_iff_eq.mp (Bool.and_eq_true_iff.mp mark).1
    refine Goes.bind (stays_blockIndicator l) fun _ after same => ?_
    have reads : Within text after.cursor → Reads text (directive after.cursor) := fun inside =>
      reads_directive inside (same ▸ percent)
    have directive := Proceeds.bind (proceeds_reading reads) fun d after => (stays_emit (.directive d) after).proceeds
    exact directive (same ▸ here)
  refine .ite (fun _ => marker .documentStart here) fun _ => ?_
  refine .ite (fun _ => marker .documentEnd here) fun _ => ?_
  refine .ite (fun _ => proceeds_openFlow .flowSequenceStart l here) fun _ => ?_
  refine .ite (fun _ => proceeds_openFlow .flowMappingStart l here) fun _ => ?_
  refine .ite (fun _ => proceeds_closeFlow .flowSequenceEnd l here) fun _ => ?_
  refine .ite (fun _ => proceeds_closeFlow .flowMappingEnd l here) fun _ => ?_
  refine .ite (fun _ => ?_) fun _ => ?_
  · exact ((stays_allowKey true l).proceeds.bind fun _ after => (stays_dropKey after).proceeds.bind fun _ after =>
      proceeds_punctuation .flowEntry 1 after) here
  refine .ite (fun _ => proceeds_entry l here) fun _ => ?_
  refine .ite (fun _ => proceeds_key l here) fun _ => ?_
  refine .ite (fun _ => proceeds_value l here) fun _ => ?_
  refine .ite (fun _ => proceeds_contentToken (fun _ inside => reads_map1 _ (reads_referenceName inside)) l here)
    fun _ => ?_
  refine .ite (fun _ => proceeds_contentToken (fun _ inside => reads_map1 _ (reads_referenceName inside)) l here)
    fun _ => ?_
  refine .ite (fun _ => proceeds_contentToken (fun _ inside => reads_tag inside) l here) fun _ => ?_
  refine .ite (fun _ => proceeds_blockText false l here) fun _ => ?_
  refine .ite (fun _ => proceeds_blockText true l here) fun _ => ?_
  refine .ite (fun _ => proceeds_contentToken (fun _ inside => reads_map1 _ (reads_quotedScalar false inside)) l here)
    fun _ => ?_
  refine .ite (fun _ => proceeds_contentToken (fun _ inside => reads_map1 _ (reads_quotedScalar true inside)) l here)
    fun _ => ?_
  exact .ite (fun _ => proceeds_plainText l here) fun _ => .throw (unlexed_malformed text)

theorem stays_settle (l : Lexer) : Stays text settle l := (stays_dropStaleKeys l).bind fun _ _ _ => .modify rfl

theorem proceeds_run (steps : Nat) (l : Lexer) : Proceeds text (run steps) l := by
  induction steps generalizing l with
  | zero => exact fun within => .pure within
  | succ steps ih =>
    intro within
    unfold run
    apply Goes.get_bind
    split
    · exact ((proceeds_step l).bind fun _ after => (stays_settle after).proceeds.bind fun _ after => ih after) within
    · exact .pure within

end Actions

end Lexer

/-- Where the lexer begins: a byte order mark in front is skipped. -/
def lexerOf (text : List Char) : Lexer where
  cursor := if (Cursor.mk text 0 0 0).peek == '\ufeff' then (Cursor.mk text 0 0 0).next else Cursor.mk text 0 0 0

theorem within_lexerOf (text : List Char) : Within text (lexerOf text).cursor := by
  have whole : Within text (Cursor.mk text 0 0 0) := List.suffix_refl text
  unfold lexerOf
  dsimp only
  split
  · exact whole.next
  · exact whole

/-- The number of steps is kept apart, as the lexer would be run where it is known. -/
theorem tokens_eq {text : List Char} {steps : Nat} (enough : steps = text.length + 1) :
    tokens text = if text.all isAllowed then
      match ((Lexer.run steps).run.run (lexerOf text)).1 with
      | .ok _ => (((Lexer.run steps).run.run (lexerOf text)).2.tokens.toList, none)
      | .error e => (((Lexer.run steps).run.run (lexerOf text)).2.tokens.toList.take
          ((Lexer.run steps).run.run (lexerOf text)).2.settled, some e)
    else ([], some malformed) := by
  unfold tokens
  rw [← enough]
  rfl

/-- Cutting a text into tokens fails as the text has a fault of syntax or a number that reaches too far. -/
theorem unlexed_of_tokens {text : List Char} {failure : Failure} (failed : (tokens text).2 = some failure) :
    Unlexed text failure := by
  obtain ⟨steps, enough⟩ : ∃ steps, steps = text.length + 1 := ⟨_, rfl⟩
  have goes := Lexer.proceeds_run steps (lexerOf text) (within_lexerOf text)
  rw [tokens_eq enough] at failed
  split at failed
  · split at failed
    next => cases failed
    next e given =>
      obtain rfl := Option.some.inj failed
      exact goes.failed e given
  · obtain rfl := Option.some.inj failed
    exact unlexed_malformed text

end TaskBoard.Document
