import TaskBoard.Proofs.Document.Lexing

/-!
How reading the tree of a document fails: with a fault of syntax, with the failure of the lexer, or as it nests too
many collections. For the last one, more tokens than the limit allows have to begin a collection or a part of one.
-/

namespace TaskBoard.Document

/-- The tokens that begin a collection or a part of one. -/
def Token.deepens : Token → Bool
  | .blockSequenceStart | .blockMappingStart | .flowSequenceStart | .flowMappingStart => true
  | .blockEntry | .key => true
  | _ => false

namespace Tree

/-- How a grammar fails, if the tokens are followed by a failure and as many of them deepen as are told. -/
def Unparsed (total : Nat) (ending failure : Failure) : Prop :=
  failure = malformed ∨ failure = ending ∨ failure = .tooDeep ∧ nestingLimit < total

/-- The depth is at most the number of tokens that deepened so far, out of all. -/
structure Sits (total : Nat) (ending : Failure) (depth : Nat) (i : Input) : Prop where
  ending : i.ending = ending
  room : depth + i.tokens.countP Token.deepens ≤ total

section Grammars

variable {total : Nat} {ending : Failure} {depth : Nat} {i : Input} {t : Token}

theorem unparsed_malformed (total : Nat) (ending : Failure) : Unparsed total ending malformed := .inl rfl

theorem Sits.mono {less : Nat} (sits : Sits total ending depth i) (smaller : less ≤ depth) : Sits total ending less i :=
  ⟨sits.ending, Nat.le_trans (Nat.add_le_add_right smaller _) sits.room⟩

theorem Sits.tail (sits : Sits total ending depth i) : Sits total ending depth { i with tokens := i.tokens.tail } where
  ending := sits.ending
  room := Nat.le_trans (Nat.add_le_add_left (i.tokens.tail_suffix.sublist.countP_le) depth) sits.room

theorem Sits.deeper (sits : Sits total ending depth i) (next : i.tokens.head? = some t) (deepens : t.deepens = true) :
    Sits total ending (depth + 1) { i with tokens := i.tokens.tail } where
  ending := sits.ending
  room := by
    have room := sits.room
    obtain ⟨rest, cut⟩ := List.head?_eq_some_iff.mp next
    rw [cut, List.countP_cons_of_pos deepens] at room
    simp only [cut, List.tail_cons]
    omega

/-- A grammar that stays where it is or goes on. -/
def Parses {α : Type} (total : Nat) (ending : Failure) (depth : Nat) (g : Grammar α) (i : Input) : Prop :=
  Sits total ending depth i → Steps g i (fun _ after => Sits total ending depth after) (Unparsed total ending)

theorem Parses.bind {α β : Type} {g : Grammar α} {next : α → Grammar β} (first : Parses total ending depth g i)
    (rest : ∀ a after, Parses total ending depth (next a) after) : Parses total ending depth (g >>= next) i :=
  fun sits => Steps.bind (first sits) fun a after => rest a after

theorem Parses.pure {α : Type} (a : α) : Parses total ending depth (pure a) i := fun sits => .pure sits

theorem Parses.throw {α : Type} : Parses (α := α) total ending depth (throw malformed) i :=
  fun _ => .throw (unparsed_malformed total ending)

theorem Parses.map {α β : Type} {g : Grammar α} {change : α → β} (first : Parses total ending depth g i) :
    Parses total ending depth (change <$> g) i := fun sits => (first sits).map fun _ _ later => later

theorem steps_peek (sits : Sits total ending depth i) :
    Steps peek i (fun t after => after = i ∧ i.tokens.head? = some t) (Unparsed total ending) := by
  unfold peek
  apply Steps.get_bind
  split
  next => exact .get_bind (.throw (.inr (.inl sits.ending)))
  next t rest cut => exact .pure ⟨rfl, by rw [cut]; rfl⟩

/-- What comes next is looked at before it is read. -/
theorem Parses.peek_bind {α : Type} {next : Token → Grammar α}
    (rest : ∀ t, i.tokens.head? = some t → Parses total ending depth (next t) i) :
    Parses total ending depth (peek >>= next) i := by
  intro sits
  refine Steps.bind (steps_peek sits) fun t after ⟨same, head⟩ => ?_
  subst same
  exact rest t head sits

theorem parses_skip : Parses total ending depth skip i := fun sits => .modify sits.tail

theorem parses_take (t : Token) : Parses total ending depth (take t) i := by
  refine Parses.peek_bind fun next _ => ?_
  split
  · exact parses_skip
  · exact .throw

theorem steps_takeIf (t : Token) (sits : Sits total ending depth i) :
    Steps (takeIf t) i (fun took after => Sits total ending depth after ∧
      (took = true → t.deepens = true → Sits total ending (depth + 1) after)) (Unparsed total ending) := by
  unfold takeIf
  refine Steps.bind (steps_peek sits) fun next after ⟨same, head⟩ => ?_
  subst same
  split
  next found =>
    obtain rfl := beq_iff_eq.mp found
    have skipped : Steps skip after (fun _ later => later = { after with tokens := after.tokens.tail })
        (Unparsed total ending) := .modify rfl
    refine skipped.bind fun _ later same => ?_
    subst same
    exact .pure ⟨sits.tail, fun _ deepens => sits.deeper head deepens⟩
  next => exact .pure ⟨sits, nofun⟩

theorem parses_takeIf (t : Token) : Parses total ending depth (takeIf t) i :=
  fun sits => (steps_takeIf t sits).mono (fun _ _ both => both.1) fun _ => id

theorem parses_resolveTag (handle : Option (List Char)) (rest : List Char) :
    Parses total ending depth (resolveTag handle rest) i := by
  unfold resolveTag
  split
  · exact .pure rest
  · intro sits
    apply Steps.get_bind
    split
    · exact .pure sits
    · exact .throw (unparsed_malformed total ending)

theorem parses_anchorName : Parses total ending depth anchorName i := by
  refine Parses.peek_bind fun t _ => ?_
  split
  · exact parses_skip.bind fun _ _ => .pure _
  · exact .pure none

theorem parses_writtenTag : Parses total ending depth writtenTag i := by
  refine Parses.peek_bind fun t _ => ?_
  split
  · exact parses_skip.bind fun _ _ => .pure _
  · exact .pure none

theorem parses_resolveWritten (written : Option (Option (List Char) × List Char)) :
    Parses total ending depth (resolveWritten written) i := by
  unfold resolveWritten
  split
  · exact .pure none
  · exact (parses_resolveTag _ _).map

theorem parses_properties : Parses total ending depth properties i := by
  refine parses_anchorName.bind fun found after => ?_
  split
  · exact parses_writtenTag.bind fun _ _ => (parses_resolveWritten _).bind fun _ _ => .pure _
  · refine parses_writtenTag.bind fun written after => ?_
    dsimp only
    split
    · exact parses_anchorName.bind fun _ _ => (parses_resolveWritten written).bind fun _ _ => .pure _
    · exact (parses_resolveWritten written).bind fun _ _ => .pure _

theorem parses_declareAnchor (p : Properties) : Parses total ending depth (declareAnchor p) i := by
  unfold declareAnchor
  split
  · exact .pure _
  · intro sits
    apply Steps.get_bind
    dsimp only
    split
    · exact .throw_bind (unparsed_malformed total ending)
    · exact .modify ⟨sits.ending, sits.room⟩

theorem parses_knownReference (name : List Char) : Parses total ending depth (knownReference name) i := by
  intro sits
  apply Steps.get_bind
  split
  · exact .pure sits
  · exact .throw (unparsed_malformed total ending)

theorem parses_separate (first : Bool) : Parses total ending depth (separate first) i := by
  unfold separate
  split
  · exact .pure _
  · exact parses_take .flowEntry

theorem parses_emptyOr (p : Properties) : Parses total ending depth (emptyOr p) i := by
  unfold emptyOr
  split
  · exact fun _ => .throw_bind (unparsed_malformed total ending)
  · exact (parses_declareAnchor p).bind fun _ _ => .pure _

/-- What follows a token that deepens may go one level down. -/
theorem Parses.deeper {α : Type} {g : Grammar α} (next : i.tokens.head? = some t) (deepens : t.deepens = true)
    (rest : ∀ after, Parses total ending (depth + 1) g after) :
    Parses total ending depth (skip >>= fun _ => g) i := by
  intro sits
  have skipped : Steps skip i (fun _ after => Sits total ending (depth + 1) after) (Unparsed total ending) :=
    .modify (sits.deeper next deepens)
  exact skipped.bind fun _ after later =>
    (rest after later).mono (fun _ _ last => last.mono (Nat.le_succ depth)) fun _ => id

/-- The same for a token that is read only if it is there. -/
theorem Parses.takeIf_bind {α : Type} {took : Bool → Grammar α} (deepens : t.deepens = true)
    (taken : ∀ after, Sits total ending (depth + 1) after →
      Steps (took true) after (fun _ last => Sits total ending depth last) (Unparsed total ending))
    (other : ∀ after, Parses total ending depth (took false) after) :
    Parses total ending depth (takeIf t >>= took) i := by
  intro sits
  refine (steps_takeIf t sits).bind fun found after ⟨here, below⟩ => ?_
  cases found with
  | true => exact taken after (below rfl deepens)
  | false => exact other after here

/-- The grammars of nodes and of what they are made of go on. -/
structure Derives (total : Nat) (ending : Failure) (fuel : Nat) : Prop where
  node : ∀ block loose depth i, Parses total ending depth (node block loose depth fuel) i
  nodeUnless : ∀ ends block loose depth i, Parses total ending depth (nodeUnless ends block loose depth fuel) i
  blockEntries : ∀ depth i, Parses total ending depth (blockEntries depth fuel) i
  /-- The first entry of a sequence that is not indented has yet to deepen. -/
  looseEntries : ∀ depth i, Parses total ending depth (looseEntries (depth + 1) fuel) i
  blockPairs : ∀ depth i, Parses total ending depth (blockPairs depth fuel) i
  flowItems : ∀ first depth i, Parses total ending depth (flowItems first depth fuel) i
  flowPairs : ∀ first depth i, Parses total ending depth (flowPairs first depth fuel) i

namespace Derives

variable {fuel : Nat} (ih : Derives total ending fuel)
include ih

theorem node_succ (block loose : Bool) (depth : Nat) (i : Input) :
    Parses total ending depth (Tree.node block loose depth (fuel + 1)) i := by
  unfold Tree.node
  refine Parses.peek_bind fun t _ => ?_
  split
  · exact parses_skip.bind fun _ _ => parses_knownReference _
  · refine parses_properties.bind fun p after => Parses.peek_bind fun next head => ?_
    dsimp only
    split
    next deep =>
      intro sits
      exact .throw_bind (.inr (.inr ⟨rfl, Nat.lt_of_lt_of_le deep (Nat.le_trans (Nat.le_add_right _ _) sits.room)⟩))
    next =>
      split
      · exact (parses_declareAnchor p).bind fun _ _ => (ih.looseEntries _ _).map
      · split
        · exact parses_skip.bind fun _ _ => (parses_declareAnchor p).bind fun _ _ => .pure _
        · exact Parses.deeper head rfl fun _ => (parses_declareAnchor p).bind fun _ _ => (ih.flowItems _ _ _).map
        · exact Parses.deeper head rfl fun _ => (parses_declareAnchor p).bind fun _ _ => (ih.flowPairs _ _ _).map
        · split
          · exact Parses.deeper head rfl fun _ => (parses_declareAnchor p).bind fun _ _ => (ih.blockEntries _ _).map
          · exact parses_emptyOr p
        · split
          · exact Parses.deeper head rfl fun _ => (parses_declareAnchor p).bind fun _ _ => (ih.blockPairs _ _).map
          · exact parses_emptyOr p
        · exact parses_emptyOr p

theorem nodeUnless_succ (ends : Token → Bool) (block loose : Bool) (depth : Nat) (i : Input) :
    Parses total ending depth (Tree.nodeUnless ends block loose depth (fuel + 1)) i := by
  unfold Tree.nodeUnless
  refine Parses.peek_bind fun t _ => ?_
  split
  · exact .pure _
  · exact ih.node block loose depth i

theorem blockEntries_succ (depth : Nat) (i : Input) :
    Parses total ending depth (Tree.blockEntries depth (fuel + 1)) i := by
  unfold Tree.blockEntries
  refine (parses_takeIf _).bind fun found after => ?_
  split
  · exact (ih.nodeUnless _ _ _ _ _).bind fun _ _ => (ih.blockEntries _ _).bind fun _ _ => .pure _
  · exact (parses_take _).bind fun _ _ => .pure _

theorem looseEntries_succ (depth : Nat) (i : Input) :
    Parses total ending depth (Tree.looseEntries (depth + 1) (fuel + 1)) i := by
  unfold Tree.looseEntries
  refine Parses.takeIf_bind rfl (fun after deeper => ?_) fun after => ?_
  · refine Steps.bind (ih.nodeUnless _ _ _ _ after deeper) fun item after later => ?_
    exact ((ih.looseEntries depth after).bind fun _ _ => .pure _) (later.mono (Nat.le_succ depth))
  · exact .pure _

theorem value_bind {α : Type} {ends : Token → Bool} {block loose : Bool} {depth : Nat} {i : Input}
    {next : Tree → Grammar α} {fit : α → Input → Prop} (sits : Sits total ending depth i)
    (rest : ∀ value after, Sits total ending depth after → Steps (next value) after fit (Unparsed total ending)) :
    Steps (do
      let value ← if ← takeIf .value then Tree.nodeUnless ends block loose depth fuel else pure empty
      next value) i fit (Unparsed total ending) := by
  refine Steps.bind (parses_takeIf .value sits) fun found after later => ?_
  dsimp only
  split
  · exact Steps.bind (ih.nodeUnless _ _ _ _ after later) rest
  · exact rest empty after later

theorem blockPairs_succ (depth : Nat) (i : Input) : Parses total ending depth (Tree.blockPairs depth (fuel + 1)) i := by
  unfold Tree.blockPairs
  refine (parses_takeIf _).bind fun found after => ?_
  split
  · refine (ih.nodeUnless _ _ _ _ _).bind fun key after sits => ?_
    exact ih.value_bind sits fun value after => (ih.blockPairs _ after).bind fun _ _ => .pure _
  · exact (parses_take _).bind fun _ _ => .pure _

theorem flowItems_succ (first : Bool) (depth : Nat) (i : Input) :
    Parses total ending depth (Tree.flowItems first depth (fuel + 1)) i := by
  unfold Tree.flowItems
  refine (parses_takeIf _).bind fun found after => ?_
  split
  · exact .pure _
  · refine (parses_separate first).bind fun _ after => ?_
    refine Parses.takeIf_bind rfl (fun after deeper => ?_) fun after => ?_
    · -- a pair without braces is a mapping of its own, one level down
      refine Steps.bind (ih.nodeUnless _ _ _ _ after deeper) fun key after inside => ?_
      refine ih.value_bind inside fun value after later => ?_
      exact ((ih.flowItems _ _ after).bind fun _ _ => .pure _) (later.mono (Nat.le_succ depth))
    · refine (parses_takeIf _).bind fun closed after => ?_
      split
      · exact .pure _
      · exact (ih.node _ _ _ _).bind fun _ _ => (ih.flowItems _ _ _).bind fun _ _ => .pure _

theorem flowPairs_succ (first : Bool) (depth : Nat) (i : Input) :
    Parses total ending depth (Tree.flowPairs first depth (fuel + 1)) i := by
  unfold Tree.flowPairs
  refine (parses_takeIf _).bind fun found after => ?_
  split
  · exact .pure _
  · refine (parses_separate first).bind fun _ after => (parses_takeIf _).bind fun paired after => ?_
    split
    · refine (ih.nodeUnless _ _ _ _ _).bind fun key after sits => ?_
      exact ih.value_bind sits fun value after => (ih.flowPairs _ _ after).bind fun _ _ => .pure _
    · refine (parses_takeIf _).bind fun closed after => ?_
      split
      · exact .pure _
      · exact (ih.node _ _ _ _).bind fun _ _ => (ih.flowPairs _ _ _).bind fun _ _ => .pure _

end Derives

theorem derives (total : Nat) (ending : Failure) (fuel : Nat) : Derives total ending fuel := by
  induction fuel with
  | zero =>
    refine ⟨?_, ?_, ?_, ?_, ?_, ?_, ?_⟩
    all_goals intros; exact .throw
  | succ fuel ih =>
    exact ⟨ih.node_succ, ih.nodeUnless_succ, ih.blockEntries_succ, ih.looseEntries_succ, ih.blockPairs_succ,
      ih.flowItems_succ, ih.flowPairs_succ⟩

theorem parses_directives (fuel : Nat) (versioned : Bool) (handles : List (List Char × List Char)) (i : Input) :
    Parses total ending depth (directives fuel versioned handles) i := by
  induction fuel generalizing versioned handles i with
  | zero => exact .pure handles
  | succ fuel ih =>
    unfold directives
    refine Parses.peek_bind fun t _ => ?_
    split
    · dsimp only
      split
      · exact fun _ => .throw_bind (unparsed_malformed total ending)
      · exact parses_skip.bind fun _ _ => ih _ _ _
    · dsimp only
      split
      · exact fun _ => .throw_bind (unparsed_malformed total ending)
      · exact parses_skip.bind fun _ _ => ih _ _ _
    · exact parses_skip.bind fun _ _ => ih _ _ _
    · exact .pure handles

theorem parses_skipDocumentEnds (fuel : Nat) (i : Input) : Parses total ending depth (skipDocumentEnds fuel) i := by
  induction fuel generalizing i with
  | zero => exact .pure _
  | succ fuel ih =>
    unfold skipDocumentEnds
    refine (parses_takeIf _).bind fun found after => ?_
    split
    · exact ih after
    · exact .pure _

theorem parses_endOfStream (fuel : Nat) (i : Input) : Parses total ending depth (endOfStream fuel) i := by
  refine (parses_skipDocumentEnds fuel i).bind fun _ after => Parses.peek_bind fun t _ => ?_
  split
  · exact (parses_directives _ _ _ after).bind fun _ _ => Parses.peek_bind fun _ _ => .throw
  · exact .pure _

theorem parses_document (i : Input) : Parses total ending 0 document i := by
  intro sits
  unfold document
  apply Steps.get_bind
  refine Parses.peek_bind (fun t _ => ?_) sits
  have content : ∀ after, Parses total ending 0 (node true false 0 (4 * i.tokens.length + 8)) after :=
    (derives total ending _).node true false 0
  split
  · exact .pure none
  · refine Parses.bind ?_ fun tree after => (parses_endOfStream _ after).bind fun _ _ => .pure _
    split
    · refine (parses_directives _ _ _ i).bind fun handles after => ?_
      refine Parses.bind (fun here => .modify ⟨here.ending, here.room⟩) fun _ after => ?_
      refine (parses_take _).bind fun _ after => Parses.peek_bind fun t _ => ?_
      split
      · exact .pure _
      · exact content after
    · exact content i

end Grammars

/-- Reading the tree of a text fails as the text has a fault of syntax, as a number in it reaches too far, or as it
nests more collections than the limit allows. -/
theorem unparsed_of_ofText? {text : List Char} {failure : Failure} (failed : ofText? text = .error failure) :
    failure = malformed ∨ Overreach text failure ∨
      failure = .tooDeep ∧ nestingLimit < (tokens text).1.countP Token.deepens := by
  obtain ⟨lexed, cut⟩ : ∃ lexed, lexed = tokens text := ⟨_, rfl⟩
  obtain ⟨i, start⟩ : ∃ i : Input, i = { tokens := lexed.1, ending := lexed.2.getD malformed } := ⟨_, rfl⟩
  have whole : ofText? text = (document.run i).map (·.1) := by
    rw [start, cut]
    rfl
  have sits : Sits (lexed.1.countP Token.deepens) (lexed.2.getD malformed) 0 i := by
    rw [start]
    exact ⟨rfl, Nat.le_of_eq (Nat.zero_add _)⟩
  have parsed := (parses_document i sits).failed failure
  rw [whole] at failed
  cases given : document.run i with
  | ok r =>
    rw [given] at failed
    cases failed
  | error own =>
    rw [given] at failed
    cases failed
    rcases parsed given with syntaxFault | ending | deep
    · exact .inl syntaxFault
    · cases lexing : lexed.2 with
      | none =>
        rw [lexing] at ending
        exact .inl ending
      | some failure =>
        rw [lexing] at ending
        obtain rfl := ending
        rw [cut] at lexing
        exact (unlexed_of_tokens lexing).imp id .inl
    · exact .inr (.inr (cut ▸ deep))

end Tree

end TaskBoard.Document
