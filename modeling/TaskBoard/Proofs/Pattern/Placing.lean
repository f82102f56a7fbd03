import TaskBoard.Board.Watching
import TaskBoard.Proofs.Acting
import TaskBoard.Proofs.Pattern.Parts
import TaskBoard.Proofs.Pattern.Rewriting

/-!
Paths in watch patterns. A path without colons and braces that has a character foreign to filter groups
cannot make or break a group wherever it is put, and neither can the mark that it replaces: so the filter
of a pattern is the one that is written in it, whatever file an event is about.
-/

namespace TaskBoard

/-- A path that has nothing a pattern is cut at, and something that no filter group may hold. -/
structure PlainPath (path : List Char) : Prop where
  colon : ':' ∉ path
  opening : '{' ∉ path
  closing : '}' ∉ path
  foreign : ∃ c ∈ path, isFilterChar c = false

namespace WatchPattern

def place (path text : List Char) : List Char := Text.replaceWord filePlaceholder.toList path text

end WatchPattern

open WatchPattern

variable {path : List Char}

theorem place_nil : place path [] = [] := Text.replaceWord_nil

theorem place_mark (rest : List Char) : place path (filePlaceholder.toList ++ rest) = path ++ place path rest :=
  Text.replaceWord_found (by decide) rest

theorem place_other {c : Char} {rest : List Char} (absent : ¬filePlaceholder.toList <+: c :: rest) :
    place path (c :: rest) = c :: place path rest := Text.replaceWord_other absent

theorem place_induction {motive : List Char → Prop} (empty : motive [])
    (found : ∀ rest, motive rest → motive (filePlaceholder.toList ++ rest))
    (other : ∀ c rest, ¬filePlaceholder.toList <+: c :: rest → motive rest → motive (c :: rest)) (text : List Char) :
    motive text := Text.replaceWord_induction (by decide) empty found other text

theorem place_eq_nil (given : path ≠ []) {text : List Char} : place path text = [] ↔ text = [] :=
  Text.replaceWord_eq_nil (by decide) given

theorem place_append (s : List Char) {t : List Char} (next : ∀ c, t.head? = some c → c = '{') :
    place path (s ++ t) = place path s ++ place path t := by
  cases t with
  | nil => rw [place_nil, List.append_nil, List.append_nil]
  | cons c t =>
    obtain rfl : c = '{' := next c rfl
    have split : ∀ s, place path (s ++ '{' :: t) = place path s ++ '{' :: place path t := fun s =>
      Text.replaceWord_append_cons (by decide) (by decide) s t
    rw [split s, ← List.nil_append ('{' :: t), split [], place_nil, List.nil_append]

theorem GroupContent.percent_notMem {content : List Char} (group : GroupContent content) :
    '%' ∉ writtenGroup content := by
  intro member
  have held : '%' ∈ content := by simpa [writtenGroup] using member
  have allowed := group.2 '%' held
  revert allowed
  decide

/-- The mark cannot begin in a group. -/
theorem place_writtenGroup {content : List Char} (group : GroupContent content) (t : List Char) :
    place path (writtenGroup content ++ t) = writtenGroup content ++ place path t :=
  @Text.replaceWord_append_of_no_start path '%' "FILE%".toList _ group.percent_notMem t

namespace PlainPath

theorem ne_nil (plain : PlainPath path) : path ≠ [] := by
  rintro rfl
  obtain ⟨c, member, -⟩ := plain.foreign
  cases member

/-- The path does not reach into the end of a group. -/
theorem not_begins_content (plain : PlainPath path) {content rest after : List Char}
    (allowed : ∀ c ∈ content, isFilterChar c = true) (same : path ++ rest = content ++ '}' :: after) : False := by
  obtain ⟨c, member, refused⟩ := plain.foreign
  rcases List.append_eq_append_iff.mp same with ⟨more, rfl, -⟩ | ⟨more, rfl, beyond⟩
  · have taken := allowed c (List.mem_append_left more member)
    rw [refused] at taken
    cases taken
  · cases more with
    | nil =>
      rw [List.append_nil] at member
      have taken := allowed c member
      rw [refused] at taken
      cases taken
    | cons d more =>
      obtain ⟨rfl, -⟩ := List.cons.inj beyond
      apply plain.closing
      simp

theorem content_of_place (plain : PlainPath path) {content text after : List Char}
    (allowed : ∀ c ∈ content, isFilterChar c = true) (ends : place path text = content ++ '}' :: after) :
    ∃ rest, text = content ++ '}' :: rest := by
  induction text using place_induction generalizing content with
  | empty => simp [place_nil] at ends
  | found rest _ =>
    rw [place_mark] at ends
    exact (plain.not_begins_content allowed ends).elim
  | other c rest absent ih =>
    rw [place_other absent] at ends
    cases content with
    | nil =>
      obtain ⟨rfl, -⟩ := List.cons.inj ends
      exact ⟨rest, rfl⟩
    | cons d content =>
      obtain ⟨rfl, later⟩ := List.cons.inj ends
      obtain ⟨more, rfl⟩ := ih (fun e member => allowed e (List.mem_cons_of_mem c member)) later
      exact ⟨more, rfl⟩

theorem groupless (plain : PlainPath path) {text : List Char} (groupless : Groupless text) :
    Groupless (place path text) := by
  induction text using place_induction with
  | empty =>
    rw [place_nil]
    exact groupless_nil
  | found rest ih =>
    have later := ih (groupless.inside (List.suffix_append _ rest).isInfix)
    rw [place_mark]
    exact later.append_of_notMem plain.opening
  | other c rest absent ih =>
    have later := ih (groupless.inside (List.suffix_cons c rest).isInfix)
    rw [place_other absent]
    intro content group stands
    rcases List.infix_cons_iff.mp stands with ⟨after, begins⟩ | inside
    -- a group that begins here would end before the first path, so it would have stood in the text
    · obtain ⟨rfl, reached⟩ := List.cons.inj begins
      have ends : place path rest = content ++ '}' :: after := by
        rw [← reached]
        simp
      obtain ⟨more, rfl⟩ := plain.content_of_place group.2 ends
      apply groupless content group
      exact ⟨[], more, by simp [writtenGroup]⟩
    · exact later content group inside

end PlainPath

def WatchPart.place (path : List Char) : WatchPart → WatchPart
  | text s => text (WatchPattern.place path s)
  | group content => group content

theorem WatchPart.literal_place (part : WatchPart) :
    (part.place path).token.literal = WatchPattern.place path part.token.literal := by
  cases part with
  | text s => rfl
  | group content => exact place_nil.symm

theorem WatchPart.eventTypes?_place (part : WatchPart) :
    (part.place path).token.eventTypes? = part.token.eventTypes? := by
  cases part <;> rfl

theorem Decomposes.place (plain : PlainPath path) {text : List Char} {parts : List WatchPart}
    (cut : Decomposes text parts) : Decomposes (WatchPattern.place path text) (parts.map (WatchPart.place path)) := by
  refine ⟨?_, ?_, ?_⟩
  · induction parts generalizing text with
    | nil =>
      rw [← cut.whole]
      exact place_nil.symm
    | cons part parts ih =>
      have later := ih cut.tail
      rw [← cut.whole, List.flatMap_cons, List.map_cons, List.flatMap_cons, later]
      cases part with
      | text s => exact (place_append s cut.next_of_text).symm
      | group content => exact (place_writtenGroup (cut.proper _ List.mem_cons_self) _).symm
  · intro placed member
    obtain ⟨part, before, rfl⟩ := List.mem_map.mp member
    have proper := cut.proper part before
    cases part with
    | text s => exact ⟨fun empty => proper.1 ((place_eq_nil plain.ne_nil).mp empty), plain.groupless proper.2⟩
    | group content => exact proper
  · rw [List.isChain_map]
    apply cut.apart.imp
    intro first second apart texts
    cases first <;> cases second <;> exact apart texts

namespace WatchPattern

def nameOf (pattern : String) : List Char := (Text.pieces ':' pattern.toList).headD []

/-- The piece that is passed on. -/
def partOf : List (List Char) → Option String
  | [] => none
  | [] :: _ => none
  | piece :: _ => some (String.ofList piece)

theorem parse_of_pieces {pattern : String} {name : List Char} {others : List (List Char)}
    (cut : Text.pieces ':' pattern.toList = name :: others) :
    nameOf pattern = name ∧ parse pattern = {
      task := String.ofList ((WatchToken.tokenize name).flatMap WatchToken.literal)
      types := (WatchToken.tokenize name).findSome? WatchToken.eventTypes?
      part := partOf others } := by
  refine ⟨by rw [nameOf, cut]; rfl, ?_⟩
  unfold parse
  rw [cut]
  match others with
  | [] => rfl
  | [] :: rest => rfl
  | (c :: piece) :: rest => rfl

theorem pieces_substituteFile {pattern path : String} (plain : PlainPath path.toList) :
    Text.pieces ':' (substituteFile pattern path).toList =
      (Text.pieces ':' pattern.toList).map (place path.toList) := by
  rw [substituteFile, String.toList_ofList]
  exact Text.pieces_replaceWord (by decide) (by decide) plain.colon pattern.toList

theorem partOf_place {path : String} (plain : PlainPath path.toList) (others : List (List Char)) :
    partOf (others.map (place path.toList)) = (partOf others).map (substituteFile · path) := by
  match others with
  | [] => rfl
  | [] :: others =>
    rw [List.map_cons, place_nil]
    rfl
  | (c :: piece) :: others =>
    have filled : place path.toList (c :: piece) ≠ [] := fun none =>
      List.cons_ne_nil c piece ((place_eq_nil plain.ne_nil).mp none)
    obtain ⟨d, more, placed⟩ := List.exists_cons_of_ne_nil filled
    have written : substituteFile (String.ofList (c :: piece)) path = String.ofList (d :: more) := by
      rw [substituteFile, String.toList_ofList, ← placed, place]
    rw [List.map_cons, placed, partOf, partOf, Option.map_some, written]
    · simp
    · simp

/-- The tokens of a name with the path in it: the same filters, and the path in every text. -/
theorem tokenize_place {path : List Char} (plain : PlainPath path) (name : List Char) :
    ((WatchToken.tokenize (place path name)).findSome? WatchToken.eventTypes? =
      (WatchToken.tokenize name).findSome? WatchToken.eventTypes?) ∧
    (WatchToken.tokenize (place path name)).flatMap WatchToken.literal =
      (WatchToken.tokenize name).flatMap fun token => place path token.literal := by
  -- the parts of the name with the path in each are a decomposition, so they are the only one
  obtain ⟨parts, cut, tokens⟩ := exists_decomposes name
  obtain ⟨others, again, placed⟩ := exists_decomposes (place path name)
  rw [tokens, placed, again.unique (cut.place plain)]
  constructor
  · simp only [List.findSome?_map, Function.comp_def, WatchPart.eventTypes?_place]
  · simp only [List.flatMap_map, WatchPart.literal_place]

end WatchPattern

namespace Board

variable {σ : Type}

def Triggers (w : World σ) (b : Nat) (pattern : String) (event : WatchEvent) : Prop :=
  ∃ occasion name task part after, task.isCallable = true ∧
    (eventTask b (.text pattern) event).run w = (.ok (.eventTask occasion name task part), after)

theorem isCallable_watchedTask (b : Nat) (registry : Registry) (name : String) :
    (watchedTask b registry name).isCallable = true := by
  unfold watchedTask
  split
  · split
    next callable => exact callable
    next => rfl
  · rfl

theorem run_eventTask_accepted (w : World σ) (b : Nat) {pattern path type : String}
    (accepted : (parse (substituteFile pattern path)).accepts type = true) :
    (eventTask b (.text pattern) ⟨.text type, .text path⟩).run w =
      (.ok (.eventTask (parse (substituteFile pattern path)).occasion (parse (substituteFile pattern path)).task
        (watchedTask b (w.board b).registry (parse (substituteFile pattern path)).task)
        (parse (substituteFile pattern path)).part), w) := by
  have placed : (Act.ofExcept (placePath (.text pattern) (.text path)) : Act σ String).run w =
      (.ok (substituteFile pattern path), w) := rfl
  unfold eventTask
  rw [Act.run_bind_ok placed, Act.run_bind_ok (Act.run_board w b)]
  simp only [acceptsType, accepted, if_true]
  rfl

theorem run_eventTask_refused (w : World σ) (b : Nat) {pattern path type : String}
    (refused : (parse (substituteFile pattern path)).accepts type = false) :
    ∃ line, (eventTask b (.text pattern) ⟨.text type, .text path⟩).run w =
      (.ok (.eventTask (parse (substituteFile pattern path)).occasion (parse (substituteFile pattern path)).task
        .nothing (parse (substituteFile pattern path)).part), { w with log := w.log.push line }) := by
  have placed : (Act.ofExcept (placePath (.text pattern) (.text path)) : Act σ String).run w =
      (.ok (substituteFile pattern path), w) := rfl
  unfold eventTask
  rw [Act.run_bind_ok placed, Act.run_bind_ok (Act.run_board w b)]
  simp only [acceptsType, refused]
  exact ⟨_, rfl⟩

theorem run_eventTask (w : World σ) (b : Nat) {pattern path : String} (type : String) {p : WatchPattern}
    (read : parse (substituteFile pattern path) = p) :
    ∃ after, (eventTask b (.text pattern) ⟨.text type, .text path⟩).run w = (.ok (.eventTask p.occasion p.task
      (if p.accepts type then watchedTask b (w.board b).registry p.task else .nothing) p.part), after) := by
  subst read
  cases accepted : (parse (substituteFile pattern path)).accepts type with
  | true => exact ⟨w, run_eventTask_accepted w b accepted⟩
  | false =>
    obtain ⟨line, ran⟩ := run_eventTask_refused w b accepted
    exact ⟨_, ran⟩

theorem triggers_iff {w : World σ} {b : Nat} {pattern path type : String} :
    Triggers w b pattern ⟨.text type, .text path⟩ ↔ (parse (substituteFile pattern path)).accepts type = true := by
  obtain ⟨after, ran⟩ := run_eventTask w b type (rfl : parse (substituteFile pattern path) = _)
  constructor
  · rintro ⟨occasion, name, task, part, ended, callable, given⟩
    rw [ran] at given
    by_contra refused
    rw [if_neg refused] at given
    cases given
    cases callable
  · intro accepted
    rw [if_pos accepted] at ran
    exact ⟨_, _, _, _, after, isCallable_watchedTask b _ _, ran⟩

end Board

/-- The path of a file has no say in which events a pattern accepts. A pattern with such a path in it has the
filter that it has with the mark; the path comes into what is passed on, and into the texts of the name. So
two events of one type, each about such a path, both trigger a task or both do not. -/
theorem parse_substituteFile_plain {σ : Type} {pattern path : String} (plain : PlainPath path.toList) :
    (parse (substituteFile pattern path)).types = (parse pattern).types ∧
    (parse (substituteFile pattern path)).occasion = (parse pattern).occasion ∧
    (∀ type, (parse (substituteFile pattern path)).accepts type = (parse pattern).accepts type) ∧
    (parse (substituteFile pattern path)).part = (parse pattern).part.map (substituteFile · path) ∧
    (parse (substituteFile pattern path)).task = String.ofList
      ((WatchToken.tokenize (nameOf pattern)).flatMap fun token => place path.toList token.literal) ∧
    ∀ (other type : String), PlainPath other.toList → ∀ (w w' : World σ) (b b' : Nat),
      Board.Triggers w b pattern ⟨.text type, .text path⟩ ↔ Board.Triggers w' b' pattern ⟨.text type, .text other⟩ := by
  obtain ⟨name, others, cut⟩ := List.exists_cons_of_ne_nil (Text.pieces_ne_nil ':' pattern.toList)
  obtain ⟨named, written⟩ := parse_of_pieces cut
  have read : ∀ path : String, PlainPath path.toList → parse (substituteFile pattern path) =
      { parse pattern with
        task := String.ofList ((WatchToken.tokenize name).flatMap fun token => place path.toList token.literal)
        part := (parse pattern).part.map (substituteFile · path) } := by
    intro path plain
    have placed : Text.pieces ':' (substituteFile pattern path).toList = _ := pieces_substituteFile plain
    rw [cut, List.map_cons] at placed
    obtain ⟨types, literals⟩ := tokenize_place plain name
    rw [(parse_of_pieces placed).2, written, types, literals, partOf_place plain]
  have here := read path plain
  rw [named]
  refine ⟨by rw [here], by rw [here]; rfl, fun type => by rw [here]; rfl, by rw [here], by rw [here], ?_⟩
  intro other type plainOther w w' b b'
  rw [Board.triggers_iff, Board.triggers_iff, here, read other plainOther]
  rfl

/-- A mark inside braces, two marks that share a character, and one that a group cuts. -/
def entangled : String := "a{%FILE%}%FILE%FILE%{change | add}%FI{x}LE%:%FILE%"

theorem plain_script : PlainPath "x/y.js".toList := ⟨by decide, by decide, by decide, '/', by decide, by decide⟩

theorem plain_hyphen : PlainPath "b-1".toList := ⟨by decide, by decide, by decide, '-', by decide, by decide⟩

theorem parse_substituteFile_plain_entangled :
    PlainPath "x/y.js".toList ∧ (parse (substituteFile entangled "x/y.js")).types = some ["change", "add"] ∧
    (parse (substituteFile entangled "x/y.js")).part = some "x/y.js" ∧
    (parse (substituteFile entangled "x/y.js")).task = "a{x/y.js}x/y.jsFILE%%FILE%" ∧
    PlainPath "b-1".toList ∧
    (Board.Triggers ({ user := () } : World Unit) 0 entangled ⟨.text "add", .text "x/y.js"⟩ ↔
      Board.Triggers ({ user := () } : World Unit) 0 entangled ⟨.text "add", .text "b-1"⟩) := by
  have types : (parse entangled).types = some ["change", "add"] := by decide +kernel
  have part : (parse entangled).part.map (substituteFile · "x/y.js") = some "x/y.js" := by decide +kernel
  have texts : String.ofList ((WatchToken.tokenize (nameOf entangled)).flatMap fun token =>
      place "x/y.js".toList token.literal) = "a{x/y.js}x/y.jsFILE%%FILE%" := by decide +kernel
  obtain ⟨filter, -, -, passed, task, both⟩ := @parse_substituteFile_plain Unit entangled _ plain_script
  exact ⟨plain_script, filter.trans types, passed.trans part, task.trans texts, plain_hyphen,
    both "b-1" "add" plain_hyphen _ _ 0 0⟩

end TaskBoard
