import TaskBoard.Board.Sources
import TaskBoard.Proofs.Acting
import TaskBoard.Proofs.Pattern.Rewriting

/-!
Files from providers. A plugin is called as it is and a task is run with its board as context; from there on the files
of both come in one way: every path that was given without the working directory, in order, and only those with the
extension where the pattern names one. A name that is not registered for its mark gives no files and calls nothing.
-/

namespace TaskBoard

open Act

variable {σ : Type}

/-- What provides files under a name. -/
inductive Provider where
  | plugin
  | task
  deriving DecidableEq

namespace Provider

/-- What a pattern for its files begins with. -/
def mark : Provider → String
  | plugin => "#"
  | task => "@"

def kind : Provider → RegistryKind
  | plugin => .plugin
  | task => .task

def pattern (name : String) (extension : Option String) : Provider → SourcePattern
  | plugin => .plugin name extension
  | task => .task name extension

/-- The world in which it is called: a task has its board as context. -/
def entered (b : Nat) (w : World σ) : Provider → World σ
  | plugin => w
  | task => { w with current := some b }

end Provider

/-- The extension that stands in a pattern; an empty one is none. -/
def extensionOf (text : String) : Option String := if text = "" then none else some text

section Patterns

variable {name extension : String} (provider : Provider)

theorem suffixPiece_cons (first : List Char) (text : String) (others : List (List Char)) :
    SourcePattern.suffixPiece (first :: text.toList :: others) = extensionOf text := by
  unfold extensionOf
  split
  next empty =>
    rw [empty]
    rfl
  next filled =>
    cases shape : text.toList with
    | nil => exact absurd (String.toList_eq_nil_iff.mp shape) filled
    | cons c rest =>
      rw [← String.ofList_toList (s := text), shape]
      rfl

theorem Provider.parse_mark (text : String) : SourcePattern.parse (provider.mark ++ text) =
    provider.pattern (SourcePattern.firstPiece (Text.pieces ':' text.toList))
      (SourcePattern.suffixPiece (Text.pieces ':' text.toList)) := by
  cases provider <;> simp [SourcePattern.parse, mark, pattern, String.toList_append]

variable (whole : ':' ∉ name.toList)
include whole

theorem Provider.parse_name : SourcePattern.parse (provider.mark ++ name) = provider.pattern name none := by
  rw [parse_mark, Text.pieces_of_notMem whole]
  exact congrArg (provider.pattern · none) String.ofList_toList

theorem Provider.parse_colon (more : String) : SourcePattern.parse (provider.mark ++ name ++ (":" ++ more)) =
    provider.pattern name (SourcePattern.suffixPiece (name.toList :: Text.pieces ':' more.toList)) := by
  have text : (name ++ (":" ++ more)).toList = name.toList ++ ':' :: more.toList := by simp
  rw [String.append_assoc, parse_mark, text, Text.pieces_append_cons whole]
  exact congrArg (provider.pattern · _) String.ofList_toList

theorem Provider.parse_extension (plain : ':' ∉ extension.toList) :
    SourcePattern.parse (provider.mark ++ name ++ (":" ++ extension)) = provider.pattern name (extensionOf extension) := by
  rw [parse_colon provider whole, Text.pieces_of_notMem plain, suffixPiece_cons]

theorem Provider.parse_further (plain : ':' ∉ extension.toList) (more : String) :
    SourcePattern.parse (provider.mark ++ name ++ (":" ++ (extension ++ ":" ++ more))) =
      provider.pattern name (extensionOf extension) := by
  have text : (extension ++ ":" ++ more).toList = extension.toList ++ ':' :: more.toList := by simp
  rw [parse_colon provider whole, text, Text.pieces_append_cons plain, suffixPiece_cons]

theorem Provider.parse_named {tail : String} (opens : tail = "" ∨ ∃ more, tail = ":" ++ more) :
    ∃ extension, SourcePattern.parse (provider.mark ++ name ++ tail) = provider.pattern name extension := by
  rcases opens with rfl | ⟨more, rfl⟩
  · rw [String.append_empty]
    exact ⟨none, provider.parse_name whole⟩
  · exact ⟨_, provider.parse_colon whole more⟩

end Patterns

/-- A callable gives some paths when it is called without arguments, and a board has a working directory then. -/
def UserCode.Gives (code : UserCode σ) (b : Nat) (f : Callable) (paths : List String) (cwd : String) (w : World σ) :
    Prop :=
  ∃ v after, (Board.call code (.callable f) []).run w = (.ok v, after) ∧
    v.elements? after.heap = some (paths.map .text) ∧ (after.board b).cwd = cwd

namespace Board

variable {code : UserCode σ} {b : Nat} {w : World σ} {name : String} {f : Callable} {paths : List String} {cwd : String}

def filesFrom (cwd : String) (extension : Option String) (paths : List String) : List (List Char) :=
  (paths.map fun path => Path.stripCwd path.toList cwd.toList).filter (hasExtension extension)

theorem mapM_stripped (cwd : String) (paths : List String) :
    (paths.map .text).mapM (stripped cwd) = .ok (paths.map fun path => Path.stripCwd path.toList cwd.toList) := by
  induction paths with
  | nil => rfl
  | cons path paths ih =>
    rw [List.map_cons, List.mapM_cons, ih]
    rfl

theorem run_provided {v : Value} (listed : v.elements? w.heap = some (paths.map .text)) (b : Nat)
    (extension : Option String) :
    (provided b extension v).run w = (.ok ((filesFrom (w.board b).cwd extension paths).map toText), w) := by
  have elements : (Act.elements v).run w = (.ok (paths.map .text), w) := by
    unfold Act.elements
    rw [run_bind_ok (run_heap w), listed]
    rfl
  have some : provided b extension v = (do
      let entries ← Act.elements v
      let cwd := (← Act.board b).cwd
      let files ← Act.ofExcept (entries.mapM (stripped cwd))
      pure ((files.filter (hasExtension extension)).map toText) : Act σ (List Value)) := by
    cases v with
    | nothing => cases listed
    | _ => rfl
  rw [some, run_bind_ok elements, run_bind_ok (run_board w b)]
  dsimp only
  rw [mapM_stripped, run_bind_ok (run_ofExcept w _)]
  rfl

theorem run_listFiles_provider (provider : Provider) (extension : Option String)
    (registered : ((w.board b).registry.mapping provider.kind).at? name = some (.callable f))
    (gives : code.Gives b f paths cwd (provider.entered b w)) :
    ∃ after, (listFiles code b (provider.pattern name extension)).run w =
      (.ok ((filesFrom cwd extension paths).map toText), after) := by
  obtain ⟨v, after, called, listed, rfl⟩ := gives
  cases provider with
  | plugin =>
    have found : (w.board b).registry.plugins.at? name = some (.callable f) := registered
    refine ⟨after, ?_⟩
    unfold Provider.pattern listFiles
    dsimp only
    rw [run_bind_ok (run_board w b), found]
    exact (run_bind_ok called).trans (run_provided listed b extension)
  | task =>
    have found : (w.board b).registry.tasks.at? name = some (.callable f) := registered
    let left : World σ := { after with current := w.current }
    have entered : (Act.inContext (some b) (Board.call code (.callable f) [])).run w = (.ok v, left) :=
      run_inContext called
    have plain : (bind b v).run left = (.ok v, left) := by
      cases v with
      | routine r => cases listed
      | _ => rfl
    have ran : (runTask code b (.callable f) .nothing .nothing).run w = (.ok v, left) := by
      have empty : (arguments .nothing : Act σ (List Value)).run w = (.ok [], w) := rfl
      unfold runTask TaskRef.ofValue runDirect callBound
      dsimp only
      rw [run_bind_ok empty, run_bind_ok entered, plain]
    refine ⟨left, ?_⟩
    unfold Provider.pattern listFiles
    dsimp only
    rw [run_bind_ok (run_board w b), found]
    exact (run_bind_ok ran).trans (run_provided (w := left) listed b extension)

theorem run_listFiles_missing (code : UserCode σ) (provider : Provider) (extension : Option String)
    (missing : Value.ofOption (((w.board b).registry.mapping provider.kind).at? name) = .nothing) :
    (listFiles code b (provider.pattern name extension)).run w = (.ok [], w) := by
  cases provider with
  | plugin =>
    have none : Value.ofOption ((w.board b).registry.plugins.at? name) = .nothing := missing
    unfold Provider.pattern listFiles
    dsimp only
    rw [run_bind_ok (run_board w b), none]
    rfl
  | task =>
    have none : Value.ofOption ((w.board b).registry.tasks.at? name) = .nothing := missing
    unfold Provider.pattern listFiles
    dsimp only
    rw [run_bind_ok (run_board w b), none]
    rfl

/-- To resolve a pattern is to list its files, and to tell how many there are. -/
theorem run_resolveSources_of {text : String} {files : List Value} {after : World σ}
    (listed : (listFiles code b (SourcePattern.parse text)).run w = (.ok files, after)) :
    (resolveSources code b (.text text)).run w = (.ok files, { after with
      log := after.log.push ⟨.debug, " -  Collected " ++ toString files.length ++ " files from " ++ text, none⟩ }) := by
  unfold resolveSources
  rw [run_bind_ok listed]
  rfl

/-- A callable that is registered as plugin and as task under one name provides the same files either way: all its paths
in order, without the working directory, and with an extension exactly those that end with it after a dot. An empty
extension is none, and nothing that comes after another colon matters. Where the name is not registered for the mark
there are no files, whatever else is registered, and neither the host nor the glob primitive nor anything else is called:
nothing happens but one line in the log. -/
theorem providers_alike (whole : ':' ∉ name.toList)
    (registered : ∀ p : Provider, ((w.board b).registry.mapping p.kind).at? name = some (.callable f))
    (gives : ∀ p : Provider, code.Gives b f paths cwd (p.entered b w)) :
    let files := paths.map fun path => Path.stripCwd path.toList cwd.toList
    let resolved := fun (p : Provider) tail => ((resolveSources code b (.text (p.mark ++ name ++ tail))).run w).1
    (∀ p, resolved p "" = .ok (files.map toText) ∧ resolved p ":" = resolved p "" ∧
      (∀ extension, extension ≠ "" → ':' ∉ extension.toList → resolved p (":" ++ extension) =
        .ok ((files.filter fun file => ('.' :: extension.toList).isSuffixOf file).map toText)) ∧
      ∀ extension more, ':' ∉ extension.toList →
        resolved p (":" ++ extension ++ ":" ++ more) = resolved p (":" ++ extension)) ∧
    ∀ (p : Provider) (other : UserCode σ) (v : World σ) tail, (tail = "" ∨ ∃ more, tail = ":" ++ more) →
      Value.ofOption (((v.board b).registry.mapping p.kind).at? name) = .nothing →
      (resolveSources other b (.text (p.mark ++ name ++ tail))).run v = (.ok [], { v with
        log := v.log.push ⟨.debug, " -  Collected 0 files from " ++ (p.mark ++ name ++ tail), none⟩ }) := by
  intro files resolved
  have lists : ∀ p tail extension, SourcePattern.parse (p.mark ++ name ++ tail) = p.pattern name extension →
      resolved p tail = .ok ((filesFrom cwd extension paths).map toText) := by
    intro p tail extension parsed
    obtain ⟨after, ran⟩ := run_listFiles_provider p extension (registered p) (gives p)
    exact congrArg Prod.fst (run_resolveSources_of (parsed ▸ ran))
  have all : filesFrom cwd none paths = files := List.filter_true _
  have bare : ∀ p, resolved p "" = .ok ((filesFrom cwd none paths).map toText) := by
    intro p
    apply lists
    rw [String.append_empty]
    exact p.parse_name whole
  have given : ∀ p extension, ':' ∉ extension.toList →
      resolved p (":" ++ extension) = .ok ((filesFrom cwd (extensionOf extension) paths).map toText) :=
    fun p extension plain => lists p _ _ (p.parse_extension whole plain)
  refine ⟨fun p => ⟨(bare p).trans (by rw [all]), (given p "" List.not_mem_nil).trans (bare p).symm, ?_, ?_⟩, ?_⟩
  · intro extension filled plain
    rw [given p extension plain, extensionOf, if_neg filled]
    rfl
  · intro extension more plain
    have text : ":" ++ extension ++ ":" ++ more = ":" ++ (extension ++ ":" ++ more) := by
      simp only [String.append_assoc]
    rw [given p extension plain, text]
    exact lists p _ _ (p.parse_further whole plain more)
  · intro p other v tail opens missing
    obtain ⟨extension, parsed⟩ := p.parse_named whole opens
    have none := run_listFiles_missing other p extension missing
    rw [← parsed] at none
    exact run_resolveSources_of none

namespace Shelf

/-- User code that lists the same paths whenever it is called. -/
def shelf : UserCode Unit where
  call _ _ := do return .value (← Act.newList
    [.text "/home/me/a.js", .text "/home/mellow/b.js", .text "c.css", .text "/home/me/a.js"])
  resume _ _ _ _ := pure .pause
  run _ _ := pure []
  label? _ _ := none

def listed : List String := ["/home/me/a.js", "/home/mellow/b.js", "c.css", "/home/me/a.js"]

/-- A board with the code under one name as plugin and as task. -/
def stocked : World Unit where
  boards := #[{
    cwd := "/home/me/"
    runner := 1
    registry := {
      tasks := ⟨[(.text "lib", .callable (.user 0))]⟩
      plugins := ⟨[(.text "lib", .callable (.user 0))]⟩ } }]
  user := ()

theorem gives_shelf (w : World Unit) : shelf.Gives 0 (.user 0) listed (w.board 0).cwd w := by
  refine ⟨.list w.heap.lists.size, { w with heap := (w.heap.newList (listed.map .text)).2 }, rfl, ?_, rfl⟩
  exact congrArg some (Heap.listAt_newList_newest w.heap _)

/-- Paths that are given twice are listed twice, and a sibling of the working directory stays whole. -/
theorem providers_alike_stocked :
    let resolved := fun (p : Provider) tail =>
      ((resolveSources shelf 0 (.text (p.mark ++ "lib" ++ tail))).run stocked).1
    (∀ p : Provider, ((stocked.board 0).registry.mapping p.kind).at? "lib" = some (.callable (.user 0))) ∧
      ∀ p, resolved p "" = .ok [.text "a.js", .text "home/mellow/b.js", .text "c.css", .text "a.js"] ∧
        resolved p ":js" = .ok [.text "a.js", .text "home/mellow/b.js", .text "a.js"] ∧
        resolved p ":" = resolved p "" ∧ resolved p ":js:css" = resolved p ":js" := by
  intro resolved
  have registered : ∀ p : Provider,
      ((stocked.board 0).registry.mapping p.kind).at? "lib" = some (.callable (.user 0)) := by
    intro p
    cases p <;> rfl
  have gives : ∀ p : Provider, shelf.Gives 0 (.user 0) listed "/home/me/" (p.entered 0 stocked) := by
    intro p
    cases p <;> exact gives_shelf _
  have files : (listed.map fun path => Path.stripCwd path.toList "/home/me/".toList) =
      ["a.js".toList, "home/mellow/b.js".toList, "c.css".toList, "a.js".toList] := by decide +kernel
  have scripts : (["a.js".toList, "home/mellow/b.js".toList, "c.css".toList, "a.js".toList].filter
      fun file => ('.' :: "js".toList).isSuffixOf file) =
        ["a.js".toList, "home/mellow/b.js".toList, "a.js".toList] := by decide +kernel
  obtain ⟨each, -⟩ := providers_alike (by decide +kernel) registered gives
  refine ⟨registered, fun p => ?_⟩
  obtain ⟨bare, colon, extended, further⟩ := each p
  refine ⟨bare.trans ?_, (extended "js" (by decide) (by decide +kernel)).trans ?_, colon,
    further "js" "css" (by decide +kernel)⟩
  · rw [files]
    simp [toText]
  · rw [files, scripts]
    simp [toText]

end Shelf

end Board

end TaskBoard
