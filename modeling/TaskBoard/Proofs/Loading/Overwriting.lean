import TaskBoard.Proofs.Loading.Entering
import TaskBoard.Proofs.Loading.Merging

/-!
The registries as a log of writes. Every call that registers something, of whatever kind and whether it fails or
not, writes the first of the entries that it is given, each into one registry under one name. So after any calls a
registry holds, for each name, the value that was written last, its names stand in the order of their first writes,
and what was written into the other registries has no say.
-/

namespace TaskBoard

open Act

variable {σ α : Type}

namespace Mapping

def lastValue (key : Value) (entries : List (Value × Value)) : Option Value :=
  (entries.reverse.find? (·.1.sameKey key)).map (·.2)

theorem get?_insertAll (m : Mapping) (entries : List (Value × Value)) (key : Value) :
    (m.insertAll entries).get? key = (lastValue key entries).or (m.get? key) := by
  induction entries using List.reverseRecOn with
  | nil => rfl
  | append_singleton entries entry ih =>
    have written : m.insertAll (entries ++ [entry]) = (m.insertAll entries).insert entry.1 entry.2 :=
      insertAll_append m entries [entry]
    rw [written, lastValue, List.reverse_append, List.reverse_singleton, List.singleton_append, List.find?_cons]
    cases same : entry.1.sameKey key with
    | true => exact lookup_write_same entry.2 same _
    | false => exact (get?_insert_other _ entry.2 same).trans ih

theorem eraseDupsBy_append_singleton (keys : List Value) (key : Value) :
    (keys ++ [key]).eraseDupsBy Value.sameKey =
      if (keys.eraseDupsBy Value.sameKey).any (·.sameKey key) then keys.eraseDupsBy Value.sameKey
      else keys.eraseDupsBy Value.sameKey ++ [key] := by
  induction bound : keys.length using Nat.strongRecOn generalizing keys with
  | _ length ih =>
    subst bound
    cases keys with
    | nil => rfl
    | cons first rest =>
      have shorter : (rest.filter fun later => decide (later.sameKey first = false)).length < (first :: rest).length :=
        Nat.lt_succ_of_le (List.length_filter_le _ rest)
      have later := ih _ shorter _ rfl
      rw [List.cons_append, List.eraseDupsBy_cons, List.eraseDupsBy_cons, List.filter_append, List.any_cons]
      cases same : first.sameKey key with
      | true =>
        have dropped : key.sameKey first = true := by rw [Value.sameKey_comm, same]
        simp [dropped]
      | false =>
        have kept : key.sameKey first = false := by rw [Value.sameKey_comm, same]
        simp only [List.filter_singleton, kept, decide_true, cond_true, Bool.false_or, later]
        split <;> rfl

theorem keys_insertAll (entries : List (Value × Value)) :
    (insertAll {} entries).keys = (entries.map (·.1)).eraseDupsBy Value.sameKey := by
  induction entries using List.reverseRecOn with
  | nil => rfl
  | append_singleton entries entry ih =>
    have written : insertAll {} (entries ++ [entry]) = (insertAll {} entries).insert entry.1 entry.2 :=
      insertAll_append {} entries [entry]
    rw [written, keys_insert_eq, ih, List.map_append, List.map_singleton, eraseDupsBy_append_singleton]

end Mapping

/-- The writes into the registry of a kind, as names with values. -/
def writesOf (kind : RegistryKind) (slots : List Slot) : List (Value × Value) :=
  (slots.filter (·.kind = kind)).map fun slot => (slot.name, slot.value)

theorem Registry.mapping_putAll (r : Registry) (slots : List Slot) (kind : RegistryKind) :
    (r.putAll slots).mapping kind = (r.mapping kind).insertAll (writesOf kind slots) := by
  induction slots generalizing r with
  | nil => rfl
  | cons slot rest ih =>
    have put : (r.putAll (slot :: rest)).mapping kind =
        ((r.put slot.kind slot.name slot.value).mapping kind).insertAll (writesOf kind rest) := ih _
    rw [put]
    by_cases own : slot.kind = kind
    · subst own
      simp only [mapping_put_self, writesOf, List.filter_cons, decide_true, if_true]
      rfl
    · rw [mapping_put_other r slot.name slot.value own]
      simp [writesOf, own]

/-- A call that registers something: an entry of a kind that is named, or the entries of a mapping. -/
inductive RegistryCall where
  | register (kind name v : Value)
  | bundle (cell : Nat) (source : Value)
  | configure (cell : Nat)
  | plugins (cell : Nat)

namespace RegistryCall

open Board

def act (code : UserCode σ) (b : Nat) : RegistryCall → Act σ PUnit
  | register kind name v => registerAs b kind name v
  | bundle cell source => registerBundle code b (.map cell) source
  | configure cell => Board.configure code b (.map cell)
  | plugins cell => loadPlugins b (.map cell)

/-- Where the entries of a call go; an unknown kind has no place. -/
def slots (code : UserCode σ) (w : World σ) : RegistryCall → List Slot
  | register kind name v => ((kind.text?.bind RegistryKind.ofText?).map fun kind => ⟨kind, name, v⟩).toList
  | bundle cell source => bundleSlots code w source (w.heap.mapAt cell).entries
  | configure cell => configSlots (w.heap.mapAt cell).entries
  | plugins cell => pluginSlots (w.heap.mapAt cell).entries

/-- Whether a call stores what goes to a slot. A name that is given by itself has to be able to be a key. -/
def fits : RegistryCall → Slot → Bool
  | register .., slot => slot.name.hashable
  | _, slot => slot.fits

/-- The writes that a call makes: those of its entries, up to the first one that does not fit. -/
def writes (code : UserCode σ) (w : World σ) (call : RegistryCall) : List Slot :=
  (call.slots code w).takeWhile call.fits

/-- Whether a call names a kind that there is, if it names one. -/
def Known : RegistryCall → Prop
  | register kind _ _ => ∃ known : RegistryKind, kind = .text known.word
  | _ => True

end RegistryCall

section Kinds

variable {b : Nat} {w : World σ} {kind name v : Value}

theorem ofText?_word (kind : RegistryKind) : RegistryKind.ofText? kind.word = some kind := by
  cases kind <;> rfl

theorem ofText?_eq_none {text : String} (unknown : ∀ kind : RegistryKind, text ≠ kind.word) :
    RegistryKind.ofText? text = none := by
  apply List.find?_eq_none.mpr
  intro kind _ same
  exact unknown kind (beq_iff_eq.mp same).symm

theorem bind_ofText?_eq_none (unknown : ∀ kind' : RegistryKind, kind ≠ .text kind'.word) :
    kind.text?.bind RegistryKind.ofText? = none := by
  cases kind with
  | text text => exact ofText?_eq_none fun kind' same => unknown kind' (congrArg Value.text same)
  | _ => rfl

theorem ofValue_word (h : Heap) (kind : RegistryKind) : RegistryKind.ofValue h (.text kind.word) = .ok kind := by
  cases kind <;> rfl

/-- A value that is the word of no kind is refused. -/
theorem ofValue_unknown (h : Heap) (unknown : ∀ kind' : RegistryKind, kind ≠ .text kind'.word) :
    ∃ failure, RegistryKind.ofValue h kind = .error failure ∧
      ∀ text, kind = .text text → ∃ told, failure = .unknownKind told := by
  unfold RegistryKind.ofValue
  rw [bind_ofText?_eq_none unknown]
  cases written : h.written Heap.writingDepth kind with
  | error failure =>
    refine ⟨failure, rfl, ?_⟩
    rintro text rfl
    cases written
  | ok told => exact ⟨_, rfl, fun _ _ => ⟨told, rfl⟩⟩

theorem run_registerAs_word (kind : RegistryKind) :
    (Board.registerAs b (.text kind.word) name v).run w = (Board.register b kind name v).run w := by
  unfold Board.registerAs
  rw [run_bind_ok (run_heap w), ofValue_word, run_bind_ok (run_ofExcept w _)]

theorem run_lookUp_word (kind : RegistryKind) (key : name.hashable = true) :
    (Board.lookUp b (.text kind.word) name).run w =
      (.ok (Value.ofOption (((w.board b).registry.mapping kind).get? name)), w) := by
  have found : (w.board b).registry.get kind name = .ok (((w.board b).registry.mapping kind).get? name) := by
    unfold Registry.get
    rw [key]
    rfl
  unfold Board.lookUp
  rw [run_bind_ok (run_heap w), ofValue_word, run_bind_ok (run_ofExcept w _), run_bind_ok (run_board w b), found]
  rfl

theorem run_unknown (b : Nat) (w : World σ) (name v : Value) (unknown : ∀ kind' : RegistryKind, kind ≠ .text kind'.word) :
    ∃ failure, (Board.registerAs b kind name v).run w = (.error failure, w) ∧
      (Board.lookUp b kind name).run w = (.error failure, w) ∧
      ∀ text, kind = .text text → ∃ told, failure = .unknownKind told := by
  obtain ⟨failure, refused, tells⟩ := ofValue_unknown w.heap unknown
  have stops : (Act.ofExcept (RegistryKind.ofValue w.heap kind) : Act σ RegistryKind).run w = (.error failure, w) := by
    rw [refused]
    rfl
  refine ⟨failure, ?_, ?_, tells⟩
  · unfold Board.registerAs
    rw [run_bind_ok (run_heap w), run_bind_error stops]
  · unfold Board.lookUp
    rw [run_bind_ok (run_heap w), run_bind_error stops]

end Kinds

theorem Value.sameKey_text {v : Value} {s : String} : v.sameKey (.text s) = true ↔ v = .text s := by
  constructor
  · intro same
    have spelt : v.key? = some [.text s] := by simpa [Value.sameKey, Value.key?] using same
    cases v <;> simp [Value.key?] at spelt
    case text => rw [spelt]
    case real x => split at spelt <;> simp at spelt
    case moment m => split at spelt <;> simp at spelt
  · rintro rfl
    exact Value.sameKey_refl _

/-- Where the entry of a bundle goes. The one that is named `init` is an initializer, whatever it is: it goes under
the name that it carries or else under the source of the bundle, unless these are empty. Other callables are tasks,
and everything else is a configuration. -/
inductive Routed (code : UserCode σ) (w : World σ) (source : Value) : Value × Value → Slot → Prop where
  | named {name v : Value} (carries : Board.ownName code w v = some name) (counts : name.truthy w.heap = true) :
    Routed code w source (.text "init", v) ⟨.init, name, v⟩
  | sourced {v : Value} (unnamed : ∀ name, Board.ownName code w v = some name → name.truthy w.heap = false)
    (counts : source.truthy w.heap = true) : Routed code w source (.text "init", v) ⟨.init, source, v⟩
  | plain {v : Value} (unnamed : ∀ name, Board.ownName code w v = some name → name.truthy w.heap = false)
    (unsourced : source.truthy w.heap = false) : Routed code w source (.text "init", v) ⟨.init, .text "init", v⟩
  | task {name v : Value} (other : name ≠ .text "init") (callable : v.isCallable = true) :
    Routed code w source (name, v) ⟨.task, name, v⟩
  | config {name v : Value} (other : name ≠ .text "init") (uncallable : v.isCallable = false) :
    Routed code w source (name, v) ⟨.config, name, v⟩

theorem routed_bundleSlot (code : UserCode σ) (w : World σ) (source : Value) (entry : Value × Value) :
    Routed code w source entry (Board.bundleSlot code w source entry) := by
  obtain ⟨name, v⟩ := entry
  by_cases initial : name = .text "init"
  · subst initial
    have place : Board.bundleSlot code w source (.text "init", v) =
        ⟨.init, Board.initializerName code w source v, v⟩ := rfl
    rw [place]
    unfold Board.initializerName
    cases own : (Board.ownName code w v).filter (Value.truthy w.heap) with
    | some name =>
      obtain ⟨carries, counts⟩ := Option.filter_eq_some_iff.mp own
      exact .named carries counts
    | none =>
      have unnamed : ∀ name, Board.ownName code w v = some name → name.truthy w.heap = false := by
        intro name carries
        exact Bool.eq_false_iff.mpr (Option.filter_eq_none_iff.mp own name carries)
      by_cases counts : source.truthy w.heap = true
      · rw [if_pos counts]
        exact .sourced unnamed counts
      · rw [if_neg counts]
        exact .plain unnamed (Bool.eq_false_iff.mpr counts)
  · have foreign : name.sameKey (.text "init") = false := Bool.eq_false_iff.mpr (mt Value.sameKey_text.mp initial)
    unfold Board.bundleSlot RegistryKind.ofEntry
    rw [foreign]
    by_cases callable : v.isCallable = true
    · simp only [callable]
      exact .task initial callable
    · simp only [callable]
      exact .config initial (Bool.eq_false_iff.mpr callable)

section Runs

variable {code : UserCode σ} {b : Nat}

open Board

theorem slots_register_word (w : World σ) (kind : RegistryKind) (name v : Value) :
    (RegistryCall.register (.text kind.word) name v).slots code w = [⟨kind, name, v⟩] := by
  change ((RegistryKind.ofText? kind.word).map fun kind => (⟨kind, name, v⟩ : Slot)).toList = _
  rw [ofText?_word]
  rfl

theorem slots_register_unknown {kind : Value} (w : World σ) (name v : Value)
    (unknown : ∀ kind' : RegistryKind, kind ≠ .text kind'.word) :
    (RegistryCall.register kind name v).slots code w = [] := by
  change ((kind.text?.bind RegistryKind.ofText?).map fun kind => (⟨kind, name, v⟩ : Slot)).toList = _
  rw [bind_ofText?_eq_none unknown]
  rfl

theorem files_call (code : UserCode σ) (b : Nat) (call : RegistryCall) (known : call.Known) :
    Files (call.act code b) b call.fits fun w => call.slots code w := by
  cases call with
  | configure cell => exact files_configure code b cell
  | plugins cell => exact files_loadPlugins cell
  | bundle cell source => exact fun w => files_enterBundle code b (w.heap.mapAt cell).entries source w
  | register kind name v =>
    obtain ⟨kind, rfl⟩ := known
    intro w
    obtain ⟨lines, quiet, ran⟩ := @files_register σ b kind name v w
    refine ⟨lines, quiet, ?_⟩
    simp only [slots_register_word, RegistryCall.act, run_registerAs_word]
    exact ran

/-- A call makes its writes and logs, whether it fails or not. It fails if it names an unknown kind or if one of its
entries does not fit. -/
theorem run_call (code : UserCode σ) (b : Nat) (call : RegistryCall) (w : World σ) :
    ∃ lines, Harmless lines ∧ ((call.act code b).run w).2 = (w.filled b (call.writes code w)).noting lines ∧
      (((call.act code b).run w).1 = .ok ⟨⟩ ↔ call.Known ∧ call.writes code w = call.slots code w) := by
  by_cases known : call.Known
  · obtain ⟨lines, quiet, ran⟩ := files_call code b call known w
    refine ⟨lines, quiet, by rw [ran]; rfl, ?_⟩
    have whole : call.writes code w = call.slots code w ↔ (call.slots code w).all call.fits = true := by
      rw [RegistryCall.writes, List.takeWhile_eq_self_iff, List.all_eq_true]
    rw [ran, whole]
    dsimp only
    split
    next all => simp [known, all]
    next some => simp [some]
  · cases call with
    | register kind name v =>
      have unknown : ∀ kind' : RegistryKind, kind ≠ .text kind'.word := fun kind' same => known ⟨kind', same⟩
      obtain ⟨failure, refused, -⟩ := run_unknown b w name v unknown
      refine ⟨[], harmless_nil, ?_, ?_⟩
      · rw [RegistryCall.writes, slots_register_unknown w name v unknown, RegistryCall.act, refused,
          List.takeWhile_nil, World.filled_nil, World.noting_nil]
      · rw [RegistryCall.act, refused]
        simp [known]
    | _ => exact absurd trivial known

/-- What a call writes is not changed by what others have written before. -/
theorem writes_filled (call : RegistryCall) (w : World σ) (slots : List Slot) (lines : List LogLine) :
    call.writes code ((w.filled b slots).noting lines) = call.writes code w := by
  cases call <;> rfl

def afterCalls (code : UserCode σ) (b : Nat) (calls : List RegistryCall) (w : World σ) : World σ :=
  calls.foldl (fun w call => ((call.act code b).run w).2) w

def writtenBy (code : UserCode σ) (w : World σ) (calls : List RegistryCall) : List Slot :=
  calls.flatMap (RegistryCall.writes code w)

/-- The writes of the calls are all that they do besides logging. -/
theorem afterCalls_eq (code : UserCode σ) (b : Nat) (calls : List RegistryCall) (w : World σ) :
    ∃ lines, afterCalls code b calls w = (w.filled b (writtenBy code w calls)).noting lines := by
  induction calls generalizing w with
  | nil => exact ⟨[], by rw [writtenBy, List.flatMap_nil, World.filled_nil, World.noting_nil]; rfl⟩
  | cons call calls ih =>
    obtain ⟨lines, -, wrote, -⟩ := run_call code b call w
    obtain ⟨more, others⟩ := ih ((call.act code b).run w).2
    have steady : writtenBy code ((w.filled b (call.writes code w)).noting lines) calls = writtenBy code w calls :=
      congrArg (calls.flatMap ·) (funext fun later => writes_filled later w _ lines)
    have whole : writtenBy code w (call :: calls) = call.writes code w ++ writtenBy code w calls := List.flatMap_cons
    refine ⟨lines ++ more, ?_⟩
    change afterCalls code b calls ((call.act code b).run w).2 = _
    rw [others, wrote, steady, World.filled_noting, World.filled_filled, World.noting_noting, whole]

theorem registry_afterCalls {w : World σ} (known : b < w.boards.size) (calls : List RegistryCall) :
    ((afterCalls code b calls w).board b).registry = (w.board b).registry.putAll (writtenBy code w calls) := by
  obtain ⟨lines, same⟩ := afterCalls_eq code b calls w
  have read : ((w.filled b (writtenBy code w calls)).noting lines).board b = (w.board b).filled (writtenBy code w calls) :=
    World.board_setBoard_self _ known
  rw [same, read]
  rfl

end Runs

open Board

/-- The registries of a board are a log of writes in which the last one wins. Whatever calls register something, with
whatever names and whether they fail or not, each makes the writes of its entries up to the first one that cannot be
stored, and logs no error. Afterwards the registries hold what these writes have put there: under each name and kind
the value of the last write, or nothing where there was none, with the names of a kind in the order of their first
writes, and no registry sees the writes of another kind. An entry of a bundle is routed to one place. An unknown kind
is refused by a failure of its own, and nothing changes. -/
theorem registries_keep_last_writes {code : UserCode σ} {w : World σ} {b : Nat} (known : b < w.boards.size)
    (fresh : (w.board b).registry = {}) (calls : List RegistryCall) :
    (∀ kind name, name.hashable = true →
      (lookUp b (.text (RegistryKind.word kind)) name).run (afterCalls code b calls w) =
        (.ok (Value.ofOption (Mapping.lastValue name (writesOf kind (writtenBy code w calls)))),
          afterCalls code b calls w)) ∧
    (∀ kind,
      (((afterCalls code b calls w).board b).registry.mapping kind).keys =
        ((writesOf kind (writtenBy code w calls)).map (·.1)).eraseDupsBy Value.sameKey ∧
      ((afterCalls code b calls w).board b).registry.mapping kind =
        Mapping.insertAll {} (writesOf kind (writtenBy code w calls))) ∧
    (∀ (w : World σ) (call : RegistryCall), ∃ lines, Harmless lines ∧
      ((call.act code b).run w).2 = (w.filled b (call.writes code w)).noting lines ∧
      (((call.act code b).run w).1 = .ok ⟨⟩ ↔ call.Known ∧ call.writes code w = call.slots code w)) ∧
    (∀ (w : World σ) source entry, Routed code w source entry (bundleSlot code w source entry)) ∧
    ∀ (w : World σ) (kind name v : Value), (∀ other : RegistryKind, kind ≠ .text other.word) →
      ∃ failure, (registerAs b kind name v).run w = (.error failure, w) ∧
        (lookUp b kind name).run w = (.error failure, w) ∧
        ∀ text, kind = .text text → ∃ told, failure = .unknownKind told := by
  refine ⟨?_, ?_, fun w call => run_call code b call w, routed_bundleSlot code, fun w kind name v => run_unknown b w name v⟩
  all_goals
    have holds : ∀ kind, ((afterCalls code b calls w).board b).registry.mapping kind =
        Mapping.insertAll {} (writesOf kind (writtenBy code w calls)) := by
      intro kind
      have empty : ({} : Registry).mapping kind = {} := by cases kind <;> rfl
      rw [registry_afterCalls known, fresh, Registry.mapping_putAll, empty]
  · intro kind name key
    rw [run_lookUp_word kind key, holds kind, Mapping.get?_insertAll]
    have nothing : ({} : Mapping).get? name = none := rfl
    rw [nothing, Option.or_none]
  · exact fun kind => ⟨by rw [holds kind, Mapping.keys_insertAll], holds kind⟩

namespace Labelled

/-- User code whose first callable carries a name. -/
def code : UserCode Unit where
  call _ _ := pure (.value .nothing)
  resume _ _ _ _ := pure (.value .nothing)
  run _ _ := pure []
  label? _ id := if id = 0 then some (.text "setup") else none

/-- A bundle with an initializer, a task and a configuration. -/
def start : World Unit where
  heap := { maps := #[⟨[(.text "init", .callable (.user 0)), (.text "f", .callable (.user 1)), (.whole 1, .text "a")]⟩] }
  boards := #[{ cwd := "/", runner := 0 }]
  user := ()

/-- A number that is too long to be written. -/
def endless : Value := .whole (Nat.pow 10 5000)

/-- The bundle, another spelling of its number, a kind that is unknown, a name that is no key, and a name twice that the
log cannot tell. -/
def calls : List RegistryCall := [
  .bundle 0 (.text "tasks.py"), .register (.text "config") (.flag true) (.text "b"),
  .register (.text "recipe") (.text "f") .nothing, .register (.text "config") (.list 0) .nothing,
  .register (.text "config") endless (.text "c"), .register (.text "config") endless (.text "d")]

/-- The registries that the calls leave. -/
def reached : Registry := ((afterCalls code 0 calls start).board 0).registry

theorem registries_keep_last_writes_labelled :
    0 < start.boards.size ∧ (start.board 0).registry = {} ∧
    (lookUp 0 (.text "config") endless).run (afterCalls code 0 calls start) =
      (.ok (Value.ofOption (Mapping.lastValue endless (writesOf .config (writtenBy code start calls)))),
        afterCalls code 0 calls start) ∧
    (((afterCalls code 0 calls start).board 0).registry.mapping .config).keys =
      ((writesOf .config (writtenBy code start calls)).map (·.1)).eraseDupsBy Value.sameKey ∧
    (writesOf .config (writtenBy code start calls)).map (fun entry => entry.2.text?) =
      [some "a", some "b", some "c", some "d"] ∧
    reached.configs.size = 2 ∧ (reached.configs.get? (.whole 1)).bind Value.text? = some "b" ∧
    (reached.configs.get? endless).bind Value.text? = some "d" ∧
    (start.heap.shown endless).toOption = none ∧
    (reached.inits.at? "setup").bind Value.callable? = some (.user 0) ∧
    (reached.tasks.at? "f").bind Value.callable? = some (.user 1) := by
  obtain ⟨finds, keeps, -⟩ := @registries_keep_last_writes Unit code start 0 (by decide) rfl calls
  exact ⟨by decide, rfl, finds .config endless rfl, (keeps .config).1, by decide +kernel⟩

end Labelled

end TaskBoard
