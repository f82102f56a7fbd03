import TaskBoard.Board.Loading
import TaskBoard.Proofs.Collecting.Adding
import TaskBoard.Proofs.Collecting.Sharing

/-!
Collections whose user code registers configurations meanwhile. A collection notices the new ones when it goes on to
the next entry or ends. So it resolves the declared groups in their order up to the end of the entry during which
the configurations grew, and there it fails; if they do not grow, it resolves all of them.
-/

namespace TaskBoard

open Act World

variable {σ : Type}

theorem Group.data_of_ofConfig {h grown : Heap} {name data : Value} {record : Group}
    (made : ofConfig h name data = .ok (record, grown)) : record.data = data ∧ grown = (h.newList []).2 := by
  unfold ofConfig at made
  cases read : entry h data (.text "src") with
  | error failure =>
    rw [read] at made
    cases made
  | ok source =>
    rw [read] at made
    change (patterns h source >>= _) = _ at made
    cases parsed : patterns h source with
    | error failure =>
      rw [parsed] at made
      cases made
    | ok list =>
      rw [parsed] at made
      cases made
      exact ⟨rfl, rfl⟩

namespace Board

variable {code : UserCode σ} {b : Nat} {start w : World σ} {receiver : Option Nat} {d : Declaration} {g cell : Nat}

/-- A group in the course of being resolved: it is made from a declared mapping. -/
structure Along (b : Nat) (start : World σ) (g cell : Nat) (w : World σ) : Prop where
  grown : Grown b start w
  made : g < w.groups.size
  data : (w.group g).data = .map cell

namespace Along

variable {α : Type}

theorem adds {after : World σ} (along : Along b start g cell w) (adds : Adds b start w after) :
    Along b start g cell after :=
  ⟨adds.grown along.grown, Nat.lt_of_lt_of_le along.made adds.groups, (adds.data g along.made).trans along.data⟩

theorem keeps {act : Act σ α} (along : Along b start g cell w) (kept : Keeps (Adds b start) act) :
    Ends act w (fun _ after => Along b start g cell after) fun _ _ => True where
  returned a after ran := along.adds (by simpa [ran] using kept w)
  failed _ _ _ := trivial

theorem editGroup (along : Along b start g cell w) {change : Group → Group}
    (same : (change (w.group g)).data = (w.group g).data) :
    Ends (editGroup g change : Act σ Unit) w (fun _ after => Along b start g cell after) fun _ _ => True := by
  refine .of_ok (run_modify w _) ⟨along.grown.of_same rfl rfl, ?_, ?_⟩
  · rw [size_groups_setGroup]
    exact along.made
  · rw [group_setGroup_self _ along.made, same]
    exact along.data

theorem writeEntry (along : Along b start g cell w) (firm : Firm b start) (declares : start.Declares b cell)
    {name : String} (other : (Value.text name).sameKey (.text "src") = false) (v : Value) :
    Ends (writeEntry g name v : Act σ Unit) w (fun _ after => Along b start g cell after) fun _ _ => True := by
  unfold Board.writeEntry
  apply Ends.run_bind (run_get w)
  rw [along.data]
  exact .of_ok (run_modify w _) ⟨along.grown.putEntry firm declares other v, along.made, along.data⟩

end Along

section Resolve

variable (firm : Firm b start) (declares : start.Declares b cell) (along : Along b start g cell w)
include firm declares along

theorem along_setFiles (files : List Value) :
    Ends (setFiles g files : Act σ Unit) w (fun _ after => Along b start g cell after) fun _ _ => True := by
  have listed : Along b start g cell { w with heap := (w.heap.newList files).2 } :=
    ⟨along.grown.newList firm files, along.made, along.data⟩
  unfold setFiles
  apply Ends.run_bind (run_onHeap_ok rfl)
  apply (listed.editGroup rfl).bind
  exact fun _ mid still => still.writeEntry firm declares (by decide) _

theorem along_settleDestination :
    Ends (settleDestination b g : Act σ Unit) w (fun _ after => Along b start g cell after) fun _ _ => True := by
  unfold settleDestination
  apply Ends.run_bind (run_get w)
  split
  next pattern _ =>
    have resolved := run_resolveDestination b pattern w
    cases resolves : resolution b w pattern with
    | error failure =>
      rw [resolves] at resolved
      exact .of_error (run_bind_error resolved) trivial
    | ok destination =>
      rw [resolves] at resolved
      apply Ends.run_bind resolved
      apply (along.editGroup rfl).bind
      exact fun _ mid still => still.writeEntry firm declares (by decide) destination
  next => exact .pure along

omit firm declares in
theorem along_runMapper (additive : code.Additive b start) :
    Ends (runMapper code b g receiver) w (fun _ after => Along b start g cell after) fun _ _ => True := by
  have drives := additive.drives
  have deliver : ∀ v, Keeps (Adds b start) (deliver code g receiver v) := by
    intro v
    unfold Board.deliver
    split
    · exact Keeps.pure _
    · exact Keeps.bind (drives.note _) fun _ =>
        Keeps.bind (keeps_callUser drives.carries _ _) fun _ => Keeps.pure _
  have schedule : ∀ r, Keeps (Adds b start) (schedule code g r receiver) := by
    intro r
    refine Keeps.bind Keeps.get fun w => ?_
    split
    · exact Keeps.bind (Loop.keeps_runToCompletion drives.loops r) fun v => Keeps.bind (deliver v) fun _ => Keeps.pure _
    · refine Keeps.bind (Loop.keeps_makeTask drives.loops r) fun task => ?_
      exact Keeps.bind (Loop.keeps_watch drives.loops task _) fun _ => Keeps.pure _
  unfold runMapper
  apply Ends.run_bind (run_get w)
  split
  next mapper _ =>
    split
    · apply (along.keeps (drives.note _)).bind
      intro _ noted still
      apply (still.keeps (keeps_callBound drives.carries b mapper [.group g])).bind
      intro v called further
      split
      next r =>
        apply (further.keeps (schedule r)).bind
        exact fun task mid last => last.editGroup rfl
      next => exact further.keeps (deliver v)
    · exact .pure along
  next => exact .pure along

theorem along_resolveGroup (additive : code.Additive b start) :
    Ends (resolveGroup code b g receiver) w (fun _ after => Along b start g cell after) fun _ _ => True := by
  have files : Keeps (Adds b start) (groupFiles code b g) :=
    Keeps.bind Keeps.get fun w =>
      Keeps.bind (Keeps.mapM (keeps_resolveSources additive.drives.carries b) _) fun _ => Keeps.pure _
  unfold resolveGroup
  apply (along.keeps files).bind
  intro files listed still
  apply (along_setFiles firm declares still files).bind
  intro _ filed further
  apply (along_settleDestination firm declares further).bind
  exact fun _ settled last => along_runMapper last additive

theorem along_resolveDeclared (additive : code.Additive b start) :
    Ends (resolveDeclared code b receiver g) w (fun found after => found = g ∧ Along b start g cell after)
      fun _ _ => True := by
  have note : ∀ words, Keeps (Adds b start) (logWords .info words : Act σ Unit) := fun _ =>
    Keeps.logWords fun _ => additive.drives.carries.log _ _ (by decide)
  unfold resolveDeclared
  apply Ends.run_bind (run_get _)
  apply (along.keeps (note _)).bind
  intro _ logged further
  apply (along_resolveGroup firm declares further additive).bind
  intro _ resolved settled
  apply (settled.keeps (note _)).bind
  exact fun _ _ last => .pure ⟨rfl, last⟩

end Resolve

theorem along_newGroup (firm : Firm b start) (grown : Grown b start w) (name : String) :
    Ends (newGroup (.text name) (.map cell)) w (fun g after => Along b start g cell after) fun _ _ => True := by
  cases made : Group.ofConfig w.heap (.text name) (.map cell) with
  | error failure => exact .of_error (run_bind_error (run_onHeap_error made)) trivial
  | ok result =>
    obtain ⟨record, h⟩ := result
    obtain ⟨data, rfl⟩ := Group.data_of_ofConfig made
    apply Ends.run_bind (run_onHeap_ok made)
    refine .of_ok (run_modifyGet _ _) ⟨(grown.newList firm []).of_same rfl rfl, ?_, ?_⟩
    · simp
    · rw [World.group_push_newest rfl]
      exact data

theorem ends_visit_grown (firm : Firm b start) (additive : code.Additive b start) (member : d ∈ start.declared b)
    (grown : Grown b start w) (declares : (Value.map d.cell).declaresGroup w.heap = true) :
    Ends (visitEntry (resolveDeclared code b receiver) d.config d.group (.map d.cell)) w
      (fun found after => (∃ g, found = [g]) ∧ Grown b start after) fun _ _ => True := by
  have own : start.Declares b d.cell := ⟨d, member, rfl⟩
  unfold visitEntry
  apply Ends.run_bind (run_heap w)
  rw [declares, if_pos rfl]
  apply ((Ends.ofExcept _).mono (fun _ _ same => same) fun _ _ _ => trivial).bind
  rintro name _ rfl
  apply (along_newGroup firm grown name).bind
  intro g made along
  apply (along_resolveDeclared firm own along additive).bind
  rintro _ after ⟨rfl, last⟩
  exact .pure ⟨⟨_, rfl⟩, last.grown⟩

end Board

namespace World

/-- Visits of declared groups, one after another; each makes one group. -/
inductive Visits (code : UserCode σ) (b : Nat) (receiver : Option Nat) :
    World σ → List Declaration → List Nat → World σ → Prop
  | nil (w : World σ) : Visits code b receiver w [] [] w
  | cons {w mid after : World σ} {d : Declaration} {g : Nat} {ds : List Declaration} {gs : List Nat}
      (visit : (Board.visitEntry (Board.resolveDeclared code b receiver) d.config d.group (.map d.cell)).run w =
        (.ok [g], mid))
      (others : Visits code b receiver mid ds gs after) : Visits code b receiver w (d :: ds) (g :: gs) after

variable {code : UserCode σ} {b : Nat} {receiver : Option Nat} {start w mid after : World σ}
  {ds more : List Declaration} {gs others : List Nat}

theorem Visits.append (early : Visits code b receiver w ds gs mid)
    (late : Visits code b receiver mid more others after) :
    Visits code b receiver w (ds ++ more) (gs ++ others) after := by
  induction early with
  | nil => exact late
  | cons visit _ ih => exact .cons visit (ih late)

/-- Visits of declared groups up to one that fails, because it cannot be made or resolved. -/
def Stuck (code : UserCode σ) (b : Nat) (receiver : Option Nat) (w : World σ) (ds : List Declaration)
    (failure : Failure) (after : World σ) : Prop :=
  ∃ front d back gs late, ds = front ++ d :: back ∧ Visits code b receiver w front gs late ∧
    (Board.visitEntry (Board.resolveDeclared code b receiver) d.config d.group (.map d.cell)).run late =
      (.error failure, after)

/-- A collection that has come to an entry of the configurations. It has made a group of all that the entries before
declare, and the configurations have not grown. -/
structure ComesTo (code : UserCode σ) (b : Nat) (receiver : Option Nat) (start : World σ) (entry : Value × Value)
    (mid : World σ) : Prop where
  earlier : ∃ done rest gs, (start.board b).registry.configs.entries = done ++ entry :: rest ∧
    Visits code b receiver start (done.flatMap start.heap.declaredIn) gs mid
  steady : mid.configCount b = start.configCount b

/-- A collection that has made a group of all that was declared. The configurations have not grown. -/
structure Complete (code : UserCode σ) (b : Nat) (receiver : Option Nat) (start : World σ) (gs : List Nat)
    (last : World σ) : Prop where
  all : Visits code b receiver start (start.declared b) gs last
  steady : last.configCount b = start.configCount b

/-- How a collection fails. -/
inductive Broken (code : UserCode σ) (b : Nat) (receiver : Option Nat) (start : World σ) : Failure → World σ → Prop
  /-- All that an entry declares is resolved, and the configurations have grown meanwhile. -/
  | grew {entry : Value × Value} {mid after : World σ} {gs : List Nat} (comes : ComesTo code b receiver start entry mid)
      (visits : Visits code b receiver mid (start.heap.declaredIn entry) gs after)
      (more : start.configCount b < after.configCount b) : Broken code b receiver start .changedDuringWalk after
  /-- A group that an entry declares cannot be made or resolved. -/
  | raised {entry : Value × Value} {mid after : World σ} {failure : Failure}
      (comes : ComesTo code b receiver start entry mid)
      (stuck : Stuck code b receiver mid (start.heap.declaredIn entry) failure after) :
      Broken code b receiver start failure after

theorem Grown.configCount_le (grown : Grown b start w) : start.configCount b ≤ w.configCount b := by
  obtain ⟨kept, more, entries, stand⟩ := grown.entries
  rw [configCount, configCount, Mapping.size, Mapping.size, entries, stand.length_eq, List.length_append]
  exact Nat.le_add_right _ _

/-- The entry that a collection comes to is the one that stood there at the start. -/
theorem Grown.entry (grown : Grown b start w) {done rest : List (Value × Value)} {entry : Value × Value}
    (cut : (start.board b).registry.configs.entries = done ++ entry :: rest) :
    ∃ now, (w.board b).registry.configs.entries[done.length]? = some now ∧ StandsFor start.heap entry now := by
  obtain ⟨kept, more, entries, stand⟩ := grown.entries
  obtain ⟨length, each⟩ := List.forall₂_iff_get.mp stand
  have within : done.length < (start.board b).registry.configs.entries.length := by
    rw [cut, List.length_append, List.length_cons]
    omega
  have own : (start.board b).registry.configs.entries.get ⟨done.length, within⟩ = entry := by simp [cut]
  refine ⟨kept.get ⟨done.length, length ▸ within⟩, ?_, own ▸ each _ within (length ▸ within)⟩
  rw [entries, List.getElem?_append_left (length ▸ within), List.get_eq_getElem, List.getElem?_eq_getElem]

end World

namespace Board

variable {code : UserCode σ} {b : Nat} {start w : World σ} {receiver : Option Nat}

/-- The groups of one entry are made and resolved one by one, until one of them fails. -/
theorem ends_entry_grown (firm : Firm b start) (additive : code.Additive b start) {config : Value} {cell : Nat}
    (configured : (config, .map cell) ∈ (start.board b).registry.configs.entries) (grown : Grown b start w) :
    Ends (walkAll (do return (← Act.heap).mapAt cell) fun group data =>
        visitEntry (resolveDeclared code b receiver) config group data) w
      (fun gs after => Visits code b receiver w (start.heap.declaredIn (config, .map cell)) gs after ∧
        Grown b start after)
      (Stuck code b receiver w (start.heap.declaredIn (config, .map cell))) := by
  apply ends_configuration (fun front gs late => Visits code b receiver w front gs late ∧ Grown b start late) _
    configured
  · exact fun _ _ _ course => course.2.legible
  · exact ⟨.nil w, grown⟩
  · rintro front d back gs late inside ⟨visits, still⟩ declares
    have member : d ∈ start.declared b :=
      List.mem_flatMap.mpr ⟨_, configured, inside ▸ List.mem_append_right _ List.mem_cons_self⟩
    apply ((ends_visit_grown firm additive member still declares).both (.ran _ _)).mono
    · rintro _ after ⟨⟨⟨g, rfl⟩, further⟩, ran⟩
      exact ⟨visits.append (.cons ran (.nil after)), further⟩
    · rintro failure after ⟨-, ran⟩
      exact ⟨front, d, back, gs, late, inside, visits, ran⟩

/-- From the entry that it has come to, a scan goes on to the others that were there at the start, unless the
configurations have grown. -/
theorem ends_walk_grown {visit : Value → Value → Act σ (List Nat)}
    (scans : ∀ entry ∈ (start.board b).registry.configs.entries, ∀ now w, StandsFor start.heap entry now →
      Grown b start w → Ends (visit now.1 now.2) w
        (fun gs after => Visits code b receiver w (start.heap.declaredIn entry) gs after ∧ Grown b start after)
        (Stuck code b receiver w (start.heap.declaredIn entry)))
    {done rest : List (Value × Value)} {gs : List Nat}
    (cut : (start.board b).registry.configs.entries = done ++ rest) (grown : Grown b start w)
    (visits : Visits code b receiver start (done.flatMap start.heap.declaredIn) gs w)
    (steady : w.configCount b = start.configCount b) :
    Ends (walk (do return (← Act.board b).registry.configs) (start.configCount b) visit rest.length) w
      (fun others after => Complete code b receiver start (gs ++ others) after) (Broken code b receiver start) := by
  have reads : ∀ w : World σ, (do return (← Act.board b).registry.configs : Act σ Mapping).run w =
      (.ok (w.board b).registry.configs, w) := fun w => run_bind_ok (run_board w b)
  induction rest generalizing done gs w with
  | nil =>
    unfold walk
    apply Ends.run_bind (reads w)
    rw [if_neg fun differs => differs steady]
    refine .pure ⟨?_, steady⟩
    rw [World.declared, cut, List.append_nil, List.append_nil]
    exact visits
  | cons entry rest ih =>
    have place : start.configCount b - (rest.length + 1) = done.length := by
      rw [configCount, Mapping.size, cut, List.length_append, List.length_cons]
      omega
    obtain ⟨now, found, stands⟩ := grown.entry cut
    rw [List.length_cons]
    unfold walk
    apply Ends.run_bind (reads w)
    rw [if_neg fun differs => differs steady, place, found]
    have comes : ComesTo code b receiver start entry w := ⟨⟨done, rest, gs, cut, visits⟩, steady⟩
    have scanned := scans entry (by simp [cut]) now w stands grown
    apply Ends.bind (scanned.mono (fun _ _ fits => fits) fun _ _ => .raised comes)
    rintro found mid ⟨inside, still⟩
    by_cases same : mid.configCount b = start.configCount b
    · have onward : (start.board b).registry.configs.entries = (done ++ [entry]) ++ rest := by simp [cut]
      have visited :
          Visits code b receiver start ((done ++ [entry]).flatMap start.heap.declaredIn) (gs ++ found) mid := by
        simpa using visits.append inside
      apply (ih onward still visited same).bind
      exact fun others after complete => .pure (by rwa [← List.append_assoc])
    · -- the scan fails when it looks at the configurations again, whether an entry is left or not
      have more := Nat.lt_of_le_of_ne still.configCount_le (Ne.symm same)
      exact .of_error (run_bind_error (run_walk_changed (reads mid) same _)) (.grew comes inside more)

theorem ends_scan_grown (firm : Firm b start) (additive : code.Additive b start) :
    Ends (eachGroup (do return (← Act.board b).registry.configs) (resolveDeclared code b receiver)) start
      (Complete code b receiver start) (Broken code b receiver start) := by
  have reads : (do return (← Act.board b).registry.configs : Act σ Mapping).run start =
      (.ok (start.board b).registry.configs, start) := run_bind_ok (run_board start b)
  unfold eachGroup
  apply Ends.run_bind reads
  apply ends_walk_grown ?_ (List.nil_append _).symm (.refl b start) (.nil start) rfl
  rintro ⟨config, data⟩ member ⟨name, now⟩ w ⟨named, stands⟩ grown
  obtain rfl : name = config := named
  rcases stands with same | ⟨silent, plain⟩
  · obtain rfl : now = data := same
    cases now with
    | map cell => exact ends_entry_grown firm additive member grown
    | _ => exact .pure ⟨.nil w, grown⟩
  · rw [silent]
    cases now with
    | map cell => cases plain
    | _ => exact .pure ⟨.nil w, grown⟩

end Board

/-- User code that registers configurations while a collection runs makes the collection fail. All that was declared
is resolved in its order, each group once, as long as there are no more configurations than at the start. When there
are more, the groups of the entry at hand are the last ones: the walk over the configurations ends after them with a
failure of its own, also if no entry is left. A load does the same after it has registered its tasks. -/
theorem collect_until_grown {code : UserCode σ} {b : Nat} {start : World σ} (receiver : Option Nat)
    (firm : Firm b start) (additive : code.Additive b start) :
    Ends (Board.collect code b receiver) start
      (fun gs after => ∃ last, Complete code b receiver start gs last ∧ after = last.regrouped b gs)
      (Broken code b receiver start) ∧
    ∀ tasks w, (Board.registerTasks code b tasks).run w = (.ok ⟨⟩, start) →
      Ends (Board.load code b tasks receiver) w
        (fun _ after => ∃ gs last, Complete code b receiver start gs last ∧ after = last.regrouped b gs)
        (Broken code b receiver start) := by
  have collects : Ends (Board.collect code b receiver) start
      (fun gs after => ∃ last, Complete code b receiver start gs last ∧ after = last.regrouped b gs)
      (Broken code b receiver start) := by
    apply (Board.ends_scan_grown firm additive).bind
    exact fun gs last complete => .of_ok rfl ⟨last, complete, rfl⟩
  refine ⟨collects, fun tasks w registered => ?_⟩
  apply Ends.run_bind registered
  apply collects.bind
  exact fun gs after complete => .pure ⟨gs, complete⟩

namespace Late

/-- User code that chooses options for the environment as number 0, and registers a configuration else. -/
def adding : UserCode Unit where
  call id _ := do
    if id = 0 then
      let _ ← Board.byEnvironment 0 .nothing
    else Board.register 0 .config (.text "late") (.flag true)
    pure (.value .nothing)
  resume _ _ _ _ := pure (.value .nothing)
  run _ _ := pure []
  label? _ _ := none

/-- A site with two groups, for both of which configurations are added, and a bundle with a third group. -/
def bare : World Unit where
  heap := { maps := #[⟨[(.text "one", .map 1), (.text "two", .map 2)]⟩, ⟨[(.text "src", .text "#env:js")]⟩,
    ⟨[(.text "src", .text "#late:js")]⟩, ⟨[(.text "three", .map 1)]⟩, ⟨[(.text "blog", .map 3)]⟩] }
  boards := #[{
    cwd := "", runner := 9, registry := {
      plugins := ⟨[(.text "env", .callable (.user 0)), (.text "late", .callable (.user 1))]⟩
      configs := ⟨[(.text "site", .map 0)]⟩ } }]
  user := ()

/-- The world in which the bundle is registered. -/
def stocked : World Unit := ((Board.registerTasks adding 0 (.map 4)).run bare).2

theorem additive_adding (start : World Unit) (late : Fresh 0 start (.text "late")) : adding.Additive 0 start where
  call id _ := by
    simp only [adding]
    split
    · exact Keeps.bind (Board.adds_byEnvironment _) fun _ => Keeps.pure _
    · exact Keeps.bind (Board.adds_register late _) fun _ => Keeps.pure _
  resume _ _ _ _ := Keeps.pure _

theorem registered : (Board.registerTasks adding 0 (.map 4)).run bare = (.ok ⟨⟩, stocked) := rfl

theorem heap_stocked : stocked.heap = bare.heap := rfl

theorem configs_stocked :
    (stocked.board 0).registry.configs.entries = [(.text "site", .map 0), (.text "blog", .map 3)] := rfl

theorem declared_stocked : stocked.declared 0 =
    [⟨.text "site", .text "one", 1⟩, ⟨.text "site", .text "two", 2⟩, ⟨.text "blog", .text "three", 1⟩] := rfl

theorem firm_stocked : Firm 0 stocked where
  apart := by
    rintro cell ⟨d, member, rfl⟩ ⟨name, entry⟩
    rw [configs_stocked] at entry
    rw [declared_stocked] at member
    simp only [List.mem_cons, List.not_mem_nil, or_false] at member entry
    rcases member with rfl | rfl | rfl <;> rcases entry with same | same <;> cases same
  clear cell member source found := by
    rw [heap_stocked] at found
    obtain ⟨text, rfl⟩ : ∃ text, source = .text text := by
      match cell, found with
      | 0, found | 3, found | 4, found | _ + 5, found => cases found
      | 1, found | 2, found =>
        cases found
        exact ⟨_, rfl⟩
    trivial

/-- Both groups of the site are made, and the third one is not. -/
theorem collect_until_grown_late :
    ∃ after, (Board.load adding 0 (.map 4) none).run bare = (.error .changedDuringWalk, after) ∧
      Broken adding 0 none stocked .changedDuringWalk after ∧ after.groups.size = 2 ∧
      (after.board 0).registry.configs.keys.map Value.text? =
        [some "site", some "blog", some "environment", some "late"] := by
  have late : Fresh 0 stocked (.text "late") := by
    unfold Fresh
    rw [configs_stocked]
    decide
  obtain ⟨-, loads⟩ := collect_until_grown none firm_stocked (additive_adding stocked late)
  have fails : ((Board.load adding 0 (.map 4) none).run bare).1 = .error .changedDuringWalk := by decide +kernel
  have made : ((Board.load adding 0 (.map 4) none).run bare).2.groups.size = 2 := by decide +kernel
  have names : (((Board.load adding 0 (.map 4) none).run bare).2.board 0).registry.configs.keys.map Value.text? =
      [some "site", some "blog", some "environment", some "late"] := by decide +kernel
  have broken := (loads (.map 4) bare registered).failed
  rcases ran : (Board.load adding 0 (.map 4) none).run bare with ⟨result, after⟩
  rw [ran] at fails made names
  obtain rfl : result = .error .changedDuringWalk := fails
  exact ⟨after, rfl, broken _ after ran, made, names⟩

end Late

end TaskBoard
