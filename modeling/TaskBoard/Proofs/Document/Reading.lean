import TaskBoard.Proofs.Document.Making
import TaskBoard.Proofs.Document.Parsing

/-!
How reading a document fails: with a fault of syntax, or with another failure that has its cause in the text. Such a
cause is a number that reaches too far, collections that are nested too deep, or a needed node that cannot be read.
-/

namespace TaskBoard.Document

section Building

open Document.Graph

variable {g : Graph}

theorem steps_add (anchor : Option (List Char)) (n : Node) :
    Steps (add anchor n) g (fun _ _ => True) (· = malformed) := by
  unfold add
  apply Steps.get_bind
  dsimp only
  split
  · exact .set_bind (.pure trivial)
  · split
    · exact .throw_bind rfl
    · exact .set_bind (.pure trivial)

mutual

theorem steps_addTree (tree : Tree) (g : Graph) : Steps (addTree tree) g (fun _ _ => True) (· = malformed) :=
  match tree with
  | .reference name => by
    unfold addTree
    apply Steps.get_bind
    split
    · exact .pure trivial
    · exact .throw rfl
  | .scalar p text plain => by
    unfold addTree
    exact steps_add _ _
  | .sequence p items => by
    unfold addTree
    refine (steps_add _ _).bind fun id g _ => (steps_addTrees items g).bind fun parts g _ => ?_
    exact .modify_bind (.pure trivial)
  | .mapping p pairs => by
    unfold addTree
    refine (steps_add _ _).bind fun id g _ => (steps_addPairs pairs g).bind fun parts g _ => ?_
    exact .modify_bind (.pure trivial)

theorem steps_addTrees (items : List Tree) (g : Graph) : Steps (addTrees items) g (fun _ _ => True) (· = malformed) :=
  match items with
  | [] => .pure trivial
  | item :: rest => by
    unfold addTrees
    exact (steps_addTree item g).bind fun _ g _ => (steps_addTrees rest g).bind fun _ _ _ => .pure trivial

theorem steps_addPairs (pairs : List (Tree × Tree)) (g : Graph) :
    Steps (addPairs pairs) g (fun _ _ => True) (· = malformed) :=
  match pairs with
  | [] => .pure trivial
  | (key, value) :: rest => by
    unfold addPairs
    exact (steps_addTree key g).bind fun _ g _ => (steps_addTree value g).bind fun _ g _ =>
      (steps_addPairs rest g).bind fun _ _ _ => .pure trivial

end

end Building

/-- The graph of a text, and its outermost node. -/
def Parsed (text : List Char) (g : Graph) (root : Nat) : Prop :=
  ∃ tree, Tree.ofText? text = .ok (some tree) ∧ Graph.ofTree tree = .ok (root, g)

/-- A text with no document, or with one whose outermost node is null. -/
def Vacant (text : List Char) : Prop :=
  Tree.ofText? text = .ok none ∨ ∃ g root, Parsed text g root ∧ g.tagOf root = .null

/-- A text with no document, or with one that is a null scalar. -/
def Blank (text : List Char) : Prop :=
  Tree.ofText? text = .ok none ∨ ∃ g root written, Parsed text g root ∧ g.node root = .scalar .null written

/-- What the value of a text takes: every node that it needs can be read. -/
def Readable (text : List Char) : Prop := ∀ g root, Parsed text g root → ∀ id, g.Reached root id → g.Legible id

/-- Why reading a text fails with anything but a fault of syntax. -/
inductive Unreads (text : List Char) : Failure → Prop where
  | overreach {failure : Failure} (unparsed : Tree.ofText? text = .error failure) (reaches : Overreach text failure) :
    Unreads text failure
  | deep (unparsed : Tree.ofText? text = .error .tooDeep)
    (nests : Tree.nestingLimit < (tokens text).1.countP Token.deepens) : Unreads text .tooDeep
  | node {g : Graph} {root id : Nat} {failure : Failure} (parsed : Parsed text g root) (reached : g.Reached root id)
    (unreadable : g.Unreadable id failure) : Unreads text failure

theorem comes_ofText? (text : List Char) :
    Comes (fun found => Tree.ofText? text = .ok found) (fun failure => failure = malformed ∨ Unreads text failure)
      (Tree.ofText? text) := by
  refine (Comes.self _).mono (fun _ parsed => parsed) fun failure unparsed => ?_
  rcases Tree.unparsed_of_ofText? unparsed with syntaxFault | reaches | ⟨rfl, nests⟩
  · exact .inl syntaxFault
  · exact .inr (.overreach unparsed reaches)
  · exact .inr (.deep unparsed nests)

theorem comes_read (text : List Char) (heap : Heap) :
    Comes (fun r => Readable text ∧ (Vacant text → r.1 = .nothing))
      (fun failure => failure = malformed ∨ Unreads text failure) (read text heap) := by
  refine (comes_ofText? text).bind fun found parsed => ?_
  cases found with
  | none =>
    refine .pure ⟨?_, fun _ => rfl⟩
    rintro g root ⟨tree, other, -⟩
    cases parsed.symm.trans other
  | some tree =>
    refine ((Comes.self (Graph.ofTree tree)).mono (fun _ built => built) ?_).bind fun ⟨root, g⟩ built => ?_
    · exact fun failure failed => .inl ((steps_addTree tree {}).failed failure failed)
    have only : ∀ {other place}, Parsed text other place → place = root ∧ other = g := by
      rintro other place ⟨again, same, rebuilt⟩
      cases parsed.symm.trans same
      cases built.symm.trans rebuilt
      exact ⟨rfl, rfl⟩
    refine Comes.bind ((Draft.comes_making g root heap).mono (fun _ _ both => both) ?_) fun r ⟨legible, nothing⟩ => ?_
    · exact fun failure => .imp_right fun ⟨id, reached, unreadable⟩ => .node ⟨tree, parsed, built⟩ reached unreadable
    · refine .pure ⟨fun other place given => ?_, fun vacant => nothing ?_⟩
      · obtain ⟨rfl, rfl⟩ := only given
        exact legible
      · rcases vacant with none | ⟨other, place, given, null⟩
        · cases parsed.symm.trans none
        · obtain ⟨rfl, rfl⟩ := only given
          exact null

theorem read_of_blank {text : List Char} (blank : Blank text) (heap : Heap) :
    read text heap = .ok (.nothing, heap) := by
  refine Comes.eq_ok ?_
  unfold read
  rcases blank with none | ⟨g, root, written, ⟨tree, parsed, built⟩, null⟩
  · exact .ok_bind none (.pure rfl)
  · refine .ok_bind parsed (.ok_bind built ?_)
    exact Comes.bind (Draft.steps_making_null null heap) fun r ⟨nothing, same⟩ => .pure (by rw [nothing, same])

end TaskBoard.Document
