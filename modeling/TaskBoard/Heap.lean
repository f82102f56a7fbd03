import TaskBoard.Mapping

/-!
The cells that hold the content of shared lists, sets and mappings. A cell keeps its number for good, so
two values that name one cell see the same changes. The heap also tells apart the floating-point values
that are no numbers: each one made has a mark of its own.
-/

namespace TaskBoard

structure Heap where
  lists : Array (List Value) := #[]
  maps : Array Mapping := #[]
  /-- How many values that are no numbers were made. -/
  marks : Nat := 0
  deriving Repr, Inhabited

namespace Heap

def listAt (h : Heap) (cell : Nat) : List Value := h.lists.getD cell []

def mapAt (h : Heap) (cell : Nat) : Mapping := h.maps.getD cell {}

def newList (h : Heap) (items : List Value) : Nat × Heap :=
  (h.lists.size, { h with lists := h.lists.push items })

def newMap (h : Heap) (content : Mapping) : Nat × Heap :=
  (h.maps.size, { h with maps := h.maps.push content })

/-- A floating-point value that is no number, other than all before. -/
def newNan (h : Heap) : Double × Heap :=
  (Double.markedNan (h.marks + 1), { h with marks := h.marks + 1 })

def setList (h : Heap) (cell : Nat) (items : List Value) : Heap :=
  { h with lists := h.lists.setIfInBounds cell items }

def setMap (h : Heap) (cell : Nat) (content : Mapping) : Heap :=
  { h with maps := h.maps.setIfInBounds cell content }

def putEntry (h : Heap) (cell : Nat) (key value : Value) : Heap :=
  h.setMap cell ((h.mapAt cell).insert key value)

@[simp] theorem mapAt_setList (h : Heap) (cell other : Nat) (items : List Value) :
    (h.setList cell items).mapAt other = h.mapAt other := rfl

@[simp] theorem listAt_setMap (h : Heap) (cell other : Nat) (content : Mapping) :
    (h.setMap cell content).listAt other = h.listAt other := rfl

@[simp] theorem listAt_putEntry (h : Heap) (cell other : Nat) (key value : Value) :
    (h.putEntry cell key value).listAt other = h.listAt other := rfl

theorem mapAt_setMap_self {h : Heap} {cell : Nat} (content : Mapping)
    (known : cell < h.maps.size) : (h.setMap cell content).mapAt cell = content := by
  simp [setMap, mapAt, Array.getD_eq_getD_getElem?, known]

theorem mapAt_setMap_other (h : Heap) {cell other : Nat} (content : Mapping)
    (different : cell ≠ other) : (h.setMap cell content).mapAt other = h.mapAt other := by
  simp [setMap, mapAt, Array.getD_eq_getD_getElem?, Array.getElem?_setIfInBounds_ne different]

theorem listAt_newList_newest (h : Heap) (items : List Value) : (h.newList items).2.listAt h.lists.size = items := by
  simp [newList, listAt, Array.getD_eq_getD_getElem?]

theorem listAt_newList_older {h : Heap} {cell : Nat} (items : List Value) (known : cell < h.lists.size) :
    (h.newList items).2.listAt cell = h.listAt cell := by
  simp [newList, listAt, Array.getD_eq_getD_getElem?, Array.getElem?_push, Nat.ne_of_lt known]

theorem mapAt_newMap_newest (h : Heap) (content : Mapping) : (h.newMap content).2.mapAt h.maps.size = content := by
  simp [newMap, mapAt, Array.getD_eq_getD_getElem?]

theorem mapAt_newMap_older {h : Heap} {cell : Nat} (content : Mapping) (known : cell < h.maps.size) :
    (h.newMap content).2.mapAt cell = h.mapAt cell := by
  simp [newMap, mapAt, Array.getD_eq_getD_getElem?, Array.getElem?_push, Nat.ne_of_lt known]

theorem listAt_of_unknown {h : Heap} {cell : Nat} (unknown : h.lists.size ≤ cell) : h.listAt cell = [] := by
  simp [listAt, Array.getD_eq_getD_getElem?, unknown]

theorem mapAt_of_unknown {h : Heap} {cell : Nat} (unknown : h.maps.size ≤ cell) : h.mapAt cell = {} := by
  simp [mapAt, Array.getD_eq_getD_getElem?, unknown]

theorem putEntry_of_unknown {h : Heap} {cell : Nat} (unknown : h.maps.size ≤ cell) (key value : Value) :
    h.putEntry cell key value = h := by
  rw [putEntry, setMap, Array.setIfInBounds_eq_of_size_le unknown]

end Heap

/-- Whether a value counts as true: zeros and empty texts, lists and mappings do not. -/
def Value.truthy (h : Heap) : Value → Bool
  | nothing => false
  | flag b => b
  | whole i => i != 0
  | real x => !x.isZero
  | text s => !s.isEmpty
  | list cell => !(h.listAt cell).isEmpty
  | map cell => (h.mapAt cell).size != 0
  | tuple items => !items.isEmpty
  | set cell => !(h.listAt cell).isEmpty
  | bytes b => !b.isEmpty
  | _ => true

/-- The elements that a walk over the value meets; a value that is no collection has none. -/
def Value.elements? (h : Heap) : Value → Option (List Value)
  | text s => some (s.toList.map fun c => text (String.ofList [c]))
  | list cell => some (h.listAt cell)
  | map cell => some (h.mapAt cell).keys
  | tuple items => some items
  | set cell => some (h.listAt cell)
  | bytes b => some (b.map fun x => whole x.toNat)
  | _ => none

end TaskBoard
