import TaskBoard.Number.Calendar
import TaskBoard.Number.Double

/-!
The values that configurations hold and callables exchange. Lists and mappings are shared, so a value
names the cell that holds their content; everything else is immutable. `Value.key?` gives the form
under which a value is looked up: numbers are compared as numbers, so `1`, `1.0` and `true` are one
key, moments with an offset are compared as instants, and a value with a changeable part has no key.
-/

namespace TaskBoard

/-- Something that can be called: code of the user's, or the fallback that hands a task name to the
host runner of a board. -/
inductive Callable where
  | user (id : Nat)
  | hostTask (board : Nat) (name : String)
  deriving DecidableEq, Repr

inductive Value where
  | nothing
  | flag (b : Bool)
  | whole (i : Int)
  | real (x : Double)
  | text (s : String)
  | list (cell : Nat)
  | map (cell : Nat)
  | tuple (items : List Value)
  | set (cell : Nat)
  | date (d : Date)
  | moment (m : Moment)
  | bytes (b : List UInt8)
  | callable (c : Callable)
  | named (name : Value)
  | direct (target : Value)
  | noTask
  | destination (out : String) (mapper : Value)
  | group (id : Nat)
  | eventTask (occasion name : String) (task : Value) (part : Option String)
  | board (id : Nat)
  | routine (id : Nat)
  deriving Repr, Inhabited

/-- The parts that a key is spelled with; a tuple is spelled as its length and then its items. -/
inductive KeyPart where
  | nothing
  | whole (i : Int)
  | real (bits : UInt64)
  | text (s : String)
  | tuple (size : Nat)
  | date (d : Date)
  | moment (m : Moment)
  | instant (n : Int)
  | bytes (b : List UInt8)
  | callable (c : Callable)
  | named
  | direct
  | noTask
  | destination (out : String)
  | board (id : Nat)
  | routine (id : Nat)
  deriving DecidableEq, Repr

namespace Value

mutual

def key? : Value → Option (List KeyPart)
  | nothing => some [.nothing]
  | flag b => some [.whole (if b then 1 else 0)]
  | whole i => some [.whole i]
  | real x =>
    match x.toInt? with
    | some i => some [.whole i]
    | none => some [.real x.bits]
  | text s => some [.text s]
  | tuple items => (keys? items).map (.tuple items.length :: ·)
  | date d => some [.date d]
  | moment m =>
    match m.instant? with
    | some n => some [.instant n]
    | none => some [.moment m]
  | bytes b => some [.bytes b]
  | callable c => some [.callable c]
  | named name => name.key?.map (.named :: ·)
  | direct target => target.key?.map (.direct :: ·)
  | noTask => some [.noTask]
  | destination out mapper => mapper.key?.map (.destination out :: ·)
  | board id => some [.board id]
  | routine id => some [.routine id]
  | list _ => none
  | map _ => none
  | set _ => none
  | group _ => none
  | eventTask .. => none

def keys? : List Value → Option (List KeyPart)
  | [] => some []
  | item :: rest =>
    match item.key?, keys? rest with
    | some first, some others => some (first ++ others)
    | _, _ => none

end

/-- Whether the value can be a key of a mapping. -/
def hashable (v : Value) : Bool := v.key?.isSome

/-- Whether two values are one key. -/
def sameKey (a b : Value) : Bool := a.key? == b.key?

theorem sameKey_refl (a : Value) : a.sameKey a = true := by simp [sameKey]

theorem sameKey_comm (a b : Value) : a.sameKey b = b.sameKey a := by
  simp only [sameKey]
  exact BEq.comm

theorem sameKey_trans {a b c : Value} (first : a.sameKey b = true) (second : b.sameKey c = true) :
    a.sameKey c = true := by
  simp only [sameKey, beq_iff_eq] at *
  exact first.trans second

theorem hashable_of_mem {item : Value} {items : List Value} (hashable : (tuple items).hashable = true)
    (member : item ∈ items) : item.hashable = true := by
  have parts : (keys? items).isSome = true := by simpa [Value.hashable, key?] using hashable
  clear hashable
  induction items with
  | nil => cases member
  | cons first rest ih =>
    simp only [keys?] at parts
    split at parts
    next one others head tail =>
      rcases List.mem_cons.mp member with rfl | later
      · simp [Value.hashable, head]
      · exact ih later (by simp [tail])
    next => cases parts

def isNothing : Value → Bool
  | nothing => true
  | _ => false

def text? : Value → Option String
  | text s => some s
  | _ => none

def callable? : Value → Option Callable
  | callable c => some c
  | _ => none

def isCallable (v : Value) : Bool := v.callable?.isSome

def isMap : Value → Bool
  | map _ => true
  | _ => false

def ofOption : Option Value → Value
  | none => nothing
  | some v => v

def ofText? : Option String → Value
  | none => nothing
  | some s => text s

end Value

end TaskBoard
