/-!
File name patterns of one path part: `*` any run of characters, `?` any single one, brackets a class
with ranges and, after `!`, its complement. A bracket that is never closed stands for itself.
-/

namespace TaskBoard

inductive Wildcard where
  | run
  | any
  | never
  | literal (c : Char)
  | oneOf (complement : Bool) (ranges : List (Char × Char))
  deriving DecidableEq, Repr

namespace Wildcard

/-- Takes one `c` off the front, if it is there. -/
def takeOptional (c : Char) : List Char → List Char × List Char
  | [] => ([], [])
  | d :: rest => if d = c then ([d], rest) else ([], d :: rest)

theorem takeOptional_length (c : Char) (text : List Char) :
    (takeOptional c text).2.length ≤ text.length := by
  cases text with
  | nil => simp [takeOptional]
  | cons d rest =>
    by_cases same : d = c <;> simp [takeOptional, same]

/-- What stands between brackets, and the rest of the pattern. A `]` directly after the opening
bracket, or after its `!`, belongs to the class. -/
def bracketed? (rest : List Char) : Option (List Char × List Char) :=
  let mark := takeOptional '!' rest
  let lead := takeOptional ']' mark.2
  match lead.2.dropWhile (· ≠ ']') with
  | ']' :: after => some (mark.1 ++ lead.1 ++ lead.2.takeWhile (· ≠ ']'), after)
  | _ => none

/-- Cuts the content of a class at the hyphens that make ranges. A hyphen among the next `shield`
characters is an ordinary one, and so is one at the end. -/
def chunks (shield : Nat) (current : List Char) : List Char → List (List Char)
  | [] => [current]
  | c :: rest =>
    if shield = 0 ∧ c = '-' then
      if rest = [] then [current ++ ['-']] else current :: chunks 2 [] rest
    else chunks (shield - 1) (current ++ [c]) rest

/-- Drops the two ends of each range that runs backwards. -/
def dropBackward : List (List Char) → List (List Char)
  | [] => []
  | chunk :: rest =>
    match dropBackward rest with
    | [] => [chunk]
    | next :: others =>
      match chunk.getLast?, next.head? with
      | some low, some high =>
        if high.toNat < low.toNat then (chunk.dropLast ++ next.tail) :: others
        else chunk :: next :: others
      | _, _ => chunk :: next :: others

/-- The ranges between neighbouring chunks. -/
def spans : List (List Char) → List (Char × Char)
  | chunk :: next :: others =>
    match chunk.getLast?, next.head? with
    | some low, some high => (low, high) :: spans (next :: others)
    | _, _ => spans (next :: others)
  | _ => []

def ofClass (content : List Char) : Wildcard :=
  let shield := if content.head? = some '!' then 2 else 1
  let cut := if content.contains '-' then dropBackward (chunks shield [] content) else [content]
  match cut with
  | [] | [[]] => never
  | [['!']] => any
  | ('!' :: first) :: others =>
    oneOf true ((first ++ others.flatten).map (fun c => (c, c)) ++ spans (first :: others))
  | list => oneOf false (list.flatten.map (fun c => (c, c)) ++ spans list)

theorem bracketed?_shorter {rest content after : List Char}
    (found : bracketed? rest = some (content, after)) : after.length < rest.length := by
  have first := takeOptional_length '!' rest
  have second := takeOptional_length ']' (takeOptional '!' rest).2
  have third := (List.dropWhile_suffix (p := (· ≠ ']'))
    (l := (takeOptional ']' (takeOptional '!' rest).2).2)).length_le
  unfold bracketed? at found
  simp only at found
  split at found
  · rename_i dropped
    simp only [Option.some.injEq, Prod.mk.injEq] at found
    obtain ⟨_, rfl⟩ := found
    rw [dropped] at third
    simp only [List.length_cons] at third
    omega
  · simp at found

def parse (pattern : List Char) : List Wildcard :=
  match pattern with
  | [] => []
  | '*' :: rest => run :: parse rest
  | '?' :: rest => any :: parse rest
  | '[' :: rest =>
    match _found : bracketed? rest with
    | some (content, after) => ofClass content :: parse after
    | none => literal '[' :: parse rest
  | c :: rest => literal c :: parse rest
termination_by pattern.length
decreasing_by
  all_goals simp only [List.length_cons]
  all_goals try omega
  have short := bracketed?_shorter _found
  omega

def accepts (w : Wildcard) (c : Char) : Bool :=
  match w with
  | run | never => false
  | any => true
  | literal l => c == l
  | oneOf complement ranges =>
    complement != ranges.any fun (low, high) => low.toNat ≤ c.toNat && c.toNat ≤ high.toNat

/-- For every end of the name, from the whole name to the empty one, whether it is that last one. -/
def emptyEnds : List Char → List Bool
  | [] => [true]
  | _ :: name => false :: emptyEnds name

/-- For every end, whether one of its own ends is marked. -/
def someEnd : List Bool → List Bool
  | [] => []
  | marked :: rest =>
    let later := someEnd rest
    (marked || later.headD false) :: later

/-- For every end, whether the item accepts its first character and what follows is marked. -/
def afterItem (item : Wildcard) : List Char → List Bool → List Bool
  | c :: name, _ :: later => (item.accepts c && later.headD false) :: afterItem item name later
  | _, _ => [false]

/-- For every end of the name, whether the items match the whole of it. -/
def coveredEnds (name : List Char) : List Wildcard → List Bool
  | [] => emptyEnds name
  | run :: items => someEnd (coveredEnds name items)
  | item :: items => afterItem item name (coveredEnds name items)

def covers (items : List Wildcard) (name : List Char) : Bool := (coveredEnds name items).headD false

theorem coveredEnds_cons (c : Char) (name : List Char) (items : List Wildcard) :
    ∃ whole, coveredEnds (c :: name) items = whole :: coveredEnds name items := by
  induction items with
  | nil => exact ⟨false, rfl⟩
  | cons item items ih =>
    obtain ⟨whole, split⟩ := ih
    cases item <;> simp [coveredEnds, split, someEnd, afterItem]

theorem coveredEnds_nil (items : List Wildcard) :
    coveredEnds [] items = [items.all (· == run)] := by
  induction items with
  | nil => rfl
  | cons item items ih => cases item <;> simp [coveredEnds, ih, someEnd, afterItem]

theorem covers_nil (name : List Char) : covers [] name = name.isEmpty := by
  cases name <;> rfl

theorem covers_run (items : List Wildcard) (c : Char) (name : List Char) :
    covers (run :: items) (c :: name) = (covers items (c :: name) || covers (run :: items) name) := by
  obtain ⟨whole, split⟩ := coveredEnds_cons c name items
  simp [covers, coveredEnds, split, someEnd]

theorem covers_item {item : Wildcard} (single : item ≠ run) (items : List Wildcard) (c : Char)
    (name : List Char) :
    covers (item :: items) (c :: name) = (item.accepts c && covers items name) := by
  obtain ⟨whole, split⟩ := coveredEnds_cons c name items
  cases item <;> simp_all [covers, coveredEnds, afterItem]

theorem covers_empty (items : List Wildcard) : covers items [] = items.all (· == run) := by
  simp [covers, coveredEnds_nil]

end Wildcard

end TaskBoard
