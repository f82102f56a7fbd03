import TaskBoard.Text.Digit
import TaskBoard.Text.Pieces

/-!
The tags of document nodes. A plain scalar without a tag gets the one whose written form it has:
`impliedTag` decides between empty values, truth values, integers in four notations, floating-point
numbers, days and moments, the merge key and the default key. The indicators of tags, anchors and aliases
alone are refused; all other text is text.
-/

namespace TaskBoard.Document

inductive Tag where
  | null
  | bool
  | int
  | float
  | binary
  | timestamp
  | omap
  | pairs
  | set
  | str
  | seq
  | map
  | merge
  | defaultValue
  | unknown
  deriving DecidableEq, Repr

namespace Tag

/-- The tags that have a meaning, by the last part of their names. -/
def standard : List (String × Tag) :=
  [("null", null), ("bool", bool), ("int", int), ("float", float), ("binary", binary),
    ("timestamp", timestamp), ("omap", omap), ("pairs", pairs), ("set", set), ("str", str),
    ("seq", seq), ("map", map), ("merge", merge), ("value", defaultValue)]

def ofName (name : List Char) : Tag :=
  match standard.find? fun (short, _) => ("tag:yaml.org,2002:" ++ short).toList == name with
  | some (_, tag) => tag
  | none => unknown

end Tag

/-- A day, and possibly a time, as they are written. -/
structure WrittenMoment where
  year : List Char
  month : List Char
  day : List Char
  time : Option (List Char × List Char × List Char)
  fraction : List Char := []
  /-- The sign, hours and minutes of an offset; a text `Z` gives none of them. -/
  offset : Option (Char × List Char × List Char) := none
  universal : Bool := false

namespace Scalar

def digits? (least most : Nat) (text : List Char) : Option (List Char × List Char) :=
  let run := (text.take most).takeWhile Text.isAsciiDigit
  if least ≤ run.length then some (run, text.drop run.length) else none

def exactly? (c : Char) : List Char → Option (List Char)
  | d :: rest => if d = c then some rest else none
  | [] => none

def isGap (c : Char) : Bool := c == ' ' || c == '\t'

/-- What separates the day from the time: a letter `T`, or blanks. -/
def timeMark? (text : List Char) : Option (List Char) :=
  match text with
  | 'T' :: rest => some rest
  | 't' :: rest => some rest
  | c :: rest => if isGap c then some (rest.dropWhile isGap) else none
  | [] => none

def offset? (moment : WrittenMoment) (text : List Char) : Option WrittenMoment :=
  match text.dropWhile isGap with
  | [] => if text.isEmpty then some moment else none
  | ['Z'] => some { moment with universal := true }
  | sign :: rest =>
    if sign = '+' ∨ sign = '-' then do
      let (hours, rest) ← digits? 1 2 rest
      match rest with
      | [] => some { moment with offset := some (sign, hours, []) }
      | ':' :: rest => do
        let (minutes, rest) ← digits? 2 2 rest
        if rest.isEmpty then some { moment with offset := some (sign, hours, minutes) } else none
      | _ => none
    else none

/-- Reads a day, or a day with a time. -/
def moment? (text : List Char) : Option WrittenMoment := do
  let (year, rest) ← digits? 4 4 text
  let rest ← exactly? '-' rest
  let (month, rest) ← digits? 1 2 rest
  let rest ← exactly? '-' rest
  let (day, rest) ← digits? 1 2 rest
  if rest.isEmpty then some ⟨year, month, day, none, [], none, false⟩
  else
    let rest ← timeMark? rest
    let (hour, rest) ← digits? 1 2 rest
    let rest ← exactly? ':' rest
    let (minute, rest) ← digits? 2 2 rest
    let rest ← exactly? ':' rest
    let (second, rest) ← digits? 2 2 rest
    let (fraction, rest) := match rest with
      | '.' :: rest => (rest.takeWhile Text.isAsciiDigit, rest.dropWhile Text.isAsciiDigit)
      | rest => ([], rest)
    offset? ⟨year, month, day, some (hour, minute, second), fraction, none, false⟩ rest

/-- A day alone is implied only with two digits for month and day. -/
def isMoment (text : List Char) : Bool :=
  match moment? text with
  | none => false
  | some m => m.time.isSome || (m.month.length == 2 && m.day.length == 2)

def unsigned : List Char → List Char
  | '+' :: rest => rest
  | '-' :: rest => rest
  | text => text

def isDigitOrBar (c : Char) : Bool := Text.isAsciiDigit c || c == '_'

/-- A digit followed by digits and underscores. -/
def isNumeral (text : List Char) : Bool :=
  match text with
  | c :: rest => Text.isAsciiDigit c && rest.all isDigitOrBar
  | [] => false

def isSixtieth : List Char → Bool
  | [d] => Text.isAsciiDigit d
  | [t, d] => '0' ≤ t && t ≤ '5' && Text.isAsciiDigit d
  | _ => false

def nonEmptyAll (p : Char → Bool) (text : List Char) : Bool := !text.isEmpty && text.all p

def isInt (text : List Char) : Bool :=
  match unsigned text with
  | '0' :: 'b' :: rest => nonEmptyAll (fun c => c == '0' || c == '1' || c == '_') rest
  | '0' :: 'x' :: rest => nonEmptyAll (fun c => (Text.hexValue? c).isSome || c == '_') rest
  | ['0'] => true
  | '0' :: rest => nonEmptyAll (fun c => ('0' ≤ c && c ≤ '7') || c == '_') rest
  | body =>
    match Text.pieces ':' body with
    | first :: others => isNumeral first && others.all isSixtieth
    | [] => false

def isExponent : List Char → Bool
  | [] => true
  | e :: sign :: rest =>
    (e == 'e' || e == 'E') && (sign == '+' || sign == '-') && nonEmptyAll Text.isAsciiDigit rest
  | _ => false

/-- Digits with underscores and an exponent after the point. -/
def isFractionPart (text : List Char) : Bool := isExponent (text.dropWhile isDigitOrBar)

def isDecimal (text : List Char) : Bool :=
  match text.dropWhile isDigitOrBar with
  | '.' :: rest => isNumeral (text.takeWhile isDigitOrBar) && isFractionPart rest
  | _ => false

/-- Sixtieths with a point in the last part. -/
def isSexagesimal (text : List Char) : Bool :=
  match Text.pieces ':' text with
  | first :: middle :: others =>
    let inner := (middle :: others).dropLast
    let last := (middle :: others).getLastD []
    isNumeral first && inner.all isSixtieth && isSixtieth (last.takeWhile (· ≠ '.')) &&
      (match last.dropWhile (· ≠ '.') with
        | '.' :: rest => rest.all isDigitOrBar
        | _ => false)
  | _ => false

def isFloat (text : List Char) : Bool :=
  let body := unsigned text
  isDecimal body || isSexagesimal body ||
    (match text with
      | '.' :: c :: rest => Text.isAsciiDigit c && isFractionPart rest
      | _ => false) ||
    [".inf", ".Inf", ".INF"].contains (String.ofList body) ||
    [".nan", ".NaN", ".NAN"].contains (String.ofList text)

def isBool (text : List Char) : Bool :=
  ["yes", "Yes", "YES", "no", "No", "NO", "true", "True", "TRUE", "false", "False", "FALSE",
    "on", "On", "ON", "off", "Off", "OFF"].contains (String.ofList text)

def isNull (text : List Char) : Bool := ["~", "null", "Null", "NULL", ""].contains (String.ofList text)

/-- A single break at the end does not count for the written form. -/
def withoutFinalBreak (text : List Char) : List Char :=
  if text.getLast? = some '\n' then text.dropLast else text

def impliedTag (text : List Char) : Tag :=
  let body := withoutFinalBreak text
  if isBool body then .bool
  else if isFloat body then .float
  else if isInt body then .int
  else if body = ['<', '<'] then .merge
  else if isNull body ∧ (text = [] ∨ body ≠ []) then .null
  else if isMoment body then .timestamp
  else if body = ['='] then .defaultValue
  else if body = ['!'] ∨ body = ['&'] ∨ body = ['*'] then .unknown
  else .str

end Scalar

end TaskBoard.Document
