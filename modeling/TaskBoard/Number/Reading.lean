import TaskBoard.Failure
import TaskBoard.Text.Blank
import TaskBoard.Text.Digit
import TaskBoard.Text.Pieces

/-!
Reading numbers from texts, with digits of any script and blanks around them, and writing integers. A
text that is no number is refused as a bad value, and so is a decimal integer of too many digits, in
either direction.
-/

namespace TaskBoard.Number

/-- The blanks that may stand around a number: all but the separators of files, groups, records and
units. -/
def isMargin (c : Char) : Bool := Text.isBlank c && !(0x1c ≤ c.toNat && c.toNat ≤ 0x1f)

def trimmed (text : List Char) : List Char :=
  ((text.dropWhile isMargin).reverse.dropWhile isMargin).reverse

def signed : List Char → Bool × List Char
  | '-' :: rest => (true, rest)
  | '+' :: rest => (false, rest)
  | text => (false, text)

/-- The value of a digit in a base; letters continue the decimal digits. -/
def digitIn? (base : Nat) (c : Char) : Option Nat :=
  ((Text.hexValue? c).or (Text.digitValue? c)).filter (· < base)

/-- The letters that may follow a zero to repeat the base. -/
def baseLetters (base : Nat) : List Char :=
  if base = 2 then ['b', 'B'] else if base = 8 then ['o', 'O']
  else if base = 16 then ['x', 'X'] else []

def withoutBase (base : Nat) : List Char → List Char
  | '0' :: c :: rest => if (baseLetters base).contains c then rest else '0' :: c :: rest
  | text => text

/-- How many digits a decimal number may have. -/
def digitLimit : Nat := 4300

def readWhole (base : Nat) (text : List Char) : Except Failure Int := do
  let (minus, body) := signed (trimmed text)
  let body := withoutBase base body
  if body.isEmpty || (base == 10 && digitLimit < body.length) then throw .badValue
  let number ← body.foldlM (fun (n : Nat) c =>
    match digitIn? base c with
    | some d => pure (n * base + d)
    | none => throw Failure.badValue) 0
  pure (if minus then -(number : Int) else number)

def writeWhole (i : Int) : Except Failure String :=
  if i.natAbs < Nat.pow 10 digitLimit then pure (toString i) else throw .badValue

theorem writeWhole_of_small {i : Int} (small : i.natAbs < Nat.pow 10 digitLimit) :
    writeWhole i = .ok (toString i) := by
  unfold writeWhole
  rw [if_pos small]
  rfl

def digitRun (text : List Char) : List Nat × List Char :=
  ((text.takeWhile Text.isDigit).map fun c => (Text.digitValue? c).getD 0, text.dropWhile Text.isDigit)

def ofDigits (digits : List Nat) : Nat := digits.foldl (fun n d => n * 10 + d) 0

/-- The exponent after the digits of a decimal; nothing else may follow. -/
def exponent : List Char → Except Failure Int
  | [] => pure 0
  | e :: rest => do
    if e ≠ 'e' ∧ e ≠ 'E' then throw .badValue
    let (minus, rest) := signed rest
    let (digits, rest) := digitRun rest
    if digits.isEmpty || !rest.isEmpty then throw .badValue
    pure (if minus then -(ofDigits digits : Int) else ofDigits digits)

def toLower (text : List Char) : List Char := text.map Char.toLower

/-- Reads a floating-point number; `inf`, `infinity` and `nan` are understood in any case. -/
def readReal (text : List Char) : Except Failure Double := do
  let (minus, body) := signed (trimmed text)
  let name := String.ofList (toLower body)
  if name = "inf" ∨ name = "infinity" then pure (Double.infinity minus)
  else if name = "nan" then pure Double.nan
  else
    let (before, rest) := digitRun body
    let (after, rest) := match rest with
      | '.' :: rest => digitRun rest
      | rest => ([], rest)
    if before.isEmpty && after.isEmpty then throw .badValue
    let power ← exponent rest
    pure (Double.ofDecimal minus (ofDigits (before ++ after)) (power - after.length))

end TaskBoard.Number
