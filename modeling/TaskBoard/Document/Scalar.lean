import TaskBoard.Document.Tag
import TaskBoard.Number.Reading

/-!
The values that scalars of a document stand for. A written form that does not belong to its tag is a
failure of its own, not a malformed document.
-/

namespace TaskBoard.Document.Scalar

def withoutBars (text : List Char) : List Char := text.filter (· ≠ '_')

def first (text : List Char) : Except Failure Char :=
  match text with
  | [] => throw .outOfRange
  | c :: _ => pure c

/-- A sign and what follows it; there must be something to look at. -/
def signedBody (text : List Char) : Except Failure (Bool × List Char) := do
  let c ← first text
  pure (c == '-', unsigned text)

def startsWith (word : String) (text : List Char) : Bool := word.toList.isPrefixOf text

def toBool (text : List Char) : Except Failure Value :=
  let word := String.ofList (Number.toLower text)
  if ["yes", "true", "on"].contains word then pure (.flag true)
  else if ["no", "false", "off"].contains word then pure (.flag false)
  else throw .missingKey

def ofSixtieths (parts : List Int) : Int := parts.foldl (fun n part => n * 60 + part) 0

def toInt (text : List Char) : Except Failure Value := do
  let (minus, body) ← signedBody (withoutBars text)
  let magnitude ←
    if body = ['0'] then pure 0
    else if startsWith "0b" body then Number.readWhole 2 (body.drop 2)
    else if startsWith "0x" body then Number.readWhole 16 (body.drop 2)
    else if (← first body) = '0' then Number.readWhole 8 body
    else if body.contains ':' then
      ofSixtieths <$> (Text.pieces ':' body).mapM (Number.readWhole 10)
    else Number.readWhole 10 body
  pure (.whole (if minus then -magnitude else magnitude))

/-- The sum of the parts, last one first, each weighed sixty times as much as the one after it. A weight
must be in the range of floating-point numbers, whatever it weighs. -/
def weighSixtieths (parts : List Double) : Except Failure Double := do
  let (total, _) ← parts.reverse.foldlM
    (fun ((total : Double), (weight : Int)) part => do
      let factor := Double.ofInt weight
      if factor.isInfinite then throw Failure.overflow
      pure (total.add (part.mul factor), weight * 60))
    (Double.withSign false 0, (1 : Int))
  pure total

/-- The form of a floating-point scalar that is read: small letters, no underscores, the sign apart. -/
def floatBody (text : List Char) : Except Failure (Bool × List Char) :=
  signedBody (Number.toLower (withoutBars text))

/-- Whether a scalar is the word for what is no number. The word always stands for one and the same
value; any other scalar that is no number stands for a value of its own. -/
def isNanWord (text : List Char) : Bool :=
  match floatBody text with
  | .ok (_, body) => body == ".nan".toList
  | .error _ => false

def toFloat (text : List Char) : Except Failure Double := do
  let (minus, body) ← floatBody text
  let signed (x : Double) : Double := if minus then x.negate else x
  if body = ".inf".toList then pure (signed (Double.infinity false))
  else if body = ".nan".toList then pure Double.nan
  else if body.contains ':' then
    signed <$> weighSixtieths (← (Text.pieces ':' body).mapM Number.readReal)
  else signed <$> Number.readReal body

def sixBits? (c : Char) : Option Nat :=
  if 'A' ≤ c ∧ c ≤ 'Z' then some (c.toNat - 'A'.toNat)
  else if 'a' ≤ c ∧ c ≤ 'z' then some (c.toNat - 'a'.toNat + 26)
  else if '0' ≤ c ∧ c ≤ '9' then some (c.toNat - '0'.toNat + 52)
  else if c = '+' then some 62
  else if c = '/' then some 63
  else none

/-- Decodes groups of four characters to three bytes. `place` is the place in the group, `left` holds
the bits that are left over, `padding` counts the marks `=` met in a row. Other characters are skipped;
a group that is neither complete nor padded is refused. -/
def decodeGroups (place left padding : Nat) : List Char → Option (List UInt8)
  | [] => if place = 0 then some [] else none
  | c :: rest =>
    if c = '=' then
      if 2 ≤ place ∧ 4 ≤ place + padding + 1 then some []
      else decodeGroups place left (if 2 ≤ place then padding + 1 else padding) rest
    else
      match sixBits? c with
      | none => decodeGroups place left padding rest
      | some bits =>
        match place with
        | 0 => decodeGroups 1 bits 0 rest
        | 1 => (decodeGroups 2 (bits % 16) 0 rest).map (UInt8.ofNat (left * 4 + bits / 16) :: ·)
        | 2 => (decodeGroups 3 (bits % 4) 0 rest).map (UInt8.ofNat (left * 16 + bits / 4) :: ·)
        | _ => (decodeGroups 0 0 0 rest).map (UInt8.ofNat (left * 64 + bits) :: ·)

def toBinary (text : List Char) : Except Failure Value :=
  if text.all (·.toNat < 128) then
    match decodeGroups 0 0 0 text with
    | some bytes => pure (.bytes bytes)
    | none => throw (.config .invalidSyntax)
  else throw (.config .invalidSyntax)

def natural (digits : List Char) : Nat := Number.ofDigits (Number.digitRun digits).1

/-- The millionths that a fraction of a second stands for; further digits are cut. -/
def millionths (fraction : List Char) : Nat :=
  natural ((fraction ++ List.replicate 6 '0').take 6)

def offsetMinutes (m : WrittenMoment) : Option Int :=
  match m.offset with
  | some (sign, hours, minutes) =>
    let total : Int := natural hours * 60 + natural minutes
    some (if sign = '-' then -total else total)
  | none => if m.universal then some 0 else none

def toTimestamp (text : List Char) : Except Failure Value :=
  match moment? (withoutFinalBreak text) with
  | none => throw .noMember
  | some m =>
    let date : Date := ⟨natural m.year, natural m.month, natural m.day⟩
    match m.time with
    | none => if date.valid then pure (.date date) else throw .badValue
    | some (hour, minute, second) =>
      let moment : Moment :=
        ⟨date, natural hour, natural minute, natural second, millionths m.fraction, offsetMinutes m⟩
      if moment.valid then pure (.moment moment) else throw .badValue

end TaskBoard.Document.Scalar
