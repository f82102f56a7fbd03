import TaskBoard.Text.Printable

/-!
Texts written between quotes, as they appear inside other texts. Single quotes are used unless the
text holds one and no double quote; characters without a visible form are written as escapes.
-/

namespace TaskBoard.Text

def hexDigits (width n : Nat) : List Char :=
  let digits := Nat.toDigits 16 n
  List.replicate (width - digits.length) '0' ++ digits

/-- The mark that encloses a text. -/
def quoteMark (text : List Char) : Char :=
  if text.contains '\'' && !text.contains '"' then '"' else '\''

def escapeChar (mark c : Char) : List Char :=
  if c = '\\' ∨ c = mark then ['\\', c]
  else if c = '\n' then ['\\', 'n']
  else if c = '\r' then ['\\', 'r']
  else if c = '\t' then ['\\', 't']
  else if c.toNat < 32 ∨ c.toNat = 127 then '\\' :: 'x' :: hexDigits 2 c.toNat
  else if c.toNat < 127 ∨ isPrintable c then [c]
  else if c.toNat < 256 then '\\' :: 'x' :: hexDigits 2 c.toNat
  else if c.toNat < 65536 then '\\' :: 'u' :: hexDigits 4 c.toNat
  else '\\' :: 'U' :: hexDigits 8 c.toNat

def quoted (text : String) : String :=
  let mark := quoteMark text.toList
  String.ofList ([mark] ++ text.toList.flatMap (escapeChar mark) ++ [mark])

/-- A string of bytes between quotes, after the letter `b`. -/
def quotedBytes (bytes : List UInt8) : String :=
  let chars := bytes.map fun b => Char.ofNat b.toNat
  let mark := quoteMark chars
  let escape (c : Char) : List Char :=
    if 127 ≤ c.toNat then '\\' :: 'x' :: hexDigits 2 c.toNat else escapeChar mark c
  String.ofList (['b', mark] ++ chars.flatMap escape ++ [mark])

end TaskBoard.Text
