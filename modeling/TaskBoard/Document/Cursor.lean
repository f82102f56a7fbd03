import TaskBoard.Failure

/-!
A place in the text of a document: the unread characters and the line and column they start at. The
end of the text reads as the NUL character, which no document may hold.
-/

namespace TaskBoard.Document

def isBreak (c : Char) : Bool :=
  c == '\n' || c == '\r' || c == '\x85' || c == '\u2028' || c == '\u2029'

def isEnd (c : Char) : Bool := c == '\x00'

def endsLine (c : Char) : Bool := isEnd c || isBreak c

def endsPart (c : Char) : Bool := endsLine c || c == ' '

def endsWord (c : Char) : Bool := endsPart c || c == '\t'

def isAllowed (c : Char) : Bool :=
  let n := c.toNat
  n == 0x9 || n == 0xa || n == 0xd || (0x20 ≤ n && n ≤ 0x7e) || n == 0x85 ||
    (0xa0 ≤ n && n ≤ 0xd7ff) || (0xe000 ≤ n && n ≤ 0xfffd) || 0x10000 ≤ n

structure Cursor where
  rest : List Char
  index : Nat := 0
  line : Nat := 0
  column : Nat := 0

namespace Cursor

def peekAt (c : Cursor) (offset : Nat) : Char := c.rest.getD offset '\x00'

def peek (c : Cursor) : Char := c.peekAt 0

/-- Moves over one character. A carriage return before a line feed does not yet end the line, and a
byte order mark takes no column. -/
def next (c : Cursor) : Cursor :=
  match c.rest with
  | [] => c
  | ch :: rest =>
    let moved := { c with rest := rest, index := c.index + 1 }
    if isBreak ch && !(ch == '\r' && rest.head? == some '\n') then
      { moved with line := c.line + 1, column := 0 }
    else if ch == '\ufeff' then moved
    else { moved with column := c.column + 1 }

def advance (c : Cursor) : Nat → Cursor
  | 0 => c
  | n + 1 => (c.next).advance n

def takeRun (c : Cursor) (p : Char → Bool) : List Char × Cursor :=
  let run := c.rest.takeWhile p
  (run, c.advance run.length)

def skipRun (c : Cursor) (p : Char → Bool) : Cursor := (c.takeRun p).2

/-- Reads a line break, if there is one, in the form that it has in a value. -/
def lineBreak (c : Cursor) : List Char × Cursor :=
  match c.rest with
  | '\r' :: '\n' :: _ => (['\n'], c.advance 2)
  | ch :: _ =>
    if ch == '\r' || ch == '\n' || ch == '\x85' then (['\n'], c.next)
    else if isBreak ch then ([ch], c.next)
    else ([], c)
  | [] => ([], c)

/-- Whether a document marker made of three times `mark` stands here. -/
def atMarker (c : Cursor) (mark : Char) : Bool :=
  c.peekAt 0 == mark && c.peekAt 1 == mark && c.peekAt 2 == mark && endsWord (c.peekAt 3)

def atAnyMarker (c : Cursor) : Bool := c.atMarker '-' || c.atMarker '.'

end Cursor

end TaskBoard.Document
