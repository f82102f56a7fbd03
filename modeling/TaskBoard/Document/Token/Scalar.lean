import TaskBoard.Document.Cursor
import TaskBoard.Text.Digit

/-!
Reading one scalar of a document: quoted text with its escapes, block text with its indentation and
final breaks, and plain text, which ends where punctuation begins. Each reader gives the text and the
place after it.
-/

namespace TaskBoard.Document

def malformed : Failure := .config .invalidSyntax

abbrev Read (α : Type) := Except Failure α

/-- The line breaks after an escaped or folded line, up to text; a document marker may not stand
between them. The first argument bounds the number of lines. -/
def quotedBreaks : Nat → Cursor → Read (List Char × Cursor)
  | 0, _ => throw malformed
  | lines + 1, c =>
    if c.atAnyMarker then throw malformed
    else
      let c := c.skipRun fun ch => ch == ' ' || ch == '\t'
      if isBreak c.peek then do
        let (first, c) := c.lineBreak
        let (others, c) ← quotedBreaks lines c
        pure (first ++ others, c)
      else pure ([], c)

/-- White space inside a quoted text: kept within a line, folded between lines. -/
def quotedSpaces (c : Cursor) : Read (List Char × Cursor) := do
  let (blanks, c) := c.takeRun fun ch => ch == ' ' || ch == '\t'
  if isEnd c.peek then throw malformed
  else if isBreak c.peek then
    let (first, c) := c.lineBreak
    let (others, c) ← quotedBreaks (c.rest.length + 1) c
    if first ≠ ['\n'] then pure (first ++ others, c)
    else if others.isEmpty then pure ([' '], c)
    else pure (others, c)
  else pure (blanks, c)

/-- The characters that a single letter after a backslash stands for. -/
def simpleEscape? : Char → Option Char
  | '0' => some '\x00'
  | 'a' => some '\x07'
  | 'b' => some '\x08'
  | 't' => some '\x09'
  | '\t' => some '\x09'
  | 'n' => some '\x0a'
  | 'v' => some '\x0b'
  | 'f' => some '\x0c'
  | 'r' => some '\x0d'
  | 'e' => some '\x1b'
  | ' ' => some ' '
  | '"' => some '"'
  | '\\' => some '\\'
  | '/' => some '/'
  | 'N' => some '\x85'
  | '_' => some '\xa0'
  | 'L' => some '\u2028'
  | 'P' => some '\u2029'
  | _ => none

/-- How many hexadecimal digits follow a letter that introduces a character code. -/
def codeLength? : Char → Option Nat
  | 'x' => some 2
  | 'u' => some 4
  | 'U' => some 8
  | _ => none

def hexNumber (digits : List Char) : Nat :=
  digits.foldl (fun n d => n * 16 + (Text.hexValue? d).getD 0) 0

/-- The character with a code. Half of a surrogate pair is no character and is read as U+FFFD, so keys that differ
in such halves only are one key here. Codes beyond the last character are refused, and those that do not fit a signed
machine word as overflowing. -/
def charOfCode (code : Nat) : Read Char :=
  if 0x7fffffff < code then throw .overflow
  else if 0x10ffff < code then throw .badValue
  else if 0xd800 ≤ code ∧ code ≤ 0xdfff then pure '\ufffd'
  else pure (Char.ofNat code)

/-- What follows a backslash inside double quotes. -/
def escapeSequence (c : Cursor) : Read (List Char × Cursor) :=
  match simpleEscape? c.peek, codeLength? c.peek with
  | some ch, _ => pure ([ch], c.next)
  | none, some size => do
    let digits := c.next.rest.take size
    if digits.length = size ∧ digits.all (fun d => (Text.hexValue? d).isSome) then
      let ch ← charOfCode (hexNumber digits)
      pure ([ch], c.advance (size + 1))
    else throw malformed
  | none, none =>
    if isBreak c.peek then do
      let (_, c) := c.lineBreak
      quotedBreaks (c.rest.length + 1) c
    else throw malformed

def quotedText (double : Bool) : Nat → Cursor → Read (List Char × Cursor)
  | 0, _ => throw malformed
  | steps + 1, c => do
    let (run, c) := c.takeRun fun ch =>
      !(endsWord ch || ch == '\'' || ch == '"' || ch == '\\')
    let ch := c.peek
    if !double && ch == '\'' && c.peekAt 1 == '\'' then
      let (others, c) ← quotedText double steps (c.advance 2)
      pure (run ++ '\'' :: others, c)
    else if (double && ch == '\'') || (!double && (ch == '"' || ch == '\\')) then
      let (others, c) ← quotedText double steps c.next
      pure (run ++ ch :: others, c)
    else if double && ch == '\\' then
      let (escaped, c) ← escapeSequence c.next
      let (others, c) ← quotedText double steps c
      pure (run ++ escaped ++ others, c)
    else pure (run, c)

def quotedRest (double : Bool) : Nat → Cursor → Read (List Char × Cursor)
  | 0, _ => throw malformed
  | steps + 1, c => do
    let (text, c) ← quotedText double (c.rest.length + 1) c
    if c.peek == (if double then '"' else '\'') then pure (text, c.next)
    else
      let (spaces, c) ← quotedSpaces c
      let (others, c) ← quotedRest double steps c
      pure (text ++ spaces ++ others, c)

def quotedScalar (double : Bool) (c : Cursor) : Read (List Char × Cursor) :=
  quotedRest double (c.rest.length + 2) c.next

/-- How the breaks at the end of a block text are treated. -/
inductive Chomping where
  | clip
  | strip
  | keep
  deriving DecidableEq

def chomping? : Char → Option Chomping
  | '+' => some .keep
  | '-' => some .strip
  | _ => none

def indentDigit (c : Cursor) : Read (Option Nat × Cursor) :=
  if Text.isAsciiDigit c.peek then
    if c.peek == '0' then throw malformed
    else pure (some (c.peek.toNat - '0'.toNat), c.next)
  else pure (none, c)

/-- The indicators after `|` or `>`, in either order. -/
def blockHeader (c : Cursor) : Read (Chomping × Option Nat × Cursor) := do
  let (chomping, increment, c) ← (match chomping? c.peek with
    | some chomping => do
      let (increment, c) ← indentDigit c.next
      pure (chomping, increment, c)
    | none => do
      let (increment, c) ← indentDigit c
      match increment, chomping? c.peek with
      | some _, some chomping => pure (chomping, increment, c.next)
      | _, _ => pure (Chomping.clip, increment, c))
  if endsPart c.peek then pure (chomping, increment, c) else throw malformed

/-- The remainder of a line that may hold a comment only. -/
def ignoredLine (c : Cursor) : Read Cursor :=
  let c := c.skipRun (· == ' ')
  let c := if c.peek == '#' then c.skipRun (!endsLine ·) else c
  if endsLine c.peek then pure c.lineBreak.2 else throw malformed

def blockIndentation : Nat → Cursor → List Char × Nat × Cursor
  | 0, c => ([], 0, c)
  | steps + 1, c =>
    if c.peek == ' ' then
      let c := c.next
      let (breaks, most, last) := blockIndentation steps c
      (breaks, max c.column most, last)
    else if isBreak c.peek then
      let (first, c) := c.lineBreak
      let (others, most, last) := blockIndentation steps c
      (first ++ others, most, last)
    else ([], 0, c)

def skipIndent (indent : Nat) (c : Cursor) : Cursor :=
  c.advance (((c.rest.takeWhile (· == ' ')).take (indent - c.column)).length)

/-- Empty lines inside a block text. -/
def blockBreaks (indent : Nat) : Nat → Cursor → List Char × Cursor
  | 0, c => ([], c)
  | steps + 1, c =>
    let c := skipIndent indent c
    if isBreak c.peek then
      let (first, c) := c.lineBreak
      let (others, c) := blockBreaks indent steps c
      (first ++ others, c)
    else ([], c)

/-- The lines of a block text from a line with text on; gives the text, the last break and the empty
lines after it. -/
def blockLines (folded : Bool) (indent : Nat) :
    Nat → List Char → Cursor → List Char × List Char × List Char × Cursor
  | 0, breaks, c => ([], [], breaks, c)
  | steps + 1, breaks, c =>
    if c.column = indent ∧ ¬ isEnd c.peek then
      let blankStart := c.peek == ' ' || c.peek == '\t'
      let (line, c) := c.takeRun (!endsLine ·)
      let (lineEnd, c) := c.lineBreak
      let (after, c) := blockBreaks indent (c.rest.length + 1) c
      if c.column = indent ∧ ¬ isEnd c.peek then
        let blankNext := c.peek == ' ' || c.peek == '\t'
        let gap :=
          if folded && lineEnd == ['\n'] && !blankStart && !blankNext then
            if after.isEmpty then [' '] else []
          else lineEnd
        let (others, lastEnd, trailing, c) := blockLines folded indent steps after c
        (breaks ++ line ++ gap ++ others, lastEnd, trailing, c)
      else (breaks ++ line, lineEnd, after, c)
    else ([], [], breaks, c)

/-- A block scalar whose parent is indented by `parent` columns, none for the outermost. -/
def blockScalar (folded : Bool) (parent : Int) (c : Cursor) : Read (List Char × Cursor) := do
  let (chomping, increment, c) ← blockHeader c.next
  let c ← ignoredLine c
  let least := (max (parent + 1) 1).toNat
  let fuel := c.rest.length + 1
  let (indent, breaks, c) := match increment with
    | none =>
      let (breaks, most, c) := blockIndentation fuel c
      (max least most, breaks, c)
    | some increment =>
      let indent := least + increment - 1
      let (breaks, c) := blockBreaks indent fuel c
      (indent, breaks, c)
  let (text, lastEnd, trailing, c) := blockLines folded indent fuel breaks c
  match chomping with
  | .strip => pure (text, c)
  | .clip => pure (text ++ lastEnd, c)
  | .keep => pure (text ++ lastEnd ++ trailing, c)

/-- Whether plain text ends before the character at `offset`. -/
def endsPlain (inFlow : Bool) (rest : List Char) : Bool :=
  match rest with
  | [] => true
  | ch :: after =>
    let next := after.headD '\x00'
    endsWord ch
      || (ch == ':' && (endsWord next || (inFlow && ",[]\x7b\x7d".toList.contains next)))
      || (inFlow && ",?[]\x7b\x7d".toList.contains ch)

def plainRun (inFlow : Bool) : List Char → List Char
  | [] => []
  | ch :: rest => if endsPlain inFlow (ch :: rest) then [] else ch :: plainRun inFlow rest

/-- The breaks and spaces of the lines after plain text; none when a document marker follows. -/
def plainBreaks : Nat → Cursor → Option (List Char) × Cursor
  | 0, c => (some [], c)
  | steps + 1, c =>
    if c.peek == ' ' then plainBreaks steps c.next
    else if isBreak c.peek then
      let (first, c) := c.lineBreak
      if c.atAnyMarker then (none, c)
      else
        let (others, c) := plainBreaks steps c
        (others.map (first ++ ·), c)
    else (some [], c)

/-- White space after plain text; also whether a line has ended. -/
def plainSpaces (c : Cursor) : List Char × Bool × Cursor :=
  let (blanks, c) := c.takeRun (· == ' ')
  if isBreak c.peek then
    let (first, c) := c.lineBreak
    if c.atAnyMarker then ([], true, c)
    else
      match plainBreaks (c.rest.length + 1) c with
      | (none, c) => ([], true, c)
      | (some others, c) =>
        if first ≠ ['\n'] then (first ++ others, true, c)
        else if others.isEmpty then ([' '], true, c)
        else (others, true, c)
  else (blanks, false, c)

/-- Plain text over several lines, which must be indented by `indent` columns outside of flow
collections; the flag tells whether a line ended after the last part. -/
def plainParts (inFlow : Bool) (indent : Int) :
    Nat → List Char → Bool → Cursor → List Char × Bool × Cursor
  | 0, _, ended, c => ([], ended, c)
  | steps + 1, spaces, ended, c =>
    if c.peek == '#' then ([], ended, c)
    else
      let run := plainRun inFlow c.rest
      if run.isEmpty then ([], ended, c)
      else
        let (gap, ended, c) := plainSpaces (c.advance run.length)
        if gap.isEmpty || c.peek == '#' || (!inFlow && c.column < indent) then
          (spaces ++ run, ended, c)
        else
          let (others, ended, c) := plainParts inFlow indent steps gap ended c
          (spaces ++ run ++ others, ended, c)

def plainScalar (inFlow : Bool) (indent : Int) (c : Cursor) : List Char × Bool × Cursor :=
  plainParts inFlow indent (c.rest.length + 1) [] false c

end TaskBoard.Document
