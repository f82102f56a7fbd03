import TaskBoard.Document.Token
import TaskBoard.Document.Token.Scalar
import TaskBoard.Number.Reading

/-!
Cutting a document into tokens. Block structure follows the indentation: a stack of columns tells which
collections are open. A key may be recognised only when its `:` is met, so the lexer remembers where a
key could have started, one place for each flow level, and puts the key token there afterwards.

Tokens are read one by one, and the lexer goes on only when the next one is not yet settled: a token may
still get a key in front of it. So a document that breaks a rule gives the tokens that were settled
before, and then the failure.
-/

namespace TaskBoard.Document

/-- A place where a key may have started: the number of the token, and where in the text it is. -/
structure KeyStart where
  token : Nat
  required : Bool
  index : Nat
  line : Nat
  column : Nat

structure Lexer where
  cursor : Cursor
  tokens : Array Token := #[]
  flowDepth : Nat := 0
  /-- The column of the innermost block collection, -1 outside of all. -/
  indent : Int := -1
  outer : List Int := []
  keyAllowed : Bool := true
  /-- Possible keys with their flow levels. -/
  keyStarts : List (Nat × KeyStart) := []
  /-- How many tokens can no longer get a key in front of them. -/
  settled : Nat := 0
  finished : Bool := false

abbrev Lex (α : Type) := ExceptT Failure (StateM Lexer) α

namespace Lexer

def cursor' : Lex Cursor := do return (← get).cursor

def moveTo (c : Cursor) : Lex Unit := modify fun l => { l with cursor := c }

def emit (t : Token) : Lex Unit := modify fun l => { l with tokens := l.tokens.push t }

def insertToken (place : Nat) (t : Token) : Lex Unit :=
  modify fun l =>
    { l with tokens := (l.tokens.extract 0 place).push t ++ l.tokens.extract place l.tokens.size }

def allowKey (allowed : Bool) : Lex Unit := modify fun l => { l with keyAllowed := allowed }

def inFlow (l : Lexer) : Bool := l.flowDepth != 0

/-- Runs a reader at the current place and moves behind what it read. -/
def reading {α : Type} (read : Cursor → Read (α × Cursor)) : Lex α := do
  match read (← cursor') with
  | .ok (a, c) => moveTo c; pure a
  | .error e => throw e

/-- A key must start and end on one line and within 1024 characters. -/
def dropStaleKeys : Lex Unit := do
  let l ← get
  let stale (k : KeyStart) : Bool := k.line != l.cursor.line || k.index + 1024 < l.cursor.index
  if l.keyStarts.any fun (_, k) => stale k && k.required then throw malformed
  set { l with keyStarts := l.keyStarts.filter fun (_, k) => !stale k }

/-- Forgets the possible key of the current flow level; a required one must not be forgotten. -/
def dropKey : Lex Unit := do
  let l ← get
  if l.keyStarts.any fun (level, k) => level == l.flowDepth && k.required then throw malformed
  set { l with keyStarts := l.keyStarts.filter fun (level, _) => level != l.flowDepth }

def saveKey : Lex Unit := do
  let l ← get
  if l.keyAllowed then
    dropKey
    let c := l.cursor
    let start : KeyStart :=
      ⟨l.tokens.size, !l.inFlow && l.indent == (c.column : Int), c.index, c.line, c.column⟩
    modify fun l => { l with keyStarts := (l.flowDepth, start) :: l.keyStarts }

/-- Closes the block collections that are indented further than `column`. -/
def closeBlocks (column : Int) : Nat → Lex Unit
  | 0 => pure ()
  | steps + 1 => do
    let l ← get
    if !l.inFlow && column < l.indent then
      match l.outer with
      | [] => pure ()
      | indent :: outer =>
        set { l with indent := indent, outer := outer, tokens := l.tokens.push .blockEnd }
        closeBlocks column steps

def unwind (column : Int) : Lex Unit := do closeBlocks column ((← get).outer.length + 1)

/-- Opens a block collection at a column; false when one is open there already. -/
def openBlock (column : Nat) : Lex Bool := do
  let l ← get
  if l.indent < (column : Int) then
    set { l with indent := column, outer := l.indent :: l.outer }
    pure true
  else pure false

/-- Skips blanks, comments and line ends. A line end outside of flow collections allows a key. -/
def skipToToken : Nat → Lex Unit
  | 0 => pure ()
  | steps + 1 => do
    let c := (← cursor').skipRun (· == ' ')
    let c := if c.peek == '#' then c.skipRun (!endsLine ·) else c
    if isBreak c.peek then
      moveTo c.lineBreak.2
      modify fun l => if l.inFlow then l else { l with keyAllowed := true }
      skipToToken steps
    else moveTo c

def isNameChar (c : Char) : Bool :=
  Text.isAsciiLetter c || Text.isAsciiDigit c || c == '-' || c == '_'

def isAddressChar (c : Char) : Bool :=
  Text.isAsciiLetter c || Text.isAsciiDigit c || "-;/?:@&=+$,_.!~*'()[]%".toList.contains c

def name (c : Cursor) : Read (List Char × Cursor) :=
  let (run, c) := c.takeRun isNameChar
  if run.isEmpty then throw malformed else pure (run, c)

/-- A number of a version; one with too many digits is no number at all. -/
def number (c : Cursor) : Read (Nat × Cursor) :=
  let (run, c) := c.takeRun Text.isAsciiDigit
  if run.isEmpty then throw malformed
  else if Number.digitLimit < run.length then throw .badValue
  else pure (Number.ofDigits (Number.digitRun run).1, c)

def expect (accepted : Char → Bool) (c : Cursor) : Read Cursor :=
  if accepted c.peek then pure c else throw malformed

/-- The text that a sequence of bytes encodes, if it is well formed. -/
def decodeBytes (bytes : List Nat) : Read (List Char) :=
  match String.fromUTF8? ⟨(bytes.map UInt8.ofNat).toArray⟩ with
  | some s => pure s.toList
  | none => throw malformed

/-- The bytes written as `%` and two hexadecimal digits, one after the other. -/
def escapedBytes : Nat → Cursor → Read (List Nat × Cursor)
  | 0, c => pure ([], c)
  | steps + 1, c =>
    match c.rest with
    | '%' :: a :: b :: _ =>
      match Text.hexValue? a, Text.hexValue? b with
      | some high, some low => do
        let (others, c) ← escapedBytes steps (c.advance 3)
        pure ((high * 16 + low) :: others, c)
      | _, _ => throw malformed
    | '%' :: _ => throw malformed
    | _ => pure ([], c)

def addressParts : Nat → Cursor → Read (List Char × Cursor)
  | 0, c => pure ([], c)
  | steps + 1, c => do
    let (run, c) := c.takeRun fun ch => isAddressChar ch && ch != '%'
    if c.peek == '%' then
      let (bytes, c) ← escapedBytes (c.rest.length + 1) c
      let decoded ← decodeBytes bytes
      let (others, c) ← addressParts steps c
      pure (run ++ decoded ++ others, c)
    else pure (run, c)

def address (c : Cursor) : Read (List Char × Cursor) :=
  if isAddressChar c.peek then addressParts (c.rest.length + 1) c else throw malformed

/-- A tag handle: `!`, `!!` or a name between exclamation marks. -/
def tagHandle (c : Cursor) : Read (List Char × Cursor) :=
  if c.peek != '!' then throw malformed
  else if c.peekAt 1 == ' ' then pure (['!'], c.next)
  else
    let (run, after) := c.next.takeRun isNameChar
    if after.peek == '!' then pure ('!' :: run ++ ['!'], after.next) else throw malformed

def directive (c : Cursor) : Read (Directive × Cursor) := do
  let (word, c) ← name c.next
  let c ← expect endsPart c
  let blanks (c : Cursor) : Cursor := c.skipRun (· == ' ')
  let (d, c) ← (do
    if word = "YAML".toList then
      let (major, c) ← number (blanks c)
      let c ← expect (· == '.') c
      let (minor, c) ← number c.next
      let c ← expect endsPart c
      pure (Directive.version major minor, c)
    else if word = "TAG".toList then
      let (handle, c) ← tagHandle (blanks c)
      let c ← expect (· == ' ') c
      let (replacement, c) ← address (blanks c)
      let c ← expect endsPart c
      pure (Directive.handle handle replacement, c)
    else pure (Directive.other, c.skipRun (!endsLine ·)))
  let c ← ignoredLine c
  pure (d, c)

def referenceName (c : Cursor) : Read (List Char × Cursor) := do
  let (word, c) ← name c.next
  let c ← expect (fun ch => endsWord ch || "?:,]\x7d%@`".toList.contains ch) c
  pure (word, c)

/-- Whether a second `!` follows before the next blank. -/
def hasHandle (c : Cursor) : Bool :=
  (c.next.rest.takeWhile (!endsPart ·)).contains '!'

def tag (c : Cursor) : Read (Token × Cursor) := do
  let (token, c) ← (do
    if c.peekAt 1 == '<' then
      let (whole, c) ← address (c.advance 2)
      let c ← expect (· == '>') c
      pure (Token.tag none whole, c.next)
    else if endsWord (c.peekAt 1) then pure (Token.tag none ['!'], c.next)
    else if hasHandle c then
      let (handle, c) ← tagHandle c
      let (rest, c) ← address c
      pure (Token.tag (some handle) rest, c)
    else
      let (rest, c) ← address c.next
      pure (Token.tag (some ['!']) rest, c))
  let c ← expect endsPart c
  pure (token, c)

def punctuation (t : Token) (length : Nat) : Lex Unit := do
  moveTo ((← cursor').advance length)
  emit t

def blockIndicator : Lex Unit := do
  unwind (-1)
  dropKey
  allowKey false

def openFlow (t : Token) : Lex Unit := do
  saveKey
  modify fun l => { l with flowDepth := l.flowDepth + 1, keyAllowed := true }
  punctuation t 1

def closeFlow (t : Token) : Lex Unit := do
  dropKey
  modify fun l => { l with flowDepth := l.flowDepth - 1, keyAllowed := false }
  punctuation t 1

/-- Opens a block collection for an indicator at the current column, which must be allowed here. -/
def indicateBlock (t : Token) : Lex Unit := do
  let l ← get
  if !l.inFlow then
    if !l.keyAllowed then throw malformed
    if ← openBlock l.cursor.column then emit t

def entry : Lex Unit := do
  indicateBlock .blockSequenceStart
  allowKey true
  dropKey
  punctuation .blockEntry 1

def key : Lex Unit := do
  indicateBlock .blockMappingStart
  allowKey !(← get).inFlow
  dropKey
  punctuation .key 1

def value : Lex Unit := do
  let l ← get
  match l.keyStarts.find? fun (level, _) => level == l.flowDepth with
  | some (_, start) =>
    set { l with keyStarts := l.keyStarts.filter fun (level, _) => level != l.flowDepth }
    insertToken start.token .key
    if !l.inFlow then
      if ← openBlock start.column then insertToken start.token .blockMappingStart
    allowKey false
  | none =>
    indicateBlock .blockMappingStart
    allowKey !l.inFlow
    dropKey
  punctuation .value 1

/-- Emits what a reader gives; a key may start here and not directly after. -/
def contentToken (read : Cursor → Read (Token × Cursor)) : Lex Unit := do
  saveKey
  allowKey false
  emit (← reading read)

def blockText (folded : Bool) : Lex Unit := do
  allowKey true
  dropKey
  let l ← get
  let text ← reading (blockScalar folded l.indent)
  emit (.scalar text false)

def plainText : Lex Unit := do
  saveKey
  allowKey false
  let l ← get
  let (text, ended, c) := plainScalar l.inFlow (l.indent + 1) l.cursor
  moveTo c
  allowKey ended
  emit (.scalar text true)

def startsPlain (l : Lexer) : Bool :=
  let ch := l.cursor.peek
  !(endsWord ch || "-?:,[]\x7b\x7d#&*!|>'\"%@`".toList.contains ch) ||
    (!endsWord (l.cursor.peekAt 1) && (ch == '-' || (!l.inFlow && (ch == '?' || ch == ':'))))

def map1 {α β : Type} (f : α → β) (read : Cursor → Read (α × Cursor)) (c : Cursor) :
    Read (β × Cursor) := do
  let (a, c) ← read c
  pure (f a, c)

def step : Lex Unit := do
  let c ← cursor'
  skipToToken (c.rest.length + 1)
  dropStaleKeys
  unwind (← cursor').column
  let l ← get
  let c := l.cursor
  let ch := c.peek
  let spaced := endsWord (c.peekAt 1)
  if isEnd ch then
    blockIndicator
    modify fun l => { l with keyStarts := [], finished := true }
    emit .streamEnd
  else if ch == '%' && c.column == 0 then
    blockIndicator
    emit (.directive (← reading directive))
  else if c.column == 0 && c.atMarker '-' then
    blockIndicator
    punctuation .documentStart 3
  else if c.column == 0 && c.atMarker '.' then
    blockIndicator
    punctuation .documentEnd 3
  else if ch == '[' then openFlow .flowSequenceStart
  else if ch == '\x7b' then openFlow .flowMappingStart
  else if ch == ']' then closeFlow .flowSequenceEnd
  else if ch == '\x7d' then closeFlow .flowMappingEnd
  else if ch == ',' then
    allowKey true
    dropKey
    punctuation .flowEntry 1
  else if ch == '-' && spaced then entry
  else if ch == '?' && (l.inFlow || spaced) then key
  else if ch == ':' && (l.inFlow || spaced) then value
  else if ch == '*' then contentToken (map1 .reference referenceName)
  else if ch == '&' then contentToken (map1 .anchor referenceName)
  else if ch == '!' then contentToken tag
  else if ch == '|' && !l.inFlow then blockText false
  else if ch == '>' && !l.inFlow then blockText true
  else if ch == '\'' then contentToken (map1 (.scalar · false) (quotedScalar false))
  else if ch == '"' then contentToken (map1 (.scalar · false) (quotedScalar true))
  else if startsPlain l then plainText
  else throw malformed

/-- Settles the tokens before the first place where a key may still have started. -/
def settle : Lex Unit := do
  dropStaleKeys
  modify fun l =>
    { l with settled := l.keyStarts.foldl (fun n (_, k) => min n k.token) l.tokens.size }

def run : Nat → Lex Unit
  | 0 => pure ()
  | steps + 1 => do
    if !(← get).finished then
      step
      settle
      run steps

end Lexer

/-- The tokens of a text, or those that were settled before a failure, and that failure. A byte order
mark in front is skipped. Every token but the last takes at least one character. -/
def tokens (text : List Char) : List Token × Option Failure :=
  if text.all isAllowed then
    let cursor : Cursor := ⟨text, 0, 0, 0⟩
    let cursor := if cursor.peek == '\ufeff' then cursor.next else cursor
    let (result, lexer) := (Lexer.run (text.length + 1)).run.run { cursor := cursor }
    match result with
    | .ok _ => (lexer.tokens.toList, none)
    | .error e => (lexer.tokens.toList.take lexer.settled, some e)
  else ([], some malformed)

end TaskBoard.Document
