/-!
The tokens of a document: its punctuation, the block structure that indentation implies, and scalars.
-/

namespace TaskBoard.Document

inductive Directive where
  | version (major minor : Nat)
  | handle (name replacement : List Char)
  | other
  deriving DecidableEq, Repr

inductive Token where
  | streamEnd
  | directive (d : Directive)
  | documentStart
  | documentEnd
  | blockSequenceStart
  | blockMappingStart
  | blockEnd
  | flowSequenceStart
  | flowSequenceEnd
  | flowMappingStart
  | flowMappingEnd
  | blockEntry
  | flowEntry
  | key
  | value
  | reference (name : List Char)
  | anchor (name : List Char)
  | tag (handle : Option (List Char)) (rest : List Char)
  | scalar (text : List Char) (plain : Bool)
  deriving DecidableEq, Repr, Inhabited

end TaskBoard.Document
