import ScriptMachine.Tree

/-!
# Tokens of the markup

The tokens that documents are made of. The structure that indentation gives appears as tokens for
the start and the end of block collections.
-/

namespace ScriptMachine.Markup

inductive Style where
  | plain | single | double | literal | folded
deriving DecidableEq, Repr

inductive TokenKind where
  | streamEnd
  | version (major minor : Nat)
  | tagDirective (handle uri : String)
  | documentStart | documentEnd
  | blockSequenceStart | blockMappingStart | blockEnd
  | flowSequenceStart | flowSequenceEnd
  | flowMappingStart | flowMappingEnd
  | blockEntry | flowEntry
  | key | value
  | reference (name : String)
  | anchor (name : String)
  | tag (handle suffix : String)
  | scalar (text : String) (style : Style)
deriving DecidableEq, Repr

/-- A token with its start and the place behind it. -/
structure Token where
  kind : TokenKind
  start : Position
  stop : Position
deriving DecidableEq, Repr

end ScriptMachine.Markup
