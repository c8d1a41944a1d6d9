import ScriptMachine.Markup.Tag
import ScriptMachine.Markup.Token

/-!
# Nodes of the markup

A document is a tree of scalars, sequences and mappings. An alias stands for the node with its
anchor; a node may hold an alias for itself, which then stands for nothing that can be read.
-/

namespace ScriptMachine.Markup

mutual

inductive Node where
  | scalar (pos : Position) (tag : Tag) (text : String) (style : Style)
  | sequence (pos : Position) (tag : Tag) (items : List Node)
  | mapping (pos : Position) (tag : Tag) (entries : List Entry)
  | reference (pos : Position) (name : String) (target : Node)
  | loop (pos : Position) (name : String)

inductive Entry where
  | mk (key value : Node)

end

namespace Entry

def key : Entry → Node
  | mk k _ => k

def value : Entry → Node
  | mk _ v => v

end Entry

namespace Node

instance : Inhabited Node := ⟨.loop {} ""⟩

def position : Node → Position
  | scalar p .. | sequence p .. | mapping p .. | reference p .. | loop p _ => p

/-- The text that a node has as a name: that of a scalar, or the name of an alias. -/
def name : Node → String
  | scalar _ _ text _ => text
  | reference _ name _ | loop _ name => name
  | sequence .. | mapping .. => ""

/-- The number of the kind of a node. -/
def kindNumber : Node → Nat
  | sequence .. => 2
  | mapping .. => 4
  | scalar .. => 8
  | reference .. | loop .. => 16

/-- The node where a value is left out. -/
def empty (pos : Position) : Node := scalar pos .null "" .plain

/-- A scalar; without a tag of its own it is a string if it is not plain. -/
def ofScalar (pos : Position) (tag : Option Tag) (text : String) (style : Style) : Node :=
  scalar pos (tag.getD (if style = .plain then Tag.ofPlain text else .str)) text style

end Node

end ScriptMachine.Markup
