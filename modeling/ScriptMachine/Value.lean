import ScriptMachine.Number.Layout
import ScriptMachine.Text.Quoted

/-!
# Values

The values that registers hold and instructions name. A register may also hold nothing, which is
the value `unset` and not the null of the language. `Value.render` is the text of a value in
listings and messages; `Value.text` is what a command or a pattern sees of it.
-/

namespace ScriptMachine

open Text (decimal quoted)

/-- A register of a function, by number. -/
structure Reg where
  index : Int
deriving DecidableEq, Repr, Inhabited

/-- A block of a function, by number. -/
structure BlockId where
  index : Int
deriving DecidableEq, Repr, Inhabited

namespace Reg

/-- The register of an instruction that writes none. -/
def none : Reg := ⟨-1⟩

def render (r : Reg) : String := "%" ++ decimal r.index

end Reg

namespace BlockId

/-- The block of a reference that is left out. -/
def none : BlockId := ⟨-1⟩

def render (b : BlockId) : String := "b" ++ decimal b.index

end BlockId

/-- A value kept by a closure, and the register that receives it when the closure is called. -/
structure Capture (α : Type) where
  value : α
  reg : Reg
deriving Repr

/-- Closures are told apart by identity: those written into a program by the number of the place
where they stand, those made by a run in the order of their creation. -/
inductive ClosureId where
  | written (n : Nat)
  | created (n : Nat)
deriving DecidableEq, Repr

/-- A closure: a block of a function, the registers of its parameters, and what it captured. -/
structure Closure (α : Type) where
  id : ClosureId
  func : String
  block : BlockId
  params : List Reg
  captures : List (Capture α)
deriving Repr

/-- The kinds of values. A kind that the language does not know is named like `unset`. -/
inductive Kind where
  | unset | null | int | float | string | bool | reg | closure | foreign
deriving DecidableEq, Repr

def Kind.render : Kind → String
  | .null => "null"
  | .int => "int"
  | .float => "float"
  | .string => "string"
  | .bool => "bool"
  | .reg => "reg"
  | .closure => "closure"
  | .unset | .foreign => "unset"

/-- A value. `reg` stands in operands only and refers to the contents of a register; `foreign`
is set, but of a kind outside the language; `dangling` is a closure with nothing behind it, which no
program makes. -/
inductive Value where
  | unset
  | null
  | int (n : Int64)
  | float (x : Float)
  | string (s : String)
  | bool (b : Bool)
  | reg (r : Reg)
  | closure (c : Closure Value)
  | dangling
  | foreign

instance : Inhabited Value := ⟨.unset⟩

namespace Value

def kind : Value → Kind
  | unset => .unset
  | null => .null
  | int _ => .int
  | float _ => .float
  | string _ => .string
  | bool _ => .bool
  | reg _ => .reg
  | closure _ | dangling => .closure
  | foreign => .foreign

/-- Whether a register with this content counts as written. -/
def isSet : Value → Bool
  | unset => false
  | _ => true

def isNull : Value → Bool
  | null => true
  | _ => false

/-- The register an operand refers to, if it refers to one. -/
def reg? : Value → Option Reg
  | reg r => some r
  | _ => none

def isReg (v : Value) : Bool := v.reg?.isSome

/-- What counts as true: numbers other than zero and NaN, non-empty strings, closures. -/
def truthy : Value → Bool
  | int n => n != 0
  | bool b => b
  | float x => x != 0 && !x.isNaN
  | string s => s != ""
  | closure _ | dangling => true
  | _ => false

/-- The text of a value in listings and messages. -/
def render : Value → String
  | null => "null"
  | int n => decimal n.toInt
  | float x => Number.floatText x
  | string s => quoted s
  | bool b => if b then "true" else "false"
  | reg r => r.render
  | closure c => "closure(" ++ c.func ++ "." ++ c.block.render ++ ")"
  | dangling => "closure()"
  | unset | foreign => "<unset>"

/-- The text of a value as a command argument or an operand of a pattern match. -/
def text : Value → String
  | string s => s
  | null | unset => ""
  | v => v.render

/-- The word that a value of a one-word kind is stored in; zero for the others. -/
def word : Value → Int64
  | int n => n
  | bool b => if b then 1 else 0
  | reg r => Int64.ofInt r.index
  | _ => 0

end Value

/-- A value given by the number of its kind and its word alone, all else being empty. -/
structure Cell where
  tag : UInt8
  word : Int64

namespace Cell

/-- The value that a cell stands for. -/
def value (c : Cell) : Value :=
  match c.tag with
  | 0 => .unset
  | 1 => .null
  | 2 => .int c.word
  | 3 => .float 0
  | 4 => .string ""
  | 5 => .bool (c.word != 0)
  | 6 => .reg ⟨c.word.toInt⟩
  | 7 => .dangling
  | _ => .foreign

end Cell

end ScriptMachine
