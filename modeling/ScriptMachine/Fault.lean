import ScriptMachine.Value

/-!
# Faults of a run

What can go wrong while a program runs: `Cause` says what happened, `Fault` adds where. The wording
of all of them is here. A fault is placed once, by the innermost instruction that was running.
-/

namespace ScriptMachine

open Text (decimal quoted)

inductive FaultKind where
  | undefinedFunction | undefinedVariable | invalidRegister | invalidBlock | typeMismatch
  | regexCompile | stackOverflow | commandFailed | thrown
deriving DecidableEq, Repr

namespace FaultKind

/-- All classes, in the order of their numbers, which start at one. -/
def all : List FaultKind :=
  [undefinedFunction, undefinedVariable, invalidRegister, invalidBlock, typeMismatch, regexCompile,
   stackOverflow, commandFailed, thrown]

def name : FaultKind → String
  | undefinedFunction => "undefined function"
  | undefinedVariable => "undefined variable"
  | invalidRegister => "invalid register reference"
  | invalidBlock => "invalid block reference"
  | typeMismatch => "type mismatch"
  | regexCompile => "regex compile error"
  | stackOverflow => "stack overflow"
  | commandFailed => "command failed"
  | thrown => "uncaught exception"

def ofNumber? (n : Int) : Option FaultKind :=
  if n ≤ 0 then none else all[(n - 1).toNat]?

/-- The name of the class with a given number, whether or not there is one. -/
def nameOfNumber (n : Int) : String :=
  match ofNumber? n with
  | some k => k.name
  | none => "error kind " ++ decimal n

end FaultKind

inductive Cause where
  | noFunction (name : String)
  | noClosureFunction (name : String)
  | noRunner (command : String)
  | callUnset (r : Reg)
  | readUnset (r : Reg)
  | writeOutside (r : Reg) (func : String) (size : Nat)
  | noBlock (func : String) (block : BlockId)
  | unterminated
  | unknownInstr (type : String)
  | mismatch (l : Kind) (op : String) (r : Kind)
  | integersExpected (l : Kind) (op : String) (r : Kind)
  | negativeShift (n : Int64)
  | unknownOperator (op : String)
  | notCallable (v : Value)
  | badPattern (pattern problem : String)
  | tooDeepCall (depth : Nat) (func : String)
  | tooDeepClosure (depth : Nat) (func : String) (block : BlockId)
  | tooDeepBlock (depth : Nat) (func : String) (block : BlockId)
  | command (name problem : String)
  | thrown (v : Value)

namespace Cause

def kind : Cause → FaultKind
  | noFunction _ | noClosureFunction _ | noRunner _ => .undefinedFunction
  | callUnset _ => .undefinedVariable
  | readUnset _ | writeOutside .. => .invalidRegister
  | noBlock .. | unterminated | unknownInstr _ => .invalidBlock
  | mismatch .. | integersExpected .. | negativeShift _ | unknownOperator _ | notCallable _ =>
    .typeMismatch
  | badPattern .. => .regexCompile
  | tooDeepCall .. | tooDeepClosure .. | tooDeepBlock .. => .stackOverflow
  | command .. => .commandFailed
  | thrown _ => .thrown

/-- What the fault says of itself, after the name of its class. -/
def message : Cause → String
  | noFunction name => name
  | noClosureFunction name => "closure function " ++ name
  | noRunner name => "command " ++ name ++ ": no command runner"
  | callUnset r => "call through unset register " ++ r.render
  | readUnset r => "read of unset register " ++ r.render
  | writeOutside r func size =>
    "write to " ++ r.render ++ ": " ++ func ++ " has " ++ decimal size ++ " registers"
  | noBlock func block => func ++ " has no block " ++ decimal block.index
  | unterminated => "block is not terminated"
  | unknownInstr type => "unknown instruction " ++ type
  | mismatch l op r => l.render ++ " " ++ op ++ " " ++ r.render
  | integersExpected l op r => l.render ++ " " ++ op ++ " " ++ r.render ++ ": integers expected"
  | negativeShift n => "negative shift count " ++ decimal n.toInt
  | unknownOperator op => "unknown operator " ++ quoted op
  | notCallable v => v.kind.render ++ " is not callable: " ++ v.render
  | badPattern pattern _ => quoted pattern
  | tooDeepCall depth func => "call depth " ++ decimal depth ++ " calling " ++ func
  | tooDeepClosure depth func block =>
    "call depth " ++ decimal depth ++ " calling closure " ++ func ++ "." ++ block.render
  | tooDeepBlock depth func block =>
    "depth " ++ decimal depth ++ " entering " ++ func ++ "." ++ block.render
  | command name _ => name
  | thrown v => v.text

/-- The problem behind the fault, where another part of the system reported one. -/
def inner? : Cause → Option String
  | badPattern _ problem | command _ problem => some problem
  | _ => none

def thrownValue : Cause → Value
  | thrown v => v
  | _ => .unset

end Cause

structure Location where
  func : String
  block : BlockId
  instr : Int
deriving DecidableEq, Repr

def Location.render (l : Location) : String :=
  l.func ++ "." ++ l.block.render ++ ":" ++ decimal l.instr

/-- The wording of a fault: its class, its own message, the problem behind it, its place. A
function without a name makes no place. -/
def faultText (kind message : String) (inner : Option String) (place : Option Location) : String :=
  kind
    ++ (if message = "" then "" else ": " ++ message)
    ++ (match inner with | some p => ": " ++ p | none => "")
    ++ (match place with
        | some l => if l.func = "" then "" else " (at " ++ l.render ++ ")"
        | none => "")

/-- A fault: its cause and, once it is known, the instruction that failed. -/
structure Fault where
  cause : Cause
  place : Option Location := none

namespace Fault

def kind (f : Fault) : FaultKind := f.cause.kind

def text (f : Fault) : String :=
  faultText f.kind.name f.cause.message f.cause.inner? f.place

/-- Places a fault that has no place yet. -/
def locate (l : Location) (f : Fault) : Fault :=
  match f.place with
  | some _ => f
  | none => if l.func = "" then f else { f with place := some l }

end Fault

/-- Conditions outside the error handling of the language, which end a run at once. -/
inductive Crash where
  | negativeShift
  | indexOutside (i : Int)
  | sizeOutside
  | growthOutside
  | nothingThere
deriving DecidableEq, Repr

def Crash.message : Crash → String
  | negativeShift => "runtime error: negative shift amount"
  | indexOutside i => "runtime error: index out of range [" ++ decimal i ++ "]"
  | sizeOutside => "runtime error: makeslice: len out of range"
  | growthOutside => "runtime error: growslice: len out of range"
  | nothingThere => "runtime error: invalid memory address or nil pointer dereference"

/-- The text of a value that need not come from a program: nothing can be said of a closure with
nothing behind it. -/
def Value.shown : Value → Except Crash String
  | .dangling => .error .nothingThere
  | v => .ok v.render

end ScriptMachine
