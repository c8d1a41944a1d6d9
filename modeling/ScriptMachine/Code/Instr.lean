import ScriptMachine.Operator

/-!
# Instructions

The instructions of the register machine. `Instr.out` and `Instr.ins` are the register an
instruction writes and the values it reads; `Instr.refs` are the blocks it may enter. The checker,
the listing and the run all go by these tables.
-/

namespace ScriptMachine

/-- The two short circuits, by the operator they stand for. -/
inductive Circuit where
  | and | or
deriving DecidableEq, Repr

/-- The truth of the left operand that ends a short circuit early, which is also its result. -/
def Circuit.decides : Circuit → Bool
  | and => false
  | or => true

/-- The ways to end a block: `ret` and `closureRet` leave the function or closure, `yield` hands a
value to the instruction that entered the block, `throw` raises. -/
inductive Terminator where
  | ret | closureRet | yield | throw
deriving DecidableEq, Repr

def Terminator.typeName : Terminator → String
  | ret => "mir.Return"
  | closureRet => "mir.ClosureReturn"
  | yield => "mir.Yield"
  | throw => "mir.Throw"

/-- Things in the place of an instruction that are none. -/
inductive Stray where
  | missing | alien
deriving DecidableEq, Repr

def Stray.typeName : Stray → String
  | missing => "<nil>"
  | alien => "struct \x7b\x7d"

/-- An arm of a dispatch: the pattern and the block to run when it matches. -/
structure Arm where
  pattern : Value
  block : BlockId

/-- A guarded section: the body, the block that handles its faults and the register that receives
what was caught, and the block to run at the end in any case. -/
structure Guard where
  body : BlockId
  handler : BlockId
  caught : Reg
  cleanup : BlockId
deriving DecidableEq, Repr

inductive Instr where
  /-- `dest := l op r` -/
  | binary (op : BinOp) (dest : Reg) (l r : Value)
  /-- `dest :=` whether `l` matches the pattern `r`, the other way round if `negate` -/
  | regex (dest : Reg) (l r : Value) (negate : Bool)
  | load (dest : Reg) (value : Value)
  | move (dest src : Reg)
  /-- Decides by `left` alone and skips the next `skip` instructions, or goes on with the code of
  the right operand, which ends with a move to `dest` if `right` is a register. -/
  | circuit (kind : Circuit) (dest : Reg) (left right : Value) (skip : Int64)
  | call (dest : Reg) (func : String) (args : List Value)
  | closureCreate (dest : Reg) (block : BlockId) (captures : List (Capture Value))
      (params : List Reg) (names : List String)
  | closureCall (dest : Reg) (closure : Reg) (args : List Value)
  | command (dest : Reg) (name : String) (args : List Value)
  | dispatch (dest : Reg) (scrutinee : Value) (arms : List Arm) (default : BlockId)
  | guarded (dest : Reg) (guard : Guard)
  | leave (how : Terminator) (value : Value)
  | stray (what : Stray)

namespace Instr

def isTerminator : Instr → Bool
  | leave .. => true
  | _ => false

/-- The register an instruction writes, `Reg.none` if it writes none. -/
def out : Instr → Reg
  | binary _ d _ _ | regex d _ _ _ | load d _ | move d _ | circuit _ d _ _ _ | call d _ _
  | closureCreate d _ _ _ _ | closureCall d _ _ | command d _ _ | dispatch d _ _ _
  | guarded d _ => d
  | leave _ _ | stray _ => .none

/-- The values an instruction reads. -/
def ins : Instr → List Value
  | binary _ _ l r | regex _ l r _ => [l, r]
  | load _ v | leave _ v => [v]
  | move _ src => [.reg src]
  | circuit _ _ left _ _ => [left]
  | call _ _ args | command _ _ args => args
  | closureCreate _ _ captures _ _ => captures.map (·.value)
  | closureCall _ c args => .reg c :: args
  | dispatch _ scrutinee arms _ => scrutinee :: arms.map (·.pattern)
  | guarded _ _ | stray _ => []

/-- How a block is entered: as the body of a function or of a closure, or from within another
block of the same call. -/
inductive Entry where
  | function | closure | nested
deriving DecidableEq, Repr

/-- A reference to a block, with the way in which it is entered. -/
structure BlockRef where
  block : BlockId
  entry : Entry
deriving DecidableEq, Repr

def optional (b : BlockId) : List BlockRef := if b = .none then [] else [⟨b, .nested⟩]

/-- The blocks an instruction refers to, existing or not, in order. -/
def refs : Instr → List BlockRef
  | closureCreate _ b _ _ _ => [⟨b, .closure⟩]
  | dispatch _ _ arms default => arms.map (⟨·.block, .nested⟩) ++ optional default
  | guarded _ g => ⟨g.body, .nested⟩ :: (optional g.handler ++ optional g.cleanup)
  | _ => []

/-- All registers that running an instruction, or the closure it makes, may write. -/
def writes (x : Instr) : List Reg :=
  x.out :: match x with
    | closureCreate _ _ captures params _ => captures.map (·.reg) ++ params
    | guarded _ g => [g.caught]
    | _ => []

end Instr

end ScriptMachine
