import ScriptMachine.Code.Program

/-!
# Frames

The registers of one call. A register that was never written, or that does not exist, cannot be
read; one that does not exist cannot be written.
-/

namespace ScriptMachine

/-- The registers of a running call of a function. -/
structure Frame where
  func : Func
  regs : Array Value

namespace Frame

/-- More registers than this cannot be had. -/
def maxRegs : Nat := (1 <<< 48) / 48

def new (f : Func) : Except Crash Frame :=
  if f.numRegs < 0 ∨ maxRegs < f.numRegs then .error .sizeOutside
  else .ok ⟨f, Array.replicate f.numRegs.toNat .unset⟩

def get? (fr : Frame) (r : Reg) : Option Value :=
  if r.index < 0 then none else fr.regs[r.index.toNat]?.filter Value.isSet

def read (fr : Frame) (v : Value) : Except Cause Value :=
  match v with
  | .reg r => match fr.get? r with
    | some x => .ok x
    | none => .error (.readUnset r)
  | v => .ok v

/-- The values of operands, up to the first that cannot be read. -/
def readAll (fr : Frame) : List Value → Except Cause (List Value)
  | [] => .ok []
  | v :: vs => do
    let x ← fr.read v
    let xs ← fr.readAll vs
    return x :: xs

def write (fr : Frame) (r : Reg) (v : Value) : Except Cause Frame :=
  if 0 ≤ r.index ∧ r.index < fr.regs.size then
    .ok { fr with regs := fr.regs.set! r.index.toNat v }
  else .error (.writeOutside r fr.func.name fr.regs.size)

/-- Writes registers in order, up to the first that does not exist. -/
def writeAll (fr : Frame) : List (Reg × Value) → Except Cause Frame
  | [] => .ok fr
  | (r, v) :: rest => do
    let fr ← fr.write r v
    fr.writeAll rest

end Frame

/-- Pairs registers with arguments; missing arguments are null and further ones are dropped. -/
def bindArgs : List Reg → List Value → List (Reg × Value)
  | [], _ => []
  | r :: rs, [] => (r, .null) :: bindArgs rs []
  | r :: rs, v :: vs => (r, v) :: bindArgs rs vs

end ScriptMachine
