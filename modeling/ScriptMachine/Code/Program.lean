import ScriptMachine.Code.Instr

/-!
# Programs

A program is a table of functions with an order, a function a list of blocks over one set of
registers. Functions are built by asking for fresh registers and blocks.
-/

namespace ScriptMachine

/-- A block of code. Its number is what is shown; it is found by its position. -/
structure Block where
  id : BlockId
  code : Array Instr := #[]

def Block.terminated (b : Block) : Bool :=
  match b.code.back? with
  | some x => x.isTerminator
  | none => false

/-- A function: its parameters with the registers that receive them, its blocks, the block where
a call starts, and the number of its registers. -/
structure Func where
  name : String
  params : List String := []
  paramRegs : List Reg := []
  blocks : Array Block := #[]
  entry : BlockId := ⟨0⟩
  numRegs : Int := 0

namespace Func

def block? (f : Func) (b : BlockId) : Option Block :=
  if b.index < 0 then none else f.blocks[b.index.toNat]?

/-- A register that the function did not have before. -/
def newReg (f : Func) : Func × Reg :=
  ({ f with numRegs := f.numRegs + 1 }, ⟨f.numRegs⟩)

/-- An empty block at the end of the function. -/
def newBlock (f : Func) : Func × BlockId :=
  let id : BlockId := ⟨f.blocks.size⟩
  ({ f with blocks := f.blocks.push { id } }, id)

/-- A register for each parameter. -/
def addParams (f : Func) : List String → Func
  | [] => f
  | _ :: ps =>
    let (g, r) := f.newReg
    { g with paramRegs := g.paramRegs ++ [r] }.addParams ps

/-- A function with an empty entry block and a register for each parameter. -/
def new (name : String) (params : List String) : Func :=
  let (f, entry) := ({ name, params } : Func).newBlock
  { f with entry }.addParams params

def append (f : Func) (b : BlockId) (x : Instr) : Func :=
  if b.index < 0 then f
  else { f with blocks := f.blocks.modify b.index.toNat fun k => { k with code := k.code.push x } }

def replace (f : Func) (b : BlockId) (i : Nat) (x : Instr) : Func :=
  if b.index < 0 then f
  else
    { f with blocks := f.blocks.modify b.index.toNat fun k =>
        { k with code := k.code.setIfInBounds i x } }

end Func

/-- A program: its functions, one for each name, and the order in which they are shown. A function is
found by its own name, and no function or block of it is left out. -/
structure Program where
  funcs : List Func := []
  order : List String := []

/-- The name of the function where a run starts. -/
def mainName : String := "main"

namespace Program

def func? (p : Program) (name : String) : Option Func := p.funcs.find? (·.name == name)

/-- Adds a function. Under a name already taken it replaces the old one and keeps its position. -/
def add (p : Program) (f : Func) : Program :=
  match p.func? f.name with
  | some _ => { p with funcs := p.funcs.map fun g => if g.name == f.name then f else g }
  | none => { funcs := p.funcs ++ [f], order := p.order ++ [f.name] }

def main? (p : Program) : Option Func := p.func? mainName

end Program

end ScriptMachine
