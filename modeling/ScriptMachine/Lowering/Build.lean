import ScriptMachine.Lowering.Diagnostic
import ScriptMachine.Lowering.Scope

/-!
# Building code

The state of a lowering and its primitive steps: fresh registers and blocks, instructions at the
end of a block, names, and diagnostics.
-/

namespace ScriptMachine

/-- A lowering at work: the functions that are done, the function under construction, the names at
hand, the closures around them, innermost first, and the diagnostics so far. -/
structure Builder where
  program : Program := {}
  func : Func
  names : Names := []
  enclosing : List Enclosure := []
  diags : List Diagnostic := []

/-- A step of a lowering. -/
abbrev Build := StateM Builder

namespace Build

/-! ## Code -/

def newReg : Build Reg := modifyGet fun s =>
  let (f, r) := s.func.newReg
  (r, { s with func := f })

def newRegs : List String → Build (List Reg)
  | [] => return []
  | _ :: ns => do
    let r ← newReg
    let rs ← newRegs ns
    return r :: rs

def newBlock : Build BlockId := modifyGet fun s =>
  let (f, b) := s.func.newBlock
  (b, { s with func := f })

def emit (b : BlockId) (x : Instr) : Build Unit :=
  modify fun s => { s with func := s.func.append b x }

def emitAll (b : BlockId) : List Instr → Build Unit
  | [] => return
  | x :: xs => do
    emit b x
    emitAll b xs

def length (b : BlockId) : Build Nat := do
  let s ← get
  return ((s.func.block? b).map (·.code.size)).getD 0

def replace (b : BlockId) (i : Nat) (x : Instr) : Build Unit :=
  modify fun s => { s with func := s.func.replace b i x }

def terminated (b : BlockId) : Build Bool := do
  let s ← get
  return ((s.func.block? b).map Block.terminated).getD false

def load (b : BlockId) (v : Value) : Build Reg := do
  let r ← newReg
  emit b (.load r v)
  return r

/-- The register of a value, or one that is null where there is none. -/
def orNull (b : BlockId) : Option Reg → Build Reg
  | some r => return r
  | none => load b .null

/-- Appends an instruction whose result goes to a new register. -/
def produce (b : BlockId) (x : Reg → Instr) : Build (Option Reg) := do
  let r ← newReg
  emit b (x r)
  return some r

/-! ## Names -/

def lookup (name : String) : Build (Option Reg) := modifyGet fun s =>
  let (r, f, es) := resolve name s.func s.names s.enclosing
  (r, { s with func := f, enclosing := es })

def bind (name : String) (r : Reg) : Build Unit :=
  modify fun s => { s with names := s.names.bind name r }

def bindAll : List String → List Reg → Build Unit
  | n :: ns, r :: rs => do
    bind n r
    bindAll ns rs
  | _, _ => return

def names : Build Names := return (← get).names

/-- Runs steps whose names are not seen afterwards, and returns these names too. -/
def isolated {α : Type} (steps : Build α) : Build (α × Names) := do
  let before ← names
  let a ← steps
  let after ← names
  modify fun s => { s with names := before }
  return (a, after)

/-- The register that a name stands for where the closure at hand is created. -/
def lookupOutside (name : String) : Build (Option Reg) := modifyGet fun s =>
  match s.enclosing with
  | [] => (none, s)
  | e :: es =>
    let (r, f, es) := resolve name s.func e.outer es
    (r, { s with func := f, enclosing := e :: es })

def capture (name : String) (v : Value) : Build Unit := do
  let r ← newReg
  modify fun s =>
    match s.enclosing with
    | [] => s
    | e :: es => { s with enclosing := e.capture name v r :: es }

/-- Runs the steps of the body of a closure, which has no names of its own yet, and returns what it
captured too. -/
def enclosed {α : Type} (steps : Build α) : Build (α × List (Capture Value)) := fun s =>
  let (a, t) := steps { s with names := [], enclosing := ⟨s.names, [], []⟩ :: s.enclosing }
  match t.enclosing with
  | [] => ((a, []), t)
  | e :: es => ((a, e.captures), { t with names := e.outer, enclosing := es })

def inClosure : Build Bool := return !(← get).enclosing.isEmpty

/-- Builds another function, which sees nothing of the one at hand, and adds it to the program. -/
def function (f : Func) (steps : Build Unit) : Build Unit := do
  let s ← get
  set { s with func := f, names := [], enclosing := [] }
  steps
  modify fun t =>
    { t with program := t.program.add t.func, func := s.func, names := s.names,
             enclosing := s.enclosing }

/-! ## Diagnostics -/

def complain (pos : Position) (c : Complaint) : Build Unit :=
  modify fun s => { s with diags := s.diags ++ [⟨pos, c⟩] }

end Build

end ScriptMachine
