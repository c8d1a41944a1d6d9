import ScriptMachine.Machine.Frame
import ScriptMachine.Pattern.Match

/-!
# What an instruction does

`perform` runs one instruction on a frame. The result is an action: the instruction is done, the
block ends, a call is to be made, or another block of the same frame is to be run. All that lies
outside the frame is in the world: the commands that were issued and the closures that were made.
-/

namespace ScriptMachine

/-- Runs commands. The name and the arguments of a command give a value or a problem, which may
depend on the commands issued before, the latest of them first. -/
structure Runner where
  answer : (past : List (List String)) → (name : String) → (args : List String) →
    Except String Value

/-- A runner that does not look at the past. -/
instance : Coe (String → List String → Except String Value) Runner := ⟨fun run => ⟨fun _ => run⟩⟩

/-- What a run leaves behind outside its frames. -/
structure World where
  /-- The commands issued, each with its name first, the latest first. -/
  issued : List (List String) := []
  closures : Nat := 0

/-- The commands issued, in order. -/
def World.calls (w : World) : List (List String) := w.issued.reverse

/-- How a block ends: its value goes to the instruction that entered it, or out of the call. -/
inductive Exit where
  | yield | ret
deriving DecidableEq, Repr

inductive Outcome where
  | value (v : Value) (exit : Exit)
  | fault (f : Fault)

/-- What the outcome of a nested block is for. -/
inductive After where
  | arm (dest : Reg)
  | body (dest : Reg) (g : Guard)
  | handler (dest : Reg) (g : Guard)
  /-- The block runs at the end of a guarded section whose outcome is `pending`. -/
  | cleanup (dest : Reg) (pending : Outcome)

/-- A call that is ready to be made: the function, the registers to be set, the block to start
with, and the fault if it would be too deep, by the depth reached. -/
structure Callee where
  func : Func
  binds : List (Reg × Value)
  start : BlockId
  tooDeep : Nat → Cause

inductive Action where
  /-- Go on behind the instruction, `skip` instructions further. -/
  | next (fr : Frame) (skip : Int64)
  | leave (v : Value) (exit : Exit)
  | call (c : Callee) (dest : Reg)
  | enter (b : BlockId) (after : After)

namespace Machine

/-- Writes the result of an instruction and goes on. -/
def finish (fr : Frame) (dest : Reg) (v : Value) : Except Cause Action :=
  (fr.write dest v).map (.next · 0)

def calleeNamed (p : Program) (name : String) (args : List Value) : Except Cause Callee :=
  match p.func? name with
  | none => .error (.noFunction name)
  | some f => .ok ⟨f, bindArgs f.paramRegs args, f.entry, (.tooDeepCall · name)⟩

/-- The call of a closure: the captured values are set first, then the parameters. -/
def calleeClosure (p : Program) (c : Closure Value) (args : List Value) : Except Cause Callee :=
  match p.func? c.func with
  | none => .error (.noClosureFunction c.func)
  | some f =>
    .ok ⟨f, c.captures.map (fun cp => (cp.reg, cp.value)) ++ bindArgs c.params args, c.block,
      (.tooDeepClosure · c.func c.block)⟩

/-- A short circuit: decided by the left operand alone, or left to the code that follows. If that
code has no value, the result is null. -/
def circuit (fr : Frame) (kind : Circuit) (dest : Reg) (left right : Value) (skip : Int64) :
    Except Cause Action := do
  let l ← fr.read left
  if l.truthy = kind.decides then
    let fr ← fr.write dest (.bool kind.decides)
    return .next fr skip
  else if right.isReg then
    return .next fr 0
  else
    finish fr dest .null

def capture (fr : Frame) : List (Capture Value) → Except Cause (List (Capture Value))
  | [] => .ok []
  | c :: cs => do
    let v ← fr.read c.value
    let rest ← capture fr cs
    return ⟨v, c.reg⟩ :: rest

/-- The block of the first arm whose pattern equals `v`, else the default. Patterns behind that arm
are not read. -/
def chooseArm (fr : Frame) (v : Value) (default : BlockId) : List Arm → Except Cause BlockId
  | [] => .ok default
  | a :: as => do
    let pattern ← fr.read a.pattern
    if equal v pattern then return a.block else chooseArm fr v default as

/-- Calls what a register holds: a closure, or a function by its name. -/
def callee (p : Program) (v : Value) (args : List Value) : Except Cause Callee :=
  match v with
  | .closure c => calleeClosure p c args
  | .string name => calleeNamed p name args
  | v => .error (.notCallable v)

/-- A command: its arguments are texts, and a runner that returns nothing returns null. -/
def command (runner : Option Runner) (fr : Frame) (w : World) (name : String)
    (args : List Value) : World × Except Cause Value :=
  match runner with
  | none => (w, .error (.noRunner name))
  | some run =>
    match fr.readAll args with
    | .error e => (w, .error e)
    | .ok vs =>
      let texts := vs.map Value.text
      ({ w with issued := (name :: texts) :: w.issued },
        match run.answer w.issued name texts with
        | .error problem => .error (.command name problem)
        | .ok .unset => .ok .null
        | .ok v => .ok v)

def leave (fr : Frame) (how : Terminator) (v : Value) : Except Cause Action := do
  let x ← fr.read v
  match how with
  | .ret | .closureRet => return .leave x .ret
  | .yield => return .leave x .yield
  | .throw => .error (.thrown x)

/-- The match of a text with a pattern, which is compiled each time. -/
def matchPattern (text pattern : Value) (negate : Bool) : Except Cause Value :=
  match Pattern.search pattern.text text.text with
  | .ok found => .ok (.bool (found != negate))
  | .error e => .error (.badPattern pattern.text e.message)

/-- A call of what a register holds, which is looked at before the arguments. -/
def callHeld (p : Program) (fr : Frame) (r : Reg) (args : List Value) : Except Cause Callee :=
  match fr.get? r with
  | none => .error (.callUnset r)
  | some v => do
    let vs ← fr.readAll args
    callee p v vs

/-- Makes a closure of a block of the running function. -/
def create (fr : Frame) (w : World) (block : BlockId) (captures : List (Capture Value))
    (params : List Reg) : World × Except Cause Value :=
  match capture fr captures with
  | .error e => (w, .error e)
  | .ok cs =>
    ({ w with closures := w.closures + 1 },
      .ok (.closure ⟨.created w.closures, fr.func.name, block, params, cs⟩))

/-- Runs an instruction. Only new closures and commands change the world. -/
def perform (runner : Option Runner) (p : Program) (fr : Frame) (w : World) :
    Instr → World × Except Cause Action
  | .binary op dest l r => (w, do
    let a ← fr.read l
    let b ← fr.read r
    let v ← op.apply a b
    finish fr dest v)
  | .regex dest l r negate => (w, do
    let a ← fr.read l
    let b ← fr.read r
    let v ← matchPattern a b negate
    finish fr dest v)
  | .load dest v => (w, do
    let x ← fr.read v
    finish fr dest x)
  | .move dest src => (w, do
    let x ← fr.read (.reg src)
    finish fr dest x)
  | .circuit kind dest left right skip => (w, circuit fr kind dest left right skip)
  | .call dest func args => (w, do
    let vs ← fr.readAll args
    let c ← calleeNamed p func vs
    return .call c dest)
  | .closureCall dest c args => (w, do
    let c ← callHeld p fr c args
    return .call c dest)
  | .closureCreate dest block captures params _ =>
    let (w, made) := create fr w block captures params
    (w, made.bind (finish fr dest))
  | .command dest name args =>
    let (w, result) := command runner fr w name args
    (w, result.bind (finish fr dest))
  | .dispatch dest scrutinee arms default => (w, do
    let v ← fr.read scrutinee
    let b ← chooseArm fr v default arms
    if b = .none then finish fr dest .null else return .enter b (.arm dest))
  | .guarded dest g => (w, .ok (.enter g.body (.body dest g)))
  | .leave how v => (w, leave fr how v)
  | .stray what => (w, .error (.unknownInstr what.typeName))

end Machine

end ScriptMachine
