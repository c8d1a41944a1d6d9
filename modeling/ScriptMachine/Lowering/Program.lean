import ScriptMachine.Lowering.Join

/-!
# Lowering

Turns a syntax tree into a program for the register machine. `Lowering.node` lowers a node into
the end of a block and returns the register of its value, if it has one. Statements behind one that
ends the block are dropped.
-/

namespace ScriptMachine.Lowering

open Build

/-! ## Leaves -/

/-- The value of a number: an integer in decimal or with a base, else a double. -/
def numberValue? (text : String) : Option Value :=
  let cs := text.toList
  ((Number.readInt cs).map .int)
    <|> ((Number.readIntAnyBase cs).map .int)
    <|> ((Number.readFloat cs).map .float)

/-- The value of a number; null, with a complaint, if it is none. -/
def number (pos : Position) (text : String) : Build Value :=
  match numberValue? text with
  | some v => return v
  | none => do
    complain pos (.badNumber text)
    return .null

def pattern : Node → Build Value
  | .number pos text => number pos text
  | .string _ s => return .string s
  | .word _ name => return .string name
  | x => do
    complain x.position (.patternNotLiteral x.typeName)
    return .null

/-- Whether a pattern takes everything. -/
def isDefault : Node → Bool
  | .word _ name => name == "_"
  | _ => false

def constant (b : BlockId) (v : Value) : Build (Option Reg) := return some (← load b v)

/-- A complaint, and null in the place of a value. -/
def degrade (b : BlockId) (pos : Position) (c : Complaint) : Build (Option Reg) := do
  complain pos c
  constant b .null

/-- A word: the value of a bound name, else a string. -/
def word (b : BlockId) (name : String) : Build (Option Reg) := do
  match ← lookup name with
  | some r => return some r
  | none => constant b (.string name)

/-! ## The ends of blocks -/

def leave (b : BlockId) (v : Value) : Build Unit := do
  emit b (.leave (if ← inClosure then .closureRet else .ret) v)

/-- Makes sure that the block of a body ends, if need be with the body's value. -/
def sealBody (b : BlockId) (last : Option Reg) : Build Unit := do
  unless ← terminated b do leave b (operand last)

/-- Makes sure that a nested block ends, if need be by handing its value on. -/
def sealNested (b : BlockId) (last : Option Reg) : Build Unit := do
  unless ← terminated b do emit b (.leave .yield (operand last))

/-! ## Operators -/

def operator? : String → Option (Reg → Value → Value → Instr)
  | "=~" => some (.regex · · · false)
  | "!~" => some (.regex · · · true)
  | op => (BinOp.ofSymbol? op).map .binary

def circuit? : String → Option Circuit
  | "&&" | "and" => some .and
  | "||" | "or" => some .or
  | _ => none

/-- The end of the code of a right operand, which moves its value to the result. -/
def landing (dest : Reg) : Option Reg → List Instr
  | some r => [.move dest r]
  | none => []

/-- A short circuit. The instruction is placed in front of the code of the right operand, whose
length is known only afterwards. Names bound by that code are not seen behind it, since it may not
run. -/
def circuit (b : BlockId) (kind : Circuit) (left : Option Reg) (right : Build (Option Reg)) :
    Build (Option Reg) := do
  let dest ← newReg
  let i ← length b
  let instr (r : Option Reg) (skip : Int64) :=
    Instr.circuit kind dest (operand left) (operand r) skip
  emit b (instr none 0)
  let (r, _) ← isolated right
  emitAll b (landing dest r)
  let n ← length b
  replace b i (instr r (Int64.ofNat (n - (i + 1))))
  return some dest

/-! ## Commands -/

/-- Issues a command with words and further arguments. -/
def issue (b : BlockId) (name : String) (words : List String) (args : Build (List Value)) :
    Build (Option Reg) := do
  let vs ← args
  produce b (.command · name (words.map .string ++ vs))

/-- A command. The words of its line are its name, unless it has one, and its first arguments. -/
def command (b : BlockId) (pos : Position) (name line : String) (args : Build (List Value)) :
    Build (Option Reg) :=
  if line = "" then issue b name [] args
  else match Words.split line with
    | .error e => degrade b pos (.badCommandLine line (some e))
    | .ok [] => degrade b pos (.badCommandLine line none)
    | .ok (w :: ws) => if name = "" then issue b w ws args else issue b name (w :: ws) args

/-! ## Branching instructions -/

/-- What a dispatch is made of so far: its arms, its default, and the branches of both. -/
structure Arms where
  arms : List Arm := []
  default : BlockId := .none
  branches : List Branch := []

namespace Arms

def addArm (a : Arms) (pattern : Value) (br : Branch) : Arms :=
  { a with arms := a.arms ++ [⟨pattern, br.block⟩], branches := a.branches ++ [br] }

def addDefault (a : Arms) (br : Branch) : Arms :=
  { a with default := br.block, branches := a.branches ++ [br] }

end Arms

/-- What takes everything, of which there can be only one. -/
def addDefault (pos : Position) (c : Complaint) (own : String) (caught : Reg) (a : Arms)
    (body : BlockId → Build (Option Reg)) : Build Arms :=
  if a.default ≠ .none then do
    complain pos c
    return a
  else do
    let br ← branch own caught body
    return a.addDefault br

/-- The default that stands apart from the cases, if there is one. -/
def addSeparate (pos : Position) (a : Arms) : Option (BlockId → Build (Option Reg)) → Build Arms
  | none => return a
  | some body => addDefault pos .unreachableDefault "" .none a body

/-- A further case, lowered pattern first. -/
def addCase (pos : Position) (a : Arms) (p : Node) (body : BlockId → Build (Option Reg)) :
    Build Arms :=
  if isDefault p then addDefault pos .unreachableDefault "" .none a body
  else do
    let v ← pattern p
    let br ← branch "" .none body
    return a.addArm v br

/-- A further clause, lowered body first. Only one clause can take everything. -/
def addClause (pos : Position) (caught : Reg) (a : Arms) (name : String) (p : Node)
    (body : BlockId → Build (Option Reg)) : Build Arms :=
  if p.isAbsent then addDefault pos .unreachableClause name caught a body
  else do
    let br ← branch name caught body
    let v ← pattern p
    return a.addArm v br

/-- The instruction of a choice, behind the joins of its branches. -/
def dispatch (b : BlockId) (scrutinee : Value) (before : Names) (a : Arms) :
    Build (Option Reg) := do
  join b before a.branches
  produce b (.dispatch · scrutinee a.arms a.default)

/-- The block for what no clause takes: a default, or a block that throws it again. -/
def orThrowAgain (caught : Reg) (default : BlockId) : Build BlockId :=
  if default ≠ .none then return default
  else do
    let again ← newBlock
    emit again (.leave .throw (.reg caught))
    return again

/-- Fills the block `b` that chooses among clauses by the caught value. -/
def chooseClause (b : BlockId) (caught : Reg) (a : Arms) : Build Unit := do
  let default ← orThrowAgain caught a.default
  let dest ← newReg
  emit b (.dispatch dest (.reg caught) a.arms default)
  emit b (.leave .yield (.reg dest))

/-- Whether there is one clause only and it takes everything. -/
def isSole : List Clause → Bool
  | [.mk _ p _] => p.isAbsent
  | _ => false

/-- A single clause, which handles all faults. -/
def soleHandler (caught : Reg) (lowered : Build Arms) : Build (BlockId × Reg × List Branch) := do
  let a ← lowered
  return (a.default, caught, a.branches)

/-- A block that handles faults by choosing among clauses. -/
def choosing (caught : Reg) (lowered : Build Arms) : Build (BlockId × Reg × List Branch) := do
  let block ← newBlock
  let a ← lowered
  chooseClause block caught a
  return (block, caught, a.branches)

/-- The block that handles faults, the register of what was caught, and the branches. A single
clause that takes everything is that block itself; else the block chooses among the clauses. -/
def handlers (cs : List Clause) (lowered : Reg → Build Arms) :
    Build (BlockId × Reg × List Branch) :=
  if cs.isEmpty then return (.none, .none, [])
  else do
    let caught ← newReg
    if isSole cs then soleHandler caught (lowered caught) else choosing caught (lowered caught)

/-- A choice among cases, and the default that stands apart from them if there is one. -/
def choice (b : BlockId) (pos : Position) (scrutinee : Build (Option Reg)) (cases : Build Arms)
    (default : Option (BlockId → Build (Option Reg))) : Build (Option Reg) := do
  let v := operand (← scrutinee)
  let before ← names
  let a ← cases
  let a ← addSeparate pos a default
  dispatch b v before a

/-- The block that ends a guarded section, if there is one. -/
def ending : Option (BlockId → Build (Option Reg)) → Build BlockId
  | none => return .none
  | some body => do
    let c ← newBlock
    sealNested c (← body c)
    return c

def guarded (b : BlockId) (body : BlockId → Build (Option Reg)) (cs : List Clause)
    (lowered : Reg → Build Arms) (cleanup : Option (BlockId → Build (Option Reg))) :
    Build (Option Reg) := do
  let before ← names
  let br ← branch "" .none body
  let (handler, caught, brs) ← handlers cs lowered
  join b before (br :: brs)
  let last ← ending cleanup
  produce b (.guarded · ⟨br.block, handler, caught, last⟩)

/-! ## Closures and calls -/

/-- Captures a name that a closure lists, with its value where the closure is created. A name that
is not bound there is captured as a string. -/
def captureName (pos : Position) (name : String) : Build Unit := do
  match ← lookupOutside name with
  | some r => capture name (.reg r)
  | none =>
    complain pos (.unboundCapture name)
    capture name (.string name)

def captureListed (pos : Position) : List String → Build Unit
  | [] => return
  | name :: rest => do
    captureName pos name
    captureListed pos rest

/-- The body of a closure. The registers of its parameters are returned. -/
def closureBody (block : BlockId) (pos : Position) (params captures : List String)
    (body : Build (Option Reg)) : Build (List Reg) := do
  let regs ← newRegs params
  bindAll params regs
  captureListed pos captures
  sealBody block (← body)
  return regs

/-- A closure, whose body becomes a block of the function at hand. -/
def closure (b : BlockId) (pos : Position) (params captures : List String)
    (body : BlockId → Build (Option Reg)) : Build (Option Reg) := do
  let block ← newBlock
  let (regs, captured) ← enclosed (closureBody block pos params captures (body block))
  produce b (.closureCreate · block captured regs params)

/-- The code of a whole function, whose parameters are the names at hand at its start. -/
def wholeBody (f : Func) (body : BlockId → Build (Option Reg)) : Build Unit := do
  bindAll f.params f.paramRegs
  sealBody f.entry (← body f.entry)

def function (pos : Position) (name : String) (params : List String)
    (body : BlockId → Build (Option Reg)) : Build Unit :=
  if name = mainName ∨ name = "" then complain pos (.badFunctionName name)
  else
    let f := Func.new name params
    Build.function f (wholeBody f body)

def callHeld (b : BlockId) (callee : Reg) (args : Build (List Value)) : Build (Option Reg) := do
  let vs ← args
  produce b (.closureCall · callee vs)

def callNamed (b : BlockId) (name : String) (args : Build (List Value)) : Build (Option Reg) := do
  let vs ← args
  produce b (.call · name vs)

/-- A call: of what a name stands for, of the function of that name, or of a value. -/
def call (b : BlockId) (pos : Position) (callee : Node) (value : Build (Option Reg))
    (args : Build (List Value)) : Build (Option Reg) :=
  match callee with
  | .word _ name => do
    match ← lookup name with
    | some r => callHeld b r args
    | none => callNamed b name args
  | callee => do
    match ← value with
    | some r => callHeld b r args
    | none => degrade b pos (.calleeWithoutValue callee.typeName)

def binary (b : BlockId) (pos : Position) (op : String) (left right : Build (Option Reg)) :
    Build (Option Reg) := do
  let l ← left
  match circuit? op with
  | some kind => circuit b kind l right
  | none =>
    match operator? op with
    | none => degrade b pos (.unsupportedOperator op)
    | some instr =>
      let r ← right
      produce b (instr · (operand l) (operand r))

/-- Binds a name to a value, or to null where there is none. -/
def assign (b : BlockId) (name : String) (value : Build (Option Reg)) : Build (Option Reg) := do
  let r ← orNull b (← value)
  bind name r
  return some r

/-! ## Nodes -/

mutual

/-- Lowers a node into the end of a block. -/
def node (b : BlockId) : Node → Build (Option Reg)
  | .absent => return none
  | .program _ xs | .list _ xs => stmts b none xs
  | .number pos text => do constant b (← number pos text)
  | .string _ s => constant b (.string s)
  | .word _ name => word b name
  | .assign _ name value => assign b name (node b value)
  | .func pos name params body => do
    function pos name params (node · body)
    return none
  | .call pos callee xs => call b pos callee (node b callee) (args b xs)
  | .closure pos params captures body => closure b pos params captures (node · body)
  | .binary pos left op right => binary b pos op (node b left) (node b right)
  | .choice pos scrutinee cs default =>
    choice b pos (node b scrutinee) (cases pos {} cs)
      (if default.isAbsent then none else some (node · default))
  | .guarded pos body cs cleanup =>
    guarded b (node · body) cs (clauses pos · {} cs)
      (if cleanup.isAbsent then none else some (node · cleanup))
  | .ret _ value => do
    leave b (operand (← node b value))
    return none
  | .throw _ value => do
    emit b (.leave .throw (operand (← node b value)))
    return none
  | .command pos name xs line => command b pos name line (args b xs)
  | .invoke _ name xs => issue b name [] (args b xs)
  | .other pos type => degrade b pos (.unsupportedNode type)

/-- Lowers statements until one of them ends the block. -/
def stmts (b : BlockId) (last : Option Reg) : List Node → Build (Option Reg)
  | [] => return last
  | x :: xs => do
    let r ← node b x
    if ← terminated b then return r else stmts b r xs

def args (b : BlockId) : List Node → Build (List Value)
  | [] => return []
  | x :: xs => do
    let r ← node b x
    return operand r :: (← args b xs)

def cases (pos : Position) (a : Arms) : List Case → Build Arms
  | [] => return a
  | .mk p body :: cs => do
    let a ← addCase pos a p (node · body)
    cases pos a cs

def clauses (pos : Position) (caught : Reg) (a : Arms) : List Clause → Build Arms
  | [] => return a
  | .mk name p body :: cs => do
    let a ← addClause pos caught a name p (node · body)
    clauses pos caught a cs

end

/-! ## Programs -/

/-- Lowers a tree into a program, whose main function is the tree's code. -/
def program (root : Node) : Program × List Diagnostic :=
  let main := Func.new mainName []
  let start : Builder := { program := ({} : Program).add main, func := main }
  let done := ((wholeBody main (node · root)).run start).2
  (done.program.add done.func, done.diags)

end ScriptMachine.Lowering
