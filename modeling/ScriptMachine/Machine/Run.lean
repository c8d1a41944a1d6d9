import ScriptMachine.Machine.Action

/-!
# Runs

The machine runs one block at a time; the blocks and calls that wait for it form a stack, whose
height is the depth that the configuration limits. A step either runs the instruction at hand or,
when a block has ended, gives its outcome to whoever waits for it.
-/

namespace ScriptMachine

/-- How programs are run: how many calls and nested blocks may be open at once, and who runs
commands. -/
structure RunConfig where
  maxDepth : Nat
  runner : Option Runner := none

/-- Why a depth is refused as a limit. -/
inductive DepthError where
  | tooSmall | tooLarge
deriving DecidableEq, Repr

def DepthError.message (e : DepthError) : String :=
  "executor config: Key: 'Config.MaxDepth' Error:Field validation for 'MaxDepth' failed on the '"
    ++ (match e with | tooSmall => "min" | tooLarge => "max") ++ "' tag"

namespace RunConfig

/-- The limit where none is given. -/
def defaultDepth : Nat := 4096

def depthLimit : Nat := 65536

/-- The configuration with a given limit, zero standing for the default. -/
def ofDepth (depth : Int) (runner : Option Runner) : Except DepthError RunConfig :=
  if depth = 0 then .ok { maxDepth := defaultDepth, runner }
  else if depth < 1 then .error .tooSmall
  else if (depthLimit : Int) < depth then .error .tooLarge
  else .ok { maxDepth := depth.toNat, runner }

end RunConfig

/-- A place in a block. The index of the instruction moves in 64-bit arithmetic. -/
structure Site where
  block : BlockId
  code : Array Instr
  ip : Int64

/-- What waits for the end of the running block. -/
inductive Waiting where
  /-- A call in another frame, whose result goes to `dest`. -/
  | caller (fr : Frame) (site : Site) (dest : Reg)
  /-- An instruction of the same frame that entered the block. -/
  | within (site : Site) (after : After)

/-- All that waits, the latest first, with its number at hand. -/
structure Stack where
  entries : List Waiting := []
  height : Nat := 0
  height_eq : height = entries.length := by rfl

namespace Stack

def push (w : Waiting) (k : Stack) : Stack where
  entries := w :: k.entries
  height := k.height + 1
  height_eq := by simp [k.height_eq]

/-- The latest, and what waits below it. -/
def pop? : Stack → Option (Waiting × Stack)
  | ⟨[], _, _⟩ => none
  | ⟨w :: ws, n, h⟩ => some (w, ⟨ws, n - 1, by simp [h]⟩)

/-- Stacks are told apart by their entries alone. -/
theorem ext {j k : Stack} (h : j.entries = k.entries) : j = k := by
  obtain ⟨js, m, hm⟩ := j
  obtain ⟨ks, n, hn⟩ := k
  simp_all

@[simp] theorem entries_push (w : Waiting) (k : Stack) : (k.push w).entries = w :: k.entries := rfl

@[simp] theorem height_push (w : Waiting) (k : Stack) : (k.push w).height = k.height + 1 := rfl

@[simp] theorem pop?_push (w : Waiting) (k : Stack) : (k.push w).pop? = some (w, k) := rfl

theorem pop?_eq_none_iff (k : Stack) : k.pop? = none ↔ k.entries = [] := by
  obtain ⟨_ | ⟨w, ws⟩, n, h⟩ := k <;> simp [pop?]

theorem pop?_eq_some_iff (k j : Stack) (w : Waiting) : k.pop? = some (w, j) ↔ k = j.push w := by
  obtain ⟨js, m, hm⟩ := j
  obtain ⟨_ | ⟨v, vs⟩, n, h⟩ := k
  · simp [pop?, push]
  · simp only [List.length_cons] at h
    simp only [pop?, push, Option.some.injEq, Prod.mk.injEq, mk.injEq, List.cons.injEq]
    grind

end Stack

/-- A machine at work. If the running block has ended, `ended` holds its outcome. -/
structure State where
  frame : Frame
  site : Site
  ended : Option Outcome := none
  stack : Stack := {}
  world : World := {}

inductive Next where
  | state (s : State)
  | halt (w : World) (o : Outcome)
  | crash (w : World) (c : Crash)

namespace State

/-- The number of calls and nested blocks that are open. -/
def depth (s : State) : Nat := s.stack.height + 1

def location (s : State) (i : Int) : Location := ⟨s.frame.func.name, s.site.block, i⟩

def finish (s : State) (o : Outcome) : State := { s with ended := some o }

/-- The running block ends with a fault, placed at the instruction at hand unless it has a place. -/
def fail (s : State) (f : Fault) : State :=
  s.finish (.fault (f.locate (s.location s.site.ip.toInt)))

/-- Goes on behind the instruction at hand, `skip` instructions further. -/
def advance (s : State) (fr : Frame) (skip : Int64) : State :=
  { s with frame := fr, ended := none, site := { s.site with ip := s.site.ip + skip + 1 } }

/-- Writes the result of the instruction at hand and goes on. -/
def store (s : State) (dest : Reg) (v : Value) : State :=
  match s.frame.write dest v with
  | .ok fr => s.advance fr 0
  | .error c => s.fail { cause := c }

/-- Starts a block in a frame on top of a stack; a missing block has ended already. -/
def start (s : State) (fr : Frame) (b : BlockId) (stack : Stack) : State :=
  match fr.func.block? b with
  | some k => { s with frame := fr, site := ⟨b, k.code, 0⟩, ended := none, stack }
  | none =>
    { s with frame := fr, stack, ended := some (.fault { cause := .noBlock fr.func.name b }) }

/-- The instruction at hand enters another block of the same frame. -/
def enter (cfg : RunConfig) (s : State) (b : BlockId) (after : After) : State :=
  let stack := s.stack.push (.within s.site after)
  if s.depth < cfg.maxDepth then s.start s.frame b stack
  else
    let cause := Cause.tooDeepBlock s.depth s.frame.func.name b
    { s with stack, ended := some (.fault { cause }) }

def call (cfg : RunConfig) (s : State) (c : Callee) (dest : Reg) : Except Crash State :=
  if cfg.maxDepth ≤ s.depth then .ok (s.fail { cause := c.tooDeep s.depth })
  else do
    let fr ← Frame.new c.func
    match fr.writeAll c.binds with
    | .error e => return s.fail { cause := e }
    | .ok fr => return s.start fr c.start (s.stack.push (.caller s.frame s.site dest))

end State

/-- The value that a handler receives for a fault: what was thrown, or the text of the fault. Too
much depth is not handled. -/
def Fault.caught? (f : Fault) : Option Value :=
  match f.cause with
  | .thrown v => some v
  | .tooDeepCall .. | .tooDeepClosure .. | .tooDeepBlock .. => none
  | _ => some (.string f.text)

namespace Machine

/-- The instruction at hand ends with the outcome of a block that it entered. -/
def conclude (s : State) (dest : Reg) : Outcome → State
  | .fault f => s.fail f
  | .value v .ret => s.finish (.value v .ret)
  | .value v .yield => s.store dest v

/-- A guarded section has ended but for its cleanup. -/
def cleanUp (cfg : RunConfig) (s : State) (dest : Reg) (g : Guard) (o : Outcome) : State :=
  if g.cleanup = .none then conclude s dest o else s.enter cfg g.cleanup (.cleanup dest o)

/-- The body of a guarded section has ended: a fault that can be handled goes to the handler. -/
def handle (cfg : RunConfig) (s : State) (dest : Reg) (g : Guard) (o : Outcome) : State :=
  match o with
  | .value .. => cleanUp cfg s dest g o
  | .fault f =>
    if g.handler = .none then cleanUp cfg s dest g o
    else match f.caught? with
      | none => cleanUp cfg s dest g o
      | some v =>
        match s.frame.write g.caught v with
        | .error e => cleanUp cfg s dest g (.fault { cause := e })
        | .ok fr => { s with frame := fr }.enter cfg g.handler (.handler dest g)

/-- Gives the outcome of a nested block to the instruction that entered it. -/
def resume (cfg : RunConfig) (s : State) (after : After) (o : Outcome) : State :=
  match after with
  | .arm dest => conclude s dest o
  | .body dest g => handle cfg s dest g o
  | .handler dest g => cleanUp cfg s dest g o
  | .cleanup dest pending =>
    match o with
    | .value _ .yield => conclude s dest pending
    | o => conclude s dest o

/-- Gives the outcome of the block that has ended to whoever waits for it. -/
def unwind (cfg : RunConfig) (s : State) (o : Outcome) : Next :=
  match s.stack.pop? with
  | none => .halt s.world o
  | some (.caller fr site dest, stack) =>
    let t := { s with frame := fr, site, stack, ended := none }
    match o with
    | .fault f => .state (t.fail f)
    | .value v _ => .state (t.store dest v)
  | some (.within site after, stack) =>
    .state (resume cfg { s with site, stack, ended := none } after o)

def execute (cfg : RunConfig) (p : Program) (s : State) (x : Instr) : Next :=
  match perform cfg.runner p s.frame s.world x with
  | (w, .error c) => .state ({ s with world := w }.fail { cause := c })
  | (w, .ok action) =>
    let s := { s with world := w }
    match action with
    | .next fr skip => .state (s.advance fr skip)
    | .leave v exit => .state (s.finish (.value v exit))
    | .enter b after => .state (s.enter cfg b after)
    | .call c dest =>
      match s.call cfg c dest with
      | .ok s => .state s
      | .error c => .crash w c

def step (cfg : RunConfig) (p : Program) (s : State) : Next :=
  match s.ended with
  | some o => unwind cfg s o
  | none =>
    let ip := s.site.ip.toInt
    if ip < 0 then .crash s.world (.indexOutside ip)
    else match s.site.code[ip.toNat]? with
      | some x => execute cfg p s x
      | none =>
        let f : Fault := { cause := .unterminated }
        .state (s.finish (.fault (f.locate (s.location s.site.code.size))))

/-- How a run ended: with a value, with a fault, with a crash, or not at all. -/
inductive Ending where
  | value (v : Value)
  | fault (f : Fault)
  | crash (c : Crash)
  | unfinished

/-- The result of a run: the commands it issued and how it ended. -/
structure Result where
  calls : List (List String)
  ending : Ending

/-- The end of a run in which no block is left. -/
def Result.ofOutcome (w : World) : Outcome → Result
  | .value v _ => ⟨w.calls, .value v⟩
  | .fault f => ⟨w.calls, .fault f⟩

end Machine

/-- Runs until the end. A run that does not end has no result. -/
def State.run (s : State) (cfg : RunConfig) (p : Program) : Option Machine.Result :=
  match Machine.step cfg p s with
  | .state t => t |>.run cfg p
  | .halt w o => some (.ofOutcome w o)
  | .crash w c => some ⟨w.calls, .crash c⟩
partial_fixpoint

namespace Machine

/-- The state in which a call of `main` starts, or the fault if there is no such call. -/
def initial (p : Program) : Except Crash (Except Cause State) :=
  match p.main? with
  | none => .ok (.error (.noFunction mainName))
  | some f => do
    let fr ← Frame.new f
    match fr.writeAll (bindArgs f.paramRegs []) with
    | .error e => return .error e
    | .ok fr =>
      let blank : State := { frame := fr, site := ⟨f.entry, #[], 0⟩ }
      return .ok (blank.start fr f.entry {})

def main (cfg : RunConfig) (p : Program) : Result :=
  match initial p with
  | .error c => ⟨[], .crash c⟩
  | .ok (.error cause) => ⟨[], .fault { cause }⟩
  | .ok (.ok s) => (s.run cfg p).getD ⟨[], .unfinished⟩

end Machine

end ScriptMachine
