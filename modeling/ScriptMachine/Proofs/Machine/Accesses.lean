import ScriptMachine.Proofs.Machine.Frames
import ScriptMachine.Proofs.Machine.Raised

/-!
# What happens in a frame

A log holds, in order, what happens in one frame of a run: the blocks that are entered, the registers
that are read and those that are written. The machine itself keeps no logs; `Machine.record` says what
a step adds to them, following the step case by case, and a traced run carries them along.

A log is orderly if no block is entered twice and no register is written once it was read.
-/

namespace ScriptMachine

/-- Something that happens in a frame. -/
inductive Access where
  | enter (b : BlockId)
  | read (r : Reg)
  | write (r : Reg)
deriving DecidableEq, Repr

/-- What may still happen after an access: what was read is written no more, and what was entered is
not entered again. -/
def Access.Admits : Access → Access → Prop
  | enter b, enter c => b ≠ c
  | read r, write q => r ≠ q
  | _, _ => True

/-- The accesses of one frame, the first of them first. -/
abbrev Log := List Access

/-- No block is entered more than once, and no register is written after it has been read. -/
def Log.Orderly (log : Log) : Prop := log.Pairwise Access.Admits

/-- The logs of the frames that are alive: of the running one, and of those whose calls wait for it,
the latest first. -/
structure History where
  log : Log
  waiting : List Log := []

/-- The running frame goes on. -/
def History.note (h : History) (log : Log) : History := { h with log := h.log ++ log }

/-- The registers that an instruction reads. -/
def Instr.readLog (x : Instr) : Log := (x.ins.filterMap Value.reg?).map .read

theorem Instr.mem_readLog {x : Instr} {a : Access} :
    a ∈ x.readLog ↔ ∃ r, .reg r ∈ x.ins ∧ a = .read r := by
  have hreg : ∀ (v : Value) (r : Reg), v.reg? = some r ↔ v = .reg r := by
    intro v r
    cases v <;> simp [Value.reg?]
  simp only [readLog, List.mem_map, List.mem_filterMap, hreg]
  constructor
  · rintro ⟨r, ⟨v, hv, rfl⟩, rfl⟩
    exact ⟨r, hv, rfl⟩
  · rintro ⟨r, hr, rfl⟩
    exact ⟨r, ⟨_, hr, rfl⟩, rfl⟩

@[simp] theorem State.frame_start (s : State) (fr : Frame) (b : BlockId) (stack : Stack) :
    (s.start fr b stack).frame = fr := by
  unfold start
  split <;> rfl

namespace Machine

/-! ## What a step adds -/

/-- A block is entered if it exists. -/
def startLog (fr : Frame) (b : BlockId) : Log :=
  if (fr.func.block? b).isSome then [.enter b] else []

/-- A nested block is entered if it is not too deep. -/
def enterLog (cfg : RunConfig) (s : State) (b : BlockId) : Log :=
  if s.depth < cfg.maxDepth then startLog s.frame b else []

/-- Only a value that was yielded is written. -/
def concludeLog (dest : Reg) : Outcome → Log
  | .value _ .yield => [.write dest]
  | _ => []

def cleanUpLog (cfg : RunConfig) (s : State) (dest : Reg) (g : Guard) (o : Outcome) : Log :=
  if g.cleanup = .none then concludeLog dest o else enterLog cfg s g.cleanup

def handleLog (cfg : RunConfig) (s : State) (dest : Reg) (g : Guard) (o : Outcome) : Log :=
  match o with
  | .value .. => cleanUpLog cfg s dest g o
  | .fault f =>
    if g.handler = .none then cleanUpLog cfg s dest g o
    else match f.caught? with
      | none => cleanUpLog cfg s dest g o
      | some v =>
        .write g.caught :: match s.frame.write g.caught v with
          | .error e => cleanUpLog cfg s dest g (.fault { cause := e })
          | .ok fr => enterLog cfg { s with frame := fr } g.handler

def resumeLog (cfg : RunConfig) (s : State) (after : After) (o : Outcome) : Log :=
  match after with
  | .arm dest => concludeLog dest o
  | .body dest g => handleLog cfg s dest g o
  | .handler dest g => cleanUpLog cfg s dest g o
  | .cleanup dest pending =>
    match o with
    | .value _ .yield => concludeLog dest pending
    | o => concludeLog dest o

/-- A call that has ended writes its result in the frame of the caller. -/
def returnLog (dest : Reg) : Outcome → Log
  | .value .. => [.write dest]
  | .fault _ => []

/-- An instruction that is done has written its register. A short circuit that goes on with its right
operand counts as a write too. -/
def actionLog (cfg : RunConfig) (s : State) (x : Instr) : Except Cause Action → Log
  | .ok (.next ..) => [.write x.out]
  | .ok (.enter b _) => enterLog cfg s b
  | _ => []

/-- A call opens a log for its frame, in which the arguments come first. -/
def recordCall (cfg : RunConfig) (s : State) (c : Callee) (h : History) : History :=
  if cfg.maxDepth ≤ s.depth then h
  else match Frame.new c.func with
    | .error _ => h
    | .ok fr =>
      match fr.writeAll c.binds with
      | .error _ => h
      | .ok fr => ⟨c.binds.map (.write ·.1) ++ startLog fr c.start, h.log :: h.waiting⟩

def recordInstr (cfg : RunConfig) (p : Program) (s : State) (x : Instr) (h : History) : History :=
  match (perform cfg.runner p s.frame s.world x).2 with
  | .ok (.call c _) => recordCall cfg s c (h.note x.readLog)
  | done => h.note (x.readLog ++ actionLog cfg s x done)

def recordEnd (cfg : RunConfig) (s : State) (o : Outcome) (h : History) : History :=
  match s.stack.pop? with
  | none => h
  | some (.caller _ _ dest, _) => ⟨h.waiting.headD [] ++ returnLog dest o, h.waiting.tail⟩
  | some (.within site after, stack) =>
    h.note (resumeLog cfg { s with site, stack, ended := none } after o)

/-- The history behind a step. -/
def record (cfg : RunConfig) (p : Program) (s : State) (h : History) : History :=
  match s.ended with
  | some o => recordEnd cfg s o h
  | none =>
    match s.site.code[s.site.ip.toInt.toNat]? with
    | some x => recordInstr cfg p s x h
    | none => h

/-- The history of the first call. -/
def initialHistory (s : State) : History where
  log := s.frame.func.paramRegs.map .write ++ startLog s.frame s.frame.func.entry

/-- The states of a run of a program, with the history of each. -/
inductive Traced (cfg : RunConfig) (p : Program) : State → History → Prop
  | initial {s} (h : initial p = .ok (.ok s)) : Traced cfg p s (initialHistory s)
  | step {s t h} (hs : Traced cfg p s h) (ht : step cfg p s = .state t) :
      Traced cfg p t (record cfg p s h)

/-- The state behind a number of steps, with its history. -/
def trace (cfg : RunConfig) (p : Program) : Nat → Option (State × History)
  | 0 =>
    match initial p with
    | .ok (.ok s) => some (s, initialHistory s)
    | _ => none
  | n + 1 =>
    match trace cfg p n with
    | none => none
    | some (s, h) =>
      match step cfg p s with
      | .state t => some (t, record cfg p s h)
      | _ => none

variable {cfg : RunConfig}

theorem traced_of_trace {p : Program} {n : Nat} {s : State} {h : History}
    (htrace : trace cfg p n = some (s, h)) : Traced cfg p s h := by
  induction n generalizing s h with
  | zero =>
    unfold trace at htrace
    split at htrace
    · rename_i s₀ hs₀
      cases htrace
      exact .initial hs₀
    · cases htrace
  | succ n ih =>
    unfold trace at htrace
    split at htrace
    · cases htrace
    · rename_i s₀ h₀ htrace₀
      split at htrace
      · rename_i t ht
        cases htrace
        exact .step (ih htrace₀) ht
      · cases htrace

theorem Traced.reachable {p : Program} {s : State} {h : History}
    (hs : Traced cfg p s h) : Reachable cfg p s := by
  induction hs with
  | initial h => exact .initial h
  | step _ ht ih => exact .step ih ht

/-- Every state of a run has a history. -/
theorem Reachable.traced {p : Program} {s : State} (h : Reachable cfg p s) :
    ∃ hist, Traced cfg p s hist := by
  induction h with
  | initial h => exact ⟨_, .initial h⟩
  | step _ ht ih =>
    obtain ⟨hist, hs⟩ := ih
    exact ⟨_, .step hs ht⟩

end Machine

end ScriptMachine
