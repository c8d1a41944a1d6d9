import Mathlib.Data.Set.Insert
import ScriptMachine.Proofs.Machine.Transitions

/-!
# Certificates of safety

A certificate of a program makes assertions about points of its blocks: at such a point the registers
`D` are set, and if the block yields, the registers `X` are set then. It has to keep what it asserts
from each instruction to whatever may run next: the instruction behind it, the blocks that it enters,
and the block of a closure that it makes.

From a certificate comes an invariant of all states of a run.

1. The running block is at a point that the certificate asserts, and so is every block that waits,
   once the instruction that it stopped at is done.
2. Every closure that is alive, in a register, in an outcome or captured by another closure, starts at
   a point that the certificate asserts.
-/

namespace ScriptMachine

/-- What a certificate rules out, besides references to blocks that do not exist and blocks that do
not end: reads of registers that are not set, and writes of registers that do not exist. Things that
are no instructions are ruled out unless `unknown` allows them. -/
structure Safety where
  reads : Prop
  writes : Prop
  unknown : Prop

/-- Assertions about the points of a function: its block, the index there, the registers that are
set, and those that are set when the block yields. -/
abbrev Assertion := BlockId → Int64 → Set Reg → Set Reg → Prop

/-! ## Obligations -/

/-- An operand that can be read where the registers `D` are set, and that is no closure. -/
def Safety.Reads (σ : Safety) (D : Set Reg) : Value → Prop
  | .reg r => σ.reads → r ∈ D
  | .unset => ¬ σ.reads
  | .closure _ => False
  | _ => True

/-- The registers `D` of a frame are set, if reads are to be safe. -/
def Safety.Covers (σ : Safety) (fr : Frame) (D : Set Reg) : Prop :=
  σ.reads → ∀ r ∈ D, (fr.get? r).isSome

/-- A frame of the same function in which no register is lost, if reads are to be safe. -/
structure Safety.Grows (σ : Safety) (fr fr' : Frame) : Prop where
  func : fr'.func = fr.func
  regs : σ.reads → ∀ r, (fr.get? r).isSome → (fr'.get? r).isSome

/-- The handler of a guarded section, if there is one. -/
def Guard.Handles (σ : Safety) (A : Assertion) (f : Func) (D : Set Reg) (g : Guard) : Prop :=
  g.handler ≠ .none →
    (σ.writes → f.InRange g.caught) ∧ A g.handler 0 (insert g.caught D) ∅

/-- The cleanup of a guarded section, if there is one; `next` is what follows where the given
registers are set. -/
def Guard.CleansUp (A : Assertion) (D : Set Reg) (next : Set Reg → Prop) (g : Guard) : Prop :=
  if g.cleanup = .none then next D else ∃ Y, A g.cleanup 0 D Y ∧ next (D ∪ Y)

theorem Guard.CleansUp.imp {A : Assertion} {D : Set Reg} {next next' : Set Reg → Prop} {g : Guard}
    (h : g.CleansUp A D next) (himp : ∀ E, next E → next' E) : g.CleansUp A D next' := by
  unfold CleansUp at *
  split at h
  · rename_i hnone
    rw [if_pos hnone]
    exact himp D h
  · rename_i hsome
    rw [if_neg hsome]
    exact h.imp fun Y hY => ⟨hY.1, himp _ hY.2⟩

/-- The registers that a closure gives to its block. -/
def givenRegs {α : Type} (captures : List (Capture α)) (params : List Reg) : Set Reg :=
  {r | r ∈ captures.map (·.reg) ∨ r ∈ params}

namespace Instr

/-- Whether an instruction has a register for its result. -/
def hasDest : Instr → Bool
  | leave .. | stray _ => false
  | _ => true

/-- What an assertion about the point of an instruction leads to. -/
def LeadsOn (σ : Safety) (A : Assertion) (f : Func) (b : BlockId) (ip : Int64) (D X : Set Reg) :
    Instr → Prop
  | leave how _ => how = .yield → σ.reads → X ⊆ D
  | circuit _ dest _ right skip =>
    A b (ip + 1) (if right.isReg then D else insert dest D) X ∧
      A b (ip + skip + 1) (insert dest D) X
  | dispatch dest _ arms default =>
    (∀ c ∈ default :: arms.map (·.block), c ≠ .none → A c 0 D ∅) ∧ A b (ip + 1) (insert dest D) X
  | guarded dest g =>
    A g.body 0 D ∅ ∧ g.Handles σ A f D ∧ g.CleansUp A D fun E => A b (ip + 1) (insert dest E) X
  | closureCreate dest block captures params _ =>
    A block 0 (givenRegs captures params) ∅ ∧
      (σ.writes → ∀ r ∈ givenRegs captures params, f.InRange r) ∧
      A b (ip + 1) (insert dest D) X
  | stray _ => σ.unknown
  | x => A b (ip + 1) (insert x.out D) X

/-- All that an assertion about the point of an instruction has to keep. -/
structure Obeys (σ : Safety) (A : Assertion) (f : Func) (b : BlockId) (ip : Int64) (D X : Set Reg)
    (x : Instr) : Prop where
  ins : ∀ v ∈ x.ins, σ.Reads D v
  out : σ.writes → x.hasDest = true → f.InRange x.out
  leads : x.LeadsOn σ A f b ip D X

end Instr

/-- Assertions about all functions of a program that keep each other. -/
structure Certificate (σ : Safety) (p : Program) where
  At : Func → Assertion
  has : ∀ {f b ip D X}, At f b ip D X → f.Has b
  obeys : ∀ {f b ip D X}, p.Defines f → At f b ip D X → 0 ≤ ip.toInt →
    ∃ x, (f.code b)[ip.toInt.toNat]? = some x ∧ x.Obeys σ (At f) f b ip D X
  entry : ∀ {f}, p.Defines f → At f f.entry 0 {r | r ∈ f.paramRegs} ∅
  params : σ.writes → ∀ {f}, p.Defines f → ∀ r ∈ f.paramRegs, f.InRange r

namespace Certificate

variable {σ : Safety} {p : Program}

/-! ## Values, causes and outcomes -/

/-- A value that may be in a register: if it is a closure, its block starts at a point that is
asserted, with values of this kind captured. -/
inductive Holds (K : Certificate σ p) : Value → Prop
  | plain {v} (hne : ∀ c, v ≠ .closure c) (hset : σ.reads → v.isSet = true) : K.Holds v
  | closure {c : Closure Value}
      (hstart : ∀ f, p.func? c.func = some f →
        K.At f c.block 0 (givenRegs c.captures c.params) ∅ ∧
          (σ.writes → ∀ r ∈ givenRegs c.captures c.params, f.InRange r))
      (hcaptured : ∀ cp ∈ c.captures, K.Holds cp.value) : K.Holds (.closure c)

/-- The causes of faults that are left. -/
def Permits (K : Certificate σ p) : Cause → Prop
  | .readUnset _ | .callUnset _ => ¬ σ.reads
  | .writeOutside .. => ¬ σ.writes
  | .noBlock .. | .unterminated => False
  | .unknownInstr _ => σ.unknown
  | .thrown v => K.Holds v
  | _ => True

/-- How a block may end that promises the registers `X`. -/
def Ends (K : Certificate σ p) (fr : Frame) (X : Set Reg) : Outcome → Prop
  | .fault f => K.Permits f.cause
  | .value v exit => K.Holds v ∧ (exit = .yield → σ.Covers fr X)

/-! ## States -/

/-- A frame of a function of the program. -/
structure Carries (K : Certificate σ p) (fr : Frame) : Prop where
  defines : p.Defines fr.func
  size : fr.regs.size = fr.func.numRegs.toNat
  values : ∀ r v, fr.get? r = some v → K.Holds v

/-- Behind the instruction at a site, once it has written `dest`, a point is asserted where the
registers `E` are set, in a block that promises `X`. -/
structure Behind (K : Certificate σ p) (f : Func) (site : Site) (dest : Reg) (E X : Set Reg) :
    Prop where
  code : site.code.toList = f.code site.block
  range : σ.writes → f.InRange dest
  next : K.At f site.block (site.ip + 1) (insert dest E) X

/-- An instruction at a site in a block that promises `X`, where the registers `D` are set, can take
the outcome of a block that promises `Y`. -/
def Serves (K : Certificate σ p) (fr : Frame) (site : Site) (D X Y : Set Reg) : After → Prop
  | .arm dest => K.Behind fr.func site dest D X
  | .body dest g => g.Handles σ (K.At fr.func) fr.func D ∧
    g.CleansUp (K.At fr.func) D (K.Behind fr.func site dest · X)
  | .handler dest g => g.CleansUp (K.At fr.func) D (K.Behind fr.func site dest · X)
  | .cleanup dest pending => K.Behind fr.func site dest (D ∪ Y) X ∧ K.Ends fr ∅ pending

/-- All that waits for a block of a frame that promises `Y`. -/
inductive Waits (K : Certificate σ p) : Frame → Set Reg → List Waiting → Prop
  | nil {fr Y} : K.Waits fr Y []
  | caller {fr Y fr' site dest D X ws} (hfr : K.Carries fr') (hD : σ.Covers fr' D)
      (hb : K.Behind fr'.func site dest D X) (hws : K.Waits fr' X ws) :
      K.Waits fr Y (.caller fr' site dest :: ws)
  | within {fr Y site after D X ws} (hD : σ.Covers fr D) (ha : K.Serves fr site D X Y after)
      (hws : K.Waits fr X ws) : K.Waits fr Y (.within site after :: ws)

/-- The instruction at a site is at a point that is asserted. -/
structure Runs (K : Certificate σ p) (fr : Frame) (site : Site) (D X : Set Reg) : Prop where
  code : site.code.toList = fr.func.code site.block
  covers : σ.Covers fr D
  at_ip : K.At fr.func site.block site.ip D X

/-- The invariant of a run. -/
structure Invariant (K : Certificate σ p) (s : State) : Prop where
  frame : K.Carries s.frame
  running : ∃ X, K.Waits s.frame X s.stack.entries ∧
    match s.ended with
    | some o => K.Ends s.frame X o
    | none => ∃ D, K.Runs s.frame s.site D X

end Certificate

end ScriptMachine
