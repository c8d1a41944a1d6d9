import ScriptMachine.Proofs.Machine.Operands
import ScriptMachine.Proofs.Machine.Termination

/-!
# What a block reads and writes

A block runs in a frame together with the blocks that its code enters there. `Func.readFrom` collects
the registers among the operands of all that code, `Func.writtenFrom` the registers that it writes or
in which it catches. Two frames that agree on the former cannot be told apart by the block, and in both
only the latter change (`runBlock_endAlike`).

1. Two machines that stand at the same place, in frames that agree, go on side by side (`Together`):
   each step leads both on, or both crash alike.
2. An instruction brings both behind it or ends both blocks alike (`leads_execute`). Blocks that it
   enters and calls that it makes come one level higher, so the proof is by induction on the depth that
   is left; a guarded section enters up to three of them, one behind the other.
3. Within a block the induction is on the code that is left, as no instruction skips backwards.
-/

namespace ScriptMachine

/-! ## Blocks of one frame -/

/-- The blocks that run in one frame once a block does: itself and what their code enters. -/
inductive Func.Nests (f : Func) (b : BlockId) : BlockId → Prop
  | here : f.Nests b b
  | ref {c d : BlockId} {x : Instr} (h : f.Nests b c) (hx : x ∈ f.code c)
      (hd : ⟨d, .nested⟩ ∈ x.refs) : f.Nests b d

/-- The registers among the operands of the code that runs in one frame from a block on. -/
def Func.readFrom (f : Func) (b : BlockId) : Set Reg :=
  { r | ∃ c x, f.Nests b c ∧ x ∈ f.code c ∧ .reg r ∈ x.ins }

/-- The registers that this code writes, and those that receive what it catches. -/
def Func.writtenFrom (f : Func) (b : BlockId) : Set Reg :=
  { r | ∃ c x, f.Nests b c ∧ x ∈ f.code c ∧ (r = x.out ∨ ∃ dest g, x = .guarded dest g ∧ r = g.caught) }

/-- No instruction of this code skips backwards. -/
def Func.ForwardFrom (f : Func) (b : BlockId) : Prop :=
  ∀ c, f.Nests b c → ∀ x ∈ f.code c, 0 ≤ x.skip.toInt

/-- Blocks that enter only each other, skip forward, read only the registers in `R` and write only
those in `W`. -/
structure Func.Covers (f : Func) (N : Set BlockId) (R W : Set Reg) : Prop where
  ins : ∀ c ∈ N, ∀ x ∈ f.code c, ∀ r, .reg r ∈ x.ins → r ∈ R
  out : ∀ c ∈ N, ∀ x ∈ f.code c, x.out ∈ W
  caught : ∀ c ∈ N, ∀ dest g, .guarded dest g ∈ f.code c → g.caught ∈ W
  refs : ∀ c ∈ N, ∀ x ∈ f.code c, ∀ d, ⟨d, .nested⟩ ∈ x.refs → d ∈ N
  skip : ∀ c ∈ N, ∀ x ∈ f.code c, 0 ≤ x.skip.toInt

theorem Func.covers_nests {f : Func} {b : BlockId} (h : f.ForwardFrom b) :
    f.Covers { c | f.Nests b c } (f.readFrom b) (f.writtenFrom b) where
  ins c hc x hx _ hr := ⟨c, x, hc, hx, hr⟩
  out c hc x hx := ⟨c, x, hc, hx, .inl rfl⟩
  caught c hc dest g hx := ⟨c, _, hc, hx, .inr ⟨dest, g, rfl, rfl⟩⟩
  refs _ hc _ hx _ hd := .ref hc hx hd
  skip := h

theorem Program.SkipsForward.of_mem_code {p : Program} (hp : p.SkipsForward) {f : Func}
    (hf : f ∈ p.funcs) {c : BlockId} {x : Instr} (hx : x ∈ f.code c) : 0 ≤ x.skip.toInt := by
  obtain ⟨k, hk⟩ := Func.block?_eq_some_of_has (Func.has_of_code_ne_nil (List.ne_nil_of_mem hx))
  rw [Func.code_of_block? hk] at hx
  unfold Func.block? at hk
  split at hk
  · cases hk
  · exact hp f hf k (by simpa using Array.mem_of_getElem? hk) x hx

/-- All blocks of a function of a program that skips forward, with all registers. -/
theorem Program.SkipsForward.covers {p : Program} (hp : p.SkipsForward) {f : Func}
    (hf : p.Defines f) : f.Covers Set.univ Set.univ Set.univ where
  ins _ _ _ _ _ _ := trivial
  out _ _ _ _ := trivial
  caught _ _ _ _ _ := trivial
  refs _ _ _ _ _ _ := trivial
  skip _ _ _ hx := hp.of_mem_code (Program.func?_eq_some hf).1 hx

/-- Whether an instruction enters blocks in its own frame. -/
def Instr.nests : Instr → Bool
  | dispatch .. | guarded .. => true
  | _ => false

theorem Instr.nests_of_mem_refs {x : Instr} {d : BlockId} (h : ⟨d, .nested⟩ ∈ x.refs) :
    x.nests = true := by
  cases x with
  | dispatch => rfl
  | guarded => rfl
  | _ => simp [refs] at h

/-! ## Runs of blocks and of instructions -/

/-- Runs until a state that is looked for. If there is none, the result is how the run ends. -/
def State.until (s : State) (cfg : RunConfig) (p : Program) (stop : State → Bool) : Option Next :=
  if stop s then some (.state s)
  else match Machine.step cfg p s with
    | .state t => t |>.until cfg p stop
    | next => some next
partial_fixpoint

namespace Machine

/-- A machine that does not run yet. -/
def blank (fr : Frame) (b : BlockId) (k : Stack) (w : World) : State where
  frame := fr
  site := ⟨b, #[], 0⟩
  stack := k
  world := w

/-- Runs a block in a frame, on top of a stack, until it has ended. -/
def runBlock (cfg : RunConfig) (p : Program) (fr : Frame) (b : BlockId) (k : Stack) (w : World) :
    Option Next :=
  ((blank fr b k w).start fr b k).until cfg p fun t => t.ended.isSome && t.stack.height == k.height

/-- Runs the instruction at hand until it is done, with all that it enters and calls. -/
def runInstr (cfg : RunConfig) (p : Program) (s : State) : Option Next :=
  match step cfg p s with
  | .state t => t.until cfg p fun u => u.stack.height == s.stack.height
  | next => some next

/-! ## Machines side by side -/

variable {cfg : RunConfig} {p : Program} {P P' : State → Prop} {Q Q' : State → State → Prop}
  {s s' t t' u u' : State}

/-- Two machines come to states with `Q`, or both crash alike. On the way both have `P`. -/
inductive Together (cfg : RunConfig) (p : Program) (P : State → Prop) (Q : State → State → Prop) :
    State → State → Prop
  | here {s s' : State} (h : Q s s') : Together cfg p P Q s s'
  | step {s s' t t' : State} (hP : P s) (hP' : P s') (hstep : step cfg p s = .state t)
      (hstep' : step cfg p s' = .state t') (h : Together cfg p P Q t t') : Together cfg p P Q s s'
  | crash {s s' : State} {w : World} {c : Crash} (hP : P s) (hP' : P s')
      (hstep : step cfg p s = .crash w c) (hstep' : step cfg p s' = .crash w c) :
      Together cfg p P Q s s'

namespace Together

theorem trans (h : Together cfg p P Q s s') (hQ : ∀ t t', Q t t' → Together cfg p P Q' t t') :
    Together cfg p P Q' s s' := by
  induction h with
  | here h => exact hQ _ _ h
  | step hP hP' hstep hstep' _ ih => exact .step hP hP' hstep hstep' ih
  | crash hP hP' hstep hstep' => exact .crash hP hP' hstep hstep'

theorem mono (h : Together cfg p P Q s s') (hP : ∀ t, P t → P' t)
    (hQ : ∀ t t', Q t t' → Q' t t') : Together cfg p P' Q' s s' := by
  induction h with
  | here h => exact .here (hQ _ _ h)
  | step h h' hstep hstep' _ ih => exact .step (hP _ h) (hP _ h') hstep hstep' ih
  | crash h h' hstep hstep' => exact .crash (hP _ h) (hP _ h') hstep hstep'

/-- Machines that run side by side stop together. -/
theorem until_eq {stop : State → Bool} (h : Together cfg p P Q s s')
    (hP : ∀ t, P t → stop t = false) (hQ : ∀ t t', Q t t' → stop t = true ∧ stop t' = true) :
    (∃ t t', Q t t' ∧ s.until cfg p stop = some (.state t) ∧
      s'.until cfg p stop = some (.state t')) ∨
    ∃ w c, s.until cfg p stop = some (.crash w c) ∧ s'.until cfg p stop = some (.crash w c) := by
  induction h with
  | @here s s' h =>
    obtain ⟨hstop, hstop'⟩ := hQ s s' h
    refine .inl ⟨s, s', h, ?_, ?_⟩
    · rw [State.until, if_pos hstop]
    · rw [State.until, if_pos hstop']
  | @step s s' t t' h h' hstep hstep' _ ih =>
    have huntil : s.until cfg p stop = t.until cfg p stop := by
      rw [State.until, hP s h, hstep]
      rfl
    have huntil' : s'.until cfg p stop = t'.until cfg p stop := by
      rw [State.until, hP s' h', hstep']
      rfl
    rw [huntil, huntil']
    exact ih
  | @crash s s' w c h h' hstep hstep' =>
    refine .inr ⟨w, c, ?_, ?_⟩
    · rw [State.until, hP s h, hstep]
      rfl
    · rw [State.until, hP s' h', hstep']
      rfl

end Together

/-- Two steps that lead side by side. -/
inductive Leads (cfg : RunConfig) (p : Program) (P : State → Prop) (Q : State → State → Prop) :
    Next → Next → Prop
  | state {t t' : State} (h : Together cfg p P Q t t') : Leads cfg p P Q (.state t) (.state t')
  | crash (w : World) (c : Crash) : Leads cfg p P Q (.crash w c) (.crash w c)

theorem Leads.together (h : Leads cfg p P Q (step cfg p s) (step cfg p s')) (hP : ∀ t, P t → P' t)
    (hs : P' s) (hs' : P' s') : Together cfg p P' Q s s' := by
  generalize hn : step cfg p s = n at h
  generalize hn' : step cfg p s' = n' at h
  cases h with
  | state h => exact .step hs hs' hn hn' (h.mono hP fun _ _ hQ => hQ)
  | crash w c => exact .crash hs hs' hn hn'

/-- Machines at the same place and in the same world, in frames of `f` that agree on `R`. -/
structure Twins (f : Func) (R : Set Reg) (s s' : State) : Prop where
  func : s.frame.func = f
  agree : s.frame.AgreeOn R s'.frame
  site : s.site = s'.site
  world : s.world = s'.world
  height : s.stack.height = s'.stack.height

/-- Machines that went on from two frames and two stacks. They are on the same stacks again, their
blocks have both ended alike or not at all, and of their frames only registers in `W` were written. -/
structure Kept (R W : Set Reg) (fr fr' : Frame) (k k' : Stack) (t t' : State) : Prop where
  stack : t.stack = k
  stack' : t'.stack = k'
  world : t.world = t'.world
  ended : t.ended = t'.ended
  agree : t.frame.AgreeOn R t'.frame
  spares : fr.Spares W t.frame
  spares' : fr'.Spares W t'.frame

/-- The instruction `x` is done in both machines: both blocks have ended or go on at the same place
behind it. -/
structure Behind (x : Instr) (R W : Set Reg) (s s' t t' : State) : Prop
    extends Kept R W s.frame s'.frame s.stack s'.stack t t' where
  site : t.ended = none → t.site = t'.site ∧ ∃ skip, (skip = 0 ∨ skip = x.skip) ∧
    t.site = { s.site with ip := s.site.ip + skip + 1 }

/-- More waits than `n`. -/
def Higher (n : Nat) (s : State) : Prop := n < s.stack.height

/-- The block on top of `n` others has not ended. -/
def Open (n : Nat) (s : State) : Prop := n < s.stack.height ∨ s.stack.height = n ∧ s.ended = none

theorem Open.higher {n : Nat} (h : Open (n + 1) s) : Higher n s := by
  unfold Higher
  rcases h with h | ⟨h, -⟩ <;> omega

variable {k k' : Stack}

theorem higher_of_push {w : Waiting} (h : s.stack = k.push w) : Higher k.height s := by
  unfold Higher
  rw [h, Stack.height_push]
  omega

variable {f : Func} {N : Set BlockId} {R W : Set Reg} {x : Instr} {dest : Reg} {fr fr' : Frame}

theorem Twins.location (h : Twins f R s s') (i : Int) : s.location i = s'.location i := by
  simp only [State.location, h.agree.func, h.site]

/-- Where an instruction ends does not depend on what it did to the frames before. -/
theorem Behind.after (h : Behind x R W t t' u u') (hsite : t.site = s.site)
    (hstack : t.stack = s.stack) (hstack' : t'.stack = s'.stack) (hfr : s.frame.Spares W t.frame)
    (hfr' : s'.frame.Spares W t'.frame) : Behind x R W s s' u u' where
  stack := h.stack.trans hstack
  stack' := h.stack'.trans hstack'
  world := h.world
  ended := h.ended
  agree := h.agree
  spares := hfr.trans h.spares
  spares' := hfr'.trans h.spares'
  site := by
    rw [← hsite]
    exact h.site

/-! ## The end of an instruction -/

theorem behind_finish (h : Twins f R s s') (o : Outcome) :
    Behind x R W s s' (s.finish o) (s'.finish o) where
  stack := rfl
  stack' := rfl
  world := h.world
  ended := rfl
  agree := h.agree
  spares := .refl W _
  spares' := .refl W _
  site := nofun

theorem behind_fail (h : Twins f R s s') (fault : Fault) :
    Behind x R W s s' (s.fail fault) (s'.fail fault) := by
  unfold State.fail
  rw [← h.location, ← h.site]
  exact behind_finish h _

theorem behind_advance (h : Twins f R s s') (hagree : fr.AgreeOn R fr') (hfr : s.frame.Spares W fr)
    (hfr' : s'.frame.Spares W fr') {skip : Int64} (hskip : skip = 0 ∨ skip = x.skip) :
    Behind x R W s s' (s.advance fr skip) (s'.advance fr' skip) where
  stack := rfl
  stack' := rfl
  world := h.world
  ended := rfl
  agree := hagree
  spares := hfr
  spares' := hfr'
  site _ := by
    simp only [State.advance, h.site, true_and]
    exact ⟨skip, hskip, rfl⟩

theorem behind_store (h : Twins f R s s') (hdest : dest ∈ W) (v : Value) :
    Behind x R W s s' (s.store dest v) (s'.store dest v) := by
  unfold State.store
  cases hw : s.frame.write dest v with
  | error c =>
    rw [h.agree.write_error hw]
    exact behind_fail h _
  | ok a =>
    obtain ⟨a', hw'⟩ := h.agree.write_ok hw
    rw [hw']
    have hspares := (Frame.Spares.refl W s.frame).write hdest hw
    have hspares' := (Frame.Spares.refl W s'.frame).write hdest hw'
    exact behind_advance h (h.agree.write hw hw') hspares hspares' (.inl rfl)

theorem behind_conclude (h : Twins f R s s') (hdest : dest ∈ W) (o : Outcome) :
    Behind x R W s s' (conclude s dest o) (conclude s' dest o) := by
  match o with
  | .fault c => exact behind_fail h c
  | .value v .ret => exact behind_finish h _
  | .value v .yield => exact behind_store h hdest v

/-- A result that cannot be written leaves the frame as it was. -/
theorem frame_of_store {v : Value} {fault : Fault}
    (h : (s.store dest v).ended = some (.fault fault)) : (s.store dest v).frame = s.frame := by
  unfold State.store at h ⊢
  cases hw : s.frame.write dest v with
  | error c => rfl
  | ok a =>
    rw [hw] at h
    cases h

/-! ## Blocks one level higher -/

/-- Both blocks have ended alike. -/
def Ended (R W : Set Reg) (fr fr' : Frame) (k k' : Stack) (t t' : State) : Prop :=
  Kept R W fr fr' k k' t t' ∧ t.ended.isSome = true

/-- Blocks on top of `n` others that run side by side end alike. -/
def BlocksEnd (cfg : RunConfig) (p : Program) (n : Nat) : Prop :=
  ∀ (f : Func) (N : Set BlockId) (R W : Set Reg), f.Covers N R W → ∀ s s' : State, Twins f R s s' →
    (∃ c ∈ N, s.site.code.toList = f.code c) → s.ended = none → s'.ended = none →
    s.stack.height = n →
    Together cfg p (Open n) (Ended R W s.frame s'.frame s.stack s'.stack) s s'

/-- Blocks one level above `n` end alike, as far as the depth allows for them. -/
def Deepens (cfg : RunConfig) (p : Program) (n : Nat) : Prop :=
  n + 1 < cfg.maxDepth → BlocksEnd cfg p (n + 1)

/-- Blocks that are started side by side end alike; missing ones have ended at once. -/
theorem together_start {n : Nat} (hends : BlocksEnd cfg p n) (hcov : f.Covers N R W)
    (hfunc : fr.func = f) (hagree : fr.AgreeOn R fr') (hworld : s.world = s'.world)
    {b : BlockId} (hb : b ∈ N) (hk : k.height = n) (hk' : k'.height = n) :
    Together cfg p (Open n) (Ended R W fr fr' k k') (s.start fr b k) (s'.start fr' b k') := by
  unfold State.start
  rw [← hagree.func]
  cases hblk : fr.func.block? b with
  | none =>
    refine .here ⟨⟨rfl, rfl, hworld, rfl, hagree, .refl W _, .refl W _⟩, rfl⟩
  | some blk =>
    have hcode : blk.code.toList = f.code b := by rw [← hfunc, Func.code_of_block? hblk]
    have htwins : Twins f R { s with frame := fr, site := ⟨b, blk.code, 0⟩, ended := none, stack := k }
        { s' with frame := fr', site := ⟨b, blk.code, 0⟩, ended := none, stack := k' } :=
      ⟨hfunc, hagree, rfl, hworld, hk.trans hk'.symm⟩
    exact hends f N R W hcov _ _ htwins ⟨b, hb, hcode⟩ rfl rfl hk

section
variable (hdeep : Deepens cfg p s.stack.height) (hcov : f.Covers N R W)
include hdeep hcov

/-- An instruction that enters a block is done in both machines if it is done whatever the outcome of
the block is. -/
theorem together_enter (h : Twins f R s s') {b : BlockId} (hb : b ∈ N) (after : After)
    (hnext : ∀ (t t' : State) (o : Outcome), Twins f R t t' → t.stack = s.stack →
      Together cfg p (Higher t.stack.height) (Behind x R W t t') (resume cfg t after o)
        (resume cfg t' after o)) :
    Together cfg p (Higher s.stack.height) (Behind x R W s s') (s.enter cfg b after)
      (s'.enter cfg b after) := by
  -- the block ends alike in both machines, and also if it lies too deep
  have hends : Together cfg p (Higher s.stack.height)
      (Ended R W s.frame s'.frame (s.stack.push (.within s.site after))
        (s'.stack.push (.within s'.site after))) (s.enter cfg b after) (s'.enter cfg b after) := by
    have hdepth' : s'.depth = s.depth := by rw [State.depth, State.depth, h.height]
    unfold State.enter
    rw [hdepth']
    by_cases hdepth : s.depth < cfg.maxDepth
    · simp only [if_pos hdepth]
      refine (together_start (hdeep hdepth) hcov h.func h.agree h.world hb rfl ?_).mono
        (fun t ht => ht.higher) fun t t' ht => ht
      rw [Stack.height_push, h.height]
    · simp only [if_neg hdepth]
      refine .here ⟨⟨rfl, rfl, h.world, ?_, h.agree, .refl W _, .refl W _⟩, rfl⟩
      simp only [h.agree.func]
  refine hends.trans fun t t' ht => ?_
  obtain ⟨hkept, hended⟩ := ht
  obtain ⟨o, ho⟩ := Option.isSome_iff_exists.mp hended
  have ho' : t'.ended = some o := hkept.ended.symm.trans ho
  have hstep : step cfg p t =
      .state (resume cfg { t with site := s.site, stack := s.stack, ended := none } after o) := by
    rw [step_ended ho, unwind, hkept.stack]
    rfl
  have hstep' : step cfg p t' =
      .state (resume cfg { t' with site := s'.site, stack := s'.stack, ended := none } after o) := by
    rw [step_ended ho', unwind, hkept.stack']
    rfl
  have hhigher := higher_of_push hkept.stack
  have hhigher' := higher_of_push hkept.stack'
  rw [← h.height] at hhigher'
  have htwins : Twins f R { t with site := s.site, stack := s.stack, ended := none }
      { t' with site := s'.site, stack := s'.stack, ended := none } :=
    ⟨hkept.spares.func.trans h.func, hkept.agree, h.site, hkept.world, h.height⟩
  refine .step hhigher hhigher' hstep hstep' ((hnext _ _ o htwins rfl).mono (fun _ hu => hu) ?_)
  exact fun u u' hu => hu.after rfl rfl rfl hkept.spares hkept.spares'

theorem together_cleanUp (h : Twins f R s s') (hdest : dest ∈ W) {g : Guard}
    (hclean : g.cleanup ≠ .none → g.cleanup ∈ N) (o : Outcome) :
    Together cfg p (Higher s.stack.height) (Behind x R W s s') (cleanUp cfg s dest g o)
      (cleanUp cfg s' dest g o) := by
  unfold cleanUp
  by_cases hnone : g.cleanup = .none
  · rw [if_pos hnone, if_pos hnone]
    exact .here (behind_conclude h hdest o)
  · rw [if_neg hnone, if_neg hnone]
    refine together_enter hdeep hcov h (hclean hnone) _ fun t t' o' ht _ => .here ?_
    match o' with
    | .value v .yield => exact behind_conclude ht hdest o
    | .value v .ret => exact behind_conclude ht hdest (.value v .ret)
    | .fault c => exact behind_conclude ht hdest (.fault c)

theorem together_handle (h : Twins f R s s') (hdest : dest ∈ W) {g : Guard} (hcaught : g.caught ∈ W)
    (hhandler : g.handler ≠ .none → g.handler ∈ N) (hclean : g.cleanup ≠ .none → g.cleanup ∈ N)
    (o : Outcome) :
    Together cfg p (Higher s.stack.height) (Behind x R W s s') (handle cfg s dest g o)
      (handle cfg s' dest g o) := by
  have hcleanUp := fun o => together_cleanUp (x := x) hdeep hcov h hdest hclean o
  unfold handle
  cases o with
  | value v exit => exact hcleanUp _
  | fault c =>
    by_cases hnone : g.handler = .none
    · simp only [if_pos hnone]
      exact hcleanUp _
    · simp only [if_neg hnone]
      cases hv : c.caught? with
      | none => exact hcleanUp _
      | some v =>
        cases hw : s.frame.write g.caught v with
        | error e =>
          simp only [hw, h.agree.write_error hw]
          exact hcleanUp _
        | ok a =>
          obtain ⟨a', hw'⟩ := h.agree.write_ok hw
          simp only [hw, hw']
          -- the handler starts in frames that hold what was caught
          have htwins : Twins f R { s with frame := a } { s' with frame := a' } :=
            ⟨(Frame.func_write hw).trans h.func, h.agree.write hw hw', h.site, h.world, h.height⟩
          refine (together_enter (x := x) (s := { s with frame := a }) hdeep hcov htwins
            (hhandler hnone) (.handler dest g) fun t t' o' ht hstack => ?_).mono (fun _ hu => hu)
            fun u u' hu => ?_
          · exact together_cleanUp (hstack ▸ hdeep) hcov ht hdest hclean o'
          · exact hu.after rfl rfl rfl ((Frame.Spares.refl W _).write hcaught hw)
              ((Frame.Spares.refl W _).write hcaught hw')

/-- A guarded section is done once its body, and then its handler and its cleanup, are. -/
theorem together_guarded (h : Twins f R s s') {g : Guard} (hx : x = .guarded x.out g) (hout : x.out ∈ W)
    (hcaught : g.caught ∈ W) (hrefs : ∀ d, ⟨d, .nested⟩ ∈ x.refs → d ∈ N) :
    Together cfg p (Higher s.stack.height) (Behind x R W s s')
      (s.enter cfg g.body (.body x.out g)) (s'.enter cfg g.body (.body x.out g)) := by
  have hbody : g.body ∈ N := hrefs _ (by rw [hx]; simp [Instr.refs])
  have hhandler : g.handler ≠ .none → g.handler ∈ N := fun hne =>
    hrefs _ (by rw [hx]; simp [Instr.refs, Instr.optional, hne])
  have hclean : g.cleanup ≠ .none → g.cleanup ∈ N := fun hne =>
    hrefs _ (by rw [hx]; simp [Instr.refs, Instr.optional, hne])
  refine together_enter hdeep hcov h hbody (.body x.out g) fun t t' o ht hstack => ?_
  exact together_handle (by rw [hstack]; exact hdeep) hcov ht hout hcaught hhandler hclean o

end

/-! ## Calls -/

/-- The instruction `x` is done in both machines. Unless it enters blocks, a failure has left the frame
as it was. -/
structure Settled (x : Instr) (R W : Set Reg) (s s' t t' : State) : Prop
    extends Behind x R W s s' t t' where
  frame : x.nests = false → ∀ fault, t.ended = some (.fault fault) → t.frame = s.frame

/-- The caller `s` takes up its own frame again, in the world that the callee has left. -/
def takeUp (s t : State) : State :=
  { t with frame := s.frame, site := s.site, stack := s.stack, ended := none }

/-- The outcome of a callee goes to its caller. -/
def giveBack (s t : State) (dest : Reg) : Outcome → State
  | .fault fault => (takeUp s t).fail fault
  | .value v _ => (takeUp s t).store dest v

theorem step_caller {o : Outcome} (ho : t.ended = some o)
    (hstack : t.stack = s.stack.push (.caller s.frame s.site dest)) :
    step cfg p t = .state (giveBack s t dest o) := by
  rw [step_ended ho, unwind, hstack]
  cases o <;> rfl

/-- Callees that have ended alike give the same to their callers. What they did in frames of their own
does not matter. -/
theorem together_return (h : Twins f R s s') (hdest : dest ∈ W) {R' W' : Set Reg}
    (ht : Ended R' W' fr fr' (s.stack.push (.caller s.frame s.site dest))
      (s'.stack.push (.caller s'.frame s'.site dest)) t t') :
    Together cfg p (Higher s.stack.height) (Settled x R W s s') t t' := by
  obtain ⟨hkept, hended⟩ := ht
  obtain ⟨o, ho⟩ := Option.isSome_iff_exists.mp hended
  have hstep : step cfg p t = .state (giveBack s t dest o) := step_caller ho hkept.stack
  have hstep' : step cfg p t' = .state (giveBack s' t' dest o) :=
    step_caller (hkept.ended.symm.trans ho) hkept.stack'
  have hhigher := higher_of_push hkept.stack
  have hhigher' := higher_of_push hkept.stack'
  rw [← h.height] at hhigher'
  have htwins : Twins f R (takeUp s t) (takeUp s' t') :=
    ⟨h.func, h.agree, h.site, hkept.world, h.height⟩
  have hback : ∀ u u', Behind x R W (takeUp s t) (takeUp s' t') u u' → Behind x R W s s' u u' :=
    fun u u' hu => hu.after rfl rfl rfl (.refl W _) (.refl W _)
  cases o with
  | fault c =>
    refine .step hhigher hhigher' hstep hstep' (.here ⟨?_, fun _ _ _ => rfl⟩)
    exact hback _ _ (behind_fail htwins c)
  | value v exit =>
    refine .step hhigher hhigher' hstep hstep' (.here ⟨?_, fun _ _ hf => frame_of_store hf⟩)
    exact hback _ _ (behind_store htwins hdest v)

/-- The same call is made by both machines, and it ends alike. -/
theorem together_call (hp : p.SkipsForward) (hdeep : Deepens cfg p s.stack.height)
    (h : Twins f R s s') {c : Callee} (hc : p.Defines c.func) (hdest : dest ∈ W) :
    (∃ e, s.call cfg c dest = .error e ∧ s'.call cfg c dest = .error e) ∨
      ∃ t t', s.call cfg c dest = .ok t ∧ s'.call cfg c dest = .ok t' ∧
        Together cfg p (Higher s.stack.height) (Settled x R W s s') t t' := by
  have hdepth' : s'.depth = s.depth := by rw [State.depth, State.depth, h.height]
  have hfail (e : Cause) : Settled x R W s s' (s.fail { cause := e }) (s'.fail { cause := e }) :=
    ⟨behind_fail h _, fun _ _ _ => rfl⟩
  unfold State.call
  rw [hdepth']
  by_cases hdepth : cfg.maxDepth ≤ s.depth
  · rw [if_pos hdepth, if_pos hdepth]
    exact .inr ⟨_, _, rfl, rfl, .here (hfail _)⟩
  · rw [if_neg hdepth, if_neg hdepth]
    cases hnew : Frame.new c.func with
    | error e => exact .inl ⟨e, rfl, rfl⟩
    | ok fr =>
      simp only [bind, Except.bind, pure, Except.pure]
      cases hw : fr.writeAll c.binds with
      | error e => exact .inr ⟨_, _, rfl, rfl, .here (hfail e)⟩
      | ok a =>
        refine .inr ⟨_, _, rfl, rfl, ?_⟩
        have hfunc : a.func = c.func := by
          rw [Frame.func_writeAll hw, (Frame.new_eq_ok_iff.mp hnew).2]
        have hends := together_start (hdeep (Nat.lt_of_not_le hdepth)) (hp.covers hc) hfunc
          (.refl Set.univ a) h.world (Set.mem_univ c.start)
          (Stack.height_push (.caller s.frame s.site dest) s.stack)
          ((Stack.height_push (.caller s'.frame s'.site dest) s'.stack).trans (by rw [h.height]))
        refine (hends.mono (fun t ht => ht.higher) fun t t' ht => ht).trans fun t t' ht => ?_
        exact together_return h hdest ht

/-! ## Instructions -/

/-- An instruction that reads only registers in `R` is done in both machines. -/
theorem leads_execute (hp : p.SkipsForward) (hdeep : Deepens cfg p s.stack.height)
    (h : Twins f R s s') (hins : ∀ r, .reg r ∈ x.ins → r ∈ R) (hout : x.out ∈ W)
    (hcov : x.nests = true → f.Covers N R W) (hrefs : ∀ d, ⟨d, .nested⟩ ∈ x.refs → d ∈ N)
    (hcaught : ∀ dest g, x = .guarded dest g → g.caught ∈ W) :
    Leads cfg p (Higher s.stack.height) (Settled x R W s s') (execute cfg p s x)
      (execute cfg p s' x) := by
  obtain ⟨hworld, hdoes⟩ := does_perform h.agree hins cfg.runner p s.world
  have hwants : AllGive (perform cfg.runner p s.frame s.world x).2 (Wants p s.frame x) :=
    wants_perform cfg.runner s.world x
  unfold execute
  rw [← h.world]
  generalize perform cfg.runner p s.frame s.world x = r at hworld hdoes hwants
  generalize perform cfg.runner p s'.frame s.world x = r' at hworld hdoes
  obtain ⟨w, a⟩ := r
  obtain ⟨w', a'⟩ := r'
  obtain rfl : w = w' := hworld
  have htwins : Twins f R { s with world := w } { s' with world := w } :=
    ⟨h.func, h.agree, h.site, rfl, h.height⟩
  have hback : ∀ u u', Behind x R W { s with world := w } { s' with world := w } u u' →
      Behind x R W s s' u u' :=
    fun u u' hu => hu.after rfl rfl rfl (.refl W _) (.refl W _)
  cases hdoes with
  | fail c => exact .state (.here ⟨hback _ _ (behind_fail htwins _), fun _ _ _ => rfl⟩)
  | keep skip =>
    have hskip := (hwants _ rfl).2
    have hbehind := behind_advance htwins h.agree (.refl W _) (.refl W _) hskip
    exact .state (.here ⟨hback _ _ hbehind, fun _ _ hf => by cases hf⟩)
  | write hw hw' skip =>
    have hskip := (hwants _ rfl).2
    have hbehind := behind_advance htwins (h.agree.write hw hw')
      ((Frame.Spares.refl W _).write hout hw) ((Frame.Spares.refl W _).write hout hw') hskip
    exact .state (.here ⟨hback _ _ hbehind, fun _ _ hf => by cases hf⟩)
  | leave v exit => exact .state (.here ⟨hback _ _ (behind_finish htwins _), fun _ _ hf => by cases hf⟩)
  | call c =>
    have hc := (hwants _ rfl).1
    rcases together_call (x := x) (s := { s with world := w }) hp hdeep htwins hc hout with
      ⟨e, he, he'⟩ | ⟨t, t', ht, ht', htogether⟩
    · simp only [he, he']
      exact .crash w e
    · simp only [ht, ht']
      exact .state (htogether.mono (fun _ hu => hu)
        fun u u' hu => ⟨hback _ _ hu.toBehind, hu.frame⟩)
  | arm hb =>
    have hnests := Instr.nests_of_mem_refs hb
    have henter := together_enter (x := x) (s := { s with world := w }) hdeep (hcov hnests) htwins
      (hrefs _ hb) (.arm x.out) fun t t' o ht _ => .here (behind_conclude ht hout o)
    exact .state (henter.mono (fun _ hu => hu)
      fun u u' hu => ⟨hback _ _ hu, fun hplain => by simp [hnests] at hplain⟩)
  | @guarded g hx =>
    have hnests : x.nests = true := by rw [hx]; rfl
    have henter := together_guarded (s := { s with world := w }) hdeep (hcov hnests) htwins hx hout
      (hcaught _ _ hx) hrefs
    exact .state (henter.mono (fun _ hu => hu)
      fun u u' hu => ⟨hback _ _ hu, fun hplain => by simp [hnests] at hplain⟩)

/-! ## Blocks -/

/-- Behind an instruction both machines stand at the same place again. -/
theorem Behind.twins (h : Behind x R W s s' t t') (hs : Twins f R s s') (hrunning : t.ended = none) :
    Twins f R t t' where
  func := h.spares.func.trans hs.func
  agree := h.agree
  site := (h.site hrunning).1
  world := h.world
  height := by rw [h.stack, h.stack', hs.height]

theorem Kept.trans (h : Kept R W fr fr' k k' s s')
    (ht : Kept R W s.frame s'.frame s.stack s'.stack t t') : Kept R W fr fr' k k' t t' where
  stack := ht.stack.trans h.stack
  stack' := ht.stack'.trans h.stack'
  world := ht.world
  ended := ht.ended
  agree := ht.agree
  spares := h.spares.trans ht.spares
  spares' := h.spares'.trans ht.spares'

/-- Both machines crash at a negative index. -/
theorem together_negative (h : Twins f R s s') (hrunning : s.ended = none)
    (hrunning' : s'.ended = none) (hneg : s.site.ip.toInt < 0) :
    Together cfg p (Open s.stack.height) Q s s' := by
  refine .crash (w := s.world) (c := .indexOutside s.site.ip.toInt) (.inr ⟨rfl, hrunning⟩)
    (.inr ⟨h.height.symm, hrunning'⟩) ?_ ?_
  · rw [step_running hrunning, if_pos hneg]
  · rw [step_running hrunning', ← h.site, if_pos hneg, h.world]

/-- Blocks that run side by side end alike if those above them do. The induction is on the code that is
left. -/
theorem blocksEnd_of_deepens (hp : p.SkipsForward) {n : Nat} (hdeep : Deepens cfg p n) :
    BlocksEnd cfg p n := by
  intro f N R W hcov
  suffices H : ∀ (m : Nat) (s s' : State), codeLeft s < m → Twins f R s s' →
      (∃ c ∈ N, s.site.code.toList = f.code c) → s.ended = none → s'.ended = none →
      s.stack.height = n →
      Together cfg p (Open n) (Ended R W s.frame s'.frame s.stack s'.stack) s s' from
    fun s s' => H (codeLeft s + 1) s s' (Nat.lt_succ_self _)
  intro m
  induction m with
  | zero => intro s s' hm; omega
  | succ m ih =>
    rintro s s' hm h ⟨c, hc, hcode⟩ hrunning hrunning' rfl
    by_cases hneg : s.site.ip.toInt < 0
    · exact together_negative h hrunning hrunning' hneg
    have hopen : Open s.stack.height s := .inr ⟨rfl, hrunning⟩
    have hopen' : Open s.stack.height s' := .inr ⟨h.height.symm, hrunning'⟩
    cases hx : s.site.instr? with
    | none =>
      -- the code of the block is at its end
      have hstep : step cfg p s = .state (s.finish (.fault
          (Fault.locate (s.location s.site.code.size) { cause := .unterminated }))) := by
        rw [step_running hrunning, if_neg hneg, hx]
      have hstep' : step cfg p s' = .state (s'.finish (.fault
          (Fault.locate (s.location s.site.code.size) { cause := .unterminated }))) := by
        rw [step_running hrunning', ← h.site, if_neg hneg, hx, h.location]
      refine .step hopen hopen' hstep hstep' (.here ⟨?_, rfl⟩)
      exact (behind_finish (x := .stray .missing) h _).toKept
    | some x =>
      have hmem : x ∈ f.code c := by
        rw [← hcode]
        exact Array.mem_toList_iff.mpr (Array.mem_of_getElem? (Site.instr?_eq_some_iff.mp hx).2)
      have hexec := leads_execute (x := x) (W := W) hp hdeep h (hcov.ins c hc x hmem)
        (hcov.out c hc x hmem) (fun _ => hcov) (hcov.refs c hc x hmem)
        fun dest g hg => hcov.caught c hc dest g (hg ▸ hmem)
      have hstep : step cfg p s = execute cfg p s x := by
        rw [step_running hrunning, if_neg hneg, hx]
      have hstep' : step cfg p s' = execute cfg p s' x := by
        rw [step_running hrunning', ← h.site, if_neg hneg, hx]
      rw [← hstep, ← hstep'] at hexec
      refine (hexec.together (fun t ht => .inl ht) hopen hopen').trans fun t t' ht => ?_
      cases hended : t.ended with
      | some o => exact .here ⟨ht.toKept, by rw [hended]; rfl⟩
      | none =>
        have hended' : t'.ended = none := ht.ended.symm.trans hended
        have htwins := ht.twins h hended
        obtain ⟨-, skip, hskip, hsite⟩ := ht.site hended
        have hforward : 0 ≤ skip.toInt := by
          rcases hskip with rfl | rfl
          · exact le_of_eq rfl
          · exact hcov.skip c hc x hmem
        have hlt : s.site.ip.toInt.toNat < s.site.code.size :=
          (Array.getElem?_eq_some_iff.mp (Site.instr?_eq_some_iff.mp hx).2).1
        rcases forward_or_negative (Int.not_lt.mp hneg) hforward with hip | hip
        · rw [← ht.stack]
          refine together_negative htwins hended hended' ?_
          rw [hsite]
          exact hip
        · have hleft : codeLeft t < m := by
            unfold codeLeft at hm ⊢
            rw [hsite]
            dsimp only
            omega
          have hcode' : t.site.code.toList = f.code c := by rw [hsite]; exact hcode
          refine (ih t t' hleft htwins ⟨c, hc, hcode'⟩ hended hended' (by rw [ht.stack])).mono
            (fun _ hu => hu) fun u u' hu => ⟨ht.toKept.trans hu.1, hu.2⟩

/-- Blocks that run side by side end alike. The induction is on the depth that is left. -/
theorem blocksEnd (hp : p.SkipsForward) (n : Nat) : BlocksEnd cfg p n := by
  suffices H : ∀ d n, cfg.maxDepth ≤ n + d → Deepens cfg p n from
    blocksEnd_of_deepens hp (H cfg.maxDepth n (Nat.le_add_left _ _))
  intro d
  induction d with
  | zero => intro n hn hlt; omega
  | succ d ih =>
    intro n hn _
    exact blocksEnd_of_deepens hp (ih (n + 1) (by omega))

/-! ## Runs by operands -/

/-- How two runs of a block end alike: both with the same outcome, in the same world and in frames that
agree on `R` and have changed in `W` only, or both with the same crash. -/
inductive EndAlike (R W : Set Reg) (fr fr' : Frame) (k k' : Stack) : Next → Next → Prop
  | ended {t t' : State} (h : Ended R W fr fr' k k' t t') :
      EndAlike R W fr fr' k k' (.state t) (.state t')
  | crash (w : World) (c : Crash) : EndAlike R W fr fr' k k' (.crash w c) (.crash w c)

theorem runBlock_endAlike (hp : p.SkipsForward) {b : BlockId} (hf : f.ForwardFrom b)
    (hfr : fr.func = f) (hagree : fr.AgreeOn (f.readFrom b) fr')
    (hk : k.height = k'.height) (w : World) :
    ∃ e e', runBlock cfg p fr b k w = some e ∧ runBlock cfg p fr' b k' w = some e' ∧
      EndAlike (f.readFrom b) (f.writtenFrom b) fr fr' k k' e e' := by
  have htogether : Together cfg p (Open k.height) (Ended (f.readFrom b) (f.writtenFrom b) fr fr' k k')
      ((blank fr b k w).start fr b k) ((blank fr' b k' w).start fr' b k') :=
    together_start (blocksEnd hp k.height) (Func.covers_nests hf) hfr hagree rfl .here rfl hk.symm
  have hopen : ∀ t, Open k.height t → (t.ended.isSome && t.stack.height == k.height) = false := by
    rintro t (ht | ⟨-, ht⟩)
    · rw [beq_eq_false_iff_ne.mpr (Nat.ne_of_gt ht), Bool.and_false]
    · rw [ht]
      rfl
  have hended : ∀ t t', Ended (f.readFrom b) (f.writtenFrom b) fr fr' k k' t t' →
      (t.ended.isSome && t.stack.height == k.height) = true ∧
        (t'.ended.isSome && t'.stack.height == k.height) = true := by
    rintro t t' ⟨hkept, hended⟩
    simp [hkept.stack, hkept.stack', hended, ← hkept.ended, hk]
  unfold runBlock
  rw [← hk]
  rcases htogether.until_eq hopen hended with ⟨t, t', ht, he, he'⟩ | ⟨w, c, he, he'⟩
  · exact ⟨_, _, he, he', .ended ht⟩
  · exact ⟨_, _, he, he', .crash w c⟩

/-- An instruction that enters no blocks comes to its end, and if it fails its frame is as it was. -/
theorem runInstr_frame (hp : p.SkipsForward) (hrunning : s.ended = none)
    (hx : s.site.instr? = some x) (hplain : x.nests = false) :
    ∃ e, runInstr cfg p s = some e ∧
      ∀ t fault, e = .state t → t.ended = some (.fault fault) → t.frame = s.frame := by
  have hstep : step cfg p s = execute cfg p s x := by
    rw [step_running hrunning, if_neg (Int.not_lt.mpr (Site.instr?_eq_some_iff.mp hx).1), hx]
  -- the machine runs side by side with itself
  have htwins : Twins s.frame.func Set.univ s s := ⟨rfl, .refl _ _, rfl, rfl, rfl⟩
  have hdeep : Deepens cfg p s.stack.height := fun _ => blocksEnd hp _
  have hcov : x.nests = true → s.frame.func.Covers Set.univ Set.univ Set.univ := by
    rw [hplain]
    nofun
  have hexec : Leads cfg p (Higher s.stack.height) (Settled x Set.univ Set.univ s s)
      (execute cfg p s x) (execute cfg p s x) :=
    leads_execute hp hdeep htwins (fun r _ => Set.mem_univ r) (Set.mem_univ _) hcov
      (fun d _ => Set.mem_univ d) fun _ g _ => Set.mem_univ g.caught
  have hhigher : ∀ u, Higher s.stack.height u → (u.stack.height == s.stack.height) = false :=
    fun u hu => beq_eq_false_iff_ne.mpr (Nat.ne_of_gt hu)
  have hsettled : ∀ u u', Settled x Set.univ Set.univ s s u u' →
      (u.stack.height == s.stack.height) = true ∧ (u'.stack.height == s.stack.height) = true := by
    intro u u' hu
    simp [hu.stack, hu.stack']
  unfold runInstr
  rw [hstep]
  generalize execute cfg p s x = next at hexec
  cases hexec with
  | crash w c => exact ⟨_, rfl, fun _ _ h => by cases h⟩
  | state h =>
    rcases h.until_eq hhigher hsettled with ⟨u, u', hu, he, -⟩ | ⟨w, c, he, -⟩
    · refine ⟨_, he, ?_⟩
      rintro v fault heq hfault
      cases heq
      exact hu.frame hplain fault hfault
    · exact ⟨_, he, fun _ _ h => by cases h⟩

/-- Operands tell all that the code of a block does to its frame. In a program that skips forward, let a
block and all that it enters in its frame read the registers `f.readFrom b` and write the registers
`f.writtenFrom b`. In two frames that agree on the former it runs, from the same depth and with the same
runner, to the same outcome and the same commands, or to the same crash. The frames still agree, and
only the latter have changed. An instruction that enters no blocks and fails changes nothing at all. -/
theorem runs_by_operands (cfg : RunConfig) {p : Program} (hp : p.SkipsForward) {f : Func} {b : BlockId}
    (hf : f.ForwardFrom b) :
    (∀ (fr fr' : Frame) (k k' : Stack) (w : World), fr.func = f →
      fr.AgreeOn (f.readFrom b) fr' → k.height = k'.height →
      ∃ e e', runBlock cfg p fr b k w = some e ∧ runBlock cfg p fr' b k' w = some e' ∧
        EndAlike (f.readFrom b) (f.writtenFrom b) fr fr' k k' e e') ∧
    ∀ (s : State) (x : Instr), s.ended = none → s.site.instr? = some x → x.nests = false →
      ∃ e, runInstr cfg p s = some e ∧
        ∀ t fault, e = .state t → t.ended = some (.fault fault) → t.frame = s.frame :=
  ⟨fun _ _ _ _ w hfr hagree hk => runBlock_endAlike hp hf hfr hagree hk w,
    fun _ _ hrunning hx hplain => runInstr_frame hp hrunning hx hplain⟩

/-- A guarded section whose body writes a register that nothing reads and then throws. -/
def recovers : Func where
  name := mainName
  blocks := #[⟨⟨0⟩, #[.guarded ⟨0⟩ ⟨⟨1⟩, ⟨2⟩, ⟨1⟩, .none⟩, .leave .ret (.reg ⟨0⟩)]⟩,
    ⟨⟨1⟩, #[.load ⟨2⟩ (.bool true), .leave .throw (.reg ⟨3⟩)]⟩,
    ⟨⟨2⟩, #[.leave .yield (.reg ⟨1⟩)]⟩]
  numRegs := 4

/-- A frame in which that register holds `v`. -/
def recoversWith (v : Value) : Frame := ⟨recovers, #[.unset, .unset, v, .string "a"]⟩

theorem recoversWith_agreeOn (v v' : Value) :
    (recoversWith v).AgreeOn (recovers.readFrom ⟨0⟩) (recoversWith v') where
  func := rfl
  size := rfl
  get? r hr := by
    obtain ⟨c, x, -, hx, hr⟩ := hr
    obtain ⟨n, hn, rfl⟩ := (Func.has_of_code_ne_nil (List.ne_nil_of_mem hx)).exists_natCast
    have hne : r ≠ ⟨2⟩ := by
      rintro rfl
      match n, hn with
      | 0, _ | 1, _ | 2, _ =>
        simp only [Func.code, Func.block?, recovers] at hx
        simp at hx
        rcases hx with rfl | rfl <;> simp [Instr.ins] at hr
    have hw : (recoversWith v').write ⟨2⟩ v = .ok (recoversWith v) := rfl
    exact Frame.get?_write_of_ne hw hne

theorem recovers_by_operands : (({} : Program).add recovers).SkipsForward ∧
    recovers.ForwardFrom ⟨0⟩ ∧
    (∃ e e', runBlock ⟨8, none⟩ (({} : Program).add recovers) (recoversWith .unset) ⟨0⟩ {} {} = some e ∧
      runBlock ⟨8, none⟩ (({} : Program).add recovers) (recoversWith .null) ⟨0⟩ {} {} = some e' ∧
      EndAlike (recovers.readFrom ⟨0⟩) (recovers.writtenFrom ⟨0⟩) (recoversWith .unset)
        (recoversWith .null) {} {} e e') ∧
    ∃ e, runInstr ⟨8, none⟩ (({} : Program).add recovers)
        (.inCode recovers ⟨1⟩ 1 (recoversWith .null) {} {}) = some e ∧
      ∀ t fault, e = .state t → t.ended = some (.fault fault) → t.frame = recoversWith .null := by
  have hp : (({} : Program).add recovers).SkipsForward := by decide
  have hf : recovers.ForwardFrom ⟨0⟩ := fun c _ x hx =>
    hp.of_mem_code List.mem_cons_self hx
  obtain ⟨hblock, hinstr⟩ := runs_by_operands ⟨8, none⟩ hp hf
  refine ⟨hp, hf, hblock _ _ {} {} {} rfl (recoversWith_agreeOn _ _) rfl, ?_⟩
  exact hinstr (.inCode recovers ⟨1⟩ 1 (recoversWith .null) {} {}) (.leave .throw (.reg ⟨3⟩)) rfl rfl rfl

end Machine

end ScriptMachine
