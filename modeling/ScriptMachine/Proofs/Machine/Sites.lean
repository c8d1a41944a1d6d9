import ScriptMachine.Proofs.Check.Indices
import ScriptMachine.Proofs.Machine.Orderly
import ScriptMachine.Proofs.Machine.Steps

/-!
# Where a run stands

Every state of a run of any program, checked or not, has its place in the program.

1. The running frame is one of a function of the program, and so is every frame that waits.
2. The running block is a block of its function, and every site that waits stands at the instruction
   that it waits for: a call, or an instruction that entered another block.

`sited_step` says that a step keeps this, so it holds in all states of a run (`sited_reachable`).
-/

namespace ScriptMachine

/-- The code of a site is that of a block of the function. -/
def Site.Of (site : Site) (f : Func) : Prop := ∃ k, f.block? site.block = some k ∧ k.code = site.code

/-- An instruction may wait for a block of its own frame that has been entered for some end. -/
def Instr.Opens (x : Instr) : After → Prop
  | .arm dest => ∃ v arms default, x = .dispatch dest v arms default
  | .body dest g | .handler dest g => x = .guarded dest g
  | .cleanup dest _ => ∃ g, x = .guarded dest g ∧ g.cleanup ≠ .none

/-- A site in the code of a function, in front of an instruction. -/
structure Site.Holds (site : Site) (f : Func) (x : Instr) : Prop where
  of : site.Of f
  instr : site.instr? = some x

/-- All that waits for a block of the function `f`. -/
inductive Program.Waits (p : Program) : Func → List Waiting → Prop
  | nil {f : Func} : p.Waits f []
  | caller {f : Func} {fr : Frame} {site : Site} {dest : Reg} {ws : List Waiting} {x : Instr}
      (hdef : p.Defines fr.func) (hsite : site.Holds fr.func x) (hx : x.isCall = true)
      (hws : p.Waits fr.func ws) : p.Waits f (.caller fr site dest :: ws)
  | within {f : Func} {site : Site} {after : After} {ws : List Waiting} {x : Instr}
      (hsite : site.Holds f x) (hx : x.Opens after) (hws : p.Waits f ws) :
      p.Waits f (.within site after :: ws)

/-- A state has its place in a program. -/
structure State.Sited (p : Program) (s : State) : Prop where
  defines : p.Defines s.frame.func
  waits : p.Waits s.frame.func s.stack.entries
  site : s.ended = none → s.site.Of s.frame.func

/-! ## Instructions of a program -/

/-- The instruction in front of a site stands in the code of the function. -/
theorem Site.Holds.mem {site : Site} {f : Func} {x : Instr} (h : site.Holds f x) :
    ∃ k ∈ f.blocks.toList, x ∈ k.code.toList := by
  obtain ⟨⟨k, hk, hcode⟩, hinstr⟩ := h
  have hx := (instr?_eq_some_iff.mp hinstr).2
  rw [← hcode] at hx
  unfold Func.block? at hk
  split at hk
  · cases hk
  · exact ⟨k, by simpa using Array.mem_of_getElem? hk, by simpa using Array.mem_of_getElem? hx⟩

namespace Machine

variable {p : Program} {fr : Frame} {cfg : RunConfig}

/-- What an instruction may ask for, in any frame and in any world. -/
def Wants (p : Program) (fr : Frame) (x : Instr) : Action → Prop
  | .next fr' skip => fr'.func = fr.func ∧ (skip = 0 ∨ skip = x.skip)
  | .leave .. => True
  | .call c _ => p.Defines c.func ∧ x.isCall = true ∧ c.Overflows
  | .enter _ after => x.Opens after ∧ ∀ dest o, after ≠ .cleanup dest o

theorem wants_of_mayAsk {x : Instr} {a : Action} (h : x.MayAsk p fr a) : Wants p fr x a := by
  cases h with
  | write _ hw | pass hw => exact ⟨Frame.func_write hw, .inl rfl⟩
  | call hx hdef hc => exact ⟨hdef, hx, hc⟩
  | circuit hd hfr =>
    refine ⟨?_, hd⟩
    rcases hfr with rfl | ⟨v, hw⟩
    · rfl
    · exact Frame.func_write hw
  | arm => exact ⟨⟨_, _, _, rfl⟩, fun _ _ h => by cases h⟩
  | body => exact ⟨rfl, fun _ _ h => by cases h⟩
  | leave => trivial

theorem wants_perform (runner : Option Runner) (w : World) (x : Instr) :
    AllGive (perform runner p fr w x).2 (Wants p fr x) :=
  (mayAsk_perform runner w x).mono fun _ => wants_of_mayAsk

end Machine

/-! ## Changes of a state -/

namespace State

variable {p : Program} {cfg : RunConfig} {s t : State} {x : Instr} {stack : Stack}

/-- A state in front of an instruction of its function. -/
structure Facing (p : Program) (x : Instr) (s : State) : Prop where
  defines : p.Defines s.frame.func
  waits : p.Waits s.frame.func s.stack.entries
  site : s.site.Holds s.frame.func x

theorem sited_finish (hdef : p.Defines s.frame.func) (hws : p.Waits s.frame.func s.stack.entries)
    (o : Outcome) : (s.finish o).Sited p where
  defines := hdef
  waits := hws
  site h := by cases h

theorem Facing.finish (h : s.Facing p x) (o : Outcome) : (s.finish o).Sited p :=
  sited_finish h.defines h.waits o

theorem Facing.fail (h : s.Facing p x) (f : Fault) : (s.fail f).Sited p := h.finish _

theorem Facing.advance (h : s.Facing p x) {fr : Frame} (hfr : fr.func = s.frame.func)
    (skip : Int64) : (s.advance fr skip).Sited p where
  defines := hfr ▸ h.defines
  waits := hfr ▸ h.waits
  site _ := by
    show Site.Of _ fr.func
    rw [hfr]
    exact h.site.of

theorem Facing.store (h : s.Facing p x) (dest : Reg) (v : Value) : (s.store dest v).Sited p := by
  unfold State.store
  split
  · rename_i fr hw
    exact h.advance (Frame.func_write hw) 0
  · exact h.fail _

theorem sited_start {fr : Frame} (hdef : p.Defines fr.func) (hws : p.Waits fr.func stack.entries)
    (b : BlockId) : (s.start fr b stack).Sited p := by
  unfold start
  split
  · rename_i k hk
    exact ⟨hdef, hws, fun _ => ⟨k, hk, rfl⟩⟩
  · exact ⟨hdef, hws, fun h => by cases h⟩

section
variable (h : s.Facing p x)
include h

theorem Facing.enter {after : After} (hx : x.Opens after) (b : BlockId) :
    (s.enter cfg b after).Sited p := by
  have hpush : p.Waits s.frame.func (s.stack.push (.within s.site after)).entries :=
    .within h.site hx h.waits
  unfold State.enter
  dsimp only
  split
  · exact sited_start h.defines hpush b
  · exact ⟨h.defines, hpush, fun h => by cases h⟩

theorem Facing.call (hx : x.isCall = true) {c : Callee}
    (hc : p.Defines c.func) {dest : Reg} (ht : s.call cfg c dest = .ok t) : t.Sited p := by
  cases Machine.called ht with
  | tooDeep | unbound => exact h.fail _
  | start _ _ _ hfunc =>
    exact sited_start (hfunc ▸ hc) (.caller h.defines h.site hx h.waits) c.start

/-! ## The end of a block -/

theorem Facing.conclude (dest : Reg) (o : Outcome) : (Machine.conclude s dest o).Sited p := by
  match o with
  | .fault f => exact h.fail f
  | .value v .ret => exact h.finish _
  | .value v .yield => exact h.store dest v

theorem Facing.cleanUp {dest : Reg} {g : Guard} (hx : x = .guarded dest g)
    (o : Outcome) : (Machine.cleanUp cfg s dest g o).Sited p := by
  unfold Machine.cleanUp
  split
  · exact h.conclude dest o
  · rename_i hsome
    have hopens : x.Opens (.cleanup dest o) := ⟨g, hx, hsome⟩
    exact h.enter hopens g.cleanup

/-- Only the registers of the frame matter to what waits for it, not to where it is. -/
theorem Facing.withFrame {fr : Frame} (hfr : fr.func = s.frame.func) :
    { s with frame := fr }.Facing p x :=
  ⟨hfr ▸ h.defines, hfr ▸ h.waits, hfr ▸ h.site⟩

theorem Facing.handle {dest : Reg} {g : Guard} (hx : x = .guarded dest g)
    (o : Outcome) : (Machine.handle cfg s dest g o).Sited p := by
  unfold Machine.handle
  split
  · exact h.cleanUp hx _
  · split
    · exact h.cleanUp hx _
    · split
      · exact h.cleanUp hx _
      · split
        · exact h.cleanUp hx _
        · rename_i fr hw
          have hopens : x.Opens (.handler dest g) := hx
          exact (h.withFrame (Frame.func_write hw)).enter hopens g.handler

theorem Facing.resume {after : After} (hx : x.Opens after) (o : Outcome) :
    (Machine.resume cfg s after o).Sited p := by
  cases after with
  | arm dest => exact h.conclude dest o
  | body dest g => exact h.handle hx o
  | handler dest g => exact h.cleanUp hx o
  | cleanup dest pending =>
    match o with
    | .value v .yield => exact h.conclude dest pending
    | .value v .ret => exact h.conclude dest (.value v .ret)
    | .fault f => exact h.conclude dest (.fault f)

end

/-- The state in which a call is taken up again. -/
theorem Sited.caller (h : s.Sited p) {fr : Frame} {site : Site} {dest : Reg}
    (hpop : s.stack.pop? = some (.caller fr site dest, stack)) :
    ∃ x, x.isCall = true ∧ { s with frame := fr, site, stack, ended := none }.Facing p x := by
  have hws := h.waits
  rw [Stack.entries_of_pop? hpop] at hws
  cases hws with
  | caller hdef hsite hx hws => exact ⟨_, hx, hdef, hws, hsite⟩

/-- The state in which an instruction gets the outcome of a block that it entered. -/
theorem Sited.within (h : s.Sited p) {site : Site} {after : After}
    (hpop : s.stack.pop? = some (.within site after, stack)) :
    ∃ x, x.Opens after ∧ { s with site, stack, ended := none }.Facing p x := by
  have hws := h.waits
  rw [Stack.entries_of_pop? hpop] at hws
  cases hws with
  | within hsite hx hws => exact ⟨_, hx, h.defines, hws, hsite⟩

/-- The state in front of an instruction that is about to be run. -/
theorem Sited.facing (h : s.Sited p) (hrunning : s.ended = none) (hx : s.site.instr? = some x)
    (w : World) : { s with world := w }.Facing p x :=
  ⟨h.defines, h.waits, h.site hrunning, hx⟩

end State

/-! ## Steps and runs -/

namespace Machine

variable {p : Program} {cfg : RunConfig} {s t : State}

theorem sited_execute {x : Instr} (h : s.Sited p) (hrunning : s.ended = none)
    (hx : s.site.instr? = some x) (ht : Executed cfg p s x t) : t.Sited p := by
  have hfacing := h.facing hrunning hx
  cases ht with
  | fail => exact (hfacing _).fail _
  | leave => exact (hfacing _).finish _
  | @next w fr skip _ ha => exact (hfacing w).advance (wants_of_mayAsk ha).1 skip
  | enter _ ha => exact (hfacing _).enter (wants_of_mayAsk ha).1 _
  | call _ ha ht =>
    obtain ⟨hdef, hcall, -⟩ := wants_of_mayAsk ha
    exact (hfacing _).call hcall hdef ht

theorem sited_unwind (h : s.Sited p) {o : Outcome} (ht : Unwound cfg s o t) : t.Sited p := by
  cases ht with
  | fail hpop =>
    obtain ⟨x, -, hfacing⟩ := h.caller hpop
    exact hfacing.fail _
  | store hpop =>
    obtain ⟨x, -, hfacing⟩ := h.caller hpop
    exact hfacing.store _ _
  | resume hpop =>
    obtain ⟨x, hx, hfacing⟩ := h.within hpop
    exact hfacing.resume hx o

theorem sited_step (h : s.Sited p) (ht : step cfg p s = .state t) : t.Sited p := by
  cases stepped ht with
  | unwind _ ht => exact sited_unwind h ht
  | execute hrunning hx ht => exact sited_execute h hrunning hx ht
  | runOff => exact State.sited_finish h.defines h.waits _

theorem sited_initial (h : initial p = .ok (.ok s)) : s.Sited p := by
  obtain ⟨f, fr, fr', site, hf, -, -, rfl, rfl⟩ := initial_eq_ok h
  exact State.sited_start (Program.defines_of_func? hf) .nil fr'.func.entry

theorem sited_reachable (h : Reachable cfg p s) : s.Sited p := by
  induction h with
  | initial h => exact sited_initial h
  | step _ ht ih => exact sited_step ih ht

/-! ## Results -/

/-- A run from a state ends with a result. -/
inductive Ends (cfg : RunConfig) (p : Program) : State → Result → Prop
  | halt {s : State} {w : World} {o : Outcome} (h : Machine.step cfg p s = .halt w o) :
      Ends cfg p s (.ofOutcome w o)
  | crash {s : State} {w : World} {c : Crash} (h : Machine.step cfg p s = .crash w c) :
      Ends cfg p s ⟨w.calls, .crash c⟩
  | step {s t : State} {r : Result} (h : Machine.step cfg p s = .state t) (ht : Ends cfg p t r) :
      Ends cfg p s r

theorem Ends.run {r : Result} (h : Ends cfg p s r) : s.run cfg p = some r := by
  induction h with
  | halt h | crash h => rw [State.run, h]
  | step h _ ih =>
    rw [State.run, h]
    exact ih

/-- The result of a run is that of finitely many steps. -/
theorem run_eq_some_iff {r : Result} : s.run cfg p = some r ↔ Ends cfg p s r := by
  refine ⟨fun h => ?_, Ends.run⟩
  refine State.run.partial_correctness cfg p (Ends cfg p) ?_ s r h
  intro go ih s r hgo
  cases hstep : Machine.step cfg p s with
  | state t =>
    rw [hstep] at hgo
    exact .step hstep (ih t r hgo)
  | halt w o =>
    rw [hstep] at hgo
    rw [← Option.some.inj hgo]
    exact .halt hstep
  | crash w c =>
    rw [hstep] at hgo
    rw [← Option.some.inj hgo]
    exact .crash hstep

theorem main_of_ends {r : Result} (hinit : initial p = .ok (.ok s)) (h : Ends cfg p s r) :
    main cfg p = r := by
  unfold main
  rw [hinit]
  dsimp only
  rw [h.run, Option.getD_some]

end Machine

end ScriptMachine
