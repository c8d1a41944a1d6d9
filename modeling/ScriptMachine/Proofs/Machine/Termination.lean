import ScriptMachine.Proofs.Machine.Sites

/-!
# Every run ends

If no short circuit skips backwards, every run comes to an end, however functions, closures and
nested blocks enter each other: the limit on the depth bounds how many of them are open at once.

1. A block that runs on top of a stack comes to its end there, or the run is over (`completes`). The
   proof is by induction on the depth that is left and, within one block, on the code that is left.
2. An instruction that enters other blocks gives each of them one level of depth less. So all of them
   come to their ends, and then the instruction is done (`passes_resume`): a guarded section enters up
   to three of them, one behind the other, also if the depth did not suffice for one of them.
3. An index that goes forward in 64-bit arithmetic grows, or it wraps and is negative, and then the
   next step crashes (`forward_or_negative`).
-/

namespace ScriptMachine

/-- No instruction of a program skips backwards. -/
def Program.SkipsForward (p : Program) : Prop :=
  ∀ f ∈ p.funcs, ∀ k ∈ f.blocks.toList, ∀ x ∈ k.code.toList, 0 ≤ x.skip.toInt

instance (p : Program) : Decidable p.SkipsForward :=
  inferInstanceAs (Decidable (∀ f ∈ p.funcs, ∀ k ∈ f.blocks.toList, ∀ x ∈ k.code.toList,
    0 ≤ x.skip.toInt))

theorem Program.SkipsForward.of_holds {p : Program} (hp : p.SkipsForward) {f : Func}
    (hf : p.Defines f) {site : Site} {x : Instr} (h : site.Holds f x) : 0 ≤ x.skip.toInt := by
  obtain ⟨k, hk, hx⟩ := h.mem
  exact hp f (Program.func?_eq_some hf).1 k hk x hx

/-- Going forward from an index leads to a greater one, or to a negative one if it wraps. -/
theorem forward_or_negative {ip skip : Int64} (hip : 0 ≤ ip.toInt) (hskip : 0 ≤ skip.toInt) :
    (ip + skip + 1).toInt < 0 ∨ ip.toInt < (ip + skip + 1).toInt := by
  have hone : (1 : Int64).toInt = 1 := rfl
  have hip' := ip.toInt_lt
  have hskip' := skip.toInt_lt
  rw [Int64.toInt_add, Int64.toInt_add, hone]
  simp only [Int.bmod_def]
  split <;> split <;> omega

namespace Machine

variable {cfg : RunConfig} {p : Program} {s t : State} {k : Stack} {x : Instr}

/-- The run has no further state. -/
def Over (cfg : RunConfig) (p : Program) (s : State) : Prop := ∀ t, step cfg p s ≠ .state t

/-- The machine comes to the end of a block on top of `k`, or the run is over before. -/
def Completes (cfg : RunConfig) (p : Program) (k : Stack) : State → Prop :=
  RunsTo cfg p fun t => t.Sited p ∧ (t.ended.isSome ∧ t.stack = k ∨ Over cfg p t)

/-- The instruction at a site is done: the block has ended, or goes on behind the instruction. -/
structure Past (site : Site) (k : Stack) (t : State) : Prop where
  stack : t.stack = k
  site : t.ended = none → t.site = { site with ip := site.ip + 1 }

/-- The machine comes past the instruction at a site, or the run is over before. -/
def Passes (cfg : RunConfig) (p : Program) (site : Site) (k : Stack) : State → Prop :=
  RunsTo cfg p fun t => t.Sited p ∧ (Past site k t ∨ Over cfg p t)

/-! ## The end of an instruction -/

theorem past_finish (s : State) (o : Outcome) : Past s.site s.stack (s.finish o) where
  stack := rfl
  site h := by cases h

theorem past_store (s : State) (dest : Reg) (v : Value) : Past s.site s.stack (s.store dest v) := by
  unfold State.store
  split
  · exact ⟨rfl, fun _ => by simp [State.advance]⟩
  · exact past_finish s _

theorem past_conclude (s : State) (dest : Reg) (o : Outcome) :
    Past s.site s.stack (conclude s dest o) := by
  match o with
  | .fault f => exact past_finish s _
  | .value v .ret => exact past_finish s _
  | .value v .yield => exact past_store s dest v

/-! ## Instructions that enter blocks -/

/-- Blocks one level above `k` come to their ends. -/
def Deeper (cfg : RunConfig) (p : Program) (k : Stack) : Prop :=
  ∀ t : State, t.Sited p → t.ended = none → t.stack.height = k.height + 1 →
    k.height + 1 < cfg.maxDepth → Completes cfg p t.stack t

/-- A block that is started comes to its end; a missing one has ended at once. -/
theorem completes_start (hdeep : Deeper cfg p k) {fr : Frame} {b : BlockId} {j : Stack}
    (hs : (s.start fr b j).Sited p) (hj : j.height = k.height + 1)
    (hdepth : k.height + 1 < cfg.maxDepth) : Completes cfg p j (s.start fr b j) := by
  unfold State.start at hs ⊢
  cases hblk : fr.func.block? b with
  | some blk =>
    rw [hblk] at hs
    exact hdeep _ hs rfl hj hdepth
  | none =>
    rw [hblk] at hs
    exact .here ⟨hs, .inl ⟨rfl, rfl⟩⟩

/-- A block that is entered comes to its end, be it that it lies too deep. -/
theorem completes_enter (hdeep : Deeper cfg p s.stack) (h : s.Facing p x) {after : After}
    (hx : x.Opens after) (b : BlockId) :
    Completes cfg p (s.stack.push (.within s.site after)) (s.enter cfg b after) := by
  have hsited : (s.enter cfg b after).Sited p := h.enter hx b
  unfold State.enter at hsited ⊢
  dsimp only at hsited ⊢
  by_cases hdepth : s.depth < cfg.maxDepth
  · rw [if_pos hdepth] at hsited ⊢
    exact completes_start hdeep hsited rfl hdepth
  · rw [if_neg hdepth] at hsited ⊢
    exact .here ⟨hsited, .inl ⟨rfl, rfl⟩⟩

/-- An instruction is done if it is done whatever the outcome of the block that it enters is, and
whatever the block leaves in the registers. -/
theorem passes_enter (hdeep : Deeper cfg p s.stack) (h : s.Facing p x) {after : After}
    (hx : x.Opens after) (b : BlockId)
    (hnext : ∀ (t : State) (o : Outcome), t.Facing p x → t.site = s.site → t.stack = s.stack →
      Passes cfg p s.site s.stack (resume cfg t after o)) :
    Passes cfg p s.site s.stack (s.enter cfg b after) := by
  refine (completes_enter hdeep h hx b).trans fun t ⟨hsited, ht⟩ => ?_
  rcases ht with ⟨hended, hstack⟩ | hover
  · obtain ⟨o, ho⟩ := Option.isSome_iff_exists.mp hended
    have hpop : t.stack.pop? = some (.within s.site after, s.stack) := by rw [hstack]; rfl
    have hws := hsited.waits
    rw [hstack, Stack.entries_push] at hws
    have hfacing : { t with site := s.site, stack := s.stack, ended := none }.Facing p x := by
      cases hws with
      | within hsite _ hws =>
        exact ⟨hsited.defines, hws, hsite.of, h.site.instr⟩
    refine .step ?_ (hnext { t with site := s.site, stack := s.stack, ended := none } o hfacing rfl rfl)
    rw [step_ended ho]
    unfold unwind
    rw [hpop]
  · exact .here ⟨hsited, .inr hover⟩

theorem passes_conclude (h : s.Facing p x) (dest : Reg) (o : Outcome) :
    Passes cfg p s.site s.stack (conclude s dest o) :=
  .here ⟨h.conclude dest o, .inl (past_conclude s dest o)⟩

section
variable (hdeep : Deeper cfg p s.stack)
include hdeep

theorem passes_cleanUp (h : s.Facing p x) {dest : Reg} {g : Guard} (hx : x = .guarded dest g)
    (o : Outcome) : Passes cfg p s.site s.stack (cleanUp cfg s dest g o) := by
  unfold cleanUp
  split
  · exact passes_conclude h dest o
  · rename_i hsome
    have hopens : x.Opens (.cleanup dest o) := ⟨g, hx, hsome⟩
    refine passes_enter hdeep h hopens g.cleanup fun t o' ht hsite hstack => ?_
    rw [← hsite, ← hstack]
    match o' with
    | .value v .yield => exact passes_conclude ht dest o
    | .value v .ret => exact passes_conclude ht dest (.value v .ret)
    | .fault f => exact passes_conclude ht dest (.fault f)

theorem passes_handle (h : s.Facing p x) {dest : Reg} {g : Guard} (hx : x = .guarded dest g)
    (o : Outcome) : Passes cfg p s.site s.stack (handle cfg s dest g o) := by
  unfold handle
  split
  · exact passes_cleanUp hdeep h hx _
  · split
    · exact passes_cleanUp hdeep h hx _
    · split
      · exact passes_cleanUp hdeep h hx _
      · split
        · exact passes_cleanUp hdeep h hx _
        · rename_i fr hw
          have hopens : x.Opens (.handler dest g) := hx
          refine passes_enter (s := { s with frame := fr }) hdeep (h.withFrame (Frame.func_write hw))
            hopens g.handler fun t o' ht hsite hstack => ?_
          rw [← hsite, ← hstack]
          exact passes_cleanUp (hstack ▸ hdeep) ht hx o'

/-- An instruction that gets the outcome of a block comes to its end. -/
theorem passes_resume (h : s.Facing p x) {after : After}
    (hx : x.Opens after) (o : Outcome) : Passes cfg p s.site s.stack (resume cfg s after o) := by
  cases after with
  | arm dest => exact passes_conclude h dest o
  | body dest g => exact passes_handle hdeep h hx o
  | handler dest g => exact passes_cleanUp hdeep h hx o
  | cleanup dest pending =>
    match o with
    | .value v .yield => exact passes_conclude h dest pending
    | .value v .ret => exact passes_conclude h dest (.value v .ret)
    | .fault f => exact passes_conclude h dest (.fault f)

/-- A call comes to its end. -/
theorem passes_call (h : s.Facing p x) (hx : x.isCall = true) {c : Callee} (hc : p.Defines c.func)
    {dest : Reg} (ht : s.call cfg c dest = .ok t) : Passes cfg p s.site s.stack t := by
  have hsited := h.call hx hc ht
  cases Machine.called ht with
  | tooDeep | unbound => exact .here ⟨hsited, .inl (past_finish s _)⟩
  | start hdepth =>
    have hcompletes := completes_start hdeep hsited rfl (by unfold State.depth at hdepth; omega)
    refine hcompletes.trans fun u hu => ?_
    obtain ⟨husited, ⟨hended, hstack⟩ | hover⟩ := hu
    · obtain ⟨o, ho⟩ := Option.isSome_iff_exists.mp hended
      have hpop : u.stack.pop? = some (.caller s.frame s.site dest, s.stack) := by rw [hstack]; rfl
      obtain ⟨y, -, hfacing⟩ := husited.caller hpop
      cases o with
      | value v exit =>
        have hpast := past_store { u with frame := s.frame, site := s.site, stack := s.stack,
                                          ended := none } dest v
        refine .step ?_ (.here ⟨hfacing.store dest v, .inl hpast⟩)
        rw [step_ended ho, unwind, hpop]
      | fault f =>
        refine .step ?_ (.here ⟨hfacing.fail f, .inl ⟨rfl, fun h => by cases h⟩⟩)
        rw [step_ended ho, unwind, hpop]
    · exact .here ⟨husited, .inr hover⟩

end

/-! ## Blocks -/

/-- A step of a running block: the block ends, goes forward, or comes past an instruction that enters
other blocks or makes a call. -/
theorem completes_execute (hp : p.SkipsForward) (hdeep : Deeper cfg p s.stack) (hs : s.Sited p)
    (hrunning : s.ended = none) (hx : s.site.instr? = some x)
    (hnext : ∀ t : State, t.Sited p → t.ended = none → t.stack = s.stack →
      t.site.code = s.site.code → t.site.ip.toInt < 0 ∨ s.site.ip.toInt < t.site.ip.toInt →
      Completes cfg p s.stack t)
    (ht : Executed cfg p s x t) : Completes cfg p s.stack t := by
  have hip := (Site.instr?_eq_some_iff.mp hx).1
  have hfacing := hs.facing hrunning hx
  have hsited := sited_execute hs hrunning hx ht
  have hzero : (0 : Int64).toInt = 0 := rfl
  -- behind an instruction that is done the code goes on one further
  have hpast : ∀ u : State, u.Sited p ∧ (Past s.site s.stack u ∨ Over cfg p u) →
      Completes cfg p s.stack u := by
    rintro u ⟨hu, hpast | hover⟩
    · cases hended : u.ended with
      | some o => exact .here ⟨hu, .inl ⟨by simp [hended], hpast.stack⟩⟩
      | none =>
        have hsite := hpast.site hended
        refine hnext u hu hended hpast.stack (by rw [hsite]) ?_
        have hforward := forward_or_negative hip (le_of_eq hzero.symm)
        rw [Int64.add_zero] at hforward
        rwa [hsite]
    · exact .here ⟨hu, .inr hover⟩
  cases ht with
  | fail | leave => exact .here ⟨hsited, .inl ⟨rfl, rfl⟩⟩
  | @next w _ _ _ ha =>
    refine hnext _ hsited rfl rfl rfl ?_
    rcases (wants_of_mayAsk ha).2 with rfl | rfl
    · exact forward_or_negative hip (le_of_eq hzero.symm)
    · exact forward_or_negative hip (hp.of_holds hs.defines (hfacing w).site)
  | @enter w b after _ ha =>
    have hopens := (wants_of_mayAsk ha).1
    refine (passes_enter (s := { s with world := w }) hdeep (hfacing w) hopens b ?_).trans hpast
    intro t o hface hsite hstack
    have h : Passes cfg p t.site t.stack (resume cfg t after o) :=
      passes_resume (hstack ▸ hdeep) hface hopens o
    rwa [hsite, hstack] at h
  | @call w _ _ _ _ ha ht =>
    obtain ⟨hdef, hcall, -⟩ := wants_of_mayAsk ha
    exact (passes_call (s := { s with world := w }) hdeep (hfacing w) hcall hdef ht).trans hpast

/-- What is left of the code of a running block. -/
def codeLeft (s : State) : Nat := (s.site.code.size - s.site.ip.toInt).toNat

/-- A running block comes to its end if the blocks above it do. The induction is on the code that is
left, which gets less with each instruction. -/
theorem completes_running (hp : p.SkipsForward) (hdeep : Deeper cfg p k) :
    ∀ (n : Nat) (s : State), codeLeft s < n → s.Sited p → s.ended = none → s.stack = k →
      Completes cfg p k s := by
  intro n
  induction n with
  | zero => intro s hn; omega
  | succ n ih =>
    rintro s hn hs hrunning rfl
    by_cases hneg : s.site.ip.toInt < 0
    · refine .here ⟨hs, .inr fun t ht => ?_⟩
      rw [step_running hrunning, if_pos hneg] at ht
      cases ht
    · cases hx : s.site.instr? with
      | none =>
        have hstep : step cfg p s = .state (s.finish (.fault
            (Fault.locate (s.location s.site.code.size) { cause := .unterminated }))) := by
          rw [step_running hrunning, if_neg hneg, hx]
        exact .step hstep (.here ⟨sited_step hs hstep, .inl ⟨rfl, rfl⟩⟩)
      | some x =>
        have hstep : step cfg p s = execute cfg p s x := by
          rw [step_running hrunning, if_neg hneg, hx]
        have hlt : s.site.ip.toInt.toNat < s.site.code.size :=
          (Array.getElem?_eq_some_iff.mp (Site.instr?_eq_some_iff.mp hx).2).1
        cases hexec : execute cfg p s x with
        | halt w o => exact .here ⟨hs, .inr fun t ht => by rw [hstep, hexec] at ht; cases ht⟩
        | crash w c => exact .here ⟨hs, .inr fun t ht => by rw [hstep, hexec] at ht; cases ht⟩
        | state t =>
          refine .step (hstep.trans hexec) (completes_execute hp hdeep hs hrunning hx ?_ (executed hexec))
          intro u hu hended hstack hcode hforward
          rcases hforward with hforward | hforward
          · refine .here ⟨hu, .inr fun v hv => ?_⟩
            rw [step_running hended, if_pos hforward] at hv
            cases hv
          · refine ih u ?_ hu hended hstack
            unfold codeLeft at hn ⊢
            rw [hcode]
            omega

/-- A running block comes to its end. The induction is on the depth that is left. -/
theorem completes (hp : p.SkipsForward) : ∀ (n : Nat) (s : State), s.Sited p → s.ended = none →
    cfg.maxDepth ≤ s.stack.height + n → Completes cfg p s.stack s := by
  intro n
  induction n with
  | zero =>
    intro s hs hrunning hn
    have hdeep : Deeper cfg p s.stack := fun t _ _ _ hdepth => by omega
    exact completes_running hp hdeep _ s (Nat.lt_succ_self _) hs hrunning rfl
  | succ n ih =>
    intro s hs hrunning hn
    have hdeep : Deeper cfg p s.stack := fun t ht hended hheight _ => ih t ht hended (by omega)
    exact completes_running hp hdeep _ s (Nat.lt_succ_self _) hs hrunning rfl

/-! ## Runs -/

/-- A run on an empty stack comes to its last state. -/
theorem runsTo_over (hp : p.SkipsForward) (hs : s.Sited p) (hstack : s.stack = {}) :
    RunsTo cfg p (Over cfg p) s := by
  have hend : ∀ t : State, t.ended.isSome → t.stack = {} → Over cfg p t := by
    intro t hended hstack u hu
    obtain ⟨o, ho⟩ := Option.isSome_iff_exists.mp hended
    rw [step_ended ho] at hu
    unfold unwind at hu
    rw [hstack] at hu
    cases hu
  cases hended : s.ended with
  | some o => exact .here (hend s (by simp [hended]) hstack)
  | none =>
    refine (completes hp cfg.maxDepth s hs hended (by omega)).mono fun t ⟨_, ht⟩ => ?_
    rcases ht with ⟨htended, htstack⟩ | hover
    · exact hend t htended (htstack.trans hstack)
    · exact hover

theorem run_of_over (h : Over cfg p s) : ∃ r, s.run cfg p = some r ∧ r.ending ≠ .unfinished := by
  rw [State.run]
  cases hstep : step cfg p s with
  | state t => exact absurd hstep (h t)
  | halt w o => exact ⟨_, rfl, by cases o <;> intro h <;> cases h⟩
  | crash w c => exact ⟨_, rfl, fun h => by cases h⟩

/-- A run that comes to its last state has no state behind some number of steps. -/
theorem exists_trace_eq_none (h : RunsTo cfg p (Over cfg p) s) {n : Nat} {hist : History}
    (htrace : trace cfg p n = some (s, hist)) : ∃ m, trace cfg p m = none := by
  induction h generalizing n hist with
  | @here s h =>
    refine ⟨n + 1, ?_⟩
    rw [trace, htrace]
    dsimp only
    cases hstep : step cfg p s with
    | state t => exact absurd hstep (h t)
    | halt w o => rfl
    | crash w c => rfl
  | @step s t hstep _ ih =>
    have hnext : trace cfg p (n + 1) = some (t, record cfg p s hist) := by
      rw [trace, htrace]
      dsimp only
      rw [hstep]
    exact ih hnext

theorem stack_of_initial (h : initial p = .ok (.ok s)) : s.stack = {} := by
  obtain ⟨f, fr, fr', site, -, -, -, -, rfl⟩ := initial_eq_ok h
  unfold State.start
  split <;> rfl

/-- A program in which nothing skips backwards ends, with a value, a fault or a crash, under every
limit on the depth and with every runner: behind some number of steps there is no state left. -/
theorem main_ends (p : Program) (hp : p.SkipsForward) (cfg : RunConfig) :
    (main cfg p).ending ≠ .unfinished ∧ ∃ n, trace cfg p n = none := by
  unfold main
  cases hinit : initial p with
  | error c =>
    refine ⟨(fun h => by cases h), 0, ?_⟩
    unfold trace
    rw [hinit]
  | ok started =>
    cases started with
    | error c =>
      refine ⟨(fun h => by cases h), 0, ?_⟩
      unfold trace
      rw [hinit]
    | ok s =>
      have hover : RunsTo cfg p (Over cfg p) s :=
        runsTo_over hp (sited_initial hinit) (stack_of_initial hinit)
      constructor
      · obtain ⟨t, ht, hrun⟩ := hover.run
        obtain ⟨r, hr, hending⟩ := run_of_over ht
        dsimp only
        rwa [hrun, hr, Option.getD_some]
      · have hstart : trace cfg p 0 = some (s, initialHistory s) := by
          unfold trace
          rw [hinit]
        exact exists_trace_eq_none hover hstart

/-- A function that calls itself in a guarded section, in its cleanup, and in the right operand of a
short circuit. -/
def callsItself : Func where
  name := mainName
  blocks := #[⟨⟨0⟩, #[.guarded ⟨0⟩ ⟨⟨1⟩, .none, .none, ⟨2⟩⟩, .leave .ret (.reg ⟨0⟩)]⟩,
    ⟨⟨1⟩, #[.circuit .or ⟨1⟩ (.bool false) (.reg ⟨2⟩) 2, .call ⟨2⟩ mainName [], .move ⟨1⟩ ⟨2⟩,
      .leave .yield (.reg ⟨1⟩)]⟩,
    ⟨⟨2⟩, #[.call ⟨3⟩ mainName [], .leave .yield (.reg ⟨3⟩)]⟩]
  numRegs := 4

theorem callsItself_ends : (({} : Program).add callsItself).SkipsForward ∧
    (main .shallow (({} : Program).add callsItself)).ending ≠ .unfinished ∧
      ∃ n, trace .shallow (({} : Program).add callsItself) n = none :=
  have hp : (({} : Program).add callsItself).SkipsForward := by decide
  ⟨hp, main_ends _ hp .shallow⟩

end Machine

end ScriptMachine
