import ScriptMachine.Proofs.Machine.Sites

/-!
# The limit on the depth

A greater limit changes nothing but that a run may overflow later or not at all, if no guarded section
has a cleanup.

1. Under two limits a state has the same next state, unless the smaller limit makes it overflow
   (`step_of_maxDepth_le`).
2. An overflow is handled nowhere. Where no cleanup can replace it, it is passed on from block to block
   and from call to call up to the end of the run (`overflowed_step`).

So a run that ends with anything else than an overflow has never overflowed, and the two runs go
through the same states.
-/

namespace ScriptMachine

/-- The block that a guarded section runs at its end. -/
def Instr.cleanup : Instr → BlockId
  | guarded _ g => g.cleanup
  | _ => .none

/-- No guarded section of a program has a cleanup. -/
def Program.CleanupFree (p : Program) : Prop :=
  ∀ f ∈ p.funcs, ∀ k ∈ f.blocks.toList, ∀ x ∈ k.code.toList, x.cleanup = .none

instance (p : Program) : Decidable p.CleanupFree :=
  inferInstanceAs (Decidable (∀ f ∈ p.funcs, ∀ k ∈ f.blocks.toList, ∀ x ∈ k.code.toList,
    x.cleanup = .none))

theorem Program.CleanupFree.of_facing {p : Program} (hp : p.CleanupFree) {s : State} {x : Instr}
    (h : s.Facing p x) : x.cleanup = .none := by
  obtain ⟨k, hk, hx⟩ := h.site.mem
  exact hp _ (Program.func?_eq_some h.defines).1 k hk x hx

/-- The running block has ended because the stack is too deep. -/
def State.Overflowed (s : State) : Prop :=
  ∃ f, s.ended = some (.fault f) ∧ f.kind = .stackOverflow

theorem Fault.locate_kind (l : Location) (f : Fault) : (f.locate l).kind = f.kind := by
  unfold kind
  rw [locate_cause]

theorem State.overflowed_fail (s : State) {f : Fault} (hf : f.kind = .stackOverflow) :
    (s.fail f).Overflowed :=
  ⟨_, rfl, (Fault.locate_kind _ f).trans hf⟩

theorem Fault.caught?_eq_none {f : Fault} (h : f.kind = .stackOverflow) : f.caught? = none := by
  obtain ⟨c, place⟩ := f
  cases c <;> first | rfl | cases h

namespace Machine

variable {cfg cfg' : RunConfig} {p : Program} {s t : State} {x : Instr}

/-! ## Two limits -/

section

variable (hle : cfg.maxDepth ≤ cfg'.maxDepth)

include hle

theorem enter_of_maxDepth_le (s : State) (b : BlockId) (after : After) :
    s.enter cfg' b after = s.enter cfg b after ∨ (s.enter cfg b after).Overflowed := by
  unfold State.enter
  dsimp only
  by_cases hdepth : s.depth < cfg.maxDepth
  · rw [if_pos hdepth, if_pos (by omega)]
    exact .inl rfl
  · rw [if_neg hdepth]
    exact .inr ⟨_, rfl, rfl⟩

theorem call_of_maxDepth_le (s : State) {c : Callee} (hc : c.Overflows) (dest : Reg) :
    s.call cfg' c dest = s.call cfg c dest ∨
      ∃ t, s.call cfg c dest = .ok t ∧ t.Overflowed := by
  unfold State.call
  by_cases hdepth : cfg.maxDepth ≤ s.depth
  · rw [if_pos hdepth]
    exact .inr ⟨_, rfl, s.overflowed_fail (hc _)⟩
  · by_cases hdepth' : cfg'.maxDepth ≤ s.depth
    · omega
    · rw [if_neg hdepth, if_neg hdepth']
      exact .inl rfl

theorem cleanUp_of_maxDepth_le (s : State) (dest : Reg) (g : Guard) (o : Outcome) :
    cleanUp cfg' s dest g o = cleanUp cfg s dest g o ∨ (cleanUp cfg s dest g o).Overflowed := by
  unfold cleanUp
  by_cases hnone : g.cleanup = .none
  · rw [if_pos hnone, if_pos hnone]
    exact .inl rfl
  · rw [if_neg hnone, if_neg hnone]
    exact enter_of_maxDepth_le hle s _ _

theorem handle_of_maxDepth_le (s : State) (dest : Reg) (g : Guard) (o : Outcome) :
    handle cfg' s dest g o = handle cfg s dest g o ∨ (handle cfg s dest g o).Overflowed := by
  have hclean := cleanUp_of_maxDepth_le hle s dest g
  unfold handle
  cases o with
  | value v exit => exact hclean _
  | fault f =>
    dsimp only
    by_cases hnone : g.handler = .none
    · rw [if_pos hnone, if_pos hnone]
      exact hclean _
    · rw [if_neg hnone, if_neg hnone]
      cases f.caught? with
      | none => exact hclean _
      | some v =>
        dsimp only
        cases s.frame.write g.caught v with
        | error e => exact hclean _
        | ok fr => exact enter_of_maxDepth_le hle { s with frame := fr } _ _

theorem resume_of_maxDepth_le (s : State) (after : After) (o : Outcome) :
    resume cfg' s after o = resume cfg s after o ∨ (resume cfg s after o).Overflowed := by
  cases after with
  | arm dest => exact .inl rfl
  | body dest g => exact handle_of_maxDepth_le hle s dest g o
  | handler dest g => exact cleanUp_of_maxDepth_le hle s dest g o
  | cleanup dest pending => exact .inl rfl

theorem execute_of_maxDepth_le (hrunner : cfg'.runner = cfg.runner) (s : State) (x : Instr) :
    execute cfg' p s x = execute cfg p s x ∨
      ∃ t, execute cfg p s x = .state t ∧ t.Overflowed := by
  have hwants : AllGive (perform cfg.runner p s.frame s.world x).2 (Wants p s.frame x) :=
    wants_perform cfg.runner s.world x
  unfold execute
  rw [hrunner]
  generalize perform cfg.runner p s.frame s.world x = result at hwants ⊢
  obtain ⟨w, e | action⟩ := result
  · exact .inl rfl
  · have hwants := hwants action rfl
    cases action with
    | next fr skip => exact .inl rfl
    | leave v exit => exact .inl rfl
    | enter b after =>
      rcases enter_of_maxDepth_le hle { s with world := w } b after with heq | hover
      · dsimp only
        rw [heq]
        exact .inl rfl
      · exact .inr ⟨_, rfl, hover⟩
    | call c dest =>
      dsimp only
      rcases call_of_maxDepth_le hle { s with world := w } hwants.2.2 dest with heq | ⟨t, ht, hover⟩
      · rw [heq]
        exact .inl rfl
      · rw [ht]
        exact .inr ⟨t, rfl, hover⟩

theorem unwind_of_maxDepth_le (s : State) (o : Outcome) :
    unwind cfg' s o = unwind cfg s o ∨ ∃ t, unwind cfg s o = .state t ∧ t.Overflowed := by
  unfold unwind
  rcases s.stack.pop? with _ | ⟨⟨fr, site, dest⟩ | ⟨site, after⟩, stack⟩
  · exact .inl rfl
  · exact .inl rfl
  · rcases resume_of_maxDepth_le hle { s with site, stack, ended := none } after o with heq | hover
    · dsimp only
      rw [heq]
      exact .inl rfl
    · exact .inr ⟨_, rfl, hover⟩

/-- A greater limit makes no difference to a step that does not overflow. -/
theorem step_of_maxDepth_le (hrunner : cfg'.runner = cfg.runner) (s : State) :
    step cfg' p s = step cfg p s ∨ ∃ t, step cfg p s = .state t ∧ t.Overflowed := by
  cases hended : s.ended with
  | some o =>
    rw [step_ended hended, step_ended hended]
    exact unwind_of_maxDepth_le hle s o
  | none =>
    rw [step_running hended, step_running hended]
    split
    · exact .inl rfl
    · cases s.site.instr? with
      | some x => exact execute_of_maxDepth_le hle hrunner s x
      | none => exact .inl rfl

end

/-! ## Overflows are passed on -/

theorem overflowed_cleanUp {dest : Reg} {g : Guard} (hg : g.cleanup = .none) {f : Fault}
    (hf : f.kind = .stackOverflow) : (cleanUp cfg s dest g (.fault f)).Overflowed := by
  unfold cleanUp
  rw [if_pos hg]
  exact s.overflowed_fail hf

theorem overflowed_resume (hp : p.CleanupFree) (h : s.Facing p x) {after : After}
    (hx : x.Opens after) {f : Fault} (hf : f.kind = .stackOverflow) :
    (resume cfg s after (.fault f)).Overflowed := by
  have hclean := hp.of_facing h
  cases after with
  | arm dest => exact s.overflowed_fail hf
  | body dest g =>
    obtain rfl : x = .guarded dest g := hx
    unfold resume handle
    dsimp only
    rw [Fault.caught?_eq_none hf]
    split
    · exact overflowed_cleanUp hclean hf
    · exact overflowed_cleanUp hclean hf
  | handler dest g =>
    obtain rfl : x = .guarded dest g := hx
    exact overflowed_cleanUp hclean hf
  | cleanup dest pending =>
    obtain ⟨g, rfl, hg⟩ := hx
    exact absurd hclean hg

/-- Without cleanups, whoever waits for a block that has overflowed overflows as well. -/
theorem overflowed_step (hp : p.CleanupFree) (h : s.Sited p) (hover : s.Overflowed)
    (ht : step cfg p s = .state t) : t.Overflowed := by
  obtain ⟨f, hended, hf⟩ := hover
  rw [step_ended hended] at ht
  unfold unwind at ht
  rcases hpop : s.stack.pop? with _ | ⟨⟨fr, site, dest⟩ | ⟨site, after⟩, stack⟩ <;> rw [hpop] at ht
  · cases ht
  · obtain rfl := Next.state.inj ht
    exact State.overflowed_fail _ hf
  · obtain ⟨x, hx, hfacing⟩ := h.within hpop
    obtain rfl := Next.state.inj ht
    exact overflowed_resume hp hfacing hx hf

/-! ## Runs -/

/-- A result is an overflow. -/
def Result.Overflow (r : Result) : Prop := ∃ f, r.ending = .fault f ∧ f.kind = .stackOverflow

theorem overflow_of_ends (hp : p.CleanupFree) {r : Result} (h : Ends cfg p s r) (hs : s.Sited p)
    (hover : s.Overflowed) : r.Overflow := by
  induction h with
  | @halt s w o h =>
    obtain ⟨f, hended, hf⟩ := hover
    obtain rfl : .fault f = o := Option.some.inj (hended.symm.trans (ended_of_halt h))
    exact ⟨f, rfl, hf⟩
  | crash h =>
    -- a block that has ended does not crash
    obtain ⟨f, hended, -⟩ := hover
    rw [(crash_cases h).1] at hended
    cases hended
  | step h _ ih => exact ih (sited_step hs h) (overflowed_step hp hs hover h)

/-- A run that ends without an overflow ends in the same way under a greater limit. -/
theorem Ends.of_maxDepth_le (hle : cfg.maxDepth ≤ cfg'.maxDepth)
    (hrunner : cfg'.runner = cfg.runner) (hp : p.CleanupFree) {r : Result} (h : Ends cfg p s r)
    (hs : s.Sited p) (hr : ¬ r.Overflow) : Ends cfg' p s r := by
  have hstep := fun s => step_of_maxDepth_le (p := p) hle hrunner s
  induction h with
  | @halt s w o h =>
    rcases hstep s with heq | ⟨t, ht, -⟩
    · exact .halt (heq.trans h)
    · rw [h] at ht
      cases ht
  | @crash s w c h =>
    rcases hstep s with heq | ⟨t, ht, -⟩
    · exact .crash (heq.trans h)
    · rw [h] at ht
      cases ht
  | @step s t r h hends ih =>
    rcases hstep s with heq | ⟨u, hu, hover⟩
    · exact .step (heq.trans h) (ih (sited_step hs h) hr)
    · obtain rfl : t = u := Next.state.inj (h.symm.trans hu)
      exact absurd (overflow_of_ends hp hends (sited_step hs h) hover) hr

/-- If no guarded section has a cleanup and a program ends under one limit with anything else than an
overflow, then under any greater limit it ends with the same value or fault, at the same place, and
issues the same commands. -/
theorem main_eq_of_maxDepth_le (p : Program) (hp : p.CleanupFree) (runner : Option Runner)
    {d d' : Nat} (hle : d ≤ d') (hends : (main ⟨d, runner⟩ p).ending ≠ .unfinished)
    (hr : ¬ (main ⟨d, runner⟩ p).Overflow) : main ⟨d', runner⟩ p = main ⟨d, runner⟩ p := by
  unfold main at *
  cases hinit : initial p with
  | error c => rfl
  | ok started =>
    cases started with
    | error c => rfl
    | ok s =>
      rw [hinit] at hends hr
      dsimp only at hends hr ⊢
      cases hrun : s.run ⟨d, runner⟩ p with
      | none =>
        rw [hrun] at hends
        exact absurd rfl hends
      | some r =>
        rw [hrun, Option.getD_some] at hr
        have h : Ends ⟨d', runner⟩ p s r :=
          (run_eq_some_iff.mp hrun).of_maxDepth_le hle (by rfl) hp (sited_initial hinit) hr
        rw [h.run]

/-- A guarded section whose body throws, and whose handler gives back what was thrown. -/
def handsBack : Func where
  name := mainName
  blocks := #[⟨⟨0⟩, #[.guarded ⟨0⟩ ⟨⟨1⟩, ⟨2⟩, ⟨1⟩, .none⟩, .leave .ret (.reg ⟨0⟩)]⟩,
    ⟨⟨1⟩, #[.leave .throw (.string "a")]⟩, ⟨⟨2⟩, #[.leave .yield (.reg ⟨1⟩)]⟩]
  numRegs := 2

theorem handsBack_main_eq : (({} : Program).add handsBack).CleanupFree ∧
    (main ⟨2, none⟩ (({} : Program).add handsBack)).ending = .value (.string "a") ∧
      main ⟨65536, none⟩ (({} : Program).add handsBack) =
        main ⟨2, none⟩ (({} : Program).add handsBack) := by
  have hp : (({} : Program).add handsBack).CleanupFree := by decide
  have hmain : main ⟨2, none⟩ (({} : Program).add handsBack) =
      .ofOutcome {} (.value (.string "a") .ret) := by
    refine main_of_ends rfl ?_
    exact .step rfl (.step rfl (.step rfl (.step rfl (.step rfl (.step rfl (.halt rfl))))))
  refine ⟨hp, by rw [hmain]; rfl, main_eq_of_maxDepth_le _ hp none (by decide) ?_ ?_⟩
  · rw [hmain]
    nofun
  · rw [hmain]
    rintro ⟨f, hf, -⟩
    cases hf

end Machine

end ScriptMachine
