import ScriptMachine.Machine.Run
import ScriptMachine.Proofs.Results

/-!
# What a run raises

A run goes from its initial state from step to step. A fault that an instruction raises is found in
the state behind the step: it is how the running block has ended or, if a handler's register could
not be written and a cleanup comes first, what the cleanup has to pass on. So the faults in the
states of a run are all that it raises, caught or not.
-/

namespace ScriptMachine

theorem Fault.locate_cause (l : Location) (f : Fault) : (f.locate l).cause = f.cause := by
  unfold Fault.locate
  split
  · rfl
  · split <;> rfl

/-- The runner never answers with a closure, not even with one that has nothing behind it. -/
def Runner.ClosureFree (run : Runner) : Prop :=
  ∀ past name args v, run.answer past name args = .ok v → v.kind ≠ .closure

/-- No command of a configuration answers with a closure. -/
def RunConfig.ClosureFree (cfg : RunConfig) : Prop := ∀ run ∈ cfg.runner, run.ClosureFree

/-- A small depth, and commands that answer with their own name. -/
def RunConfig.shallow : RunConfig := ⟨8, some ⟨fun _ name _ => .ok (.string name)⟩⟩

theorem RunConfig.shallow_closureFree : shallow.ClosureFree := by
  simp [ClosureFree, Runner.ClosureFree, shallow, Value.kind]

/-- A fault that a state holds. -/
def State.Holds (s : State) (f : Fault) : Prop :=
  s.ended = some (.fault f) ∨
    ∃ site dest, .within site (.cleanup dest (.fault f)) ∈ s.stack.entries

namespace Machine

/-- The states of a run of a program. -/
inductive Reachable (cfg : RunConfig) (p : Program) : State → Prop
  | initial {s} (h : initial p = .ok (.ok s)) : Reachable cfg p s
  | step {s t} (hs : Reachable cfg p s) (h : step cfg p s = .state t) : Reachable cfg p t

/-- A fault that a run of a program raises somewhere, be it in its first call. -/
def Raises (cfg : RunConfig) (p : Program) (c : Cause) : Prop :=
  initial p = .ok (.error c) ∨ ∃ s, Reachable cfg p s ∧ ∃ f, s.Holds f ∧ f.cause = c

/-- No run raises a fault of a class, not even one that is caught. -/
def NeverRaises (cfg : RunConfig) (p : Program) (k : FaultKind) : Prop :=
  ∀ c, Raises cfg p c → c.kind ≠ k

variable {cfg : RunConfig} {p : Program} {s : State}

/-- A run halts with the outcome of its last block. -/
theorem ended_of_halt {w : World} {o : Outcome} (h : step cfg p s = .halt w o) : s.ended = some o := by
  unfold step at h
  split at h
  · rename_i o' ho
    unfold unwind at h
    split at h
    · rw [ho, (Next.halt.inj h).2]
    · split at h <;> cases h
    · cases h
  · dsimp only at h
    split at h
    · cases h
    · split at h
      · unfold execute at h
        split at h
        · cases h
        · dsimp only at h
          split at h
          · cases h
          · cases h
          · cases h
          · split at h <;> cases h
      · cases h

/-- A result is made by the last step of its run. -/
theorem exists_last_of_run (hs : Reachable cfg p s) {r : Result}
    (h : s.run cfg p = some r) : ∃ t, Reachable cfg p t ∧
      ((∃ w o, step cfg p t = .halt w o ∧ r = .ofOutcome w o) ∨
        ∃ w c, step cfg p t = .crash w c ∧ r = ⟨w.calls, .crash c⟩) := by
  have hall := State.run.partial_correctness cfg p
    (fun s r => Reachable cfg p s → ∃ t, Reachable cfg p t ∧
      ((∃ w o, step cfg p t = .halt w o ∧ r = .ofOutcome w o) ∨
        ∃ w c, step cfg p t = .crash w c ∧ r = ⟨w.calls, .crash c⟩)) ?_ s r h
  · exact hall hs
  intro go ih s r hgo hs
  split at hgo
  · rename_i t hstep
    exact ih t r hgo (.step hs hstep)
  · rename_i w o hstep
    exact ⟨s, hs, .inl ⟨w, o, hstep, (Option.some.inj hgo).symm⟩⟩
  · rename_i w c hstep
    exact ⟨s, hs, .inr ⟨w, c, hstep, (Option.some.inj hgo).symm⟩⟩

/-- The fault of a result is one that its run raised. -/
theorem raises_of_run (hs : Reachable cfg p s) {r : Result} (h : s.run cfg p = some r)
    {f : Fault} (hf : r.ending = .fault f) : Raises cfg p f.cause := by
  obtain ⟨t, ht, ⟨w, o, hstep, rfl⟩ | ⟨w, c, -, rfl⟩⟩ := exists_last_of_run hs h
  · cases o with
    | value v e => cases hf
    | fault f' =>
      obtain rfl : f' = f := by simpa [Result.ofOutcome] using hf
      exact .inr ⟨t, ht, f', .inl (ended_of_halt hstep), rfl⟩
  · cases hf

/-- A program ends only with faults that it raises. -/
theorem raises_of_main {f : Fault} (h : (main cfg p).ending = .fault f) : Raises cfg p f.cause := by
  unfold main at h
  split at h
  · cases h
  · rename_i c hinit
    obtain rfl : { cause := c } = f := by simpa using h
    exact .inl hinit
  · rename_i s hinit
    cases hrun : s.run cfg p with
    | none => simp [hrun] at h
    | some r =>
      rw [hrun] at h
      exact raises_of_run (.initial hinit) hrun h

/-- A step crashes at a negative index, or at a call of a function whose registers cannot be had. -/
theorem crash_cases {w : World} {c : Crash} (h : step cfg p s = .crash w c) :
    s.ended = none ∧ (s.site.ip.toInt < 0 ∧ c = .indexOutside s.site.ip.toInt ∨
      0 ≤ s.site.ip.toInt ∧ ∃ x callee dest, s.site.code[s.site.ip.toInt.toNat]? = some x ∧
        (perform cfg.runner p s.frame s.world x).2 = .ok (.call callee dest) ∧
        Frame.new callee.func = .error c) := by
  unfold step at h
  split at h
  · unfold unwind at h
    split at h
    · cases h
    · split at h <;> cases h
    · cases h
  · rename_i hrunning
    refine ⟨hrunning, ?_⟩
    dsimp only at h
    split at h
    · rename_i hneg
      exact .inl ⟨hneg, (Next.crash.inj h).2.symm⟩
    · rename_i hip
      split at h
      · rename_i x hx
        refine .inr ⟨by omega, x, ?_⟩
        unfold execute at h
        split at h
        · cases h
        · rename_i w' action hperform
          cases action with
          | call callee dest =>
            refine ⟨callee, dest, hx, by rw [hperform], ?_⟩
            dsimp only at h
            split at h
            · cases h
            · rename_i c' hcall
              obtain rfl := (Next.crash.inj h).2
              unfold State.call at hcall
              split at hcall
              · cases hcall
              · rcases bind_eq_error_iff.mp hcall with hnew | ⟨fr, -, hbind⟩
                · exact hnew
                · split at hbind <;> cases hbind
          | next | leave | enter => cases h
      · cases h

/-- A program crashes in its first call or in a step. -/
theorem crashes_of_main {c : Crash} (h : (main cfg p).ending = .crash c) :
    initial p = .error c ∨ ∃ s w, Reachable cfg p s ∧ step cfg p s = .crash w c := by
  unfold main at h
  split at h
  · rename_i c' hinit
    obtain rfl : c' = c := by simpa using h
    exact .inl hinit
  · cases h
  · rename_i s hinit
    cases hrun : s.run cfg p with
    | none => simp [hrun] at h
    | some r =>
      rw [hrun, Option.getD_some] at h
      obtain ⟨t, ht, ⟨w, o, -, rfl⟩ | ⟨w, c', hstep, rfl⟩⟩ := exists_last_of_run (.initial hinit) hrun
      · cases o <;> cases h
      · obtain rfl : c' = c := by simpa using h
        exact .inr ⟨t, w, ht, hstep⟩

end Machine

end ScriptMachine
