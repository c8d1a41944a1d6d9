import ScriptMachine.Proofs.Machine.Frames
import ScriptMachine.Proofs.Machine.Raised

/-!
# Runs of code

`RunsTo cfg p Q s`: the machine comes from `s` to a state with `Q`. Each kind of step has a lemma for
a machine that stands in front of an instruction of a function's code (`State.inCode`): it goes on
behind it, fails, enters an arm or leaves its block.
-/

namespace ScriptMachine

/-- The machine in front of instruction `i` of block `b` of the function `g`. -/
def State.inCode (g : Func) (b : BlockId) (i : Nat) (fr : Frame) (k : Stack) (w : World) : State where
  frame := fr
  site := ⟨b, (g.code b).toArray, Int64.ofNat i⟩
  stack := k
  world := w

/-- The running block has ended with a fault of the given cause. -/
structure State.Faulted (k : Stack) (w : World) (c : Cause) (s : State) : Prop where
  ended : ∃ f, s.ended = some (.fault f) ∧ f.cause = c
  stack : s.stack = k
  world : s.world = w

namespace Machine

variable {cfg : RunConfig} {p : Program} {Q R : State → Prop} {s t : State}

/-- The machine comes from a state to one with `Q`. -/
inductive RunsTo (cfg : RunConfig) (p : Program) (Q : State → Prop) : State → Prop
  | here {s : State} (h : Q s) : RunsTo cfg p Q s
  | step {s t : State} (h : step cfg p s = .state t) (ht : RunsTo cfg p Q t) : RunsTo cfg p Q s

theorem RunsTo.trans (h : RunsTo cfg p Q s) (hQ : ∀ t, Q t → RunsTo cfg p R t) :
    RunsTo cfg p R s := by
  induction h with
  | here h => exact hQ _ h
  | step h _ ih => exact .step h ih

theorem RunsTo.mono (h : RunsTo cfg p Q s) (hQ : ∀ t, Q t → R t) : RunsTo cfg p R s :=
  h.trans fun t ht => .here (hQ t ht)

/-- What is left of the run decides its result. -/
theorem RunsTo.run (h : RunsTo cfg p Q s) : ∃ t, Q t ∧ s.run cfg p = t.run cfg p := by
  induction h with
  | here h => exact ⟨_, h, rfl⟩
  | step h _ ih =>
    obtain ⟨u, hu, hrun⟩ := ih
    refine ⟨u, hu, ?_⟩
    rw [State.run, h]
    exact hrun

/-! ## Instructions -/

variable {g : Func} {b : BlockId} {i : Nat} {x : Instr} {fr fr' : Frame} {k : Stack} {w w' : World}

section
variable (hx : (g.code b)[i]? = some x) (hi : i < codeLimit)
include hx hi

theorem step_inCode :
    step cfg p (.inCode g b i fr k w) = execute cfg p (.inCode g b i fr k w) x := by
  have hlimit := codeLimit_eq
  have hip : (Int64.ofNat i).toInt = i := Int64.toInt_ofNat_of_lt (by omega)
  simp only [step, State.inCode, hip, Int.toNat_natCast, List.getElem?_toArray, hx]
  rw [if_neg (by omega)]

/-- The instruction is done, and `d` further ones are skipped. -/
theorem step_next {d : Nat}
    (hp : perform cfg.runner p fr w x = (w', .ok (.next fr' (Int64.ofNat d)))) :
    step cfg p (.inCode g b i fr k w) = .state (.inCode g b (i + d + 1) fr' k w') := by
  rw [step_inCode hx hi, execute]
  simp only [State.inCode, hp, State.advance, Int64.ofNat_add]
  rfl

theorem step_error {e : Cause} (hp : perform cfg.runner p fr w x = (w', .error e)) :
    step cfg p (.inCode g b i fr k w) = .state ((State.inCode g b i fr k w').fail { cause := e }) := by
  rw [step_inCode hx hi, execute]
  simp only [State.inCode, hp]

theorem step_fail {c : Cause} (hp : perform cfg.runner p fr w x = (w', .error c)) :
    ∃ t, step cfg p (.inCode g b i fr k w) = .state t ∧ t.Faulted k w' c :=
  ⟨_, step_error hx hi hp, ⟨_, rfl, Fault.locate_cause _ _⟩, rfl, rfl⟩

theorem step_call {f : Callee} {dest : Reg}
    (hp : perform cfg.runner p fr w x = (w', .ok (.call f dest)))
    (ht : (State.inCode g b i fr k w').call cfg f dest = .ok t) :
    step cfg p (.inCode g b i fr k w) = .state t := by
  rw [step_inCode hx hi, execute]
  unfold State.inCode at ht ⊢
  simp only [hp, ht]

theorem step_enters {c : BlockId} {after : After}
    (hp : perform cfg.runner p fr w x = (w', .ok (.enter c after))) :
    step cfg p (.inCode g b i fr k w) = .state ((State.inCode g b i fr k w').enter cfg c after) := by
  rw [step_inCode hx hi, execute]
  simp only [State.inCode, hp]

theorem step_leave {v : Value} {exit : Exit}
    (hp : perform cfg.runner p fr w x = (w', .ok (.leave v exit))) :
    step cfg p (.inCode g b i fr k w) =
      .state ((State.inCode g b i fr k w').finish (.value v exit)) := by
  rw [step_inCode hx hi, execute]
  simp only [State.inCode, hp]

end

/-! ## Blocks -/

/-- What waits for an arm that was entered by instruction `i`. -/
def armOf (g : Func) (b : BlockId) (i : Nat) (dest : Reg) (k : Stack) : Stack :=
  k.push (.within ⟨b, (g.code b).toArray, Int64.ofNat i⟩ (.arm dest))

theorem step_enter {c : BlockId} {dest : Reg} (hx : (g.code b)[i]? = some x) (hi : i < codeLimit)
    (hp : perform cfg.runner p fr w x = (w', .ok (.enter c (.arm dest))))
    (hdepth : k.height + 1 < cfg.maxDepth) (hfr : fr.func = g) (hc : g.Has c) :
    step cfg p (.inCode g b i fr k w) = .state (.inCode g c 0 fr (armOf g b i dest k) w') := by
  obtain ⟨blk, hblk⟩ := Func.block?_eq_some_of_has hc
  rw [step_inCode hx hi, execute]
  simp only [State.inCode, hp, State.enter, State.depth, hdepth, if_true, State.start, hfr, hblk,
    Func.code_of_block? hblk, Array.toArray_toList]
  rfl

/-- An arm hands its value to the instruction that entered it. -/
theorem step_yield {c : BlockId} {j : Nat} {dest : Reg} {v : Value} (hw : fr.write dest v = .ok fr') :
    step cfg p ((State.inCode g c j fr (armOf g b i dest k) w).finish (.value v .yield)) =
      .state (.inCode g b (i + 1) fr' k w) := by
  simp only [step, State.finish, State.inCode, unwind, armOf, Stack.pop?_push, resume, conclude,
    State.store, hw, State.advance, Int64.ofNat_add, Int64.add_zero]
  rfl

/-- A fault in an arm is one of the instruction that entered it. -/
theorem step_faulted {c : Cause} {dest : Reg} (h : s.Faulted (armOf g b i dest k) w c) :
    ∃ t, step cfg p s = .state t ∧ t.Faulted k w c := by
  obtain ⟨⟨f, hf, rfl⟩, hk, hw⟩ := h
  simp only [step, hf, unwind, hk, armOf, Stack.pop?_push, resume, conclude]
  exact ⟨_, rfl, ⟨_, rfl, Fault.locate_cause _ _⟩, rfl, hw⟩

/-! ## Ends of runs -/

theorem run_faulted {c : Cause} (h : s.Faulted {} w c) :
    ∃ f, s.run cfg p = some ⟨w.calls, .fault f⟩ ∧ f.cause = c := by
  obtain ⟨⟨f, hf, rfl⟩, hk, rfl⟩ := h
  refine ⟨f, ?_, rfl⟩
  rw [State.run]
  simp only [step, hf, unwind, hk]
  rfl

theorem run_finish {v : Value} {exit : Exit} (hk : s.stack = {}) :
    (s.finish (.value v exit)).run cfg p = some ⟨s.world.calls, .value v⟩ := by
  rw [State.run]
  simp only [step, State.finish, unwind, hk]
  rfl

end Machine

end ScriptMachine
