import ScriptMachine.Proofs.Guarded.Standing
import ScriptMachine.Proofs.Renaming.Captures

/-!
# Steps between the sections of a guarded section

What the machine does from the end of one section to the start of the next.

1. It runs the cleanup of a guarded section exactly while the entry of the cleanup lies right above the
   stack on which the section was entered (`CleansUp`), and before and behind it the machine is aside
   (`Aside`). A passage (`Passage`) stays aside and issues no command.
2. Lowered programs never fail to write a register, and what they throw is set (`Regular`). A block that
   is entered with depth to spare starts (`enter_inCode`), a value is stored (`Regular.store`), and any
   other outcome is handed on as it is (`conclude_of_not_yield`).
-/

namespace ScriptMachine

/-! ## What is caught -/

/-- The value that clauses receive for a fault: what was thrown, or else the text of the fault. Too much
depth is not caught. -/
inductive Fault.Caught (f : Fault) : Value → Prop
  | thrown {v : Value} (h : f.cause = .thrown v) : f.Caught v
  | raised (hthrown : f.cause.kind ≠ .thrown) (hdeep : f.cause.kind ≠ .stackOverflow) :
      f.Caught (.string f.text)

theorem Fault.caught?_eq_some_iff {f : Fault} {v : Value} : f.caught? = some v ↔ f.Caught v := by
  unfold caught?
  constructor
  · intro h
    cases hc : f.cause with
    | thrown x =>
      rw [hc] at h
      exact .thrown (hc.trans (congrArg _ (Option.some.inj h)))
    | tooDeepCall | tooDeepClosure | tooDeepBlock =>
      rw [hc] at h
      cases h
    | _ =>
      rw [hc] at h
      obtain rfl := Option.some.inj h
      exact .raised (by rw [hc]; exact fun h => by cases h) (by rw [hc]; exact fun h => by cases h)
  · intro h
    cases h with
    | thrown h => rw [h]
    | raised hthrown hdeep =>
      cases hc : f.cause with
      | thrown x => exact absurd (by rw [hc]; rfl) hthrown
      | tooDeepCall | tooDeepClosure | tooDeepBlock => exact absurd (by rw [hc]; rfl) hdeep
      | _ => rfl

theorem Func.Has.ne_none {f : Func} {b : BlockId} (h : f.Has b) : b ≠ .none := by
  rintro rfl
  exact absurd h.1 (by decide)

/-- A state in which no block has ended, as one in front of an instruction. -/
theorem State.Sited.eq_inCode {p : Program} {s : State} (h : s.Sited p) (hended : s.ended = none) {i : Nat}
    (hip : s.site.ip = Int64.ofNat i) :
    s = .inCode s.frame.func s.site.block i s.frame s.stack s.world := by
  obtain ⟨blk, hblk, hcode⟩ := h.site hended
  obtain ⟨fr, ⟨b, code, ip⟩, ended, k, w⟩ := s
  dsimp only at *
  rw [hended, hip, ← hcode, State.inCode, Func.code_of_block? hblk, Array.toArray_toList]

namespace Machine

variable {cfg : RunConfig} {p : Program} {s t u : State} {k : Stack} {dest : Reg} {v : Value}

/-! ## Cleanups on the stack -/

/-- The machine runs a cleanup that was entered right above `k`. -/
def CleansUp (k : Stack) (s : State) : Prop :=
  ∃ site dest o, Above (k.push (.within site (.cleanup dest o))) s

/-- The machine runs above `k`, and no cleanup that was entered right above `k`. -/
def Aside (k : Stack) (s : State) : Prop := Above k s ∧ ¬ CleansUp k s

theorem aside_of_eq (h : s.stack = k) : Aside k s := by
  refine ⟨above_of_eq h, ?_⟩
  rintro ⟨site, dest, o, habove⟩
  have hlen := habove.length_le
  rw [h, Stack.entries_push, List.length_cons] at hlen
  omega

/-- The entry right above a stack says whether a cleanup runs. -/
theorem aside_of_above {site : Site} {after : After} (hafter : ∀ dest o, after ≠ .cleanup dest o)
    (h : Above (k.push (.within site after)) s) : Aside k s := by
  refine ⟨h.of_push, ?_⟩
  rintro ⟨site', dest, o, h'⟩
  have heq := (List.suffix_of_suffix_length_le h h' (by simp)).eq_of_length (by simp)
  simp only [Stack.entries_push, List.cons.injEq, Waiting.within.injEq, and_true] at heq
  exact hafter dest o heq.2

theorem cleansUp_of_above {site : Site} {o : Outcome}
    (h : Above (k.push (.within site (.cleanup dest o))) s) : CleansUp k s := ⟨site, dest, o, h⟩

/-- The machine goes aside of the cleanup from one state to another, and issues no command. -/
def Passage (cfg : RunConfig) (p : Program) (k : Stack) (s t : State) : Prop :=
  ∃ u, Through cfg p (fun x => Aside k x ∧ x.world = s.world) s u ∧ step cfg p u = .state t ∧
    t.world = s.world

theorem Passage.reachable (h : Passage cfg p k s t) (hs : Reachable cfg p s) : Reachable cfg p t := by
  obtain ⟨u, hthrough, hstep, -⟩ := h
  exact .step (hthrough.reachable hs) hstep

/-! ## Steps of regular programs -/

/-- What the runs of a lowered program are known for. -/
structure Regular (cfg : RunConfig) (p : Program) : Prop where
  followed : p.Followed
  free : AccessFree cfg p
  thrown : ∀ v, Raises cfg p (.thrown v) → v.isSet = true

theorem Regular.calls (R : Regular cfg p) (k : Stack) : CallsEnd cfg p k := callsEnd R.followed k

theorem Regular.isSet_of_caught (R : Regular cfg p) (hs : Reachable cfg p s) {f : Fault}
    (hf : s.ended = some (.fault f)) (hv : f.Caught v) : v.isSet = true := by
  cases hv with
  | thrown h => exact R.thrown v (.inr ⟨s, hs, f, .inl hf, h⟩)
  | raised => rfl

variable {g : Func} {b c : BlockId} {i : Nat} {fr fr' : Frame} {w : World}

theorem store_inCode (hw : fr.write dest v = .ok fr') :
    (State.inCode g b i fr k w).store dest v = .inCode g b (i + 1) fr' k w := by
  have hw' : (State.inCode g b i fr k w).frame.write dest v = .ok fr' := hw
  unfold State.store
  rw [hw']
  simp only [State.advance, State.inCode, Int64.ofNat_add, Int64.add_zero]
  rfl

/-- A value is stored where lowering has it stored. -/
theorem Regular.store (R : Regular cfg p) (hs : Reachable cfg p s)
    (hstep : step cfg p s = .state ((State.inCode g b i fr k w).store dest v)) :
    ∃ fr', fr.write dest v = .ok fr' ∧ step cfg p s = .state (.inCode g b (i + 1) fr' k w) := by
  cases hw : fr.write dest v with
  | error e =>
    have hw' : (State.inCode g b i fr k w).frame.write dest v = .error e := hw
    unfold State.store at hstep
    rw [hw'] at hstep
    obtain ⟨-, rfl⟩ := Frame.write_eq_error_iff.mp hw
    cases R.free.not_fail hs hstep
  | ok fr' => exact ⟨fr', rfl, by rw [hstep, store_inCode hw]⟩

/-- An outcome other than a value for the instruction ends its block too. -/
theorem conclude_of_not_yield {o : Outcome} (hg : fr.func = g) (hfixed : o.Fixed g.name)
    (hy : o.isYield = false) (dest : Reg) :
    conclude (.inCode g b i fr k w) dest o = (State.inCode g b i fr k w).finish o := by
  match o with
  | .value v .ret => rfl
  | .value v .yield => cases hy
  | .fault f =>
    have hplace := hfixed f rfl ((State.inCode g b i fr k w).location (Int64.ofNat i).toInt) (hg ▸ rfl)
    show State.fail _ f = _
    rw [State.fail]
    exact congrArg (fun f => State.finish _ (.fault f)) hplace

/-- A block that is entered with depth to spare starts. -/
theorem enter_inCode (hg : fr.func = g) (hc : g.Has c) (hdepth : k.height + 1 < cfg.maxDepth)
    (after : After) : (State.inCode g b i fr k w).enter cfg c after =
      .inCode g c 0 fr (k.push (.within ⟨b, (g.code b).toArray, Int64.ofNat i⟩ after)) w := by
  obtain ⟨blk, hblk⟩ := Func.block?_eq_some_of_has hc
  have hcode : blk.code = (g.code c).toArray := by rw [Func.code_of_block? hblk, Array.toArray_toList]
  have hblk' : (State.inCode g b i fr k w).frame.func.block? c = some blk := hg ▸ hblk
  have hdepth' : (State.inCode g b i fr k w).depth < cfg.maxDepth := hdepth
  unfold State.enter
  rw [if_pos hdepth', State.start]
  simp only [hblk', hcode]
  rfl

/-- A dispatch enters the arm that is chosen. -/
theorem step_dispatch {v y : Value} {arms : List Arm} {default : BlockId}
    (hx : (g.code b)[i]? = some (.dispatch dest v arms default)) (hi : i < codeLimit)
    (hread : fr.read v = .ok y) (harm : chooseArm fr y default arms = .ok c) (hg : fr.func = g)
    (hc : g.Has c) (hdepth : k.height + 1 < cfg.maxDepth) :
    step cfg p (.inCode g b i fr k w) = .state (.inCode g c 0 fr (armOf g b i dest k) w) := by
  refine step_enter hx hi ?_ hdepth hg hc
  simp only [perform, hread, bind, Except.bind, harm, if_neg hc.ne_none]
  rfl

theorem step_throw {v y : Value} (hx : (g.code b)[i]? = some (.leave .throw v)) (hi : i < codeLimit)
    (hread : fr.read v = .ok y) : step cfg p (.inCode g b i fr k w) =
      .state ((State.inCode g b i fr k w).fail { cause := .thrown y }) := by
  refine step_error hx hi ?_
  simp only [perform, leave, hread]
  rfl

/-- What no handler takes goes on to the cleanup. -/
theorem handle_of_not_caught {gd : Guard} {o : Outcome}
    (h : ∀ f v, o = .fault f → f.Caught v → gd.handler = .none) :
    handle cfg s dest gd o = cleanUp cfg s dest gd o := by
  cases o with
  | value v exit => rfl
  | fault f =>
    unfold handle
    dsimp only
    by_cases hnone : gd.handler = .none
    · rw [if_pos hnone]
    · rw [if_neg hnone]
      cases hv : f.caught? with
      | none => rfl
      | some v => exact absurd (h f v rfl (Fault.caught?_eq_some_iff.mp hv)) hnone

/-- A handler starts with what was caught. -/
theorem Regular.handle (R : Regular cfg p) (hs : Reachable cfg p s) {gd : Guard} {f : Fault}
    (hstep : step cfg p s = .state (Machine.handle cfg (.inCode g b i fr k w) dest gd (.fault f)))
    (hg : fr.func = g) (hhas : g.Has gd.handler) (hdepth : k.height + 1 < cfg.maxDepth)
    (hv : f.Caught v) :
    ∃ fr', fr.write gd.caught v = .ok fr' ∧ step cfg p s = .state (.inCode g gd.handler 0 fr'
      (k.push (.within ⟨b, (g.code b).toArray, Int64.ofNat i⟩ (.handler dest gd))) w) := by
  have hne : gd.handler ≠ .none := hhas.ne_none
  unfold Machine.handle at hstep
  dsimp only at hstep
  rw [if_neg hne, Fault.caught?_eq_some_iff.mpr hv] at hstep
  cases hw : fr.write gd.caught v with
  | error e =>
    have hw' : (State.inCode g b i fr k w).frame.write gd.caught v = .error e := hw
    simp only [hw'] at hstep
    obtain ⟨-, rfl⟩ := Frame.write_eq_error_iff.mp hw
    exact absurd (spoilt_cleanUp _ dest gd rfl) (R.free.not_spoilt (.step hs hstep))
  | ok fr' =>
    have hw' : (State.inCode g b i fr k w).frame.write gd.caught v = .ok fr' := hw
    simp only [hw'] at hstep
    exact ⟨fr', rfl, hstep.trans (congrArg _ (enter_inCode ((Frame.func_write hw).trans hg) hhas hdepth _))⟩

end Machine

namespace Lowering

open Machine

variable {t : Node} {cfg : RunConfig}

theorem regular_of_placed (ht : t.exitsPlaced .statement = true) (hfit : Fit (program t).1)
    (hcfg : cfg.ClosureFree) : Regular cfg (program t).1 where
  followed := by
    have hmem : ∀ f, (program t).1.Defines f → f ∈ (program t).1.funcs := fun f hf =>
      (Program.func?_eq_some hf).1
    refine ⟨fun f hf => (hfit f (hmem f hf)).code, fun f hf c hc => ?_, startable_of_fit ht hfit⟩
    obtain ⟨d, -, hmakes⟩ := (program_sourced t).funcs f (hmem f hf)
    exact (hmakes.planned hc).confined
  free := accessFree_of_placed ht hfit hcfg
  thrown v hv := by
    have hcert := shapeCertificate fun f hf => ⟨shape_of_placed ht f hf, hfit f hf⟩
    have hholds := hcert.permits_of_raises hcfg hv
    cases hholds with
    | plain _ hset => exact hset trivial
    | closure => rfl

end Lowering

end ScriptMachine
