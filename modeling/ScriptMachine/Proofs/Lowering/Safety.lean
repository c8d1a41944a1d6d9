import ScriptMachine.Proofs.Lowering.Accepted
import ScriptMachine.Proofs.Machine.Preserved

/-!
# Lowered programs are safe

The shape of lowered code certifies that its runs are safe: where an instruction reads a register,
the register is set, however control came there, and registers and blocks that it names exist. A
body that fails in the middle has set some of its registers only; so what a handler or a cleanup may
rely on is what was set before the guarded section.
-/

namespace ScriptMachine

open Instr (Entry BlockRef)

variable {g : Func} {k : Context} {b : BlockId} {i : Nat} {D X : Set Reg}

theorem Ready.reads {σ : Safety} {v : Value} (h : Ready D v) : σ.Reads D v := by
  cases v with
  | reg r => exact fun _ => h
  | unset | closure => exact h.elim
  | _ => trivial

theorem ToEnd.has (h : ToEnd g k b i D X) : g.Has b := by
  obtain ⟨x, hx, -⟩ := h.step
  exact Func.has_of_code_ne_nil (List.ne_nil_of_mem (List.mem_of_getElem? hx))

theorem ToEnd.forget {Y : Set Reg} (h : ToEnd g k b i D X) (hY : Y ⊆ X) : ToEnd g k b i D Y :=
  let ⟨n, m, h⟩ := h
  ⟨n, m, h.forget hY⟩

/-! ## Points of lowered code -/

/-- A point from which a block comes to its end. -/
def Lowered (g : Func) (b : BlockId) (ip : Int64) (D X : Set Reg) : Prop :=
  ∃ k i, ip = Int64.ofNat i ∧ ToEnd g k b i D X

theorem ToEnd.lowered_zero (h : ToEnd g k b 0 D X) : Lowered g b 0 D X := ⟨k, 0, rfl, h⟩

theorem ToEnd.lowered_next (h : ToEnd g k b (i + 1) D X) : Lowered g b (Int64.ofNat i + 1) D X :=
  ⟨k, i + 1, (Int64.ofNat_add i 1).symm, h⟩

namespace ToEnd.Step

/-! ## Instructions that enter blocks -/

variable {subs : List Sub} {x : Instr}

/-- A block that an instruction refers to comes to its end. -/
theorem exists_sub (hrefs : x.refs.Perm (subs.map (·.ref)))
    (hsub : ∀ s ∈ subs, ToEnd g (k.enter s.ref.entry) s.ref.block 0 (x.given D s.ref.block) s.regs)
    {r : BlockRef} (hr : r ∈ x.refs) :
    ∃ s ∈ subs, s.ref = r ∧ ToEnd g (k.enter r.entry) r.block 0 (x.given D r.block) s.regs := by
  obtain ⟨s, hs, rfl⟩ := List.mem_map.mp (hrefs.mem_iff.mp hr)
  exact ⟨s, hs, rfl, hsub s hs⟩

/-- A nested block of an instruction, whose value alone is used. -/
theorem lowered_ref (hrefs : x.refs.Perm (subs.map (·.ref)))
    (hsub : ∀ s ∈ subs, ToEnd g (k.enter s.ref.entry) s.ref.block 0 (x.given D s.ref.block) s.regs)
    {r : BlockRef} (hr : r ∈ x.refs) : Lowered g r.block 0 (x.given D r.block) ∅ := by
  obtain ⟨s, -, -, h⟩ := exists_sub hrefs hsub hr
  exact (h.forget (Set.empty_subset _)).lowered_zero

/-- Where no block runs always, nothing more is set behind an instruction. -/
theorem gain_eq_empty {E : Set Reg} (hE : ∀ r ∈ E, ∃ s ∈ subs, x.Always s.ref.block ∧ r ∈ s.regs)
    (hnever : ∀ s ∈ subs, ¬ x.Always s.ref.block) : E = ∅ := by
  refine Set.eq_empty_of_forall_notMem fun r hr => ?_
  obtain ⟨s, hs, halways, -⟩ := hE r hr
  exact hnever s hs halways

/-- The cleanup of a guarded section sets what is gained behind it. -/
theorem cleansUp {dest : Reg} {guard : Guard} {E : Set Reg}
    (hrefs : (Instr.guarded dest guard).refs.Perm (subs.map (·.ref)))
    (hnd : (subs.map (·.ref.block)).Nodup) (hhas : ∀ s ∈ subs, g.Has s.ref.block)
    (hsub : ∀ s ∈ subs, ToEnd g (k.enter s.ref.entry) s.ref.block 0
      ((Instr.guarded dest guard).given D s.ref.block) s.regs)
    (hE : ∀ r ∈ E, ∃ s ∈ subs, (Instr.guarded dest guard).Always s.ref.block ∧ r ∈ s.regs)
    (hclean : guard.cleanup ≠ .none → guard.cleanup ≠ guard.handler)
    (hnext : Lowered g b (Int64.ofNat i + 1) (insert dest (D ∪ E)) X) :
    guard.CleansUp (Lowered g) D fun Y => Lowered g b (Int64.ofNat i + 1) (insert dest Y) X := by
  unfold Guard.CleansUp
  split
  · rename_i hnone
    have hnever : ∀ s ∈ subs, ¬ (Instr.guarded dest guard).Always s.ref.block := by
      intro s hs halways
      have := (hhas s hs).1
      rw [show s.ref.block = guard.cleanup from halways, hnone] at this
      exact absurd this (by decide)
    rwa [gain_eq_empty hE hnever, Set.union_empty] at hnext
  · rename_i hsome
    have hmem : ⟨guard.cleanup, .nested⟩ ∈ (Instr.guarded dest guard).refs := by
      simp [Instr.refs, Instr.optional, hsome]
    obtain ⟨s, hs, href, hto⟩ := exists_sub hrefs hsub hmem
    simp only [Instr.given, if_neg (hclean hsome)] at hto
    refine ⟨E, (hto.forget fun r hr => ?_).lowered_zero, hnext⟩
    obtain ⟨s', hs', halways, hr'⟩ := hE r hr
    have hblock : s'.ref.block = s.ref.block := by
      rw [show s'.ref.block = guard.cleanup from halways, href]
    rwa [← List.inj_on_of_nodup_map hnd hs' hs hblock]

/-- The three blocks of a guarded section are different. -/
theorem guard_blocks_ne {dest : Reg} {guard : Guard}
    (hrefs : (Instr.guarded dest guard).refs.Perm (subs.map (·.ref)))
    (hnd : (subs.map (·.ref.block)).Nodup) (hne : guard.handler ≠ .none) :
    guard.body ≠ guard.handler ∧ guard.cleanup ≠ guard.handler := by
  have hblocks : ((Instr.guarded dest guard).refs.map (·.block)).Nodup := by
    rw [(hrefs.map (·.block)).nodup_iff, List.map_map]
    exact hnd
  simp only [Instr.refs, Instr.optional, if_neg hne, List.map_cons, List.cons_append,
    List.nil_append, List.nodup_cons, List.mem_cons, not_or] at hblocks
  obtain ⟨⟨hbody, -⟩, hhandler, -⟩ := hblocks
  refine ⟨hbody, fun heq => hhandler ?_⟩
  rw [heq, if_neg hne]
  simp

/-- Lowered code is safe for reads and writes. -/
abbrev full : Safety := ⟨True, True, False⟩

/-- An instruction of lowered code leads on to points of lowered code. -/
theorem leadsOn (h : ToEnd.Step g k b i D X x) :
    x.LeadsOn full (Lowered g) g b (Int64.ofNat i) D X := by
  cases h with
  | plain hp hin hout next =>
    cases x <;> first | exact hp.elim | exact next.lowered_next
  | leave hk hv hlast hX => exact fun _ _ => hX
  | @circuit kind dest left right j hl hout hj next around =>
    refine ⟨next.lowered_next, k, j, ?_, around⟩
    exact ofNat_skip hj
  | enter subs he hin hout hs hrefs hnd hhas hsub hE next =>
    have hnext := next.lowered_next
    have href : ∀ r ∈ x.refs, Lowered g r.block 0 (x.given D r.block) ∅ := fun r hr =>
      lowered_ref hrefs hsub hr
    cases x with
    | closureCreate dest block captures params names =>
      rw [gain_eq_empty hE fun _ _ h => h, Set.union_empty] at hnext
      refine ⟨href ⟨block, .closure⟩ (by simp [Instr.refs]), fun _ r hr => ?_, hnext⟩
      rcases hr with hr | hr
      · obtain ⟨c, hc, rfl⟩ := List.mem_map.mp hr
        exact hs.2.2 c hc
      · exact hs.2.1 r hr
    | dispatch dest v arms default =>
      rw [gain_eq_empty hE fun _ _ h => h, Set.union_empty] at hnext
      refine ⟨fun c hc hne => href ⟨c, .nested⟩ ?_, hnext⟩
      simp only [Instr.refs, Instr.optional, List.mem_append, List.mem_map]
      rcases List.mem_cons.mp hc with rfl | hc
      · exact .inr (by simp [hne])
      · obtain ⟨a, ha, rfl⟩ := List.mem_map.mp hc
        exact .inl ⟨a, ha, rfl⟩
    | guarded dest guard =>
      have hbody := href ⟨guard.body, .nested⟩ (by simp [Instr.refs])
      have hne : guard.body ≠ guard.handler := by
        obtain ⟨_, _, -, hto⟩ := hbody
        intro heq
        refine (guard_blocks_ne hrefs hnd fun hnone => ?_).1 heq
        have hindex : 0 ≤ guard.body.index := hto.has.1
        rw [heq, hnone] at hindex
        exact absurd hindex (by decide)
      simp only [Instr.given, if_neg hne] at hbody
      refine ⟨hbody, fun hhandler => ⟨fun _ => hs.1 hhandler, ?_⟩, ?_⟩
      · have := href ⟨guard.handler, .nested⟩ (by simp [Instr.refs, Instr.optional, hhandler])
        simpa only [Instr.given, ↓reduceIte] using this
      · refine cleansUp hrefs hnd hhas hsub hE (fun hclean heq => ?_) hnext
        exact (guard_blocks_ne hrefs hnd (heq ▸ hclean)).2 heq
    | _ => exact he.elim

theorem obeys (h : ToEnd.Step g k b i D X x) : x.Obeys full (Lowered g) g b (Int64.ofNat i) D X where
  ins v hv := by
    cases h with
    | plain _ hin _ _ | enter _ _ hin => exact (hin v hv).reads
    | leave _ hv' | circuit hv' =>
      rw [List.mem_singleton.mp hv]
      exact hv'.reads
  out _ hdest := by
    cases h with
    | plain _ _ hout _ | circuit _ hout | enter _ _ _ hout => exact hout
    | leave => simp [Instr.hasDest] at hdest
  leads := h.leadsOn

end ToEnd.Step

/-! ## The certificate -/

/-- Functions of the right shape certify a program. -/
def shapeCertificate {p : Program} (hp : ∀ f ∈ p.funcs, FuncShape f .ended ∧ f.Fits) :
    Certificate ToEnd.Step.full p where
  At := Lowered
  has h := by
    obtain ⟨k, i, -, h⟩ := h
    exact h.has
  obeys {f b ip D X} hdef h hip := by
    obtain ⟨k, i, rfl, h⟩ := h
    have hlt := h.lt_length
    have hlimit := codeLimit_eq
    have hcode := (hp f (Program.func?_eq_some hdef).1).2.code b
    obtain ⟨x, hx, hstep⟩ := h.step
    rw [Int64.toInt_ofNat_of_lt (by omega), Int.toNat_natCast]
    exact ⟨x, hx, hstep.obeys⟩
  entry {f} hdef := by
    obtain ⟨hshape, -⟩ := hp f (Program.func?_eq_some hdef).1
    exact ToEnd.lowered_zero ⟨_, _, hshape.shape⟩
  params _ {f} hdef := (hp f (Program.func?_eq_some hdef).1).1.paramRegs

namespace Lowering

/-- The functions of a program whose returns and throws are in statement position. -/
theorem shape_of_placed {t : Node} (ht : t.exitsPlaced .statement = true) :
    ∀ f ∈ (program t).1.funcs, FuncShape f .ended := by
  intro f hf
  obtain ⟨d, hd, hmakes⟩ := (program_sourced t).funcs f hf
  have hflow := (functions_placed ht d hd).flow_ne_broken
  obtain ⟨e, hshape, -, hiff⟩ := hmakes.shape
  obtain rfl := (hiff (.inl hflow)).mpr hflow
  exact hshape

/-- If all returns and throws of a tree are in statement position, its program is accepted and no run
of it raises a fault about registers, blocks or variables, whatever commands answer and however deep
calls may nest, and not even one that is caught. Its functions have to fit the machine. -/
theorem accepts_and_neverRaises_of_placed {t : Node} (ht : t.exitsPlaced .statement = true)
    (hfit : Fit (program t).1) (cfg : RunConfig) (hcfg : cfg.ClosureFree) :
    Check.Accepts (program t).1 ∧
      ∀ k ∈ [FaultKind.invalidRegister, .invalidBlock, .undefinedVariable],
        Machine.NeverRaises cfg (program t).1 k := by
  refine ⟨accepts_of_placed ht hfit, fun k hk c hc hkind => ?_⟩
  have hcert := shapeCertificate fun f hf => ⟨shape_of_placed ht f hf, hfit f hf⟩
  have hpermits := hcert.permits_of_raises hcfg hc
  subst hkind
  cases c with
  | readUnset | callUnset | writeOutside => exact hpermits trivial
  | noBlock | unterminated | unknownInstr => exact hpermits
  | _ => simp [Cause.kind] at hk

/-- A guarded section that binds a name in its body, in its clause and in its cleanup, there to a
closure with a short circuit; both names are used behind it. -/
def guardedNames : Node :=
  .list {} [
    .assign {} "x" (.string {} "a"),
    .guarded {}
      (.list {} [
        .assign {} "y" (.command {} "probe" [.word {} "x"] ""),
        .choice {} (.word {} "y") [.mk (.string {} "a") (.ret {} (.word {} "x"))] .absent])
      [.mk "" (.string {} "b") (.assign {} "y" (.word {} "x"))]
      (.assign {} "f"
        (.closure {} ["p"] ["x"] (.ret {} (.binary {} (.word {} "x") "&&" (.word {} "p"))))),
    .call {} (.word {} "f") [.word {} "y"]]

theorem guardedNames_accepts_and_neverRaises :
    guardedNames.exitsPlaced .statement = true ∧ Fit (program guardedNames).1 ∧
      RunConfig.shallow.ClosureFree ∧ Check.Accepts (program guardedNames).1 ∧
      ∀ k ∈ [FaultKind.invalidRegister, .invalidBlock, .undefinedVariable],
        Machine.NeverRaises .shallow (program guardedNames).1 k :=
  have ht : guardedNames.exitsPlaced .statement = true := by decide
  have hfit : Fit (program guardedNames).1 := by decide +kernel
  ⟨ht, hfit, RunConfig.shallow_closureFree,
    accepts_and_neverRaises_of_placed ht hfit .shallow RunConfig.shallow_closureFree⟩

end Lowering

end ScriptMachine
