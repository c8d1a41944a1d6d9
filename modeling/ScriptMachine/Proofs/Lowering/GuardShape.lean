import ScriptMachine.Proofs.Lowering.ChoiceShape

/-!
# The shape of guarded sections

A guarded section has its body as a branch, and the clauses as branches that are entered directly or
through a block that chooses among them (`Handled`). The cleanup is a block that always runs, so the
names that it binds are seen behind the section (`Cleaned`).
-/

namespace ScriptMachine.Lowering

open Build
open Instr (BlockRef)

variable {g : Func} {k : Context} {quiet : Prop} {b : BlockId} {D : Set Reg} {e f : Flow} {p : Prop}

/-! ## Handlers -/

/-- The result of lowering handlers, from the block number `n` on: the branches `subs` of the clauses
are open, and once they are ended, the blocks `hsubs` handle faults. -/
structure Handled (g : Func) (k : Context) (quiet p : Prop) (D : Set Reg) (n : Nat)
    (x : BlockId × Reg × List Branch) (t : Builder) (subs hsubs : List Sub) : Prop where
  opened : List.Forall₂ (Open g k (insert x.2.1 D) t) x.2.2 subs
  nodup : (x.2.2.map (·.block)).Nodup
  chain : Chain n hsubs t.func.blocks.size
  refs : (Instr.optional x.1).Perm (hsubs.map (·.ref))
  caught : (x.1 ≠ .none → g.InRange x.2.1) ∧ (x.2.1 = .none ∨ g.InRange x.2.1)
  has : ∀ sub ∈ hsubs, g.Has sub.ref.block
  closes : (∀ sub ∈ subs.map sealSub, Runs g k (insert x.2.1 D) sub) →
    ∀ sub ∈ hsubs, Runs g k (insert x.2.1 D) sub
  flows : p ∨ quiet → ((∀ sub ∈ hsubs, sub.flow = .ended) ↔ p)

theorem handled_none (s : Builder) (hp : p) :
    Handled g k quiet p D s.func.blocks.size (.none, .none, []) s [] [] where
  opened := .nil
  nodup := List.nodup_nil
  chain := rfl
  refs := .refl _
  caught := ⟨absurd rfl, .inl rfl⟩
  has := by simp
  closes := by simp
  flows _ := by simp [hp]

section
variable {caught : Reg} {lowered : Arms → Build Arms} {s : Builder}

theorem handled_soleHandler (hl : Gathers g k quiet (insert caught D) lowered p)
    (hcaught : g.InRange caught) (harms : (lowered {} s).1.arms = []) (hs : Around k s D)
    (hc : capturedRegs (soleHandler caught (lowered {}) s).2.enclosing ⊆ D)
    (ha : Agrees g (blocksOf (soleHandler caught (lowered {}) s).1.2.2) s
      (soleHandler caught (lowered {}) s).2)
    (hd : quiet → (soleHandler caught (lowered {}) s).2.diags = s.diags) :
    ∃ subs hsubs, Handled g k quiet p D s.func.blocks.size
        (soleHandler caught (lowered {}) s).1 (soleHandler caught (lowered {}) s).2 subs hsubs ∧
      Around k (soleHandler caught (lowered {}) s).2 D ∧
      (soleHandler caught (lowered {}) s).2.names = s.names := by
  have happ : soleHandler caught (lowered {}) s =
      (((lowered {} s).1.default, caught, (lowered {} s).1.branches), (lowered {} s).2) := rfl
  rw [happ] at hc ha hd ⊢
  have hD : D ⊆ insert caught D := Set.subset_insert _ _
  obtain ⟨subs, hG, ht, hnames, hp⟩ := hl {} s s.func.blocks.size [] (gathered_empty s)
    { hs with names := fun q hq => hD (hs.names q hq) } (hc.trans hD) ha hd
  rw [List.nil_append] at hG
  obtain ⟨hnd, -⟩ := blocks_of_open hG.opened hG.chain
  have hrefs : (Instr.optional (lowered {} s).1.default).Perm (subs.map (·.ref)) := by
    rw [map_ref_of_open hG.opened]
    simpa [Arms.refs, harms] using hG.refs
  refine ⟨subs, subs.map sealSub, ?_, { ht with names := fun q hq => hs.names q (hnames ▸ hq) },
    hnames⟩
  exact {
    opened := hG.opened
    nodup := hnd
    chain := chain_sealSub.mpr hG.chain
    refs := by rwa [map_ref_sealSub]
    caught := ⟨fun _ => hcaught, .inr hcaught⟩
    has := fun sub hsub => by
      obtain ⟨sub, hmem, rfl⟩ := List.mem_map.mp hsub
      obtain ⟨br, hbr, hopen⟩ := exists_of_forall₂ hG.opened.flip hmem
      simpa [sealSub, hopen.ref] using ha.has hopen.has
    closes := id
    flows := fun h => by
      rw [← hp h, ← sealSub_ended_iff]
      simp }

theorem orThrowAgain_apply (caught : Reg) (d : BlockId) (t : Builder) :
    d ≠ .none ∧ orThrowAgain caught d t = (d, t) ∨
      d = .none ∧ orThrowAgain caught d t = (⟨t.func.blocks.size⟩, { t with
        func := t.func.newBlock.1.append ⟨t.func.blocks.size⟩ (.leave .throw (.reg caught)) }) := by
  by_cases hd : d = .none
  · exact .inr ⟨hd, by simp [orThrowAgain, hd]⟩
  · exact .inl ⟨hd, by simp [orThrowAgain, hd]⟩

theorem code_throwAgain {t : Builder} {caught : Reg} (h : g.code ⟨t.func.blocks.size⟩ =
    (t.func.newBlock.1.append ⟨t.func.blocks.size⟩ (.leave .throw (.reg caught))).code
      ⟨t.func.blocks.size⟩) : g.code ⟨t.func.blocks.size⟩ = [.leave .throw (.reg caught)] := by
  rw [h, Func.append_code_self t.func.newBlock_has_self, Func.newBlock_code,
    Func.code_size, List.nil_append]

/-- A block for what no clause takes is made if there is no default. -/
theorem orThrowAgain_spec (t : Builder) (a : Arms) (caught : Reg) :
    ∃ asubs, Chain t.func.blocks.size asubs (orThrowAgain caught a.default t).2.func.blocks.size ∧
      (a.arms.map (fun arm => (⟨arm.block, .nested⟩ : BlockRef)) ++
        Instr.optional (orThrowAgain caught a.default t).1).Perm (a.refs ++ asubs.map (·.ref)) ∧
      (∀ sub ∈ asubs, sub.flow = .ended ∧ ¬ t.func.Has sub.ref.block ∧
        (orThrowAgain caught a.default t).2.func.Has sub.ref.block ∧
        ∀ g k D, caught ∈ D →
          g.code sub.ref.block = (orThrowAgain caught a.default t).2.func.code sub.ref.block →
          Runs g k D sub) ∧
      (orThrowAgain caught a.default t).2.func.numRegs = t.func.numRegs ∧
      (orThrowAgain caught a.default t).2.names = t.names ∧
      (orThrowAgain caught a.default t).2.enclosing = t.enclosing ∧
      (orThrowAgain caught a.default t).2.diags = t.diags := by
  rcases orThrowAgain_apply caught a.default t with ⟨hd, happ⟩ | ⟨hd, happ⟩
  · rw [happ]
    exact ⟨[], rfl, by simp [Arms.refs], by simp, rfl, rfl, rfl, rfl⟩
  · have hnew := t.func.not_has_size
    have hhas : t.func.newBlock.1.Has ⟨t.func.blocks.size⟩ := t.func.newBlock_has_self
    rw [happ]
    refine ⟨[⟨⟨⟨t.func.blocks.size⟩, .nested⟩, t.func.blocks.size + 1, ∅, .ended⟩], ?_, ?_, ?_, ?_,
      rfl, rfl, rfl⟩
    · exact ⟨rfl, by simp [Chain]⟩
    · have hnone : Instr.optional BlockId.none = [] := rfl
      rw [optional_block (by simp)]
      simp [Arms.refs, hd, hnone]
    · intro sub hsub
      obtain rfl := List.mem_singleton.mp hsub
      refine ⟨rfl, hnew, by simpa using hhas, fun g k D hD hcode => ⟨rfl, ?_⟩⟩
      have hcode := code_throwAgain hcode
      simp only [hcode, List.length_singleton]
      exact .leave (congrArg (·[0]?) hcode) trivial hD (.done (Set.empty_subset _))
    · simp

theorem chooseClause_apply (b : BlockId) (caught : Reg) (a : Arms) (t : Builder) :
    chooseClause b caught a t = (fun x : BlockId × Builder => ((),
      { x.2 with
        func := (x.2.func.newReg.1.append b
            (.dispatch ⟨x.2.func.numRegs⟩ (.reg caught) a.arms x.1)).append b
          (.leave .yield (.reg ⟨x.2.func.numRegs⟩)) })) (orThrowAgain caught a.default t) := rfl

theorem chooseClause_spec (caught : Reg) {c : BlockId} {t : Builder} (a : Arms) (hc : t.func.Has c)
    (hempty : t.func.code c = []) :
    ∃ d dest asubs, (chooseClause c caught a t).2.func.code c =
        [.dispatch dest (.reg caught) a.arms d, .leave .yield (.reg dest)] ∧
      dest = ⟨t.func.numRegs⟩ ∧
      (chooseClause c caught a t).2.func.numRegs = t.func.numRegs + 1 ∧
      Chain t.func.blocks.size asubs (chooseClause c caught a t).2.func.blocks.size ∧
      (a.arms.map (fun arm => (⟨arm.block, .nested⟩ : BlockRef)) ++ Instr.optional d).Perm
        (a.refs ++ asubs.map (·.ref)) ∧
      (∀ sub ∈ asubs, sub.flow = .ended ∧ ¬ t.func.Has sub.ref.block ∧
        (chooseClause c caught a t).2.func.Has sub.ref.block ∧
        ∀ g k D, caught ∈ D →
          g.code sub.ref.block = (chooseClause c caught a t).2.func.code sub.ref.block →
          Runs g k D sub) ∧
      (chooseClause c caught a t).2.names = t.names ∧
      (chooseClause c caught a t).2.enclosing = t.enclosing ∧
      (chooseClause c caught a t).2.diags = t.diags := by
  obtain ⟨asubs, hchain, hrefs, hsubs, hnum, hnames, henc, hdiags⟩ := orThrowAgain_spec t a caught
  have hgrow := (adds_orThrowAgain (S := ∅) caught a.default t).func
  rw [chooseClause_apply]
  generalize orThrowAgain caught a.default t = du at *
  obtain ⟨d, u⟩ := du
  simp only at hchain hrefs hsubs hnum hnames henc hdiags hgrow ⊢
  have hu : u.func.newReg.1.Has c := hgrow.has hc
  refine ⟨d, ⟨u.func.numRegs⟩, asubs, ?_, by rw [hnum], by simp [hnum], by simpa using hchain, hrefs,
    ?_, hnames, henc, hdiags⟩
  · rw [Func.append_code_self (by simpa using hu), Func.append_code_self hu, Func.newReg_code,
      hgrow.kept c hc (by simp), hempty]
    rfl
  · intro sub hsub
    obtain ⟨hf, hnew, hhas, hruns⟩ := hsubs sub hsub
    have hne : sub.ref.block ≠ c := fun h => hnew (h ▸ hc)
    refine ⟨hf, hnew, by simpa using hhas, fun g k D hD hcode => hruns g k D hD ?_⟩
    rw [hcode, Func.append_code_ne hne, Func.append_code_ne hne, Func.newReg_code]

/-- The code of a block that chooses among clauses: a dispatch over their blocks `subs`, and the end.
-/
theorem runs_choosing {c : BlockId} {dest : Reg} {arms : List Arm} {d : BlockId} {subs : List Sub}
    {stop : Nat} (hcode : g.code c = [.dispatch dest (.reg caught) arms d, .leave .yield (.reg dest)])
    (hdest : g.InRange dest) (hpat : ∀ arm ∈ arms, Ready ∅ arm.pattern)
    (hrefs : (arms.map (fun arm => (⟨arm.block, .nested⟩ : BlockRef)) ++
      Instr.optional d).Perm (subs.map (·.ref)))
    (hchain : Chain (c.index.toNat + 1) subs stop) (hhas : ∀ sub ∈ subs, g.Has sub.ref.block)
    (hruns : ∀ sub ∈ subs, Runs g k (insert caught D) sub) :
    Runs g k (insert caught D) ⟨⟨c, .nested⟩, stop, ∅,
      (Flow.live.enter (subs.map (·.flow))).finish⟩ := by
  have hx₀ : (g.code c)[0]? = some (.dispatch dest (.reg caught) arms d) := by rw [hcode]; rfl
  have hx₁ : (g.code c)[1]? = some (.leave .yield (.reg dest)) := by rw [hcode]; rfl
  refine ⟨rfl, ?_⟩
  have hlen : (g.code c).length = 2 := by rw [hcode]; rfl
  rw [hlen]
  refine .enter (E := ∅) subs hx₀ trivial ?_ hdest trivial hrefs hchain hhas ?_ (by simp)
    (.leave hx₁ rfl (Set.mem_insert _ _) (.done (Set.empty_subset _)))
  · intro v hv
    rcases List.mem_cons.mp hv with rfl | hv
    · exact Set.mem_insert _ _
    · obtain ⟨arm, harm, rfl⟩ := List.mem_map.mp hv
      exact (hpat arm harm).mono (Set.empty_subset _)
  · intro sub hsub
    rw [(hruns sub hsub).nested]
    exact (hruns sub hsub).shape

theorem handled_choosing (ml : Gatherer lowered)
    (hl : Gathers g k quiet (insert caught D) lowered p) (hcaught : g.InRange caught)
    (hs : Around k s D) (hc : capturedRegs (choosing caught (lowered {}) s).2.enclosing ⊆ D)
    (ha : Agrees g (blocksOf (choosing caught (lowered {}) s).1.2.2) s
      (choosing caught (lowered {}) s).2)
    (hd : quiet → (choosing caught (lowered {}) s).2.diags = s.diags) :
    ∃ subs hsubs, Handled g k quiet p D s.func.blocks.size
        (choosing caught (lowered {}) s).1 (choosing caught (lowered {}) s).2 subs hsubs ∧
      Around k (choosing caught (lowered {}) s).2 D ∧
      (choosing caught (lowered {}) s).2.names = s.names := by
  have happ : choosing caught (lowered {}) s = (fun x : Arms × Builder =>
      ((⟨s.func.blocks.size⟩, caught, x.1.branches),
        (chooseClause ⟨s.func.blocks.size⟩ caught x.1 x.2).2)) (lowered {} (newBlock s).2) := rfl
  have hgather := hl {} (newBlock s).2 (s.func.blocks.size + 1) []
  have hml := (ml {} (newBlock s).2).1
  rw [happ] at hc ha hd ⊢
  generalize lowered {} (newBlock s).2 = at' at *
  obtain ⟨a, t⟩ := at'
  simp only at hc ha hd hgather hml ⊢
  -- the block that chooses is made first and filled last
  have hnew := s.func.not_has_size
  have hs' := situation_newBlock hs
  have hempty : t.func.code ⟨s.func.blocks.size⟩ = [] := by
    rw [hml.func.kept _ hs'.has (by simp), newBlock_apply, Func.newBlock_code,
      Func.code_size]
  obtain ⟨d, dest, asubs, hcode, rfl, hnum, hchain, hrefs, hasubs, hnames, henc, hdiags⟩ :=
    chooseClause_spec caught a (hml.func.has hs'.has) hempty
  have hgrow := adds_chooseClause (Set.mem_singleton ⟨s.func.blocks.size⟩) caught a t
  generalize (chooseClause ⟨s.func.blocks.size⟩ caught a t).2 = w at *
  have hD : D ⊆ insert caught D := Set.subset_insert _ _
  have hagree : Agrees g (blocksOf a.branches) (newBlock s).2 t :=
    (ha.right (grows_newBlock s)).left hgrow (by rintro c rfl; exact .inl hs'.has)
  obtain ⟨subs, hG, ht, htnames, hp⟩ := hgather ⟨.nil, by simp [Chain], .refl _, by simp⟩
    ⟨hs.numRegs, hs.closure, hs.scope, fun q hq => hD (hs.names q hq)⟩
    ((henc ▸ hc).trans hD) hagree (fun hq => (hdiags ▸ hd hq))
  rw [List.nil_append] at hG
  obtain ⟨hnd, hblocks⟩ := blocks_of_open hG.opened hG.chain
  have hwhas : ∀ {c}, t.func.Has c → w.func.Has c := hgrow.func.has
  have hne : ∀ br ∈ a.branches, br.block ≠ ⟨s.func.blocks.size⟩ := by
    intro br hbr heq
    obtain ⟨-, i, hi, hle⟩ := hblocks br hbr
    rw [hi] at heq
    simp only [BlockId.mk.injEq] at heq
    omega
  have hopened : List.Forall₂ (Open g k (insert caught D) w) a.branches subs :=
    forall₂_imp_of_mem hG.opened fun br hbr sub ho => ho.grows hgrow (hne br hbr)
  have hsubhas : ∀ sub ∈ subs, w.func.Has sub.ref.block := by
    intro sub hsub
    obtain ⟨br, -, ho⟩ := exists_of_forall₂ hopened.flip hsub
    rw [ho.ref]
    exact ho.has
  have hfin : ∀ c, ¬ s.func.Has c → w.func.Has c → (∀ br ∈ a.branches, br.block ≠ c) →
      g.code c = w.func.code c := fun c hc hw hbr =>
    ha.finished c hc hw (by rintro ⟨br, hmem, rfl⟩; exact hbr br hmem rfl)
  refine ⟨subs, [⟨⟨⟨s.func.blocks.size⟩, .nested⟩, w.func.blocks.size, ∅,
    (Flow.live.enter ((subs.map sealSub ++ asubs).map (·.flow))).finish⟩], ?_, ?_,
    hnames.trans htnames⟩
  · exact {
      opened := hopened
      nodup := hnd
      chain := ⟨rfl, rfl⟩
      refs := by rw [optional_block (by simp)]; exact .refl _
      caught := ⟨fun _ => hcaught, .inr hcaught⟩
      has := by simpa using ha.has (hwhas (hml.func.has hs'.has))
      closes := fun hruns sub hsub => by
        obtain rfl := List.mem_singleton.mp hsub
        refine runs_choosing ((hfin _ hnew (hwhas (hml.func.has hs'.has)) hne).trans hcode)
          (ha.inRange ⟨ht.numRegs, by simp only; omega⟩) hG.patterns ?_ ?_ ?_ ?_
        · rw [List.map_append, map_ref_sealSub, map_ref_of_open hG.opened]
          exact hrefs.trans (hG.refs.append (.refl _))
        · exact chain_append.mpr ⟨_, chain_sealSub.mpr hG.chain, hchain⟩
        · intro sub hsub
          rcases List.mem_append.mp hsub with hsub | hsub
          · obtain ⟨sub, hmem, rfl⟩ := List.mem_map.mp hsub
            exact ha.has (hsubhas sub hmem)
          · exact ha.has (hasubs sub hsub).2.2.1
        · intro sub hsub
          rcases List.mem_append.mp hsub with hsub | hsub
          · exact hruns sub hsub
          · obtain ⟨-, hnt, hw, hr⟩ := hasubs sub hsub
            refine hr g k _ (Set.mem_insert _ _) (hfin _ (fun h => hnt ?_) hw ?_)
            · exact hml.func.has ((grows_newBlock s).func.has h)
            · exact fun br hbr heq => hnt (heq ▸ (hblocks br hbr).1)
      flows := fun h => by
        rw [← hp h]
        simp only [List.mem_singleton, forall_eq, Flow.finish_eq_ended_iff,
          Flow.enter_eq_live_iff, true_and, List.map_append, List.mem_append, or_imp, forall_and,
          sealSub_ended_iff, and_iff_left_iff_imp]
        intro _ f hf
        obtain ⟨sub, hsub, rfl⟩ := List.mem_map.mp hf
        exact (hasubs sub hsub).1 }
  · exact ⟨by have := ht.numRegs; omega, henc ▸ ht.closure,
      henc ▸ ht.scope.mono (by omega), fun q hq => hs.names q (htnames ▸ hnames ▸ hq)⟩

end

theorem around_newReg {s : Builder} (hs : Around k s D) : Around k (newReg s).2 D where
  numRegs := le_trans hs.numRegs (Func.extends_newReg s.func).numRegs
  closure := hs.closure
  scope := hs.scope.mono (Func.extends_newReg s.func).numRegs
  names := hs.names

theorem handled_handlers (cs : List Clause) {lowered : Reg → Arms → Build Arms}
    (ml : ∀ r, Gatherer (lowered r)) (hl : ∀ r, Gathers g k quiet (insert r D) (lowered r) p)
    (hsole : isSole cs = true → ∀ r s, (lowered r {} s).1.arms = [])
    (hempty : cs.isEmpty = true → p) {s : Builder} (hs : Around k s D)
    (hc : capturedRegs (handlers cs (lowered · {}) s).2.enclosing ⊆ D)
    (ha : Agrees g (blocksOf (handlers cs (lowered · {}) s).1.2.2) s
      (handlers cs (lowered · {}) s).2)
    (hd : quiet → (handlers cs (lowered · {}) s).2.diags = s.diags) :
    ∃ subs hsubs, Handled g k quiet p D s.func.blocks.size (handlers cs (lowered · {}) s).1
        (handlers cs (lowered · {}) s).2 subs hsubs ∧
      Around k (handlers cs (lowered · {}) s).2 D := by
  cases he : cs.isEmpty with
  | true =>
    rw [handlers_empty he]
    exact ⟨[], [], handled_none s (hempty he), hs⟩
  | false =>
    have hin : ∀ t : Builder, s.func.numRegs + 1 ≤ t.func.numRegs → t.func.numRegs ≤ g.numRegs →
        g.InRange ⟨s.func.numRegs⟩ := fun t h₁ h₂ => ⟨hs.numRegs, by simp only; omega⟩
    have hgrow := adds_newReg (S := ∅) s
    by_cases hone : isSole cs
    · rw [handlers_sole he hone] at hc ha hd ⊢
      have hrest := (makes_soleHandler ⟨s.func.numRegs⟩ (ml ⟨s.func.numRegs⟩ {}) []).adds
        (newReg s).2
      obtain ⟨subs, hsubs, h, ht, -⟩ := handled_soleHandler (hl _)
        (hin _ hrest.func.numRegs ha.numRegs) (hsole hone _ _) (around_newReg hs) hc
        (ha.right hgrow) hd
      exact ⟨subs, hsubs, h, ht⟩
    · rw [handlers_choosing he hone] at hc ha hd ⊢
      have hrest := (makes_choosing ⟨s.func.numRegs⟩ (ml ⟨s.func.numRegs⟩ {}) []).adds
        (newReg s).2
      obtain ⟨subs, hsubs, h, ht, -⟩ := handled_choosing (ml _) (hl _)
        (hin _ hrest.func.numRegs ha.numRegs) (around_newReg hs) hc (ha.right hgrow) hd
      exact ⟨subs, hsubs, h, ht⟩

/-! ## Cleanup -/

/-- The result of lowering a cleanup, from the block number `n` on: a block `csubs`, if there is one,
and the registers `E` that it sets. -/
structure Cleaned (g : Func) (k : Context) (quiet : Prop) (f : Flow) (D : Set Reg) (n : Nat)
    (last : BlockId) (t : Builder) (csubs : List Sub) (E : Set Reg) : Prop where
  chain : Chain n csubs t.func.blocks.size
  refs : (Instr.optional last).Perm (csubs.map (·.ref))
  has : ∀ sub ∈ csubs, g.Has sub.ref.block
  runs : ∀ sub ∈ csubs, Runs g k D sub
  regs : ∀ r ∈ E, ∃ sub ∈ csubs, sub.ref.block = last ∧ r ∈ sub.regs
  around : Around k t (D ∪ E)
  flows : f ≠ .broken ∨ quiet → ((∀ sub ∈ csubs, sub.flow = .ended) ↔ f ≠ .broken)

theorem ending_some_apply (body : BlockId → Build (Option Reg)) (s : Builder) :
    Lowering.ending (some body) s = (⟨s.func.blocks.size⟩,
      ((body ⟨s.func.blocks.size⟩ >>= sealNested ⟨s.func.blocks.size⟩) (newBlock s).2).2) := rfl

theorem cleaned_ending {cleanup : Option (BlockId → Build (Option Reg))}
    (ac : ∀ body ∈ cleanup, ∀ c, Adds {c} (body c))
    (hl : ∀ body ∈ cleanup, ∀ c D₁ e₁, Lowers g ⟨k.closure, true⟩ quiet c D₁ e₁ (body c) f)
    (hnone : cleanup = none → f ≠ .broken) {s : Builder} (hs : Around k s D)
    (hc : capturedRegs (Lowering.ending cleanup s).2.enclosing ⊆ D)
    (ha : Agrees g ∅ s (Lowering.ending cleanup s).2)
    (hd : quiet → (Lowering.ending cleanup s).2.diags = s.diags) :
    ∃ csubs E, Cleaned g k quiet f D s.func.blocks.size (Lowering.ending cleanup s).1
      (Lowering.ending cleanup s).2 csubs E := by
  cases cleanup with
  | none =>
    refine ⟨[], ∅, rfl, .refl _, by simp, by simp, by simp, ?_, ?_⟩
    · rw [Set.union_empty]
      exact hs
    · simp [hnone rfl]
  | some body =>
    have hlaw : Shaped g ⟨k.closure, true⟩ quiet ⟨s.func.blocks.size⟩ D .live
        (body ⟨s.func.blocks.size⟩ >>= sealNested ⟨s.func.blocks.size⟩) fun _ _ e' =>
          ∃ r e₁, Flow.Follows quiet f .live r e₁ ∧ e' = e₁.sealed := by
      refine Shaped.bind ⟨ac body rfl _, by grind⟩ (hl body rfl _ D .live) ?_
      rintro r D₁ e₁ - ⟨hr, hf⟩
      refine (shaped_sealNested rfl hr).post ?_
      rintro _ D' e' ⟨rfl, rfl⟩
      exact ⟨r, e₁, hf, rfl⟩
    rw [ending_some_apply] at hc ha hd ⊢
    have hnew := s.func.not_has_size
    obtain ⟨D', e', hD', hsh, ht, r, e₁, hf, rfl⟩ := hlaw (newBlock s).2 (situation_newBlock hs) hc
      (ha.right (grows_newBlock s)) hd
    rw [point_newBlock] at hsh
    have hfin := ha.finished _ hnew ht.has id
    refine ⟨[⟨⟨⟨s.func.blocks.size⟩, .nested⟩, _, D', e₁.sealed⟩], D', ⟨rfl, rfl⟩, ?_, ?_, ?_, ?_, ?_,
      ?_⟩
    · rw [optional_block (by simp)]
      exact .refl _
    · simpa using ha.has ht.has
    · intro sub hsub
      obtain rfl := List.mem_singleton.mp hsub
      refine ⟨rfl, ?_⟩
      rw [hfin]
      exact hsh
    · exact fun q hq => ⟨_, List.mem_singleton.mpr rfl, rfl, hq⟩
    · exact ⟨ht.numRegs, ht.closure, ht.scope, fun q hq => .inr (ht.names q hq)⟩
    · simpa using hf.sealed

/-! ## Guarded sections -/

theorem subset_given_guarded (dest : Reg) (gd : Guard) (D : Set Reg) (c : BlockId) :
    D ⊆ (Instr.guarded dest gd).given D c := by
  simp only [Instr.given]
  split
  · exact Set.subset_insert _ _
  · exact subset_rfl

/-- The blocks of a guarded section: its body, its handlers and its cleanup. -/
theorem entered_guarded {s₁ s₂ w w₂ : Builder} {br : Branch} {bsub : Sub} {D' E : Set Reg}
    {x : BlockId × Reg × List Branch} {last : BlockId} {subs hsubs csubs : List Sub} {n : Nat}
    (dest : Reg) (hD : D ⊆ D') (hb : Runs g k D (sealSub bsub))
    (href : bsub.ref = ⟨br.block, .nested⟩) (hbhas : g.Has br.block)
    (hbchain : Chain n [bsub] s₁.func.blocks.size)
    (hh : Handled g k quiet p D s₁.func.blocks.size x s₂ subs hsubs)
    (hruns : ∀ sub ∈ hsubs, Runs g k (insert x.2.1 D) sub)
    (hsize : w.func.blocks.size = s₂.func.blocks.size)
    (hc : Cleaned g k quiet f D' w.func.blocks.size last w₂ csubs E) :
    Entered g k (.guarded dest ⟨br.block, x.1, x.2.1, last⟩) D' n
      (sealSub bsub :: (hsubs ++ csubs)) w₂.func.blocks.size where
  enters := trivial
  ins := by simp [Instr.ins]
  sane := hh.caught
  refs := by
    rw [List.map_cons, List.map_append]
    have : (sealSub bsub).ref = ⟨br.block, .nested⟩ := href
    rw [this]
    exact (hh.refs.append hc.refs).cons _
  chain := by
    have h₁ : Chain n [sealSub bsub] s₁.func.blocks.size := chain_sealSub.mpr hbchain
    exact chain_append.mpr ⟨_, h₁, chain_append.mpr ⟨_, hh.chain, hsize ▸ hc.chain⟩⟩
  has sub hsub := by
    rcases List.mem_cons.mp hsub with rfl | hsub
    · simpa [sealSub, href] using hbhas
    · rcases List.mem_append.mp hsub with hsub | hsub
      · exact hh.has sub hsub
      · exact hc.has sub hsub
  shape sub hsub := by
    rcases List.mem_cons.mp hsub with rfl | hsub
    · rw [hb.nested]
      exact (hb.weaken (hD.trans (subset_given_guarded dest _ D' _))).shape
    · rcases List.mem_append.mp hsub with hsub | hsub
      · -- a handler starts with what was caught
        have hmem := hh.refs.mem_iff.mpr (List.mem_map_of_mem hsub)
        have hblock : sub.ref.block = x.1 := by
          unfold Instr.optional at hmem
          split at hmem
          · cases hmem
          · rw [List.mem_singleton.mp hmem]
        have hgiven : (Instr.guarded dest ⟨br.block, x.1, x.2.1, last⟩).given D' sub.ref.block =
            insert x.2.1 D' := by
          simp [Instr.given, hblock]
        rw [(hruns sub hsub).nested, hgiven]
        exact ((hruns sub hsub).weaken (Set.insert_subset_insert hD)).shape
      · rw [(hc.runs sub hsub).nested]
        exact ((hc.runs sub hsub).weaken (subset_given_guarded dest _ D' _)).shape

theorem guarded_apply (b : BlockId) (body : BlockId → Build (Option Reg)) (cs : List Clause)
    (lowered : Reg → Build Arms) (cleanup : Option (BlockId → Build (Option Reg))) (s : Builder) :
    guarded b body cs lowered cleanup s = (fun x : Branch × Builder =>
      (fun y : (BlockId × Reg × List Branch) × Builder => (fun z : BlockId × Builder =>
          produce b (.guarded · ⟨x.1.block, y.1.1, y.1.2.1, z.1⟩) z.2)
        (Lowering.ending cleanup (join b s.names (x.1 :: y.1.2.2) y.2).2))
      (handlers cs lowered x.2)) (branch "" .none body s) := rfl

/-- The states of a guarded section: `s₁` behind its body, the branch `br`, `s₂` behind its handlers,
with the branches `brs`, and `w` where all of them are joined. -/
structure SectionSteps (b : BlockId) (s : Builder) (br : Branch) (s₁ : Builder) (brs : List Branch)
    (s₂ w : Builder) : Prop where
  block : br.block = ⟨s.func.blocks.size⟩
  body : Builder.Grows ∅ s s₁
  handlers : Builder.Grows ∅ s₁ s₂
  new : ∀ q ∈ brs, ¬ s₁.func.Has q.block
  join : Builder.Grows ({b} ∪ blocksOf (br :: brs)) s₂ w

theorem sectionSteps_guarded (b : BlockId) {body : BlockId → Build (Option Reg)}
    (ab : ∀ c, Adds {c} (body c)) (cs : List Clause) {lowered : Reg → Build Arms}
    (ml : ∀ r, Makes [] (lowered r) Arms.branches) (s : Builder) :
    SectionSteps b s (branch "" .none body s).1 (branch "" .none body s).2
      (handlers cs lowered (branch "" .none body s).2).1.2.2
      (handlers cs lowered (branch "" .none body s).2).2
      (join b s.names ((branch "" .none body s).1 ::
          (handlers cs lowered (branch "" .none body s).2).1.2.2)
        (handlers cs lowered (branch "" .none body s).2).2).2 := by
  obtain ⟨hgrow, hnew⟩ := makes_handlers cs ml [] (branch "" .none body s).2
  exact ⟨rfl, adds_branch "" .none ab s, hgrow,
    fun q hq => (hnew q (by simpa using hq)).resolve_left (by simp),
    adds_join (.inl rfl) s.names Set.subset_union_right _⟩

namespace SectionSteps

variable {s s₁ s₂ w v : Builder} {br : Branch} {brs : List Branch}
  (h : SectionSteps b s br s₁ brs s₂ w)
include h

theorem behindHandlers (hv : Builder.Grows {b} w v) :
    Builder.Grows ({b} ∪ blocksOf (br :: brs)) s₂ v :=
  h.join.trans hv fun _ hc _ => .inl hc

theorem behindBody (hv : Builder.Grows {b} w v) : Builder.Grows {b, br.block} s₁ v := by
  refine (h.handlers.mono (Set.empty_subset _)).trans (h.behindHandlers hv) ?_
  rintro c (rfl | ⟨q, hq, rfl⟩) hold
  · exact .inl rfl
  · rcases List.mem_cons.mp hq with rfl | hq
    · exact .inr rfl
    · exact absurd hold (h.new q hq)

theorem agrees_body (hb : s.func.Has b) (hv : Builder.Grows {b} w v) (ha : Agrees g ∅ s v) :
    Agrees g {⟨s.func.blocks.size⟩} s s₁ :=
  (ha.mono (Set.empty_subset _)).left (h.behindBody hv) (by
    rintro c (rfl | rfl)
    exacts [.inl hb, .inr h.block])

theorem agrees_handlers (hb : s.func.Has b) (hbr : s₁.func.Has br.block)
    (hv : Builder.Grows {b} w v) (ha : Agrees g ∅ s v) : Agrees g (blocksOf brs) s₁ s₂ := by
  refine ((ha.right h.body).mono (Set.empty_subset _)).left (h.behindHandlers hv) ?_
  rintro c (rfl | ⟨q, hq, rfl⟩)
  · exact .inl (h.body.func.has hb)
  · rcases List.mem_cons.mp hq with rfl | hq
    · exact .inl hbr
    · exact .inr ⟨q, hq, rfl⟩

theorem agrees_join (hb : s.func.Has b) (hv : Builder.Grows {b} w v) (ha : Agrees g ∅ s v) :
    Agrees g ∅ s₂ w :=
  ((ha.right h.body).right h.handlers).left hv (by
    rintro c rfl
    exact .inl (h.handlers.func.has (h.body.func.has hb)))

theorem not_has : ∀ q ∈ br :: brs, ¬ s.func.Has q.block := by
  intro q hq hold
  rcases List.mem_cons.mp hq with rfl | hq
  · rw [h.block, Func.has_natCast_iff] at hold
    omega
  · exact h.new q hq (h.body.func.has hold)

theorem ne (hb : s.func.Has b) : ∀ q ∈ br :: brs, q.block ≠ b :=
  fun q hq heq => h.not_has q hq (heq ▸ hb)

theorem nodup (hbr : s₁.func.Has br.block) (hnd : (brs.map (·.block)).Nodup) :
    ((br :: brs).map (·.block)).Nodup := by
  refine List.nodup_cons.mpr ⟨fun hmem => ?_, hnd⟩
  obtain ⟨q, hq, heq⟩ := List.mem_map.mp hmem
  exact h.new q hq (heq ▸ hbr)

theorem has (hbr : s₁.func.Has br.block) (hbrs : ∀ q ∈ brs, s₂.func.Has q.block) :
    ∀ q ∈ br :: brs, s₂.func.Has q.block :=
  List.forall_mem_cons.mpr ⟨h.handlers.func.has hbr, hbrs⟩

theorem code (hb : s.func.Has b) : s₂.func.code b = s.func.code b := by
  rw [h.handlers.func.kept b (h.body.func.has hb) (by simp), h.body.func.kept b hb (by simp)]

/-- Behind the join only the block of the guarded section itself grows. -/
theorem finished (hb : s.func.Has b) (hv : Builder.Grows {b} w v) (ha : Agrees g ∅ s v) {q : Branch}
    (hq : q ∈ br :: brs) (hhas : s₂.func.Has q.block) : g.code q.block = w.func.code q.block := by
  have hw := h.join.func.has hhas
  rw [ha.finished q.block (h.not_has q hq) (hv.func.has hw) id,
    hv.func.kept q.block hw (h.ne hb q hq)]

end SectionSteps

theorem lowers_guarded {body : BlockId → Build (Option Reg)} {fb : Flow}
    (ab : ∀ c, Adds {c} (body c))
    (hbody : ∀ c D₁ e₁, Lowers g ⟨k.closure, true⟩ quiet c D₁ e₁ (body c) fb) (cs : List Clause)
    {lowered : Reg → Arms → Build Arms} [Decidable p] (ml : ∀ r, Gatherer (lowered r))
    (hl : ∀ r, Gathers g k quiet (insert r D) (lowered r) p)
    (hsole : isSole cs = true → ∀ r s, (lowered r {} s).1.arms = [])
    (hempty : cs.isEmpty = true → p) {cleanup : Option (BlockId → Build (Option Reg))}
    (ac : ∀ body ∈ cleanup, ∀ c, Adds {c} (body c))
    (hcl : ∀ body ∈ cleanup, ∀ c D₁ e₁, Lowers g ⟨k.closure, true⟩ quiet c D₁ e₁ (body c) f)
    (hnone : cleanup = none → f ≠ .broken) :
    Lowers g k quiet b D e (guarded b body cs (lowered · {}) cleanup)
      (.ofLive (fb ≠ .broken ∧ p ∧ f ≠ .broken)) := by
  intro s hs hc ha hd
  have hbranch := open_branch (D := D) (s := s) "" .none (absurd rfl) ab hbody
    hs.toAround
  have hsteps := sectionSteps_guarded b ab cs (fun r => ml r {}) s
  rw [guarded_apply] at hc ha hd ⊢
  generalize branch "" .none body s = brs at *
  obtain ⟨br, s₁⟩ := brs
  simp only at hc ha hd hbranch hsteps ⊢
  have hhandlers := handled_handlers (s := s₁) cs ml hl hsole hempty
  generalize handlers cs (lowered · {}) s₁ = hs₂ at *
  obtain ⟨⟨handler, caught, brs⟩, s₂⟩ := hs₂
  simp only at hc ha hd hhandlers hsteps ⊢
  -- the states behind the join and behind the cleanup
  have hjoin := @shape_join g k b D e (br :: brs) s₂ ∅ s.names
  generalize (join b s.names (br :: brs) s₂).2 = w at *
  have hg₄ := adds_ending (S := ∅) ac w
  have hclean := fun D' => @cleaned_ending g k quiet D' f cleanup ac hcl hnone w
  generalize Lowering.ending cleanup w = lw at *
  obtain ⟨last, w₂⟩ := lw
  simp only at hc ha hd hjoin hg₄ hclean ⊢
  have hg₅ := adds_produce (Set.mem_singleton b) (.guarded · ⟨br.block, handler, caught, last⟩) w₂
  have hg₄₅ : Builder.Grows {b} w _ :=
    (hg₄.mono (Set.empty_subset _)).trans hg₅ fun c hc _ => hc
  have hg₂₅ := hsteps.behindBody hg₄₅
  have hg₃₅ := hsteps.behindHandlers hg₄₅
  obtain ⟨bsub, hopen, hbchain, hs₁, r, hbf⟩ := hbranch ((capturedRegs_mono hg₂₅.enclosing).trans hc)
    (hsteps.agrees_body hs.has hg₄₅ ha) fun hq => (hsteps.body.quiet hg₂₅ (hd hq)).1
  have hd₁ := fun hq => (hsteps.body.quiet hg₂₅ (hd hq)).2
  obtain ⟨subs, hsubs, hH, hs₂⟩ := hhandlers hs₁ ((capturedRegs_mono hg₃₅.enclosing).trans hc)
    (hsteps.agrees_handlers hs.has hopen.has hg₄₅ ha)
    fun hq => (hsteps.handlers.quiet hg₃₅ (hd₁ hq)).1
  have hd₂ := fun hq => (hsteps.handlers.quiet hg₃₅ (hd₁ hq)).2
  have hopen₂ := hopen.grows hsteps.handlers id
  have hhas₂ := hsteps.has hopen.has fun q hq => by
    obtain ⟨sub, -, ho⟩ := exists_of_forall₂ hH.opened hq
    exact ho.has
  have hcode₂ := hsteps.code hs.has
  have hsit : Situation k b s₂ D e :=
    { hs₂ with
      has := hsteps.handlers.func.has (hsteps.body.func.has hs.has)
      live := hcode₂ ▸ hs.live
      ended := hcode₂ ▸ hs.ended }
  have ha₃ := ((ha.right hsteps.body).right hsteps.handlers).right hsteps.join
  obtain ⟨D', e', hJ⟩ := hjoin hsit hs.names (hsteps.nodup hopen.has hH.nodup) hhas₂
    (hsteps.ne hs.has) ((capturedRegs_mono hg₄₅.enclosing).trans hc)
    (hsteps.agrees_join hs.has hg₄₅ ha)
  obtain ⟨csubs, E, hC⟩ := hclean D' hJ.situation.toAround
    (((capturedRegs_mono hg₅.enclosing).trans hc).trans hJ.regs)
    (ha₃.left hg₅ (by rintro c rfl; exact .inl hJ.situation.has))
    fun hq => (hg₄.quiet hg₅ (hsteps.join.quiet hg₄₅ (hd₂ hq)).2).1
  -- every branch has its end in the finished function
  have hfin : ∀ q ∈ br :: brs, g.code q.block = w.func.code q.block := fun q hq =>
    hsteps.finished hs.has hg₄₅ ha hq (hhas₂ q hq)
  have hbruns : ∀ sub ∈ [bsub].map sealSub, Runs g k D sub :=
    hJ.shape_sealSub (List.Forall₂.cons hopen₂ .nil) (by simp) fun q hq => hfin q (by simp_all)
  have hhruns := hH.closes (hJ.shape_sealSub hH.opened (by simp)
    fun q hq => hfin q (List.mem_cons_of_mem _ hq))
  have hentered := entered_guarded ⟨w₂.func.numRegs⟩ hJ.regs (hbruns _ (by simp)) hopen.ref
    (ha.has (hg₃₅.func.has hopen₂.has)) hbchain hH hhruns hJ.size hC
  obtain ⟨D₂, hD₂, hsh₂, hsit₂, hr₂⟩ := shape_enter (e := e') (E := E)
    (.guarded · ⟨br.block, handler, caught, last⟩) hC.around (hg₄.func.has hJ.situation.has)
    (ha₃.right hg₄) (fun _ => rfl) hentered (by
      intro q hq
      obtain ⟨sub, hsub, hlast, hmem⟩ := hC.regs q hq
      exact ⟨sub, List.mem_cons_of_mem _ (List.mem_append_right _ hsub), hlast, hmem⟩)
  have hshape := hJ.shape s.func.blocks.size
  rw [hcode₂, ← hg₄.func.kept b hJ.situation.has (by simp)] at hshape
  refine ⟨D₂, _, hJ.regs.trans hD₂, hshape.trans hsh₂, hsit₂, hr₂, ?_⟩
  have hflow : FlowEntered quiet (fb ≠ .broken ∧ p ∧ f ≠ .broken) e
      (e'.enter ((sealSub bsub :: (hsubs ++ csubs)).map (·.flow))) := by
    refine ⟨e', _, hJ.lives, fun h => ?_, rfl⟩
    rw [← hH.flows (h.imp (·.2.1) id), ← hC.flows (h.imp (·.2.2) id),
      ← hbf.sealed (h.imp And.left id)]
    simp only [List.map_cons, List.map_append, List.forall_mem_cons, List.forall_mem_append,
      List.forall_mem_map]
    rfl
  have := hflow.follows (Flow.Lives.refl quiet e)
    (produce b (.guarded · ⟨br.block, handler, caught, last⟩) w₂).1
  rwa [Flow.ofLive_congr (and_iff_right trivial)] at this

end ScriptMachine.Lowering
