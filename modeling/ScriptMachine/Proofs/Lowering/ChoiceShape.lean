import ScriptMachine.Proofs.Lowering.JoinShape

/-!
# The shape of choices

A choice is a join and a dispatch over the branches that were gathered.
-/

namespace ScriptMachine.Lowering

open Build

variable {g : Func} {k : Context} {quiet : Prop} {b : BlockId} {D : Set Reg} {e f : Flow}

/-- The flow behind an instruction that enters blocks, where `p` says that no tree of theirs is
broken. -/
def FlowEntered (quiet p : Prop) (e e' : Flow) : Prop :=
  ∃ e₁ fs, Flow.Lives quiet True e e₁ ∧ (p ∨ quiet → ((∀ f ∈ fs, f = .ended) ↔ p)) ∧
    e' = e₁.enter fs

theorem FlowEntered.follows {p q : Prop} [Decidable p] [Decidable q] {e₀ e' : Flow}
    (h : FlowEntered quiet p e e') (hq : Flow.Lives quiet q e₀ e) (r : Option Reg) :
    Flow.Follows quiet (.ofLive (q ∧ p)) e₀ r e' := by
  obtain ⟨e₁, fs, hl, hfs, rfl⟩ := h
  exact ((hq.trans hl).congr (and_iff_left trivial)).follows_enter hfs r

theorem gathered_empty (s : Builder) : Gathered g k D s.func.blocks.size {} [] s :=
  ⟨.nil, rfl, .refl _, by simp⟩

/-! ## Choices -/

/-- A dispatch over branches that were gathered and joined. -/
theorem entered_dispatch {t w : Builder} {a : Arms} {subs : List Sub} {n : Nat} {D' : Set Reg}
    {e' : Flow} (hgather : Gathered g k D n a subs t)
    (hjoin : Joined g k b D e a.branches t w D' e') {v : Value} (hv : Ready D' v) (dest : Reg)
    (hfin : ∀ br ∈ a.branches, g.code br.block = w.func.code br.block)
    (hhas : ∀ br ∈ a.branches, g.Has br.block) :
    Entered g k (.dispatch dest v a.arms a.default) D' n (subs.map sealSub)
      w.func.blocks.size where
  enters := trivial
  ins u hu := by
    rcases List.mem_cons.mp hu with rfl | hu
    · exact hv
    · obtain ⟨arm, harm, rfl⟩ := List.mem_map.mp hu
      exact (hgather.patterns arm harm).mono (Set.empty_subset D')
  sane := trivial
  refs := by
    rw [map_ref_sealSub, map_ref_of_open hgather.opened]
    exact hgather.refs
  chain := by
    rw [chain_sealSub, hjoin.size]
    exact hgather.chain
  has sub hsub := by
    have hmem : sub.ref ∈ (subs.map sealSub).map (·.ref) := List.mem_map_of_mem hsub
    rw [map_ref_sealSub, map_ref_of_open hgather.opened] at hmem
    obtain ⟨br, hbr, heq⟩ := List.mem_map.mp hmem
    rw [← heq]
    exact hhas br hbr
  shape sub hsub := by
    have hruns := hjoin.shape_sealSub hgather.opened (List.Subset.refl _) hfin sub hsub
    rw [hruns.nested]
    exact (hruns.weaken hjoin.regs).shape

theorem gathered_dispatch_apply (v : Value) (m : Arms → Build Arms) (s : Builder) :
    (names >>= fun before => m {} >>= dispatch b v before) s =
      (fun x : Arms × Builder => produce b (.dispatch · v x.1.arms x.1.default)
        (join b s.names x.1.branches x.2).2) (m {} s) := rfl

/-- The branches of a dispatch, their joins, and the dispatch. -/
theorem shaped_dispatch {v : Value} (hv : Ready D v) {m : Arms → Build Arms} {p : Prop}
    (hm : Gathers g k quiet D m p) (mm : Gatherer m) :
    Shaped g k quiet b D e (names >>= fun before => m {} >>= dispatch b v before)
      fun r D' e' => Ready D' (operand r) ∧ FlowEntered quiet p e e' := by
  intro s hs hc ha hd
  obtain ⟨hg₁, hold⟩ := mm {} s
  have hgather := hm {} s s.func.blocks.size [] (gathered_empty s) hs.toAround
  rw [gathered_dispatch_apply] at hc ha hd ⊢
  generalize m {} s = at' at *
  obtain ⟨a, t⟩ := at'
  simp only at hc ha hd hg₁ hold hgather ⊢
  have hgrow : Builder.Grows ({b} ∪ blocksOf a.branches) t (join b s.names a.branches t).2 :=
    adds_join (.inl rfl) s.names Set.subset_union_right t
  have hprod := adds_produce (Set.mem_singleton b) (.dispatch · v a.arms a.default)
    (join b s.names a.branches t).2
  have hrest := hgrow.trans hprod (by rintro c rfl -; exact .inl rfl)
  obtain ⟨subs, hG, hst, -, hp⟩ := hgather ((capturedRegs_mono hrest.enclosing).trans hc)
    ((ha.mono (Set.empty_subset _)).left hrest
      (by rintro c (rfl | h); exacts [.inl hs.has, .inr h]))
    fun hq => (hg₁.quiet hrest (hd hq)).1
  rw [List.nil_append] at hG
  have htb : t.func.code b = s.func.code b := hg₁.func.kept b hs.has (by simp)
  have hsit : Situation k b t D e :=
    { hst with has := hg₁.func.has hs.has, live := htb ▸ hs.live, ended := htb ▸ hs.ended }
  obtain ⟨hnd, hblocks⟩ := blocks_of_open hG.opened hG.chain
  have hnew : ∀ br ∈ a.branches, ¬ s.func.Has br.block := by
    intro br hbr hsb
    obtain ⟨-, i, hi, hn⟩ := hblocks br hbr
    rw [hi, Func.has_natCast_iff] at hsb
    omega
  have hne : ∀ br ∈ a.branches, br.block ≠ b := fun br hbr heq => hnew br hbr (heq ▸ hs.has)
  obtain ⟨D', e', hJ⟩ := shape_join hsit hs.names hnd (fun br hbr => (hblocks br hbr).1) hne
    ((capturedRegs_mono hprod.enclosing).trans hc)
    ((ha.right hg₁).left hprod (by rintro c rfl; exact .inl hsit.has))
  generalize (join b s.names a.branches t).2 = w at *
  have hwhas : ∀ br ∈ a.branches, w.func.Has br.block := fun br hbr =>
    hgrow.func.has (hblocks br hbr).1
  have hfin : ∀ br ∈ a.branches, g.code br.block = w.func.code br.block := by
    intro br hbr
    rw [ha.finished br.block (hnew br hbr) (hprod.func.has (hwhas br hbr)) id,
      hprod.func.kept br.block (hwhas br hbr) (hne br hbr)]
  have hentered := entered_dispatch hG hJ (hv.mono hJ.regs) ⟨w.func.numRegs⟩ hfin
    fun br hbr => ha.has (hprod.func.has (hwhas br hbr))
  obtain ⟨D₂, hD₂, hsh₂, hs₂, hr₂⟩ := shape_enter (e := e') (E := ∅)
    (.dispatch · v a.arms a.default) (by simpa using hJ.situation.toAround) hJ.situation.has
    ((ha.right hg₁).right hgrow) (fun _ => rfl) hentered (by simp)
  have hshape := hJ.shape s.func.blocks.size
  rw [htb] at hshape
  refine ⟨D₂, _, hJ.regs.trans hD₂, hshape.trans hsh₂, hs₂, hr₂, e', _, hJ.lives, ?_, rfl⟩
  rw [sealSub_ended_iff]
  exact hp

theorem choice_eq (b : BlockId) (pos : Position) (scrutinee : Build (Option Reg))
    (cases : Build Arms) (default : Option (BlockId → Build (Option Reg))) :
    choice b pos scrutinee cases default = scrutinee >>= fun r => names >>= fun before =>
      (cases >>= fun a => addSeparate pos a default) >>= dispatch b (operand r) before := rfl

theorem lowers_choice {scrutinee : Build (Option Reg)} (ax : Adds {b} scrutinee) (pos : Position)
    {fx : Flow} (hx : Lowers g k quiet b D e scrutinee fx) {cases : Arms → Build Arms} {p : Prop}
    [Decidable p] (mc : Gatherer cases) (hc : ∀ D₁, Gathers g k quiet D₁ cases p)
    {default : Option (BlockId → Build (Option Reg))}
    (ad : ∀ body ∈ default, ∀ c, Adds {c} (body c))
    (hd : ∀ body ∈ default, ∀ c D₁ e₁, Lowers g ⟨k.closure, true⟩ quiet c D₁ e₁ (body c) f)
    (hnone : default = none → f ≠ .broken) :
    Lowers g k quiet b D e (choice b pos scrutinee (cases {}) default)
      (.ofLive (fx = .live ∧ p ∧ f ≠ .broken)) := by
  have md : Gatherer (addSeparate pos · default) := fun a => makes_addSeparate pos a ad
  rw [choice_eq]
  have hrest := fun v before => adds_chosen (Set.mem_singleton b) v before (mc.bind md {})
  refine Shaped.bind (by grind) hx ?_
  rintro v D₁ e₁ - ⟨hv, hf⟩
  have hgather := (hc D₁).bind mc (gathers_addSeparate pos ad hd hnone) md
  have hdispatch := shaped_dispatch (b := b) (e := e₁) hv hgather (mc.bind md)
  refine Shaped.post hdispatch ?_
  rintro r D' e' ⟨hr, hfe⟩
  exact ⟨hr, hfe.follows hf.lives r⟩

end ScriptMachine.Lowering
