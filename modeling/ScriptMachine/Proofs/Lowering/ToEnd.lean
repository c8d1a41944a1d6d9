import ScriptMachine.Proofs.Lowering.Shape

/-!
# Code that runs to its end

`ToEnd g k b i D X` says that the code of block `b` from index `i` on comes to its end without being
broken, if the registers `D` are set; if the block ends by a yield, the registers `X` are set then.

`ToEnd.step` says what the instruction at `i` can be and what holds behind it, so that the checker and
the machine can be followed one instruction at a time.
-/

namespace ScriptMachine

open Instr (Entry BlockRef)

variable {g : Func} {k : Context} {b : BlockId}

/-! ## More about shapes -/

theorem Shape.carry {p q : Point} (h : Shape g k b p q) (R : Set Reg) :
    Shape g k b ⟨p.index, p.blocks, p.regs ∪ R, p.flow⟩ ⟨q.index, q.blocks, q.regs ∪ R, q.flow⟩ := by
  have hready : ∀ {D : Set Reg} {vs : List Value}, (∀ v ∈ vs, Ready D v) → ∀ v ∈ vs, Ready (D ∪ R) v :=
    fun h v hv => (h v hv).mono Set.subset_union_left
  induction h with
  | done hD => exact .done (Set.union_subset_union_left R hD)
  | plain hx hp hin hout _ ih =>
    exact .plain hx hp (hready hin) hout (by rwa [Set.insert_union] at ih)
  | leave hx hk hv _ ih => exact .leave hx hk (hv.mono Set.subset_union_left) ih
  | circuit hx hl hout hr hj _ _ ih =>
    refine .circuit hx (hl.mono Set.subset_union_left) hout (hr.weaken Set.subset_union_left) hj ?_
    rwa [Set.insert_union] at ih
  | enter subs hx he hin hout hs hrefs hc hhas hsub hgain _ _ ih =>
    refine .enter subs hx he (hready hin) hout hs hrefs hc hhas (fun s hs => ?_) hgain ?_
    · exact (hsub s hs).weaken (Instr.given_mono _ Set.subset_union_left _)
    · rwa [Set.insert_union, Set.union_right_comm] at ih

theorem Shape.eq_of_ended {p q : Point} (h : Shape g k b p q) (hp : p.flow = .ended)
    (hq : q.flow ≠ .broken) : q.index = p.index ∧ q.regs ⊆ p.regs := by
  have hlive : p.flow ≠ .live := by simp [hp]
  cases h with
  | done hD => exact ⟨rfl, hD⟩
  | plain _ _ _ _ h => exact absurd (h.flow_of_broken (Flow.next_eq_broken hlive)) hq
  | leave _ _ _ h => exact absurd (h.flow_of_broken (Flow.finish_eq_broken hlive)) hq
  | circuit _ _ _ _ _ h => exact absurd (h.flow_of_broken (Flow.around_eq_broken hlive)) hq
  | enter _ _ _ _ _ _ _ _ _ _ _ h => exact absurd (h.flow_of_broken (Flow.enter_eq_broken hlive)) hq

/-! ## One instruction at a time -/

/-- From index `i` on, block `b` comes to its end. -/
def ToEnd (g : Func) (k : Context) (b : BlockId) (i : Nat) (D X : Set Reg) : Prop :=
  ∃ n m, Shape g k b ⟨i, n, D, .live⟩ ⟨(g.code b).length, m, X, .ended⟩

/-- What holds behind the instruction at index `i`. -/
inductive ToEnd.Step (g : Func) (k : Context) (b : BlockId) (i : Nat) (D X : Set Reg) : Instr → Prop
  | plain {x} (hp : x.Plain) (hin : ∀ v ∈ x.ins, Ready D v) (hout : g.InRange x.out)
      (next : ToEnd g k b (i + 1) (insert x.out D) X) : Step g k b i D X x
  | leave {how v} (hk : k.Allows how) (hv : Ready D v) (hlast : i + 1 = (g.code b).length)
      (hX : X ⊆ D) : Step g k b i D X (.leave how v)
  | circuit {kind dest left right j} (hl : Ready D left) (hout : g.InRange dest) (hj : i < j)
      (next : ToEnd g k b (i + 1) (if right.isReg then D else insert dest D) X)
      (around : ToEnd g k b j (insert dest D) X) :
      Step g k b i D X (.circuit kind dest left right (Int64.ofNat (j - (i + 1))))
  | enter {x} {E : Set Reg} (subs : List Sub) (he : x.Enters) (hin : ∀ v ∈ x.ins, Ready D v)
      (hout : g.InRange x.out) (hs : x.Sane g) (hrefs : x.refs.Perm (subs.map (·.ref)))
      (hnd : (subs.map (·.ref.block)).Nodup) (hhas : ∀ s ∈ subs, g.Has s.ref.block)
      (hsub : ∀ s ∈ subs, ToEnd g (k.enter s.ref.entry) s.ref.block 0
        (x.given D s.ref.block) s.regs)
      (hE : ∀ r ∈ E, ∃ s ∈ subs, x.Always s.ref.block ∧ r ∈ s.regs)
      (next : ToEnd g k b (i + 1) (insert x.out (D ∪ E)) X) : Step g k b i D X x

theorem ToEnd.step {i : Nat} {D X : Set Reg} (h : ToEnd g k b i D X) :
    ∃ x, (g.code b)[i]? = some x ∧ ToEnd.Step g k b i D X x := by
  obtain ⟨n, m, h⟩ := h
  cases h with
  | plain hx hp hin hout h => exact ⟨_, hx, .plain hp hin hout ⟨n, m, h⟩⟩
  | leave hx hk hv h =>
    obtain ⟨hi, hX⟩ := h.eq_of_ended rfl (by simp)
    exact ⟨_, hx, .leave hk hv hi.symm hX⟩
  | circuit hx hl hout hr hj h =>
    rename_i kind dest left r m' j n' e' D'
    have hlive : e' = .live := by
      by_contra hne
      have : Flow.live.around e' = .broken := by simp [Flow.around, hne]
      simpa using h.flow_of_broken this
    subst hlive
    refine ⟨_, hx, .circuit hl hout ?_ ?_ ⟨n', m, h⟩⟩
    · have := hr.index_le
      have := Shape.lands_le hj
      simp only at *
      omega
    · cases r with
      | some r =>
        obtain ⟨hr', hmove, rfl⟩ := hj
        refine ⟨n, m, (hr.carry D).weaken ?_ |>.trans ?_⟩
        · simp [operand, Value.isReg, Value.reg?]
        refine .plain hmove trivial (fun v hv => ?_) hout (h.weaken ?_)
        · rw [List.mem_singleton.mp hv]
          exact .inl hr'
        · exact Set.insert_subset_insert Set.subset_union_right
      | none =>
        obtain rfl : j = m' := hj
        refine ⟨n, m, (hr.carry (insert dest D)).weaken ?_ |>.trans (h.weaken ?_)⟩
        · simp [operand, Value.isReg, Value.reg?]
        · exact Set.subset_union_right
  | enter subs hx he hin hout hs hrefs hc hhas hsub hE h =>
    have hended : ∀ s ∈ subs, s.flow = .ended := by
      by_contra hne
      have : Flow.live.enter (subs.map (·.flow)) = .broken := by
        unfold Flow.enter
        rw [if_neg]
        simpa using hne
      simpa using h.flow_of_broken this
    have hlive : Flow.live.enter (subs.map (·.flow)) = .live :=
      Flow.enter_eq_live_iff.mpr ⟨rfl, by simpa using hended⟩
    rw [hlive] at h
    refine ⟨_, hx, .enter subs he hin hout hs hrefs (hc.nodup fun s hs => ?_) hhas (fun s hs => ?_)
      hE ⟨_, m, h⟩⟩
    · exact (hsub s hs).blocks_le
    · have hshape := hsub s hs
      rw [hended s hs] at hshape
      exact ⟨_, _, hshape⟩

end ScriptMachine
