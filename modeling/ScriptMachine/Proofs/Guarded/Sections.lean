import ScriptMachine.Proofs.Guarded.Confined
import ScriptMachine.Proofs.Guarded.Visits
import ScriptMachine.Proofs.Meaning.Choices

/-!
# The code of sections

The code of each node is confined to the registers that were taken for it (`confined_node`), and it never
yields (`not_yield_node`).

The law of a node says where its code goes on to at the end of the block. A function that is cut short
behind the code of the node has that end, so that the law can be used there.
-/

namespace ScriptMachine

/-! ## Functions cut short -/

namespace Func

/-- The function with the code of one block cut short. -/
def cut (f : Func) (b : BlockId) (n : Nat) : Func :=
  { f with blocks := f.blocks.modify b.index.toNat fun k => { k with code := k.code.take n } }

variable {f : Func} {b : BlockId}

@[simp] theorem cut_size (f : Func) (b : BlockId) (n : Nat) :
    (f.cut b n).blocks.size = f.blocks.size := by
  simp [cut]

theorem cut_code_self (h : f.Has b) (n : Nat) : (f.cut b n).code b = (f.code b).take n := by
  obtain ⟨i, hi, rfl⟩ := h.exists_natCast
  have hi₀ : ¬ (i : Int) < 0 := by omega
  simp [code, cut, block?, Array.getElem_modify, hi, hi₀]

theorem cut_code_ne {c : BlockId} (h : f.Has b) (hc : c ≠ b) (n : Nat) :
    (f.cut b n).code c = f.code c :=
  modify_code_ne hc h.1 _

end Func

/-! ## Confined code -/

/-- Code that can be followed in a function whose block `a` is cut short writes only registers of the
outlook at its start. It does not come to `a` again. -/
theorem Onward.confined {f g : Func} {z o : Outlook} {a b : BlockId} {i : Nat} {W : Set Reg}
    (h : Onward f z b i o) (hcode : ∀ c, c ≠ a → f.code c = g.code c) (hpre : f.code a <+: g.code a)
    (ha : a.index < o.blocks) (hW : o.regs ⊆ W) (hi : i ≤ (f.code b).length) :
    Confined g W b i (f.code b).length := by
  have hget : ∀ {c : BlockId} {l : Nat} {x : Instr}, (f.code c)[l]? = some x → (g.code c)[l]? = some x := by
    intro c l x hx
    by_cases hc : c = a
    · subst hc
      obtain ⟨rest, heq⟩ := hpre
      rw [← heq, List.getElem?_append_left (List.getElem?_eq_some_iff.mp hx).1, hx]
    · rwa [← hcode c hc]
  have hlt : ∀ {c : BlockId} {l : Nat} {x : Instr}, (f.code c)[l]? = some x → l < (f.code c).length :=
    fun hx => (List.getElem?_eq_some_iff.mp hx).1
  have hsub : ∀ {c : BlockId} {o o' : Outlook}, o.Enters c o' → a.index < o.blocks → o.regs ⊆ W →
      (a.index < o'.blocks → o'.regs ⊆ W → 0 ≤ (f.code c).length →
        Confined g W c 0 (f.code c).length) → Confined g W c 0 (g.code c).length := by
    rintro c o o' ⟨hle, hsub, -⟩ ha hW hc
    have hca : c ≠ a := by
      rintro rfl
      omega
    rw [← hcode c hca]
    exact hc (lt_of_lt_of_le ha hsub.1) (hsub.2.trans hW) (Nat.zero_le _)
  induction h with
  | @stop z b i o hlen hz =>
    obtain rfl : i = (f.code b).length := by omega
    exact .stop
  | narrow ho _ ih => exact ih (lt_of_lt_of_le ha ho.1) (ho.2.trans hW) hi
  | leave hx _ _ => exact .leave (hget hx) (hlt hx)
  | straight hx hs _ hout _ ih => exact .straight (hget hx) hs (hW hout) (ih ha hW (hlt hx))
  | circuit hx hij hj _ hdest _ _ ih ihskip =>
    exact .circuit (hget hx) hij (hW hdest) (ih ha hW (hlt hx)) (ihskip ha hW hj)
  | dispatch start hx _ hstart _ hz hdest _ ihsub ih =>
    exact .dispatch (hget hx) (fun c hc hne => hsub (hstart c hc hne) ha hW (ihsub c hc hne))
      (hW (hz.2 hdest)) (ih (lt_of_lt_of_le ha hz.1) (hz.2.trans hW) (hlt hx))
  | @guarded z b i o dest gd z₁ z₂ z₃ o₁ o₂ o₃ hx hbody body h₂ hhandler _ h₃ hcleanup _ hdest _ ihbody
      ihhandler ihcleanup ih =>
    have h₁ : z₁ ≤ o := Outlook.le_trans body.le hbody.2.1
    have h₂ : z₂ ≤ o := Outlook.le_trans h₂ h₁
    have h₃ : z₃ ≤ o := Outlook.le_trans h₃ h₂
    exact .guarded (hget hx) (hsub hbody ha hW ihbody) (fun hne => hW (h₁.2 (hhandler hne).1))
      (fun hne => hsub (hhandler hne).2 (lt_of_lt_of_le ha h₁.1) (h₁.2.trans hW) (ihhandler hne))
      (fun hne => hsub (hcleanup hne) (lt_of_lt_of_le ha h₂.1) (h₂.2.trans hW) (ihcleanup hne))
      (hW (h₃.2 hdest)) (ih (lt_of_lt_of_le ha h₃.1) (h₃.2.trans hW) (hlt hx))

/-- Each block of a function that can be followed is confined to its registers. -/
theorem Func.Planned.confined {g : Func} {c : BlockId} (h : g.Planned c) :
    Confined g Set.univ c 0 (g.code c).length := by
  obtain ⟨o, z, hlt, hon⟩ := h
  exact hon.confined (a := c) (fun _ _ => rfl) List.prefix_rfl hlt (Set.subset_univ _) (Nat.zero_le _)

/-- What the code between two states may write, where the registers `C` are captured. -/
def takenRegs (C : Set Reg) (s t : Builder) : Set Reg :=
  {r | r ∉ C ∧ s.func.numRegs ≤ r.index ∧ r.index < t.func.numRegs}

namespace Lowering

open Build

variable {g : Func} {C : Set Reg} {b : BlockId} {s t : Builder}

/-- The code of a node writes only the registers that were taken for it. -/
theorem confined_node {x : Node} (h : Inside g C b s (node b x s).2) :
    Confined g (takenRegs C s (node b x s).2) b (s.func.code b).length
      ((node b x s).2.func.code b).length := by
  have hgrow := adds_node b x s
  have hlen := hgrow.func.length_le b
  have hlaw := settles_node (g := g.cut b ((node b x s).2.func.code b).length) b x
    (C ∪ {r | (node b x s).2.func.numRegs ≤ r.index}) ∅ s.func.numRegs s (le_refl _)
  generalize (node b x s).2 = t at *
  rcases Nat.eq_or_lt_of_le hlen with heq | hlt
  · rw [heq]
    exact .stop
  · have hhas : g.Has b := h.agrees.has (hgrow.func.has h.has)
    have hget : ∀ i y, (s.func.code b).length ≤ i → (t.func.code b)[i]? = some y →
        (g.code b)[i]? = some y := h.agrees.code b
    have htg : (t.func.code b).length ≤ (g.code b).length := by
      have hlast := hget ((t.func.code b).length - 1) _ (by omega)
        (List.getElem?_eq_getElem (by omega))
      have := (List.getElem?_eq_some_iff.mp hlast).1
      omega
    have hcut : (g.cut b (t.func.code b).length).code b = (g.code b).take (t.func.code b).length :=
      Func.cut_code_self hhas _
    have hcutlen : ((g.cut b (t.func.code b).length).code b).length = (t.func.code b).length := by
      rw [hcut, List.length_take]
      omega
    have ha : Agrees (g.cut b (t.func.code b).length) ∅ s t := by
      refine ⟨h.agrees.numRegs, by simpa using h.agrees.size, fun c i y hi hy => ?_, fun c hc ht _ => ?_⟩
      · by_cases hcb : c = b
        · subst hcb
          rw [hcut, List.getElem?_take_of_lt (List.getElem?_eq_some_iff.mp hy).1]
          exact hget i y hi hy
        · rw [Func.cut_code_ne hhas hcb]
          exact h.agrees.code c i y hi hy
      · have hcb : c ≠ b := fun heq => hc (heq ▸ h.has)
        rw [Func.cut_code_ne hhas hcb]
        exact h.agrees.finished c hc ht id
    have hkept : Kept (C ∪ {r | t.func.numRegs ≤ r.index}) ∅ s :=
      ⟨h.kept.numRegs, h.kept.scope, nofun, fun p hp => (h.kept.names p hp).imp .inl id⟩
    have hc : Captures (C ∪ {r | t.func.numRegs ≤ r.index}) t := by
      intro r hr
      rw [← h.captures r hr]
      exact ⟨fun hmem => hmem.resolve_right fun hle => absurd hr (not_lt.mpr hle), .inl⟩
    obtain ⟨hlaid, -⟩ := hlaw hkept h.has hc ha
    have hon := hlaid.onward _ (.stop (le_of_eq hcutlen) (Outlook.le_refl _))
    have hconf := hon.confined (g := g) (a := b) (fun c hcb => Func.cut_code_ne hhas hcb _)
      (by rw [hcut]; exact List.take_prefix _ _) h.has.2 (W := takenRegs C s t) (fun r hr => ?_) (by omega)
    · rwa [hcutlen] at hconf
    · refine ⟨fun hmem => hr (.inl (.inl hmem)), ?_, ?_⟩
      · exact not_lt.mp fun hlt => hr (.inr ⟨hlt, id⟩)
      · exact not_le.mp fun hle => hr (.inl (.inr hle))

end Lowering

/-! ## Yields -/

/-- Code that is not entered from another block yields nothing. -/
theorem Shape.not_yield {g : Func} {k : Context} {b : BlockId} {p q : Point} (h : Shape g k b p q)
    (hk : k.nested = false) {l : Nat} (hpl : p.index ≤ l) (hlq : l < q.index) (v : Value) :
    (g.code b)[l]? ≠ some (.leave .yield v) := by
  have hself : ∀ {b : BlockId} {i : Nat} {x : Instr}, (g.code b)[i]? = some x →
      (∀ v, x ≠ .leave .yield v) → i = l → (g.code b)[l]? ≠ some (.leave .yield v) := by
    rintro b i x hx hne rfl heq
    exact hne v (Option.some.inj (hx.symm.trans heq))
  induction h with
  | done => exact absurd hlq (not_lt.mpr hpl)
  | @plain k b i n e q x D hx hp hin hout hq ih =>
    rcases Nat.eq_or_lt_of_le hpl with heq | hlt
    · refine hself hx (fun v hv => ?_) heq
      rw [hv] at hp
      exact hp
    · exact ih hk hlt hlq
  | @leave k b i n e q how y D hx hallow hv hq ih =>
    rcases Nat.eq_or_lt_of_le hpl with heq | hlt
    · refine hself hx (fun v hv => ?_) heq
      obtain ⟨rfl, -⟩ := Instr.leave.inj hv
      rw [Context.Allows, hk] at hallow
      cases hallow
    · exact ih hk hlt hlq
  | @circuit k b i n e q kind dest left r m j n' e' D D' hx hl hout hr hj hq ihr ih =>
    rcases Nat.eq_or_lt_of_le hpl with heq | hlt
    · exact hself hx nofun heq
    · by_cases hlm : l < m
      · exact ihr hk hlt hlm
      · by_cases hlj : l < j
        · -- the move to the register of the short circuit
          cases r with
          | none =>
            have : j = m := hj
            omega
          | some r =>
            obtain ⟨-, hmove, rfl⟩ := hj
            exact hself hmove nofun (by omega)
        · exact ih hk (by simpa using hlj) hlq
  | @enter k b i n e q x n' D E subs hx he hin hout hs hrefs hc hhas hsub hE hq ihsub ih =>
    rcases Nat.eq_or_lt_of_le hpl with heq | hlt
    · refine hself hx (fun v hv => ?_) heq
      rw [hv] at he
      exact he
    · exact ih hk hlt hlq

namespace Lowering

open Build

variable {g : Func} {C : Set Reg} {b : BlockId} {s t : Builder}

/-- The code of a node in its own block yields nothing. -/
theorem not_yield_node {x : Node} (h : Inside g C b s (node b x s).2) {l : Nat}
    (hl : (s.func.code b).length ≤ l) (hlt : l < ((node b x s).2.func.code b).length) (v : Value) :
    (g.code b)[l]? ≠ some (.leave .yield v) := by
  have haround : Around ⟨!s.enclosing.isEmpty, false⟩ s Set.univ :=
    ⟨h.kept.numRegs, by simp, h.kept.scope, fun _ _ => trivial⟩
  have hlaw : Lowers g ⟨!s.enclosing.isEmpty, false⟩ False b Set.univ .broken (node b x) x.flow :=
    lowers_node b x _ Set.univ .broken
  obtain ⟨D, e, -, hshape, -⟩ := hlaw s ⟨haround, h.has, nofun, nofun⟩ (Set.subset_univ _) h.agrees nofun
  exact hshape.not_yield rfl hl hlt v

end Lowering

end ScriptMachine
