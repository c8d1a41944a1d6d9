import ScriptMachine.Proofs.Lowering.ShapePasses
import ScriptMachine.Proofs.Machine.Orderly

/-!
# Plans of structured code

`Onward g z b i o` follows the code of block `b` of `g` from the index `i` to its end, with the outlook
`o` at its start and `z` at its end. The outlook may be narrowed at any point. A block that is entered
has an outlook of its own, within the one at hand, and what it leaves is where the code goes on.

If all blocks of a program's functions are of this kind, the program has a plan.
-/

namespace ScriptMachine

/-- From the outlook `o` the block `c` may be entered with the outlook `o'`. -/
def Outlook.Enters (o : Outlook) (c : BlockId) (o' : Outlook) : Prop :=
  o.blocks ≤ c.index ∧ o' ≤ o ∧ c.index < o'.blocks

theorem Instr.Plain.straight {x : Instr} (h : x.Plain) : x.Straight := by
  cases x <;> trivial

/-- The code of a block from an index on, with the outlook at its start and at its end. -/
inductive Onward (g : Func) : Outlook → BlockId → Nat → Outlook → Prop
  | stop {z b i o} (hi : (g.code b).length ≤ i) (hz : z ≤ o) : Onward g z b i o
  | narrow {z b i o o'} (ho : o' ≤ o) (next : Onward g z b i o') : Onward g z b i o
  | leave {z b i o how v} (hx : (g.code b)[i]? = some (.leave how v))
      (hin : ∀ r, v = .reg r → r ∉ o.regs) (hz : z ≤ o) : Onward g z b i o
  | straight {z b i o x} (hx : (g.code b)[i]? = some x) (hs : x.Straight)
      (hin : ∀ r, .reg r ∈ x.ins → r ∉ o.regs) (hout : x.out ∈ o.regs)
      (next : Onward g z b (i + 1) o) : Onward g z b i o
  | circuit {z b i o j kind dest left right}
      (hx : (g.code b)[i]? = some (.circuit kind dest left right (Int64.ofNat (j - (i + 1)))))
      (hij : i < j) (hj : j ≤ (g.code b).length) (hin : ∀ r, left = .reg r → r ∉ o.regs)
      (hdest : dest ∈ o.regs) (next : Onward g z b (i + 1) o) (skip : Onward g z b j o) :
      Onward g z b i o
  | dispatch {z b i o z' dest v arms default} (start : BlockId → Outlook)
      (hx : (g.code b)[i]? = some (.dispatch dest v arms default))
      (hin : ∀ r, .reg r ∈ v :: arms.map (·.pattern) → r ∉ o.regs)
      (hstart : ∀ c ∈ default :: arms.map (·.block), c ≠ .none → o.Enters c (start c))
      (sub : ∀ c ∈ default :: arms.map (·.block), c ≠ .none → Onward g z' c 0 (start c))
      (hz : z' ≤ o) (hdest : dest ∈ z'.regs) (next : Onward g z b (i + 1) z') : Onward g z b i o
  | guarded {z b i o dest gd z₁ z₂ z₃ o₁ o₂ o₃} (hx : (g.code b)[i]? = some (.guarded dest gd))
      (hbody : o.Enters gd.body o₁) (body : Onward g z₁ gd.body 0 o₁) (h₂ : z₂ ≤ z₁)
      (hhandler : gd.handler ≠ .none → gd.caught ∈ z₁.regs ∧ z₁.Enters gd.handler o₂)
      (handler : gd.handler ≠ .none → Onward g z₂ gd.handler 0 o₂) (h₃ : z₃ ≤ z₂)
      (hcleanup : gd.cleanup ≠ .none → z₂.Enters gd.cleanup o₃)
      (cleanup : gd.cleanup ≠ .none → Onward g z₃ gd.cleanup 0 o₃) (hdest : dest ∈ z₃.regs)
      (next : Onward g z b (i + 1) z₃) : Onward g z b i o

namespace Onward

variable {g : Func} {z o o' : Outlook} {b : BlockId} {i : Nat}

theorem le (h : Onward g z b i o) : z ≤ o := by
  induction h with
  | stop _ hz | leave _ _ hz => exact hz
  | narrow ho _ ih => exact Outlook.le_trans ih ho
  | straight _ _ _ _ _ ih | circuit _ _ _ _ _ _ _ ih => exact ih
  | dispatch _ _ _ _ _ hz _ _ _ ih => exact Outlook.le_trans ih hz
  | guarded _ hbody _ h₂ _ _ h₃ _ _ _ _ ihbody _ _ ih =>
    have h₁ := Outlook.le_trans ihbody hbody.2.1
    exact Outlook.le_trans ih (Outlook.le_trans h₃ (Outlook.le_trans h₂ h₁))

/-- Where a block starts, by the number of the instruction. -/
def At (g : Func) (b : BlockId) (ip : Int64) (o z : Outlook) : Prop :=
  ∃ i, ip = Int64.ofNat i ∧ i < codeLimit ∧ Onward g z b i o

section
variable (hlen : (g.code b).length < codeLimit)
include hlen

theorem goes {j : Nat} (hj : j ≤ (g.code b).length) (ho : o' ≤ o) (h : Onward g z b j o') :
    Outlooks.Goes (At g) b (Int64.ofNat j) o z :=
  ⟨o', ho, j, rfl, by omega, h⟩

theorem behind {dest : Reg} {x : Instr} (hx : (g.code b)[i]? = some x) (hdest : dest ∈ o.regs)
    (h : Onward g z b (i + 1) o) : Outlooks.Behind (At g) b (Int64.ofNat i) dest z o := by
  have hlt := (List.getElem?_eq_some_iff.mp hx).1
  refine ⟨hdest, ?_⟩
  have h₁ : Int64.ofNat i + 1 = Int64.ofNat (i + 1) := (Int64.ofNat_add i 1).symm
  rw [h₁]
  exact goes hlen hlt (Outlook.le_refl o) h

end

theorem opens {c : BlockId} (he : o.Enters c o') (h : Onward g z c 0 o') :
    Outlooks.Opens (At g) c o z :=
  ⟨he.1, o', he.2.1, he.2.2, 0, rfl, by decide, h⟩

/-- An instruction that the code follows reads and leads on as a plan asks, once the outlook was
narrowed. -/
theorem obeys (h : Onward g z b i o) (hlen : (g.code b).length < codeLimit) {x : Instr}
    (hx : (g.code b)[i]? = some x) :
    ∃ o', o' ≤ o ∧ z ≤ o' ∧ (∀ r, .reg r ∈ x.ins → r ∉ o'.regs) ∧
      x.Moves (At g) b (Int64.ofNat i) o' z := by
  have hle := h.le
  induction h with
  | stop hi _ =>
    have := (List.getElem?_eq_some_iff.mp hx).1
    omega
  | narrow ho next ih =>
    obtain ⟨o', ho', hz, hin, hmoves⟩ := ih hlen hx next.le
    exact ⟨o', Outlook.le_trans ho' ho, hz, hin, hmoves⟩
  | leave hx' hin hz =>
    obtain rfl := Option.some.inj (hx'.symm.trans hx)
    exact ⟨_, Outlook.le_refl _, hz, by simpa [Instr.ins, eq_comm] using hin, trivial⟩
  | straight hx' hs hin hout next =>
    obtain rfl := Option.some.inj (hx'.symm.trans hx)
    exact ⟨_, Outlook.le_refl _, hle, hin, hs.moves_iff.mpr (behind hlen hx hout next)⟩
  | circuit hx' hij hj hin hdest next skip =>
    obtain rfl := Option.some.inj (hx'.symm.trans hx)
    refine ⟨_, Outlook.le_refl _, hle, by simpa [Instr.ins, eq_comm] using hin, hdest,
      (behind hlen hx hdest next).2, ?_⟩
    rw [ofNat_skip hij]
    exact goes hlen hj (Outlook.le_refl _) skip
  | dispatch start hx' hin hstart sub hz hdest next =>
    obtain rfl := Option.some.inj (hx'.symm.trans hx)
    refine ⟨_, Outlook.le_refl _, hle, hin, _, hz, behind hlen hx hdest next, fun c hc hne => ?_⟩
    exact opens (hstart c hc hne) (sub c hc hne)
  | guarded hx' hbody body h₂ hhandler handler h₃ hcleanup cleanup hdest next =>
    obtain rfl := Option.some.inj (hx'.symm.trans hx)
    refine ⟨_, Outlook.le_refl _, hle, by simp [Instr.ins], _, opens hbody body, _, h₂, ?_, ?_⟩
    · exact fun hne => ⟨(hhandler hne).1, opens (hhandler hne).2 (handler hne)⟩
    · unfold Guard.Finishes
      split
      · obtain ⟨hdest', hgoes⟩ := behind hlen hx hdest next
        obtain ⟨o', ho', hat⟩ := hgoes
        exact ⟨h₃.2 hdest', o', Outlook.le_trans ho' h₃, hat⟩
      · rename_i hne
        exact ⟨_, opens (hcleanup hne) (cleanup hne), behind hlen hx hdest next⟩

end Onward

/-- A block that can be followed from its start. -/
def Func.Planned (g : Func) (c : BlockId) : Prop :=
  ∃ o z, c.index < o.blocks ∧ Onward g z c 0 o

/-- The plan of a program all of whose blocks can be followed. -/
def planOf {p : Program}
    (hp : ∀ f ∈ p.funcs, (∀ b, (f.code b).length < codeLimit) ∧ ∀ c, f.Has c → f.Planned c) :
    Plan p where
  At := Onward.At
  le h := by
    obtain ⟨i, -, -, h⟩ := h
    exact h.le
  obeys {f b ip o z x} hdef h hip hx := by
    obtain ⟨i, rfl, hi, h⟩ := h
    have hlimit := codeLimit_eq
    rw [Int64.toInt_ofNat_of_lt (by omega), Int.toNat_natCast] at hx
    exact h.obeys ((hp f (Program.func?_eq_some hdef).1).1 b) hx
  start {f b} hdef hb := by
    obtain ⟨o, z, hlt, h⟩ := (hp f (Program.func?_eq_some hdef).1).2 b hb
    exact ⟨o, z, hlt, 0, rfl, by decide, h⟩

end ScriptMachine
