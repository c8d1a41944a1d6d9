import ScriptMachine.Proofs.Check.Acceptance
import ScriptMachine.Proofs.Lowering.FuncShape
import ScriptMachine.Proofs.References

/-!
# The places of blocks

A chain of references tells the place of the block it leads to. `Stands g k b` says that the whole
code of block `b` has a shape at the place `k`; each reference in it leads to a block that stands at
the place behind that reference (`Shape.keeps`). All blocks of a shaped function can be reached, so each
of its instructions keeps to a place (`FuncShape.keeps`).

An instruction that keeps to a place writes registers of its function only. So there is nothing in a
function with not too many registers that the checker could crash on (`FuncShape.checkable`).
-/

namespace ScriptMachine

open Instr (Entry BlockRef)

variable {g : Func} {k : Context} {b : BlockId} {x : Instr}

/-! ## Places -/

/-- The whole code of a block has a shape at a place. -/
def Stands (g : Func) (k : Context) (b : BlockId) : Prop :=
  ∃ p q, Shape g k b p q ∧ p.index = 0 ∧ q.index = (g.code b).length

/-- An instruction that keeps to the place of its block: it leaves as the place allows, the blocks it
refers to stand at the places behind these references, and the registers it writes exist. -/
structure Keeps (g : Func) (k : Context) (x : Instr) : Prop where
  leave : ∀ how v, x = .leave how v → k.Allows how
  refs : ∀ r ∈ x.refs, g.Has r.block ∧ Stands g (k.enter r.entry) r.block
  known : ∀ what, x ≠ .stray what
  writes : ∀ r ∈ x.writes, r = .none ∨ g.InRange r

theorem Instr.Sane.writes (hs : x.Sane g) (he : x.Enters) (hout : g.InRange x.out) :
    ∀ r ∈ x.writes, r = .none ∨ g.InRange r := by
  intro r hr
  rcases List.mem_cons.mp hr with rfl | hr
  · exact .inr hout
  cases x with
  | closureCreate dest block captures params names =>
    rcases List.mem_append.mp hr with hr | hr
    · obtain ⟨c, hc, rfl⟩ := List.mem_map.mp hr
      exact .inr (hs.2.2 c hc)
    · exact .inr (hs.2.1 r hr)
  | dispatch dest v arms default => cases hr
  | guarded dest gd =>
    rw [List.mem_singleton.mp hr]
    exact hs.2
  | _ => exact he.elim

theorem Instr.Plain.keeps (h : x.Plain) (hout : g.InRange x.out) : Keeps g k x where
  leave how v hx := by
    rw [hx] at h
    cases h
  refs r hr := by
    rw [h.refs] at hr
    cases hr
  known what hx := by
    rw [hx] at h
    cases h
  writes r hr := by
    rw [h.writes, List.mem_singleton] at hr
    exact .inr (hr ▸ hout)

theorem keeps_circuit {kind : Circuit} {dest : Reg} {left right : Value} {skip : Int64}
    (hout : g.InRange dest) : Keeps g k (.circuit kind dest left right skip) :=
  ⟨nofun, nofun, nofun, fun _ hr => .inr (List.mem_singleton.mp hr ▸ hout)⟩

/-- An instruction at an index or behind it. -/
theorem keeps_from {y : Instr} {i j : Nat} (hy : (g.code b)[i]? = some y) (h : Keeps g k y)
    (hij : i ≤ j) (hx : (g.code b)[j]? = some x) (hnext : i + 1 ≤ j → Keeps g k x) : Keeps g k x := by
  rcases Nat.eq_or_lt_of_le hij with rfl | hlt
  · exact Option.some.inj (hy.symm.trans hx) ▸ h
  · exact hnext hlt

/-- Every instruction of a shaped stretch keeps to the place of its block. -/
theorem Shape.keeps {p q : Point} (h : Shape g k b p q) {i : Nat} (hi : p.index ≤ i)
    (hlt : i < q.index) (hx : (g.code b)[i]? = some x) : Keeps g k x := by
  induction h with
  | done => exact absurd hlt (Nat.not_lt.mpr hi)
  | plain hx' hp _ hout _ ih => exact keeps_from hx' (hp.keeps hout) hi hx fun hi => ih hi hlt hx
  | leave hx' hk _ _ ih =>
    refine keeps_from hx' ⟨fun how v heq => ?_, nofun, nofun,
      fun _ hr => .inl (List.mem_singleton.mp hr)⟩ hi hx fun hi => ih hi hlt hx
    obtain ⟨rfl, -⟩ := Instr.leave.inj heq
    exact hk
  | @circuit _ _ _ _ _ _ _ _ _ r m j _ _ _ _ hx' _ hout _ hj _ ihr ih =>
    refine keeps_from hx' (keeps_circuit hout) hi hx fun hi => ?_
    by_cases hm : i < m
    · exact ihr hi hm hx
    · by_cases hij : j ≤ i
      · exact ih hij hlt hx
      · -- only the move at the end of the operand is left
        cases r with
        | none =>
          obtain rfl : j = m := hj
          omega
        | some r =>
          obtain ⟨-, hmove, rfl⟩ := hj
          obtain rfl : i = m := by omega
          obtain rfl := Option.some.inj (hmove.symm.trans hx)
          exact Instr.Plain.keeps trivial hout
  | enter subs hx' he _ hout hs hrefs _ hhas hsub _ _ _ ih =>
    refine keeps_from hx' ⟨fun how v heq => ?_, fun r hr => ?_, fun what heq => ?_, hs.writes he hout⟩ hi
      hx fun hi => ih hi hlt hx
    · rw [heq] at he
      cases he
    · obtain ⟨s, hs, rfl⟩ := List.mem_map.mp (hrefs.mem_iff.mp hr)
      exact ⟨hhas s hs, _, _, hsub s hs, rfl, rfl⟩
    · rw [heq] at he
      cases he

theorem Stands.keeps (h : Stands g k b) (hx : x ∈ g.code b) : Keeps g k x := by
  obtain ⟨p, q, hshape, hp, hq⟩ := h
  obtain ⟨i, hi⟩ := List.mem_iff_getElem?.mp hx
  exact hshape.keeps (by omega) (by rw [hq]; exact (List.getElem?_eq_some_iff.mp hi).1) hi

/-! ## Reachability -/

/-- Every number between the ends of a chain is that of one of its blocks or of a block inside. -/
theorem Chain.exists_mem {n m c : Nat} {subs : List Sub} (h : Chain n subs m) (hn : n ≤ c)
    (hm : c < m) : ∃ s ∈ subs, ∃ i : Nat, s.ref.block = ⟨i⟩ ∧ i ≤ c ∧ c < s.stop := by
  induction subs generalizing n with
  | nil =>
    obtain rfl : n = m := h
    omega
  | cons s ss ih =>
    by_cases hc : c < s.stop
    · exact ⟨s, List.mem_cons_self, n, h.1, hn, hc⟩
    · obtain ⟨t, ht, hi⟩ := ih h.2 (by omega)
      exact ⟨t, List.mem_cons_of_mem s ht, hi⟩

/-- All blocks made for a stretch of code can be reached if its own block can. -/
theorem Shape.reachable {p q : Point} (h : Shape g k b p q) (hb : g.Reachable b) {c : Nat}
    (hc : p.blocks ≤ c) (hlt : c < q.blocks) : g.Reachable ⟨c⟩ := by
  induction h with
  | done => exact absurd hlt (Nat.not_lt.mpr hc)
  | plain _ _ _ _ _ ih => exact ih hb hc hlt
  | leave _ _ _ _ ih => exact ih hb hc hlt
  | @circuit _ _ _ _ _ _ _ _ _ _ _ _ n' _ _ _ _ _ _ _ _ _ ihr ih =>
    by_cases hn : c < n'
    · exact ihr hb hc hn
    · exact ih hb (Nat.not_lt.mp hn) hlt
  | @enter _ _ _ _ _ _ _ n' _ _ subs hx _ _ _ _ hrefs hchain hhas _ _ _ ihsub ih =>
    by_cases hn : c < n'
    · obtain ⟨s, hs, i, hi, hle, hstop⟩ := hchain.exists_mem hc hn
      have hreach : g.Reachable s.ref.block :=
        hb.ref (List.mem_of_getElem? hx) (hrefs.mem_iff.mpr (List.mem_map_of_mem hs)) (hhas s hs)
      rcases Nat.eq_or_lt_of_le hle with rfl | hlt'
      · rwa [hi] at hreach
      · exact ihsub s hs hreach (by simp only [hi, Int.toNat_natCast]; omega) hstop
    · exact ih hb (Nat.not_lt.mp hn) hlt

namespace FuncShape

variable {f : Func} {e : Flow}

theorem stands (h : FuncShape f e) : Stands f ⟨false, false⟩ f.entry := ⟨_, _, h.shape, rfl, rfl⟩

theorem reachable (h : FuncShape f e) {b : BlockId} (hb : f.Has b) : f.Reachable b := by
  obtain ⟨c, hc, rfl⟩ := hb.exists_natCast
  rcases Nat.eq_zero_or_pos c with rfl | hpos
  · have hentry := f.reachable_entry
    rwa [h.entry] at hentry
  · exact h.shape.reachable Func.reachable_entry hpos hc

end FuncShape

/-! ## Chains of references -/

theorem entry_ne_function {r : BlockRef} (hr : r ∈ x.refs) : r.entry ≠ .function := by
  have hopt : ∀ c, r ∈ Instr.optional c → r.entry ≠ .function := by
    intro c hc
    unfold Instr.optional at hc
    split at hc
    · cases hc
    · rw [List.mem_singleton.mp hc]
      simp
  cases x with
  | closureCreate dest c captures params names =>
    rw [List.mem_singleton.mp hr]
    simp
  | dispatch dest v arms default =>
    rcases List.mem_append.mp hr with hr | hr
    · obtain ⟨a, -, rfl⟩ := List.mem_map.mp hr
      simp
    · exact hopt _ hr
  | guarded dest gd =>
    rcases List.mem_cons.mp hr with rfl | hr
    · simp
    · exact (List.mem_append.mp hr).elim (hopt _) (hopt _)
  | _ => cases hr

/-- A chain of references leads to a block at a place that the references tell. -/
theorem FuncShape.leads {f : Func} {e : Flow} (h : FuncShape f e) {rs : List BlockRef} {b : BlockId}
    (hb : f.Leads rs b) : ∃ k, Stands f k b ∧ (k.closure = true ↔ ∃ r ∈ rs, r.entry = .closure) ∧
      (k.nested = true ↔ ∃ r, rs.getLast? = some r ∧ r.entry = .nested) := by
  induction hb with
  | entry => exact ⟨_, h.stands, by simp, by simp⟩
  | @ref rs b x r _ hx hr _ ih =>
    obtain ⟨k, hk, hclosure, -⟩ := ih
    refine ⟨_, ((hk.keeps hx).refs r hr).2, ?_⟩
    cases he : r.entry with
    | function => exact absurd he (entry_ne_function hr)
    | closure => exact ⟨by simp [Context.enter, he], by simp [Context.enter, he]⟩
    | nested => exact ⟨by simp [Context.enter, hclosure, he], by simp [Context.enter, he]⟩

theorem FuncShape.keeps {f : Func} {e : Flow} (h : FuncShape f e) {b : BlockId}
    (hx : x ∈ f.code b) : ∃ k, Keeps f k x := by
  obtain ⟨rs, hrs⟩ := h.reachable (Func.has_of_code_ne_nil (List.ne_nil_of_mem hx))
  obtain ⟨k, hk, -⟩ := h.leads hrs
  exact ⟨k, hk.keeps hx⟩

/-- A shaped function with not too many registers can be checked. -/
theorem FuncShape.checkable {f : Func} {e : Flow} (h : FuncShape f e)
    (hregs : f.numRegs ≤ 64 * BitSet.maxWords) : Check.Checkable f := by
  refine Check.checkable_of_le h.numRegs hregs (fun r hr => (h.paramRegs r hr).1) ?_
  rintro r (hr | ⟨b, x, hx, hr⟩)
  · exact (h.paramRegs r hr).2
  · obtain ⟨k, hk⟩ := h.keeps hx
    rcases hk.writes r hr with rfl | hin
    · exact Int.lt_of_lt_of_le (by decide) h.numRegs
    · exact hin.2

end ScriptMachine
