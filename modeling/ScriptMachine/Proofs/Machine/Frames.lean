import Mathlib.Data.Set.Basic
import ScriptMachine.Proofs.Blocks
import ScriptMachine.Proofs.Results
import ScriptMachine.Machine.Frame

/-!
# Registers of a frame

What reading and writing do to a frame, told by `Frame.get?`: a write changes the register that it
names and no other. Writes that copy registers in order are `Frame.Moved`, as if made at once, where no
register is both copied and written (`Movable`).
-/

namespace ScriptMachine

namespace Frame

variable {fr fr' : Frame} {r q : Reg} {v x : Value} {c : Cause}

/-! ## One register -/

theorem get?_eq_some_iff :
    fr.get? r = some x ↔ 0 ≤ r.index ∧ fr.regs[r.index.toNat]? = some x ∧ x.isSet = true := by
  unfold get?
  split
  · simp; omega
  · simp only [Option.filter_eq_some_iff]
    constructor
    · rintro ⟨h, hx⟩
      exact ⟨by omega, h, hx⟩
    · rintro ⟨-, h, hx⟩
      exact ⟨h, hx⟩

theorem isSet_of_get? (h : fr.get? r = some x) : x.isSet = true := (get?_eq_some_iff.mp h).2.2

theorem write_eq_ok_iff : fr.write r v = .ok fr' ↔
    (0 ≤ r.index ∧ r.index < fr.regs.size) ∧
      fr' = { fr with regs := fr.regs.set! r.index.toNat v } := by
  unfold write
  split
  · rename_i h
    simp only [Except.ok.injEq, h, true_and]
    exact eq_comm
  · rename_i h
    simp [h]

theorem write_eq_error_iff : fr.write r v = .error c ↔
    ¬ (0 ≤ r.index ∧ r.index < fr.regs.size) ∧ c = .writeOutside r fr.func.name fr.regs.size := by
  unfold write
  split
  · rename_i h
    simp [h]
  · rename_i h
    simp only [Except.error.injEq, h, not_false_eq_true, true_and]
    exact eq_comm

section
variable (h : fr.write r v = .ok fr')
include h

theorem func_write : fr'.func = fr.func := by
  rw [(write_eq_ok_iff.mp h).2]

theorem size_write : fr'.regs.size = fr.regs.size := by
  rw [(write_eq_ok_iff.mp h).2]
  simp

/-- A register that is written holds the value, or is unset if that is none. -/
theorem get?_write : fr'.get? r = (some v).filter Value.isSet := by
  obtain ⟨⟨h₀, h₁⟩, rfl⟩ := write_eq_ok_iff.mp h
  have hlt : r.index.toNat < fr.regs.size := by omega
  unfold get?
  rw [if_neg (by omega)]
  simp [hlt]

theorem get?_write_self (hv : v.isSet = true) : fr'.get? r = some v := by
  rw [get?_write h]
  simp [hv]

theorem get?_write_of_ne (hq : q ≠ r) : fr'.get? q = fr.get? q := by
  obtain ⟨⟨h₀, h₁⟩, rfl⟩ := write_eq_ok_iff.mp h
  unfold get?
  split
  · rfl
  · rename_i hq₀
    have hne : r.index.toNat ≠ q.index.toNat := by
      intro heq
      apply hq
      obtain ⟨i⟩ := q
      obtain ⟨j⟩ := r
      simp only [Reg.mk.injEq] at *
      omega
    simp [hne]

theorem eq_of_get?_write (hx : fr'.get? r = some x) : x = v := by
  obtain ⟨⟨h₀, h₁⟩, rfl⟩ := write_eq_ok_iff.mp h
  have hlt : r.index.toNat < fr.regs.size := by omega
  rw [get?_eq_some_iff] at hx
  simp only [Array.set!_eq_setIfInBounds, Array.getElem?_setIfInBounds_self, hlt, ↓reduceIte,
    Option.some.injEq] at hx
  exact hx.2.1.symm

/-- What is found behind a write was found before or was written. -/
theorem get?_of_write (hx : fr'.get? q = some x) : fr.get? q = some x ∨ q = r ∧ x = v := by
  by_cases hq : q = r
  · subst hq
    exact .inr ⟨rfl, eq_of_get?_write h hx⟩
  · rw [get?_write_of_ne h hq] at hx
    exact .inl hx

end

theorem func_writeAll {binds : List (Reg × Value)} (h : fr.writeAll binds = .ok fr') :
    fr'.func = fr.func := by
  induction binds generalizing fr with
  | nil => rw [← Except.ok.inj h]
  | cons b binds ih =>
    obtain ⟨r, v⟩ := b
    obtain ⟨fr₁, h₁, h⟩ := bind_eq_ok_iff.mp h
    exact (ih h).trans (func_write h₁)

/-! ## Operands -/

theorem read_eq_ok_iff : fr.read v = .ok x ↔
    (∃ r, v = .reg r ∧ fr.get? r = some x) ∨ v.isReg = false ∧ x = v := by
  unfold read
  split
  · rename_i r
    cases h : fr.get? r <;> simp [h, Value.isReg, Value.reg?]
  · rename_i hreg
    have hne : ∀ r, v ≠ .reg r := fun r h => hreg r h
    have : v.isReg = false := by
      cases v with
      | reg r => exact absurd rfl (hne r)
      | _ => rfl
    simp only [Except.ok.injEq, hne, false_and, exists_const, this, true_and, false_or]
    exact eq_comm

theorem read_eq_error_iff :
    fr.read v = .error c ↔ ∃ r, v = .reg r ∧ fr.get? r = none ∧ c = .readUnset r := by
  unfold read
  split
  · rename_i r
    cases h : fr.get? r <;> simp [h, eq_comm]
  · rename_i hreg
    simp only [reduceCtorEq, false_iff, not_exists]
    rintro r ⟨rfl, -⟩
    exact hreg r rfl

theorem readAll_eq_error {vs : List Value} (h : fr.readAll vs = .error c) :
    ∃ v ∈ vs, fr.read v = .error c := by
  induction vs with
  | nil => simp [readAll] at h
  | cons v vs ih =>
    rw [readAll, bind_eq_error_iff] at h
    rcases h with h | ⟨y, -, h⟩
    · exact ⟨v, List.mem_cons_self, h⟩
    · rw [bind_eq_error_iff] at h
      rcases h with h | ⟨ys, -, h⟩
      · obtain ⟨u, hu, hread⟩ := ih h
        exact ⟨u, List.mem_cons_of_mem v hu, hread⟩
      · simp [pure, Except.pure] at h

/-! ## New frames -/

theorem new_eq_ok_iff {f : Func} : Frame.new f = .ok fr ↔
    (0 ≤ f.numRegs ∧ f.numRegs ≤ maxRegs) ∧
      fr = ⟨f, Array.replicate f.numRegs.toNat .unset⟩ := by
  unfold Frame.new
  split
  · rename_i h
    simp only [reduceCtorEq, false_iff]
    omega
  · rename_i h
    have : 0 ≤ f.numRegs ∧ f.numRegs ≤ maxRegs := by omega
    simp only [Except.ok.injEq, this, and_self, true_and]
    exact eq_comm

theorem get?_new {f : Func} (h : Frame.new f = .ok fr) (r : Reg) : fr.get? r = none := by
  obtain ⟨-, rfl⟩ := new_eq_ok_iff.mp h
  cases hr : get? ⟨f, Array.replicate f.numRegs.toNat .unset⟩ r with
  | none => rfl
  | some x =>
    obtain ⟨-, hx, hset⟩ := get?_eq_some_iff.mp hr
    obtain ⟨hlt, rfl⟩ := Array.getElem?_eq_some_iff.mp hx
    simp [Value.isSet] at hset

end Frame

/-! ## Frames that differ in few registers -/

/-- A frame of the same function in which all registers but those in `W` are as they were. -/
structure Frame.Spares (W : Set Reg) (fr fr' : Frame) : Prop where
  func : fr'.func = fr.func
  get? : ∀ r, r ∉ W → fr'.get? r = fr.get? r

namespace Frame.Spares

variable {W V : Set Reg} {fr fr' fr'' : Frame}

theorem refl (W : Set Reg) (fr : Frame) : fr.Spares W fr := ⟨rfl, fun _ _ => rfl⟩

theorem trans (h : fr.Spares W fr') (h' : fr'.Spares W fr'') : fr.Spares W fr'' :=
  ⟨h'.func.trans h.func, fun r hr => (h'.get? r hr).trans (h.get? r hr)⟩

theorem mono (h : fr.Spares W fr') (hWV : W ⊆ V) : fr.Spares V fr' :=
  ⟨h.func, fun r hr => h.get? r fun hmem => hr (hWV hmem)⟩

theorem write (h : fr.Spares W fr') {r : Reg} (hr : r ∈ W) {v : Value} (hw : fr'.write r v = .ok fr'') :
    fr.Spares W fr'' where
  func := (Frame.func_write hw).trans h.func
  get? q hq := (Frame.get?_write_of_ne hw fun (heq : q = r) => hq (heq ▸ hr)).trans (h.get? q hq)

end Frame.Spares

/-! ## Arguments -/

theorem mem_bindArgs {rs : List Reg} {vs : List Value} {r : Reg} {v : Value}
    (h : (r, v) ∈ bindArgs rs vs) : r ∈ rs ∧ (v = .null ∨ v ∈ vs) := by
  fun_induction bindArgs rs vs with
  | case1 => cases h
  | case2 q rs ih =>
    rcases List.mem_cons.mp h with h | h
    · cases h
      exact ⟨List.mem_cons_self, .inl rfl⟩
    · exact ⟨List.mem_cons_of_mem q (ih h).1, (ih h).2⟩
  | case3 q rs u vs ih =>
    rcases List.mem_cons.mp h with h | h
    · cases h
      exact ⟨List.mem_cons_self, .inr List.mem_cons_self⟩
    · exact ⟨List.mem_cons_of_mem q (ih h).1, (ih h).2.imp id (List.mem_cons_of_mem u)⟩

theorem map_fst_bindArgs (rs : List Reg) (vs : List Value) : (bindArgs rs vs).map (·.1) = rs := by
  fun_induction bindArgs rs vs <;> simp_all

/-! ## Registers that are set from others -/

/-- What an operand stands for, where a missing one is null. -/
def Frame.given (fr : Frame) (old : Option Reg) : Value := (old.bind fr.get?).getD .null

/-- Registers to be set from others. No register is both, and none is set from two. -/
structure Movable (ms : List (Reg × Option Reg)) : Prop where
  one : ∀ m ∈ ms, ∀ m' ∈ ms, m.1 = m'.1 → m.2 = m'.2
  apart : ∀ m ∈ ms, ∀ m' ∈ ms, m.2 ≠ some m'.1

/-- Registers were set from others, and no more. -/
structure Frame.Moved (ms : List (Reg × Option Reg)) (fr fr' : Frame) : Prop where
  func : fr'.func = fr.func
  moved : ∀ m ∈ ms, fr'.get? m.1 = some (fr.given m.2)
  kept : ∀ q, (∀ m ∈ ms, m.1 ≠ q) → fr'.get? q = fr.get? q

theorem Movable.tail {m : Reg × Option Reg} {ms : List (Reg × Option Reg)} (h : Movable (m :: ms)) :
    Movable ms where
  one m hm m' hm' := h.one m (List.mem_cons_of_mem _ hm) m' (List.mem_cons_of_mem _ hm')
  apart m hm m' hm' := h.apart m (List.mem_cons_of_mem _ hm) m' (List.mem_cons_of_mem _ hm')

theorem Frame.Moved.cons {m : Reg × Option Reg} {ms : List (Reg × Option Reg)} (hms : Movable (m :: ms))
    {fr fr₁ fr' : Frame} (hw : fr.write m.1 (fr.given m.2) = .ok fr₁)
    (hset : (fr.given m.2).isSet = true) (h : fr₁.Moved ms fr') : fr.Moved (m :: ms) fr' := by
  have hsame : ∀ m' ∈ m :: ms, fr₁.given m'.2 = fr.given m'.2 := by
    rintro ⟨q, old⟩ hmem
    cases old with
    | none => rfl
    | some r =>
      have hne : r ≠ m.1 := fun heq => hms.apart _ hmem m List.mem_cons_self (congrArg some heq)
      simp only [given, Option.bind_some, Frame.get?_write_of_ne hw hne]
  refine ⟨h.func.trans (Frame.func_write hw), fun m' hm' => ?_, fun q hq => ?_⟩
  · by_cases hin : ∃ m'' ∈ ms, m''.1 = m'.1
    · obtain ⟨m'', hm'', heq⟩ := hin
      have hmem := List.mem_cons_of_mem m hm''
      rw [← heq, h.moved m'' hm'', hsame m'' hmem, hms.one m'' hmem m' hm' heq]
    · obtain rfl : m' = m := (List.mem_cons.mp hm').resolve_right fun hm' => hin ⟨m', hm', rfl⟩
      rw [h.kept m'.1 fun m'' hm'' heq => hin ⟨m'', hm'', heq⟩, Frame.get?_write_self hw hset]
  · rw [h.kept q fun m' hm' => hq m' (List.mem_cons_of_mem m hm'),
      Frame.get?_write_of_ne hw fun heq => hq m List.mem_cons_self heq.symm]

end ScriptMachine
