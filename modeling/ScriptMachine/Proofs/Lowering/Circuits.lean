import ScriptMachine.Proofs.Lowering.Layout

/-!
# Short circuits of lowered code

A short circuit at index `i` of a block skips some number `n i` of instructions. In lowered code these
are the code of its right operand and nothing else.

1. The skip stays inside the block. If the operand has a value, its last instruction moves that value
   to the register of the short circuit, and no other instruction of the operand writes this register.
2. The stretches `[i, i + n i]` of two short circuits are disjoint, or one contains the other.

`Skips code n` says this of the code of a block. It follows the way `Bracketed` code is made:
nothing but a short circuit in front of the code of its operand adds to `n`.
-/

namespace ScriptMachine

open Lowering (landing)

/-- What a short circuit at index `i` of some code, which skips `n` instructions, has behind it. -/
structure SkipsOperand (code : List Instr) (i : Nat) (dest : Reg) (right : Value) (n : Nat) :
    Prop where
  inside : i + n < code.length
  lands : ∀ r, right = .reg r → code[i + n]? = some (.move dest r)
  only : ∀ j y, i < j → j ≤ i + n → code[j]? = some y → dest ∈ y.writes →
    j = i + n ∧ ∃ r, right = .reg r

/-- `n` gives the lengths of the right operands of all short circuits in some code. -/
structure Skips (code : List Instr) (n : Nat → Nat) : Prop where
  operand : ∀ i kind dest left right skip,
    code[i]? = some (.circuit kind dest left right skip) →
      skip = Int64.ofNat (n i) ∧ SkipsOperand code i dest right (n i)
  nested : ∀ i j x y, code[i]? = some x → code[j]? = some y → x.isCircuit = true →
    y.isCircuit = true → i < j → i + n i < j ∨ j + n j ≤ i + n i

section
variable {xs ys : List Instr} {n m : Nat → Nat}

theorem exists_of_isCircuit {x : Instr} (h : x.isCircuit = true) :
    ∃ kind dest left right skip, x = .circuit kind dest left right skip := by
  cases x with
  | circuit kind dest left right skip => exact ⟨kind, dest, left, right, skip, rfl⟩
  | _ => cases h

theorem skips_of_plain (h : ∀ x ∈ xs, x.isCircuit = false) (n : Nat → Nat) : Skips xs n where
  operand i _ _ _ _ _ hx := by cases h _ (List.mem_of_getElem? hx)
  nested i j x y hx _ hc _ _ := by
    rw [h x (List.mem_of_getElem? hx)] at hc
    cases hc

/-- More code behind the operand changes nothing. -/
theorem SkipsOperand.append {i k : Nat} {dest : Reg} {right : Value}
    (h : SkipsOperand xs i dest right k) (ys : List Instr) :
    SkipsOperand (xs ++ ys) i dest right k where
  inside := by rw [List.length_append]; exact Nat.lt_add_right _ h.inside
  lands r hr := by rw [List.getElem?_append_left h.inside]; exact h.lands r hr
  only j y hij hj hy hw := by
    rw [List.getElem?_append_left (lt_of_le_of_lt hj h.inside)] at hy
    exact h.only j y hij hj hy hw

/-- Code in front of the short circuit changes nothing. -/
theorem SkipsOperand.prepend {i k : Nat} {dest : Reg} {right : Value}
    (h : SkipsOperand ys i dest right k) (xs : List Instr) :
    SkipsOperand (xs ++ ys) (xs.length + i) dest right k where
  inside := by
    have := h.inside
    rw [List.length_append]
    omega
  lands r hr := by
    rw [List.getElem?_append_right (by omega), show xs.length + i + k - xs.length = i + k by omega]
    exact h.lands r hr
  only j y hij hj hy hw := by
    rw [List.getElem?_append_right (by omega)] at hy
    obtain ⟨hlast, hr⟩ := h.only (j - xs.length) y (by omega) (by omega) hy hw
    exact ⟨by omega, hr⟩

/-- The lengths in two pieces of code, one behind the other. -/
def joinLengths (xs : List Instr) (n m : Nat → Nat) (i : Nat) : Nat :=
  if i < xs.length then n i else m (i - xs.length)

theorem joinLengths_left {i : Nat} (h : i < xs.length) : joinLengths xs n m i = n i := if_pos h

theorem joinLengths_right (xs : List Instr) (i : Nat) :
    joinLengths xs n m (xs.length + i) = m i := by
  rw [joinLengths, if_neg (by omega), Nat.add_sub_cancel_left]

theorem Skips.append (hx : Skips xs n) (hy : Skips ys m) : Skips (xs ++ ys) (joinLengths xs n m) where
  operand i kind dest left right skip hi := by
    by_cases hlt : i < xs.length
    · rw [List.getElem?_append_left hlt] at hi
      rw [joinLengths_left hlt]
      obtain ⟨hskip, h⟩ := hx.operand i kind dest left right skip hi
      exact ⟨hskip, h.append ys⟩
    · obtain ⟨i, rfl⟩ := Nat.exists_eq_add_of_le (Nat.not_lt.mp hlt)
      rw [List.getElem?_append_right (by omega), Nat.add_sub_cancel_left] at hi
      rw [joinLengths_right]
      obtain ⟨hskip, h⟩ := hy.operand i kind dest left right skip hi
      exact ⟨hskip, h.prepend xs⟩
  nested i j x y hi hj hcx hcy hij := by
    by_cases hjlt : j < xs.length
    · have hilt : i < xs.length := lt_trans hij hjlt
      rw [List.getElem?_append_left hilt] at hi
      rw [List.getElem?_append_left hjlt] at hj
      rw [joinLengths_left hilt, joinLengths_left hjlt]
      exact hx.nested i j x y hi hj hcx hcy hij
    · obtain ⟨j, rfl⟩ := Nat.exists_eq_add_of_le (Nat.not_lt.mp hjlt)
      rw [List.getElem?_append_right (by omega), Nat.add_sub_cancel_left] at hj
      by_cases hilt : i < xs.length
      · -- the first ends before the second piece starts
        rw [List.getElem?_append_left hilt] at hi
        obtain ⟨kind, dest, left, right, skip, rfl⟩ := exists_of_isCircuit hcx
        have := (hx.operand i kind dest left right skip hi).2.inside
        rw [joinLengths_left hilt]
        omega
      · obtain ⟨i, rfl⟩ := Nat.exists_eq_add_of_le (Nat.not_lt.mp hilt)
        rw [List.getElem?_append_right (by omega), Nat.add_sub_cancel_left] at hi
        rw [joinLengths_right, joinLengths_right]
        have := hy.nested i j x y hi hj hcx hcy (by omega)
        omega

/-- The lengths in code with one instruction more in front of it. -/
def consLength (k : Nat) (m : Nat → Nat) : Nat → Nat
  | 0 => k
  | i + 1 => m i

/-- A short circuit in front of its operand. -/
theorem Skips.circuit {kind : Circuit} {dest : Reg} {left right : Value} (h : Skips ys m)
    (hfirst : SkipsOperand (.circuit kind dest left right (Int64.ofNat ys.length) :: ys) 0 dest right
      ys.length) :
    Skips (.circuit kind dest left right (Int64.ofNat ys.length) :: ys)
      (consLength ys.length m) where
  operand i kind' dest' left' right' skip hi := by
    cases i with
    | zero =>
      obtain ⟨rfl, rfl, rfl, rfl, rfl⟩ := Instr.circuit.inj (Option.some.inj hi)
      exact ⟨rfl, hfirst⟩
    | succ i =>
      rw [List.getElem?_cons_succ] at hi
      obtain ⟨hskip, hop⟩ := h.operand i kind' dest' left' right' skip hi
      refine ⟨hskip, ?_⟩
      have := hop.prepend [.circuit kind dest left right (Int64.ofNat ys.length)]
      rwa [List.length_singleton, Nat.add_comm] at this
  nested i j x y hi hj hcx hcy hij := by
    obtain ⟨j, rfl⟩ := Nat.exists_eq_succ_of_ne_zero (Nat.ne_of_gt (Nat.zero_lt_of_lt hij))
    rw [Nat.succ_eq_add_one, List.getElem?_cons_succ] at hj
    obtain ⟨kind', dest', left', right', skip, rfl⟩ := exists_of_isCircuit hcy
    have hinside := (h.operand j kind' dest' left' right' skip hj).2.inside
    cases i with
    | zero =>
      simp only [consLength]
      omega
    | succ i =>
      rw [List.getElem?_cons_succ] at hi
      have := h.nested i j x _ hi hj hcx hcy (by omega)
      simp only [consLength]
      omega

end

/-- The operand of a short circuit ends with a move to its register, and does not write it before. -/
theorem skipsOperand_circuit {kind : Circuit} {dest : Reg} {left : Value} {skip : Int64}
    {body : List Instr} {r : Option Reg} (hdest : ∀ y ∈ body, dest ∉ y.writes) :
    SkipsOperand (.circuit kind dest left (operand r) skip :: (body ++ landing dest r)) 0 dest
      (operand r) (body ++ landing dest r).length where
  inside := by
    rw [List.length_cons]
    omega
  lands q hq := by
    cases r with
    | none => cases hq
    | some r =>
      obtain rfl := Value.reg.inj hq
      simp [landing]
  only j y hj hle hy hw := by
    obtain ⟨j, rfl⟩ := Nat.exists_eq_succ_of_ne_zero (Nat.ne_of_gt hj)
    rw [Nat.succ_eq_add_one, List.getElem?_cons_succ] at hy
    by_cases hlt : j < body.length
    · rw [List.getElem?_append_left hlt] at hy
      exact absurd hw (hdest y (List.mem_of_getElem? hy))
    · rw [List.getElem?_append_right (by omega)] at hy
      cases r with
      | none => cases hy
      | some r =>
        have := (List.getElem?_eq_some_iff.mp hy).1
        simp only [landing, List.length_append, List.length_singleton] at this ⊢
        exact ⟨by omega, r, rfl⟩

/-- In bracketed code each short circuit skips its operand. -/
theorem Bracketed.skips {xs : List Instr} (h : Bracketed xs) : ∃ n, Skips xs n := by
  induction h with
  | nil => exact ⟨fun _ => 0, skips_of_plain (by simp) _⟩
  | @cons x _ hx _ ih =>
    obtain ⟨n, hn⟩ := ih
    have hfirst := @skips_of_plain [x] (by simpa using hx) fun _ => 0
    exact ⟨_, hfirst.append hn⟩
  | @circuit kind dest left r body rest _ hdest _ ihbody ihrest =>
    obtain ⟨n, hn⟩ := ihbody
    obtain ⟨m, hm⟩ := ihrest
    have hland : ∀ x ∈ landing dest r, x.isCircuit = false := by
      cases r <;> simp [landing, Instr.isCircuit]
    have hwhole := (hn.append (skips_of_plain hland fun _ => 0)).circuit
      (@skipsOperand_circuit kind dest left _ body r hdest)
    exact ⟨_, hwhole.append hm⟩

namespace Lowering

/-- The short circuits of lowered code. Where indices are 64-bit integers, the skip of a short circuit
is the length of its right operand, and so not negative. -/
theorem program_circuits (t : Node) {f : Func} (hf : f ∈ (program t).1.funcs) (b : BlockId) :
    ∃ n, Skips (f.code b) n ∧ ((f.code b).length < codeLimit →
      ∀ i kind dest left right (skip : Int64),
        (f.code b)[i]? = some (.circuit kind dest left right skip) → 0 ≤ skip ∧ skip.toInt = n i) := by
  obtain ⟨d, -, hmakes⟩ := (program_sourced t).funcs f hf
  obtain ⟨n, hn⟩ := (hmakes.laidOut.2 b).bracketed.skips
  refine ⟨n, hn, fun hlen i kind dest left right skip hx => ?_⟩
  obtain ⟨rfl, hop⟩ := hn.operand i kind dest left right skip hx
  have hinside := hop.inside
  have hlimit := codeLimit_eq
  have hint : (Int64.ofNat (n i)).toInt = n i := Int64.toInt_ofNat_of_lt (by omega)
  refine ⟨?_, hint⟩
  rw [Int64.le_iff_toInt_le, hint]
  exact Int.natCast_nonneg _

/-- The words `a && (b || c)`. -/
def circuits : Node :=
  .binary {} (.word {} "a") "&&" (.binary {} (.word {} "b") "||" (.word {} "c"))

theorem circuits_skip : ∃ f ∈ (program circuits).1.funcs,
    (∃ x ∈ f.code ⟨0⟩, x.isCircuit = true) ∧ ∀ b, ∃ n, Skips (f.code b) n := by
  have hsome : ∃ f ∈ (program circuits).1.funcs, ∃ x ∈ f.code ⟨0⟩, x.isCircuit = true := by
    decide +kernel
  obtain ⟨f, hf, hx⟩ := hsome
  exact ⟨f, hf, hx, fun b => (program_circuits circuits hf b).imp fun _ h => h.1⟩

end Lowering

end ScriptMachine
