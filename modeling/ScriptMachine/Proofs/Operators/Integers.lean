import Mathlib.Algebra.Ring.Int.Defs
import ScriptMachine.Proofs.Machine.Operators

/-!
# Integer arithmetic

Division, remainder and powers of 64-bit integers, against exact integers.

1. The cases that division and remainder set apart for the divisor -1 give what wrapped division gives
   as well (`intDiv_of_ne_zero`, `intMod_of_ne_zero`), so one law of truncated division serves all
   divisors but zero.
2. The loop of a power on wrapped numbers is the wrapped value of the loop on exact ones
   (`powLoop_ofInt`), however often the base and the accumulator wrap.
-/

namespace ScriptMachine

/-! ## Division -/

/-- `m` is what is left of `l` after division by `r`. -/
structure IsRemainder (l r m : Int64) : Prop where
  lt : m.toInt.natAbs < r.toInt.natAbs
  sign : m = 0 ∨ m.toInt.sign = l.toInt.sign
  dvd : r.toInt ∣ l.toInt - m.toInt

variable {l r : Int64}

theorem mod_eq_zero_iff_dvd : l % r = 0 ↔ r.toInt ∣ l.toInt := by
  rw [← Int64.toInt_inj, Int64.toInt_mod, Int64.toInt_zero]
  exact Int.dvd_iff_tmod_eq_zero.symm

theorem isRemainder_mod (hr : r ≠ 0) : IsRemainder l r (l % r) where
  lt := by
    have hpos : 0 < r.toInt.natAbs := by
      rw [Int.natAbs_pos]
      exact fun h => hr (Int64.toInt_inj.mp h)
    rw [Int64.toInt_mod, Int.natAbs_tmod]
    exact Nat.mod_lt _ hpos
  sign := by
    by_cases hdvd : r.toInt ∣ l.toInt
    · exact .inl (mod_eq_zero_iff_dvd.mpr hdvd)
    · rw [Int64.toInt_mod, Int.sign_tmod, if_neg hdvd]
      exact .inr rfl
  dvd := by
    rw [Int64.toInt_mod]
    exact Int.dvd_self_sub_tmod

theorem mod_neg_one : l % -1 = 0 := mod_eq_zero_iff_dvd.mpr (Int.neg_dvd.mpr (Int.one_dvd _))

theorem div_eq_ofInt : l / r = Int64.ofInt (l.toInt.tdiv r.toInt) := by
  rw [← Int64.toInt_inj, Int64.toInt_div, Int64.toInt_ofInt]

theorem div_neg_one : l / -1 = -l := by
  have h : l.toInt.tdiv (-1 : Int64).toInt = -l.toInt := by
    rw [show (-1 : Int64).toInt = -1 from rfl, Int.tdiv_neg, Int.tdiv_one]
  rw [div_eq_ofInt, h, Int64.ofInt_neg, Int64.ofInt_toInt]

theorem intMod_of_ne_zero (hr : r ≠ 0) : intMod l r = .int (l % r) := by
  rw [intMod, if_neg hr]
  by_cases h : r = -1
  · rw [if_pos h, h, mod_neg_one]
  · rw [if_neg h]

theorem intDiv_of_ne_zero (hr : r ≠ 0) :
    intDiv l r = if l % r = 0 then .int (l / r) else .float (l.toFloat / r.toFloat) := by
  rw [intDiv, if_neg hr]
  by_cases h : r = -1
  · rw [if_pos h, h, if_pos mod_neg_one, div_neg_one]
  · rw [if_neg h]

theorem div_mul_of_mod_eq_zero (h : l % r = 0) : l / r * r = l := by
  have hexact := Int.tdiv_mul_cancel (mod_eq_zero_iff_dvd.mp h)
  calc l / r * r = Int64.ofInt (l.toInt.tdiv r.toInt) * Int64.ofInt r.toInt := by
        rw [div_eq_ofInt, Int64.ofInt_toInt]
    _ = l := by rw [← Int64.ofInt_mul, hexact, Int64.ofInt_toInt]

/-- The one quotient of integers that is too large is that of the least one by -1. -/
theorem toInt_div_mul_iff (h : l % r = 0) :
    (l / r).toInt * r.toInt = l.toInt ↔ ¬ (l = Int64.minValue ∧ r = -1) := by
  have hexact := Int.tdiv_mul_cancel (mod_eq_zero_iff_dvd.mp h)
  by_cases hl : l = Int64.minValue
  · by_cases hr : r = -1
    · subst hl hr
      decide
    · rw [Int64.toInt_div_of_ne_right _ _ hr]
      exact iff_of_true hexact fun h => hr h.2
  · rw [Int64.toInt_div_of_ne_left _ _ hl]
    exact iff_of_true hexact fun h => hl h.1

theorem applySymbol_arith_ints (op : ArithOp) (l r : Int64) :
    applySymbol (BinOp.arith op).symbol (.int l) (.int r) = .ok (intArith op l r) :=
  applySymbol_symbol (.arith op) _ _

/-- Division and remainder agree. For a divisor other than zero the remainder `m` is an integer, less
than the divisor in magnitude, zero or of the dividend's sign, and the divisor divides the rest. The
quotient is an integer `q` exactly if `m` is zero, and a double otherwise. As wrapped integers `q * r`
is `l`, and as exact ones too, but for the least integer divided by -1. -/
theorem division_agrees (l r : Int64) (hr : r ≠ 0) :
    ∃ m, applySymbol "%" (.int l) (.int r) = .ok (.int m) ∧ IsRemainder l r m ∧
      (m = 0 → ∃ q, applySymbol "/" (.int l) (.int r) = .ok (.int q) ∧ q * r = l ∧
        (q.toInt * r.toInt = l.toInt ↔ ¬ (l = Int64.minValue ∧ r = -1))) ∧
      (m ≠ 0 → ∃ x, applySymbol "/" (.int l) (.int r) = .ok (.float x)) := by
  have hmod : applySymbol "%" (.int l) (.int r) = .ok (.int (l % r)) :=
    (applySymbol_arith_ints .mod l r).trans (congrArg _ (intMod_of_ne_zero hr))
  have hdiv := (applySymbol_arith_ints .div l r).trans (congrArg _ (intDiv_of_ne_zero hr))
  refine ⟨l % r, hmod, isRemainder_mod hr, fun h => ?_, fun h => ?_⟩
  · rw [if_pos h] at hdiv
    exact ⟨l / r, hdiv, div_mul_of_mod_eq_zero h, toInt_div_mul_iff h⟩
  · rw [if_neg h] at hdiv
    exact ⟨_, hdiv⟩

theorem minusSevenByTwo_division_agrees :
    (2 : Int64) ≠ 0 ∧ ∃ m, applySymbol "%" (.int (-7)) (.int 2) = .ok (.int m) ∧
      IsRemainder (-7) 2 m ∧ m = -1 ∧ ∃ x, applySymbol "/" (.int (-7)) (.int 2) = .ok (.float x) := by
  obtain ⟨m, hmod, hm, -, hdiv⟩ := division_agrees (-7) 2 (by decide)
  have hone : m = -1 := by
    cases hmod
    rfl
  exact ⟨by decide, m, hmod, hm, hone, hdiv (by rw [hone]; decide)⟩

/-! ## Powers -/

theorem and_one_eq_zero_iff {n : Int64} : n &&& 1 = 0 ↔ n.toInt % 2 = 0 := by
  have hand : (n &&& 1).toBitVec.toNat = n.toBitVec.toNat % 2 := by
    rw [Int64.toBitVec_and, BitVec.toNat_and]
    exact Nat.and_one_is_mod _
  have hint : n.toInt % 2 = (n.toBitVec.toNat : Int) % 2 := by
    change n.toBitVec.toInt % 2 = _
    rw [BitVec.toInt_eq_toNat_cond]
    split <;> omega
  rw [← Int64.toBitVec_inj, ← BitVec.toNat_inj, hand, hint]
  change _ = 0 ↔ _
  omega

/-- One round of the loop keeps the product of the accumulator and the power that is left. -/
theorem powRound_eq (a c : Int) {n : Int64} (hn : 0 ≤ n.toInt) :
    (if n &&& 1 = 0 then c else c * a) * (a * a) ^ (n >>> 1).toInt.toNat =
      c * a ^ n.toInt.toNat := by
  have hhalf := toInt_shiftRight_one n
  rw [← sq, ← pow_mul]
  by_cases heven : n &&& 1 = 0
  · have hdouble : n.toInt.toNat = 2 * (n >>> 1).toInt.toNat := by
      have := and_one_eq_zero_iff.mp heven
      omega
    rw [if_pos heven, hdouble]
  · have hdouble : n.toInt.toNat = 2 * (n >>> 1).toInt.toNat + 1 := by
      have := mt and_one_eq_zero_iff.mpr heven
      omega
    rw [if_neg heven, hdouble, pow_succ', mul_assoc]

theorem powLoop_ofInt (a c : Int) {n : Int64} (hn : 0 ≤ n.toInt) :
    powLoop (.ofInt a) (.ofInt c) n = .ofInt (c * a ^ n.toInt.toNat) := by
  induction hk : n.toInt.toNat using Nat.strongRecOn generalizing a c n with
  | _ k ih =>
    subst hk
    have hhalf := toInt_shiftRight_one n
    rw [powLoop]
    by_cases hpos : 0 < n
    · have hint : 0 < n.toInt := Int64.lt_iff_toInt_lt.mp hpos
      rw [if_pos hpos, ← powRound_eq a c hn, ← Int64.ofInt_mul, ← Int64.ofInt_mul, ← apply_ite]
      exact ih _ (by omega) _ _ (by omega) rfl
    · have hzero : n.toInt.toNat = 0 := by
        have := mt Int64.lt_iff_toInt_lt.mpr hpos
        rw [Int64.toInt_zero] at this
        omega
      rw [if_neg hpos, hzero, pow_zero, mul_one]

/-- Powers of integers are exact up to one wrap to 64 bits, for every base and every exponent that is
not negative. -/
theorem pow_exact (x n : Int64) (hn : 0 ≤ n) :
    intPow x n = .ofInt (x.toInt ^ n.toInt.toNat) ∧
      applySymbol "**" (.int x) (.int n) = .ok (.int (.ofInt (x.toInt ^ n.toInt.toNat))) := by
  have hpow : intPow x n = .ofInt (x.toInt ^ n.toInt.toNat) := by
    have hloop := powLoop_ofInt x.toInt 1 (Int64.le_iff_toInt_le.mp hn)
    rwa [Int64.ofInt_toInt, one_mul] at hloop
  have harith : intArith .pow x n = .int (intPow x n) := if_neg (Std.not_lt.mpr hn)
  refine ⟨hpow, ?_⟩
  rw [← hpow, ← harith]
  exact applySymbol_arith_ints .pow x n

theorem threeToFortyOne_pow_exact :
    (0 : Int64) ≤ 41 ∧ intPow 3 41 = .ofInt (3 ^ 41) ∧
      applySymbol "**" (.int 3) (.int 41) = .ok (.int (.ofInt (3 ^ 41))) :=
  ⟨by decide, pow_exact 3 41 (by decide)⟩

end ScriptMachine
