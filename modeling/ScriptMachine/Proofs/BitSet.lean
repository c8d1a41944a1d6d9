import Mathlib.Data.Nat.Basic
import ScriptMachine.BitSet

/-!
# What a bit set contains

A key is in a set behind an insertion if it was inserted or was there before. Everything is reduced
to the bits of words: key `k` is bit `k % 64` of word `k / 64`. Keys that are negative or that no set can
grow to are refused, and no key comes or goes with them.
-/

namespace ScriptMachine.BitSet

/-! ## Words -/

theorem toBitVec_one_shiftLeft {j : Nat} (hj : j < 64) :
    ((1 : UInt64) <<< UInt64.ofNat j).toBitVec = BitVec.twoPow 64 j := by
  have hmod : BitVec.ofNat 64 j % 64 = BitVec.ofNat 64 j := by
    apply BitVec.eq_of_toNat_eq
    simp only [BitVec.toNat_umod, BitVec.toNat_ofNat, BitVec.reduceToNat]
    omega
  have hnat : (BitVec.ofNat 64 j).toNat = j := by
    rw [BitVec.toNat_ofNat]
    omega
  rw [UInt64.toBitVec_shiftLeft, UInt64.toBitVec_ofNat', hmod, BitVec.shiftLeft_eq', hnat,
    BitVec.twoPow_eq]
  rfl

theorem bit_eq_getLsbD (w : UInt64) {j : Nat} (hj : j < 64) : bit w j = w.toBitVec.getLsbD j := by
  have hne : BitVec.twoPow 64 j ≠ 0#64 := by
    intro h
    have := congrArg (·.getLsbD j) h
    simp [hj] at this
  have hzero : ∀ v : UInt64, (v != 0) = (v.toBitVec != 0#64) := fun v => by
    rw [Bool.eq_iff_iff, bne_iff_ne, bne_iff_ne, ne_eq, ne_eq, ← UInt64.toBitVec_inj]
    rfl
  rw [bit, hzero, UInt64.toBitVec_and, toBitVec_one_shiftLeft hj, BitVec.and_twoPow]
  cases w.toBitVec.getLsbD j <;> simp [hne]

theorem bit_setBit (w : UInt64) {i j : Nat} (hi : i < 64) (hj : j < 64) :
    bit (setBit w j) i = (decide (i = j) || bit w i) := by
  rw [bit_eq_getLsbD _ hi, bit_eq_getLsbD _ hi, setBit, UInt64.toBitVec_or, BitVec.getLsbD_or,
    toBitVec_one_shiftLeft hj, BitVec.getLsbD_twoPow, Bool.or_comm]
  simp [hj, eq_comm]

theorem bit_zero (j : Nat) : bit 0 j = false := by simp [bit]

/-! ## Sets -/

theorem getElem?_extend (words : Array UInt64) (i j : Nat) :
    (extend words i)[j]? =
      if j < words.size then words[j]? else if j ≤ i then some 0 else none := by
  unfold extend
  rw [Array.getElem?_append]
  split
  · rfl
  · rw [Array.getElem?_replicate]
    split <;> split <;> first | rfl | omega

@[simp] theorem containsNat_insertNat (s : BitSet) (j k : Nat) :
    (s.insertNat k).containsNat j = (decide (j = k) || s.containsNat j) := by
  have hj : j % 64 < 64 := Nat.mod_lt _ (by decide)
  have hk : k % 64 < 64 := Nat.mod_lt _ (by decide)
  simp only [containsNat, insertNat]
  rw [Array.getElem?_modify, getElem?_extend]
  by_cases hq : k / 64 = j / 64
  · have hiff : decide (j % 64 = k % 64) = decide (j = k) := by
      rw [decide_eq_decide]
      omega
    rw [if_pos hq]
    by_cases hs : j / 64 < s.words.size
    · rw [if_pos hs, Array.getElem?_eq_getElem hs]
      exact (bit_setBit _ hj hk).trans (by rw [hiff])
    · rw [if_neg hs, if_pos (Nat.le_of_eq hq.symm), Array.getElem?_eq_none (by omega)]
      exact (bit_setBit 0 hj hk).trans (by rw [hiff, bit_zero])
  · have hne : decide (j = k) = false := decide_eq_false fun h => hq (by rw [h])
    rw [if_neg hq, hne, Bool.false_or]
    by_cases hs : j / 64 < s.words.size
    · rw [if_pos hs]
    · rw [if_neg hs, Array.getElem?_eq_none (show s.words.size ≤ j / 64 by omega)]
      split
      · rename_i w hw
        split at hw
        · rw [← Option.some.inj hw]
          exact bit_zero _
        · cases hw
      · rfl

@[simp] theorem contains_insertNat (s : BitSet) (j : Int) (k : Nat) :
    (s.insertNat k).contains j = (decide (j = k) || s.contains j) := by
  cases j with
  | ofNat j =>
    have hiff : decide (Int.ofNat j = k) = decide (j = k) := decide_eq_decide.mpr Int.ofNat_inj
    rw [hiff]
    exact containsNat_insertNat s j k
  | negSucc j => simp [contains]

@[simp] theorem contains_nil (allocated : Bool) (k : Int) :
    (⟨#[], allocated⟩ : BitSet).contains k = false := by
  cases k <;> simp [contains, containsNat]

theorem nonneg_of_contains {s : BitSet} {k : Int} (h : s.contains k = true) : 0 ≤ k := by
  cases k with
  | ofNat k => exact Int.natCast_nonneg k
  | negSucc k => cases h

theorem canHave_iff {n : Int} : canHave n = true ↔ n ≤ maxWords := decide_eq_true_iff

theorem withRoom_eq_ok {s : BitSet} {size : Int} (h : withRoom size = .ok s) : s = ⟨#[], true⟩ := by
  simp only [withRoom] at h
  split at h
  · exact (Except.ok.inj h).symm
  · cases h

/-- Sizes that are not too large get room. -/
theorem withRoom_of_le {size : Int} (h₀ : 0 ≤ size) (h : size ≤ 64 * maxWords) :
    withRoom size = .ok ⟨#[], true⟩ := by
  have hmax : maxWords = 35184372088832 := rfl
  have hsize : (UInt64.size : Int) = 18446744073709551616 := rfl
  have hmod : Int.bmod (size + 63) UInt64.size = size + 63 := by
    rw [Int.bmod_eq_of_le] <;> omega
  have hdiv : Int.tdiv (size + 63) 64 ≤ maxWords := by
    rw [Int.tdiv_eq_ediv_of_nonneg (by omega)]
    omega
  unfold withRoom
  simp only [hmod]
  rw [if_pos (canHave_iff.mpr hdiv)]

/-! ## Keys that crash -/

/-- The keys that can be put into a set are those that it can grow to. -/
theorem keyCrash?_eq_none_iff {k : Int} : keyCrash? k = none ↔ 0 ≤ k ∧ k < 64 * maxWords := by
  unfold keyCrash?
  by_cases h₀ : k < 0
  · have hk : ¬ 0 ≤ k := by omega
    simp [h₀, hk]
  · have hdiv : canHave (Int.tdiv k 64 + 1) = true ↔ k < 64 * maxWords := by
      rw [canHave_iff, Int.tdiv_eq_ediv_of_nonneg (by omega)]
      omega
    have hk : 0 ≤ k := by omega
    by_cases h : k < 64 * maxWords <;> simp [h₀, hdiv, h, hk]

variable {s t : BitSet} {k : Int} {ks : List Int} {c : Crash}

theorem eq_growthOutside_of_crash (h₀ : 0 ≤ k) (h : keyCrash? k = some c) : c = .growthOutside := by
  rw [keyCrash?, if_neg (Int.not_lt.mpr h₀)] at h
  split at h
  · cases h
  · exact (Option.some.inj h).symm

theorem insert_of_fits (h : keyCrash? k = none) (s : BitSet) :
    s.insert k = (s.insertNat k.toNat, none) := by
  rw [insert, h]

theorem insert_of_crash (h : keyCrash? k = some c) (s : BitSet) :
    s.insert k = ({ s with allocated := true }, some c) := by
  rw [insert, h]

theorem insertAll_cons_of_fits (h : keyCrash? k = none) (s : BitSet) (ks : List Int) :
    s.insertAll (k :: ks) = (s.insertNat k.toNat).insertAll ks := by
  rw [insertAll, insert_of_fits h]

theorem insertAll_cons_of_crash (h : keyCrash? k = some c) (s : BitSet) (ks : List Int) :
    s.insertAll (k :: ks) = ({ s with allocated := true }, some c) := by
  rw [insertAll, insert_of_crash h]

/-- Putting in keys crashes as the first does that crashes. -/
theorem insertAll_crash (s : BitSet) (ks : List Int) : (s.insertAll ks).2 = ks.findSome? keyCrash? := by
  induction ks generalizing s with
  | nil => rfl
  | cons k ks ih =>
    cases h : keyCrash? k with
    | none => rw [insertAll_cons_of_fits h, ih, List.findSome?_cons, h]
    | some c => rw [insertAll_cons_of_crash h, List.findSome?_cons, h]

/-- The keys behind the insertion of several, none of which crashes. -/
theorem insertAll_spec (h : s.insertAll ks = (t, none)) (k : Int) :
    t.contains k = (decide (k ∈ ks) || s.contains k) := by
  induction ks generalizing s with
  | nil =>
    obtain ⟨rfl, -⟩ := Prod.mk.inj h
    simp
  | cons i ks ih =>
    cases hi : keyCrash? i with
    | none =>
      rw [insertAll_cons_of_fits hi] at h
      rw [ih h, contains_insertNat, Int.toNat_of_nonneg (keyCrash?_eq_none_iff.mp hi).1]
      simp only [List.mem_cons, Bool.decide_or]
      cases decide (k = i) <;> simp
    | some c =>
      rw [insertAll_cons_of_crash hi] at h
      cases h

end ScriptMachine.BitSet
