import ScriptMachine.Number.Reading
import ScriptMachine.Text.Blank

/-!
# Decimal texts of integers

The decimal text of a 64-bit integer is read back as that integer (`readInt_decimal`), the least one
included, whose magnitude is no 64-bit integer. There is no white space in it, so trimming takes away
what is put around it and nothing else (`trimBlank_append_decimal`).
-/

namespace ScriptMachine

namespace Text

/-! ## Characters -/

variable {c : Char}

theorem isSome_digitValue?_iff : (digitValue? c).isSome ↔ '0' ≤ c ∧ c ≤ '9' := by
  unfold digitValue?
  split <;> simp_all

theorem not_isBlank_of_digit (h : (digitValue? c).isSome) : isBlank c = false := by
  obtain ⟨hlow, hhigh⟩ := isSome_digitValue?_iff.mp h
  have hlow : 48 ≤ c.toNat := hlow
  have hhigh : c.toNat ≤ 57 := hhigh
  simp only [isBlank, Bool.or_eq_false_iff, Bool.and_eq_false_iff, decide_eq_false_iff_not,
    beq_eq_false_iff_ne]
  omega

theorem digit_of_mem_decimalDigits {n : Nat} (h : c ∈ decimalDigits n) : (digitValue? c).isSome := by
  induction n using Nat.strongRecOn with
  | _ n ih =>
    rw [decimalDigits] at h
    by_cases hn : n < 10
    · rw [if_pos hn, List.mem_singleton] at h
      rw [h, digitValue?_digitChar hn]
      rfl
    · rw [if_neg hn, List.mem_append, List.mem_singleton] at h
      obtain h | rfl := h
      · exact ih (n / 10) (by omega) h
      · rw [digitValue?_digitChar (Nat.mod_lt n (by omega))]
        rfl

theorem decimalDigits_ne_nil (n : Nat) : decimalDigits n ≠ [] := by
  rw [decimalDigits]
  split <;> simp

/-- A decimal text is a minus sign, if the integer is negative, and the digits of its magnitude. -/
theorem toList_decimal (k : Int) :
    (decimal k).toList = (if k < 0 then ['-'] else []) ++ decimalDigits k.natAbs := by
  cases k with
  | ofNat n => simp [decimal, decimalNat]
  | negSucc n => simp [decimal, decimalNat]

theorem decimal_ne_nil (k : Int) : (decimal k).toList ≠ [] := by
  rw [toList_decimal]
  exact List.append_ne_nil_of_right_ne_nil _ (decimalDigits_ne_nil _)

theorem not_isBlank_of_mem_decimal {k : Int} (h : c ∈ (decimal k).toList) : isBlank c = false := by
  rw [toList_decimal, List.mem_append] at h
  obtain h | h := h
  · by_cases hk : k < 0
    · rw [if_pos hk, List.mem_singleton] at h
      rw [h]
      rfl
    · rw [if_neg hk] at h
      cases h
  · exact not_isBlank_of_digit (digit_of_mem_decimalDigits h)

/-! ## White space -/

theorem dropWhile_isBlank_append {before cs : List Char} (hbefore : ∀ c ∈ before, isBlank c = true)
    (hcs : ∀ c, cs.head? = some c → isBlank c = false) : (before ++ cs).dropWhile isBlank = cs := by
  rw [List.dropWhile_append_of_pos hbefore]
  cases cs with
  | nil => rfl
  | cons c cs => rw [List.dropWhile_cons_of_neg (by simp [hcs c rfl])]

theorem trimBlank_append {before cs after : List Char} (hne : cs ≠ [])
    (hbefore : ∀ c ∈ before, isBlank c = true) (hcs : ∀ c ∈ cs, isBlank c = false)
    (hafter : ∀ c ∈ after, isBlank c = true) : trimBlank (before ++ cs ++ after) = cs := by
  have hfront : (before ++ (cs ++ after)).dropWhile isBlank = cs ++ after := by
    obtain ⟨d, ds, rfl⟩ := List.exists_cons_of_ne_nil hne
    refine dropWhile_isBlank_append hbefore fun c hc => hcs c ?_
    exact Option.some.inj hc ▸ .head ds
  have hback : (after.reverse ++ cs.reverse).dropWhile isBlank = cs.reverse := by
    refine dropWhile_isBlank_append (fun c hc => hafter c (List.mem_reverse.mp hc)) fun c hc => ?_
    exact hcs c (List.mem_reverse.mp (List.mem_of_head? hc))
  rw [trimBlank, List.append_assoc, hfront, List.reverse_append, hback, List.reverse_reverse]

theorem trimBlank_append_decimal (k : Int) {before after : String}
    (hbefore : ∀ c ∈ before.toList, isBlank c = true)
    (hafter : ∀ c ∈ after.toList, isBlank c = true) :
    trimBlank (before ++ decimal k ++ after).toList = (decimal k).toList := by
  rw [String.toList_append, String.toList_append]
  exact trimBlank_append (decimal_ne_nil k) hbefore (fun _ => not_isBlank_of_mem_decimal) hafter

end Text

namespace Number

open Text

/-! ## Reading -/

theorem splitSign_of_digit {c : Char} {cs : List Char} (h : (digitValue? c).isSome) :
    splitSign (c :: cs) = (false, c :: cs) := by
  have hminus : c ≠ '-' := by
    rintro rfl
    exact absurd h (by decide)
  have hplus : c ≠ '+' := by
    rintro rfl
    exact absurd h (by decide)
  simp [splitSign, hminus, hplus]

theorem splitSign_decimal (k : Int) :
    splitSign (decimal k).toList = (decide (k < 0), decimalDigits k.natAbs) := by
  rw [toList_decimal]
  by_cases hk : k < 0
  · simp [hk, splitSign]
  · obtain ⟨c, cs, hcs⟩ := List.exists_cons_of_ne_nil (decimalDigits_ne_nil k.natAbs)
    have hc : c ∈ decimalDigits k.natAbs := hcs ▸ .head cs
    rw [hcs, if_neg hk, List.nil_append, splitSign_of_digit (digit_of_mem_decimalDigits hc)]
    simp [hk]

theorem fit64?_natAbs (v : Int64) : fit64? (decide (v.toInt < 0)) v.toInt.natAbs = some v := by
  have hsigned : (if decide (v.toInt < 0) = true then -(v.toInt.natAbs : Int) else v.toInt.natAbs) =
      v.toInt := by
    by_cases hv : v.toInt < 0
    · rw [if_pos (decide_eq_true hv)]
      omega
    · rw [if_neg (by simpa using hv)]
      omega
  have hrange : Int64.minValue.toInt ≤ v.toInt ∧ v.toInt ≤ Int64.maxValue.toInt :=
    ⟨v.minValue_le_toInt, v.toInt_le⟩
  unfold fit64?
  dsimp only
  rw [hsigned, if_pos hrange, Int64.ofInt_toInt]

/-- Reading the decimal text of an integer gives the integer. -/
theorem readInt_decimal (v : Int64) : readInt (decimal v.toInt).toList = some v := by
  unfold readInt
  rw [splitSign_decimal]
  simp [decimalDigits_ne_nil, digitsValue_decimalDigits, fit64?_natAbs]

end Number

end ScriptMachine
