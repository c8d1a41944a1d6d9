/-!
# Decimal text of integers

1. `decimalDigits` writes a natural number with no leading zero; `decimal` puts a minus sign in
   front of a negative integer.
2. `digitsValue` reads a string of digits back, whatever zeros lead it.
3. `digitsValue_decimalDigits` says that reading undoes writing.
-/

namespace ScriptMachine.Text

/-- The character of the decimal digit `d`, for `d < 10`. -/
def digitChar (d : Nat) : Char := Char.ofNat (48 + d)

/-- The value of a decimal digit, or `none` for any other character. -/
def digitValue? (c : Char) : Option Nat :=
  if '0' ≤ c ∧ c ≤ '9' then some (c.toNat - 48) else none

/-- The decimal digits of `n`, most significant first. -/
def decimalDigits (n : Nat) : List Char :=
  if n < 10 then [digitChar n] else decimalDigits (n / 10) ++ [digitChar (n % 10)]

/-- The value of a digit string, or `none` if some character is no digit. -/
def digitsValue (cs : List Char) : Option Nat :=
  cs.foldl (fun acc c => acc.bind fun n => (digitValue? c).map (10 * n + ·)) (some 0)

def decimalNat (n : Nat) : String := String.ofList (decimalDigits n)

def decimal : Int → String
  | .ofNat n => decimalNat n
  | .negSucc n => "-" ++ decimalNat (n + 1)

theorem digitValue?_digitChar {d : Nat} (h : d < 10) : digitValue? (digitChar d) = some d := by
  have : d = 0 ∨ d = 1 ∨ d = 2 ∨ d = 3 ∨ d = 4 ∨ d = 5 ∨ d = 6 ∨ d = 7 ∨ d = 8 ∨ d = 9 := by omega
  rcases this with h | h | h | h | h | h | h | h | h | h <;> subst h <;> decide

theorem digitsValue_append_single (cs : List Char) (c : Char) :
    digitsValue (cs ++ [c]) =
      (digitsValue cs).bind fun n => (digitValue? c).map (10 * n + ·) := by
  simp [digitsValue, List.foldl_append]

/-- Reading the digits of a number gives the number. -/
theorem digitsValue_decimalDigits (n : Nat) : digitsValue (decimalDigits n) = some n := by
  induction n using Nat.strongRecOn with
  | _ n ih =>
    rw [decimalDigits]
    split
    · rename_i h
      simp [digitsValue, digitValue?_digitChar h]
    · rename_i h
      rw [digitsValue_append_single, ih (n / 10) (by omega),
        digitValue?_digitChar (Nat.mod_lt n (by omega))]
      simp
      omega

end ScriptMachine.Text
