/-!
# Double precision numbers, exactly

A finite double is `m * 2 ^ q` up to sign. `parts` reads `m` and `q` off the bit pattern, and
`ofRatio` goes back from a quotient of natural numbers, rounding to the nearest double with ties
to the even one. `remainder` is the exact remainder of the truncated quotient.
-/

namespace ScriptMachine.Binary64

/-- What a double stands for. A finite one is `m * 2 ^ q`, negative if `neg`. -/
inductive Parts where
  | nan
  | infinite (neg : Bool)
  | finite (neg : Bool) (m : Nat) (q : Int)
deriving DecidableEq, Repr

/-- The exponent of the last place of the smallest doubles. -/
def minExponent : Int := -1074

/-- The largest exponent of the last place of a finite double. -/
def maxExponent : Int := 971

/-- The leading bit of a mantissa of full length, which bit patterns leave out. -/
def leadingBit : Nat := 1 <<< 52

/-- Reads the bit pattern: one sign bit, eleven exponent bits, 52 bits of fraction. -/
def parts (x : Float) : Parts :=
  let bits := x.toBits.toNat
  let neg := bits >>> 63 == 1
  let e := (bits >>> 52) % 2048
  let f := bits % leadingBit
  if e = 2047 then (if f = 0 then .infinite neg else .nan)
  else if e = 0 then .finite neg f minExponent
  else .finite neg (leadingBit + f) ((e : Int) - 1075)

/-- The double with a given sign bit and 63 other bits. -/
def ofBits (neg : Bool) (rest : Nat) : Float :=
  Float.ofBits (UInt64.ofNat ((if neg then 1 <<< 63 else 0) + rest))

def infinity (neg : Bool) : Float := ofBits neg (2047 <<< 52)

def nan : Float := Float.ofBits 0x7FF8000000000001

def zero (neg : Bool) : Float := ofBits neg 0

/-- The double `m * 2 ^ q` for `m < 2 ^ 53`, where `q` is `minExponent` unless `2 ^ 52 ≤ m`;
infinite if `q` is too large. -/
def pack (neg : Bool) (m : Nat) (q : Int) : Float :=
  if m < leadingBit then ofBits neg m
  else if maxExponent < q then infinity neg
  else ofBits neg ((q + 1075).toNat <<< 52 + (m - leadingBit))

/-- `num / den` rounded to the nearest natural number, a half to the even one. -/
def divNearest (num den : Nat) : Nat :=
  let d := num / den
  let r := num % den
  if den < 2 * r ∨ (2 * r = den ∧ d % 2 = 1) then d + 1 else d

/-- `num / (den * 2 ^ q)` rounded to the nearest natural number. -/
def scaledNearest (num den : Nat) (q : Int) : Nat :=
  if 0 ≤ q then divNearest num (den <<< q.toNat) else divNearest (num <<< (-q).toNat) den

/-- Whether `num / den` is below `2 ^ k`. -/
def belowPow (num den : Nat) (k : Int) : Bool :=
  if 0 ≤ k then num < den <<< k.toNat else num <<< (-k).toNat < den

/-- The double nearest to `num / den`, negative if `neg`; a tie goes to the even one. -/
def ofRatio (neg : Bool) (num den : Nat) : Float :=
  if num = 0 then zero neg
  else
    -- the quotient lies strictly between 2 ^ (k - 1) and 2 ^ (k + 1)
    let k : Int := (num.log2 : Int) - den.log2
    let top := if belowPow num den k then k - 1 else k
    let q := max (top - 52) minExponent
    let m := scaledNearest num den q
    if m = 2 * leadingBit then pack neg leadingBit (q + 1) else pack neg m q

/-- The double nearest to `m * 2 ^ e`. -/
def ofBinary (neg : Bool) (m : Nat) (e : Int) : Float :=
  if 0 ≤ e then ofRatio neg (m <<< e.toNat) 1 else ofRatio neg m (1 <<< (-e).toNat)

/-- The exact remainder of `x / y` truncated towards zero; it has the sign of `x`. -/
def remainder (x y : Float) : Float :=
  match parts x, parts y with
  | .finite neg m q, .finite _ n r =>
    if n = 0 then nan
    else
      let s := min q r
      let a := m <<< (q - s).toNat
      let b := n <<< (r - s).toNat
      ofBinary neg (a % b) s
  | .finite .., .infinite _ => x
  | _, _ => nan

end ScriptMachine.Binary64
