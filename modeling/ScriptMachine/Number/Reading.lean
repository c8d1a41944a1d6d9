import ScriptMachine.Number.Binary64
import ScriptMachine.Text.Decimal

/-!
# Reading numbers

1. `readInt` takes decimal digits with an optional sign, in the range of 64-bit integers.
2. `readIntAnyBase` also takes the base prefixes `0x`, `0o`, `0b` and `0` and underscores between
   digits.
3. `readFloat` takes decimal and hexadecimal fractions with an exponent, infinities and NaN. A
   number too large for a double is refused; one too small is zero.
-/

namespace ScriptMachine.Number

open ScriptMachine.Text

/-- A character in lower case, for ASCII letters. -/
def lower (c : Char) : Char := c.toLower

/-- The value of a digit in bases up to sixteen. -/
def hexValue? (c : Char) : Option Nat :=
  match digitValue? c with
  | some d => some d
  | none => if 'a' ≤ lower c ∧ lower c ≤ 'f' then some ((lower c).toNat - 87) else none

/-- An optional sign: whether it is a minus, and what follows. -/
def splitSign : List Char → Bool × List Char
  | '-' :: r => (true, r)
  | '+' :: r => (false, r)
  | r => (false, r)

/-! ## Integers -/

/-- The value of a non-empty string of digits in a base; underscores count for nothing. -/
def digitsInBase? (base : Nat) (cs : List Char) : Option Nat :=
  if cs.isEmpty then none
  else cs.foldl (fun acc c => acc.bind fun n =>
    if c = '_' then some n
    else match hexValue? c with
      | some d => if d < base then some (base * n + d) else none
      | none => none) (some 0)

/-- A magnitude with a sign, if it fits 64 bits. -/
def fit64? (neg : Bool) (n : Nat) : Option Int64 :=
  let k : Int := if neg then -(n : Int) else n
  if Int64.minValue.toInt ≤ k ∧ k ≤ Int64.maxValue.toInt then some (Int64.ofInt k) else none

/-- An integer in decimal: an optional sign and digits. -/
def readInt (cs : List Char) : Option Int64 :=
  let (neg, r) := splitSign cs
  if r.isEmpty then none
  else (digitsValue r).bind (fit64? neg)

/-- The state of the check for misplaced underscores: what was seen last. -/
inductive Seen where
  | start | digit | underscore | other
deriving DecidableEq

/-- One character of the underscore check; `none` for a misplaced underscore. -/
def underscoreStep (hex : Bool) (seen : Seen) (c : Char) : Option Seen :=
  if (digitValue? c).isSome ∨ (hex ∧ (hexValue? c).isSome) then some .digit
  else if c = '_' then (if seen = .digit then some .underscore else none)
  else if seen = .underscore then none
  else some .other

/-- Underscores stand only between digits, or between a base prefix and a digit. -/
def underscoresOk (cs : List Char) : Bool :=
  let r := (splitSign cs).2
  let run (hex : Bool) (from' : Seen) (r : List Char) : Bool :=
    match r.foldlM (underscoreStep hex) from' with
    | some last => last != .underscore
    | none => false
  match r with
  | '0' :: p :: rest =>
    if lower p = 'x' then run true .digit rest
    else if lower p = 'b' ∨ lower p = 'o' then run false .digit rest
    else run false .start r
  | _ => run false .start r

/-- The base that the front of an unsigned number names, and its digits. -/
def splitBase (cs : List Char) : Nat × List Char :=
  match cs with
  | '0' :: p :: d :: r =>
    if lower p = 'x' then (16, d :: r)
    else if lower p = 'o' then (8, d :: r)
    else if lower p = 'b' then (2, d :: r)
    else (8, p :: d :: r)
  | '0' :: r => (8, r)
  | r => (10, r)

/-- The magnitude of an unsigned number whose base stands in front of it. -/
def magnitudeAnyBase? (cs : List Char) : Option Nat :=
  if cs.isEmpty then none
  else
    let (base, ds) := splitBase cs
    let n := if ds.isEmpty then some 0 else digitsInBase? base ds
    if cs.contains '_' ∧ ! underscoresOk cs then none else n

/-- An integer with an optional sign and an optional base prefix. -/
def readIntAnyBase (cs : List Char) : Option Int64 :=
  let (neg, r) := splitSign cs
  (magnitudeAnyBase? r).bind (fit64? neg)

/-- A natural number below `2 ^ 64` with an optional base prefix and no sign. -/
def readNatAnyBase (cs : List Char) : Option Nat :=
  (magnitudeAnyBase? cs).filter (· < UInt64.size)

/-- An integer with an optional sign in a given base. -/
def readIntBase (base : Nat) (cs : List Char) : Option Int64 :=
  let (neg, r) := splitSign cs
  (digitsInBase? base r).bind (fit64? neg)

/-- A natural number below `2 ^ 64` in a given base, without a sign. -/
def readNatBase (base : Nat) (cs : List Char) : Option Nat :=
  (digitsInBase? base cs).filter (· < UInt64.size)

/-! ## Fractions -/

/-- The digits of a fraction: their value as one whole number, and how many follow the point. -/
structure Mantissa where
  value : Nat := 0
  places : Nat := 0
  digits : Nat := 0
  point : Bool := false

/-- Reads digits, underscores and at most one point. -/
def readMantissa (base : Nat) : List Char → Mantissa → Mantissa × List Char
  | [], m => (m, [])
  | c :: r, m =>
    if c = '_' then readMantissa base r m
    else if c = '.' then
      if m.point then (m, c :: r) else readMantissa base r { m with point := true }
    else match hexValue? c with
      | some d =>
        if d < base then
          readMantissa base r
            { m with value := base * m.value + d, digits := m.digits + 1
                     places := if m.point then m.places + 1 else m.places }
        else (m, c :: r)
      | none => (m, c :: r)

/-- Exponents grow no further than this; every double is long out of range by then. -/
def exponentCap : Nat := 10000

/-- The digits of an exponent and what follows them. -/
def readExponentDigits : List Char → Nat → Nat × List Char
  | [], n => (n, [])
  | c :: r, n =>
    if c = '_' then readExponentDigits r n
    else match digitValue? c with
      | some d => readExponentDigits r (if n < exponentCap then 10 * n + d else n)
      | none => (n, c :: r)

/-- An exponent after its letter: an optional sign and at least one digit. -/
def readExponent? (cs : List Char) : Option (Int × List Char) :=
  let (neg, r) := splitSign cs
  match r with
  | c :: _ =>
    if (digitValue? c).isSome then
      let (n, rest) := readExponentDigits r 0
      some (if neg then -(n : Int) else n, rest)
    else none
  | [] => none

/-- The double nearest to `m * 10 ^ e`. Exponents beyond the range of doubles are cut off first,
so that no power grows large. -/
def ofDecimal (neg : Bool) (m : Nat) (e : Int) : Float :=
  let size : Int := (decimalDigits m).length + e
  if m = 0 then Binary64.zero neg
  else if 310 < size then Binary64.infinity neg
  else if size < -330 then Binary64.zero neg
  else if 0 ≤ e then Binary64.ofRatio neg (m * Nat.pow 10 e.toNat) 1
  else Binary64.ofRatio neg m (Nat.pow 10 (-e).toNat)

/-- The double nearest to `m * 2 ^ e`, cut off likewise. -/
def ofHexadecimal (neg : Bool) (m : Nat) (e : Int) : Float :=
  let size : Int := m.log2 + e
  if m = 0 then Binary64.zero neg
  else if 1030 < size then Binary64.infinity neg
  else if size < -1080 then Binary64.zero neg
  else Binary64.ofBinary neg m e

/-- A finite double, or `none` for an infinite one. -/
def finite? (x : Float) : Option Float :=
  match Binary64.parts x with
  | .infinite _ => none
  | _ => some x

/-- A hexadecimal fraction after `0x`; the exponent of two may not be missing. -/
def readHexFraction (neg : Bool) (cs : List Char) : Option Float :=
  let (m, r) := readMantissa 16 cs {}
  if m.digits = 0 then none
  else match r with
    | p :: r' =>
      if lower p = 'p' then
        match readExponent? r' with
        | some (e, []) => finite? (ofHexadecimal neg m.value (e - 4 * m.places))
        | _ => none
      else none
    | [] => none

/-- A decimal fraction with an optional exponent of ten. -/
def readDecFraction (neg : Bool) (cs : List Char) : Option Float :=
  let (m, r) := readMantissa 10 cs {}
  if m.digits = 0 then none
  else match r with
    | [] => finite? (ofDecimal neg m.value (-m.places))
    | e :: r' =>
      if lower e = 'e' then
        match readExponent? r' with
        | some (e, []) => finite? (ofDecimal neg m.value (e - m.places))
        | _ => none
      else none

/-- The words for infinite values, in any case. -/
def isInfinityWord (cs : List Char) : Bool :=
  let w := cs.map lower
  w == "inf".toList || w == "infinity".toList

/-- A double: a fraction, an infinity with an optional sign, or NaN. -/
def readFloat (cs : List Char) : Option Float :=
  let (neg, r) := splitSign cs
  if isInfinityWord r then some (Binary64.infinity neg)
  else if cs.map lower = "nan".toList then some Binary64.nan
  else if cs.contains '_' ∧ ! underscoresOk cs then none
  else match r with
    | '0' :: x :: d :: rest =>
      if lower x = 'x' then readHexFraction neg (d :: rest) else readDecFraction neg r
    | _ => readDecFraction neg r

end ScriptMachine.Number
