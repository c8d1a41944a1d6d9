import ScriptMachine.Number.Binary64

/-!
# The fewest digits that read back

A positive double stands for all reals that round to it: an interval around it that reaches half
way to its neighbours and contains its ends when the mantissa is even. `shortest` gives the
decimal in that interval with the fewest digits, and of those the nearest to the double; of two
that are equally near, the one with an even last digit.

Everything is counted in quarters of the last place, so that all bounds are natural numbers.
-/

namespace ScriptMachine.Shortest

/-- A decimal number `digits * 10 ^ exponent`. -/
structure Decimal where
  digits : Nat
  exponent : Int
deriving DecidableEq, Repr

/-- A positive double `m * 2 ^ q` with the interval of reals that round to it: from `low` to
`high`, in units of `2 ^ (q - 2)`, ends included if `closed`. -/
structure Interval where
  low : Nat
  mid : Nat
  high : Nat
  unit : Int
  closed : Bool

/-- The interval around `m * 2 ^ q`. Below a power of two the neighbour is only half as far. -/
def Interval.around (m : Nat) (q : Int) : Interval where
  low := if m = Binary64.leadingBit ∧ Binary64.minExponent < q then 4 * m - 1 else 4 * m - 2
  mid := 4 * m
  high := 4 * m + 2
  unit := q - 2
  closed := m % 2 == 0

/-- `a * 2 ^ i` and `b * 10 ^ j`, scaled by one common factor to natural numbers. -/
def common (a : Nat) (i : Int) (b : Nat) (j : Int) : Nat × Nat :=
  let up (n : Nat) (k : Int) (base : Nat) := n * Nat.pow base k.toNat
  (up (up a i 2) (-j) 10, up (up b j 10) (-i) 2)

/-- Whether the decimal `d * 10 ^ e` lies in the interval. -/
def Interval.holds (r : Interval) (d : Nat) (e : Int) : Bool :=
  let l := common r.low r.unit d e
  let h := common r.high r.unit d e
  if r.closed then l.1 ≤ l.2 && h.2 ≤ h.1 else l.1 < l.2 && h.2 < h.1

/-- The largest `d` with `d * 10 ^ e` at most the double. -/
def Interval.floor (r : Interval) (e : Int) : Nat :=
  let c := common r.mid r.unit 1 e
  c.1 / c.2

/-- Whether `d * 10 ^ e` is nearer to the double than `(d + 1) * 10 ^ e`. Half way between the
two, the even one counts as nearer. -/
def Interval.nearerBelow (r : Interval) (d : Nat) (e : Int) : Bool :=
  let c := common (2 * r.mid) r.unit (2 * d + 1) e
  c.1 < c.2 || (c.1 == c.2 && d % 2 == 0)

/-- The grid of step `10 ^ e`: the point in the interval that is nearest to the double. -/
def Interval.pick? (r : Interval) (e : Int) : Option Decimal :=
  let d := r.floor e
  match r.holds d e, r.holds (d + 1) e with
  | true, true => some ⟨if r.nearerBelow d e then d else d + 1, e⟩
  | true, false => some ⟨d, e⟩
  | false, true => some ⟨d + 1, e⟩
  | false, false => none

/-- The exponent of the leading decimal digit of `m * 2 ^ q`, for `0 < m`. -/
def leading (m : Nat) (q : Int) : Int :=
  let guess := Int.fdiv (((m.log2 : Int) + q) * 30103) 100000
  let atMost (e : Int) : Bool := let c := common m q 1 e; c.2 ≤ c.1
  if ! atMost guess then guess - 1
  else if atMost (guess + 1) then guess + 1
  else guess

/-- Tries grids with one digit, two digits and so on; seventeen always suffice. -/
def search (r : Interval) (e : Int) : Nat → Decimal
  | 0 => ⟨r.floor e, e⟩
  | n + 1 => match r.pick? e with
    | some d => d
    | none => search r (e - 1) n

def strip (d : Nat) (e : Int) : Decimal :=
  if h : d ≠ 0 ∧ d % 10 = 0 then strip (d / 10) (e + 1) else ⟨d, e⟩
termination_by d
decreasing_by omega

/-- The shortest decimal that rounds to `m * 2 ^ q`, for `0 < m`. -/
def shortest (m : Nat) (q : Int) : Decimal :=
  let d := search (.around m q) (leading m q) 17
  strip d.digits d.exponent

end ScriptMachine.Shortest
