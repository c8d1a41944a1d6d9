import ScriptMachine.Number.Shortest
import ScriptMachine.Text.Decimal

/-!
# Text of a double

The digits are the fewest that read back. `Layout` holds the choices of notation, and `layout` is
the one used everywhere: positional for decimal exponents from `-4` to `5`, otherwise scientific
with a signed exponent of at least two digits.
-/

namespace ScriptMachine.Number

open ScriptMachine.Text

/-- How the digits of a double are laid out. -/
structure Layout where
  /-- The least decimal exponent written positionally. -/
  positionalFrom : Int
  /-- The least decimal exponent above those that is written scientifically. -/
  scientificFrom : Int
  /-- The fewest digits of a written exponent. -/
  exponentWidth : Nat
  nan : String
  infinite : Bool → String

/-- The layout of every double in values, listings and messages. -/
def layout : Layout where
  positionalFrom := -4
  scientificFrom := 6
  exponentWidth := 2
  nan := "NaN"
  infinite := fun neg => if neg then "-Inf" else "+Inf"

/-- Digits with `width` characters at least, zeros in front. -/
def padded (width n : Nat) : List Char :=
  let ds := decimalDigits n
  List.replicate (width - ds.length) '0' ++ ds

/-- Scientific notation: one digit, the others after a point, and the exponent. -/
def scientific (l : Layout) (ds : List Char) (exp : Int) : List Char :=
  let mantissa := match ds with
    | d :: [] => [d]
    | d :: r => d :: '.' :: r
    | [] => []
  mantissa ++ 'e' :: (if exp < 0 then '-' else '+') :: padded l.exponentWidth exp.natAbs

/-- Positional notation of digits whose first has the weight `10 ^ exp`. -/
def positional (ds : List Char) (exp : Int) : List Char :=
  if exp < 0 then
    '0' :: '.' :: (List.replicate (-exp - 1).toNat '0' ++ ds)
  else
    let whole := (exp + 1).toNat
    let int := ds.take whole ++ List.replicate (whole - ds.length) '0'
    match ds.drop whole with
    | [] => int
    | frac => int ++ '.' :: frac

def Layout.text (l : Layout) (x : Float) : String :=
  match Binary64.parts x with
  | .nan => l.nan
  | .infinite neg => l.infinite neg
  | .finite neg m q =>
    let body :=
      if m = 0 then ['0']
      else
        let d := Shortest.shortest m q
        let ds := decimalDigits d.digits
        let exp := d.exponent + ds.length - 1
        if exp < l.positionalFrom ∨ l.scientificFrom ≤ exp then scientific l ds exp
        else positional ds exp
    String.ofList (if neg then '-' :: body else body)

def floatText (x : Float) : String := layout.text x

end ScriptMachine.Number
