import ScriptMachine.Fault
import ScriptMachine.Number.Reading
import ScriptMachine.Text.Blank

/-!
# Binary operators

1. Arithmetic takes numbers and strings that hold one. Two integers give wrapped 64-bit results,
   except that a quotient that is not whole, a zero divisor and a negative power give doubles.
2. Bit operators take integers only.
3. `equal` compares numbers by value and other values within their kind; ordering is for two
   numbers or two strings.
-/

namespace ScriptMachine

inductive ArithOp where
  | add | sub | mul | div | mod | pow
deriving DecidableEq, Repr

inductive OrderOp where
  | lt | le | gt | ge
deriving DecidableEq, Repr

inductive BitOp where
  | and | or | xor | shl | shr
deriving DecidableEq, Repr

inductive BinOp where
  | arith (op : ArithOp)
  | eq
  | ne
  | order (op : OrderOp)
  | bits (op : BitOp)
deriving DecidableEq, Repr

namespace BinOp

def symbol : BinOp → String
  | arith .add => "+"
  | arith .sub => "-"
  | arith .mul => "*"
  | arith .div => "/"
  | arith .mod => "%"
  | arith .pow => "**"
  | eq => "=="
  | ne => "!="
  | order .lt => "<"
  | order .le => "<="
  | order .gt => ">"
  | order .ge => ">="
  | bits .and => "&"
  | bits .or => "|"
  | bits .xor => "^"
  | bits .shl => "<<"
  | bits .shr => ">>"

def all : List BinOp :=
  [arith .add, arith .sub, arith .mul, arith .div, arith .mod, arith .pow, eq, ne,
   order .lt, order .le, order .gt, order .ge,
   bits .and, bits .or, bits .xor, bits .shl, bits .shr]

def ofSymbol? (s : String) : Option BinOp := all.find? (·.symbol == s)

end BinOp

/-! ## Numbers in values -/

inductive Num where
  | int (n : Int64)
  | float (x : Float)

namespace Num

def toFloat : Num → Float
  | int n => n.toFloat
  | float x => x

/-- The number that a text holds, white space at its ends aside: an integer if it is one. -/
def ofText? (s : String) : Option Num :=
  let cs := Text.trimBlank s.toList
  match Number.readInt cs with
  | some n => some (int n)
  | none => (Number.readFloat cs).map float

/-- The number that a value is or, for a string, holds. -/
def ofValue? : Value → Option Num
  | .int n => some (int n)
  | .float x => some (float x)
  | .string s => ofText? s
  | _ => none

end Num

/-! ## Arithmetic -/

/-- A shift to the right by one place halves an integer, so the loop below comes to an end. -/
theorem toInt_shiftRight_one (n : Int64) : (n >>> 1).toInt = n.toInt / 2 := by
  have h : (n >>> 1).toInt = n.toBitVec.toInt >>> (1 : Nat) := BitVec.toInt_sshiftRight
  rw [h, Int.shiftRight_eq_div_pow]
  rfl

/-- `acc * x ^ n` by repeated squaring, wrapped to 64 bits. -/
def powLoop (x acc n : Int64) : Int64 :=
  if 0 < n then powLoop (x * x) (if n &&& 1 = 0 then acc else acc * x) (n >>> 1) else acc
termination_by n.toInt.toNat
decreasing_by
  have hpos : 0 < n.toInt := Int64.lt_iff_toInt_lt.mp ‹0 < n›
  rw [toInt_shiftRight_one]
  omega

/-- `x ^ n` wrapped to 64 bits. -/
def intPow (x n : Int64) : Int64 := powLoop x 1 n

/-- The quotient of doubles. A zero divisor of either sign gives the infinity with the sign of the
dividend, or NaN for a zero dividend. -/
def floatDiv (l r : Float) : Float :=
  if r == 0 then
    if l > 0 then Binary64.infinity false
    else if l < 0 then Binary64.infinity true
    else Binary64.nan
  else l / r

def floatArith (op : ArithOp) (l r : Float) : Float :=
  match op with
  | .add => l + r
  | .sub => l - r
  | .mul => l * r
  | .div => floatDiv l r
  | .mod => Binary64.remainder l r
  | .pow => Float.pow l r

/-- The quotient of integers: an integer if the division leaves no remainder. -/
def intDiv (l r : Int64) : Value :=
  if r = 0 then .float (floatDiv l.toFloat 0)
  else if r = -1 then .int (-l)
  else if l % r = 0 then .int (l / r)
  else .float (l.toFloat / r.toFloat)

/-- The remainder of integers; it has the sign of the dividend. -/
def intMod (l r : Int64) : Value :=
  if r = 0 then .float Binary64.nan
  else if r = -1 then .int 0
  else .int (l % r)

def intArith (op : ArithOp) (l r : Int64) : Value :=
  match op with
  | .add => .int (l + r)
  | .sub => .int (l - r)
  | .mul => .int (l * r)
  | .div => intDiv l r
  | .mod => intMod l r
  | .pow => if r < 0 then .float (Float.pow l.toFloat r.toFloat) else .int (intPow l r)

def numArith (op : ArithOp) : Num → Num → Value
  | .int l, .int r => intArith op l r
  | l, r => .float (floatArith op l.toFloat r.toFloat)

def arith (op : ArithOp) (l r : Value) : Except Cause Value :=
  match Num.ofValue? l, Num.ofValue? r with
  | some a, some b => .ok (numArith op a b)
  | _, _ => .error (.mismatch l.kind (BinOp.arith op).symbol r.kind)

/-! ## Bits -/

/-- Shift to the left; bits leave at the top. -/
def shiftLeft (l : Int64) (n : Nat) : Int64 := if n < 64 then l <<< Int64.ofNat n else 0

/-- Shift to the right that keeps the sign. -/
def shiftRight (l : Int64) (n : Nat) : Int64 :=
  if n < 64 then l >>> Int64.ofNat n else if l < 0 then -1 else 0

def intBits (op : BitOp) (l r : Int64) : Except Cause Int64 :=
  match op with
  | .and => .ok (l &&& r)
  | .or => .ok (l ||| r)
  | .xor => .ok (l ^^^ r)
  | .shl => if r < 0 then .error (.negativeShift r) else .ok (shiftLeft l r.toInt.toNat)
  | .shr => if r < 0 then .error (.negativeShift r) else .ok (shiftRight l r.toInt.toNat)

def bitwise (op : BitOp) (l r : Value) : Except Cause Value :=
  match Num.ofValue? l, Num.ofValue? r with
  | some (.int a), some (.int b) => (intBits op a b).map .int
  | _, _ => .error (.integersExpected l.kind (BinOp.bits op).symbol r.kind)

/-! ## Comparison -/

/-- The number a value is, without looking into strings. -/
def Value.num? : Value → Option Num
  | .int n => some (.int n)
  | .float x => some (.float x)
  | _ => none

def Num.same : Num → Num → Bool
  | .int a, .int b => a == b
  | a, b => a.toFloat == b.toFloat

/-- Equality of values other than two numbers: within one kind, closures by identity. References
and values outside the language equal nothing. -/
def equalWithinKind : Value → Value → Bool
  | .null, .null => true
  | .string a, .string b => a == b
  | .bool a, .bool b => a == b
  | .closure a, .closure b => a.id == b.id
  | .dangling, .dangling => true
  | _, _ => false

/-- Equality: numbers by value, other values within their kind. -/
def equal (l r : Value) : Bool :=
  match l.num?, r.num? with
  | some a, some b => a.same b
  | _, _ => equalWithinKind l r

/-- The meaning of an ordering operator on the outcome of a comparison. -/
def OrderOp.holds : OrderOp → Ordering → Bool
  | .lt, o => o == .lt
  | .le, o => o != .gt
  | .gt, o => o == .gt
  | .ge, o => o != .lt

def compareInt (a b : Int64) : Ordering := if a < b then .lt else if b < a then .gt else .eq

/-- Compares two strings by their code points. -/
def compareString (a b : String) : Ordering :=
  if a < b then .lt else if b < a then .gt else .eq

/-- Compares two doubles; `none` if one of them is NaN. -/
def compareFloat? (a b : Float) : Option Ordering :=
  if a.isNaN || b.isNaN then none
  else if a < b then some .lt
  else if a > b then some .gt
  else some .eq

/-- Whether `l op r` holds. With NaN nothing does. -/
def order (op : OrderOp) (l r : Value) : Except Cause Bool :=
  match l.num?, r.num? with
  | some (.int a), some (.int b) => .ok (op.holds (compareInt a b))
  | some a, some b =>
    .ok (match compareFloat? a.toFloat b.toFloat with
      | some o => op.holds o
      | none => false)
  | _, _ =>
    match l, r with
    | .string a, .string b => .ok (op.holds (compareString a b))
    | _, _ => .error (.mismatch l.kind (BinOp.order op).symbol r.kind)

/-! ## All operators -/

def BinOp.apply (op : BinOp) (l r : Value) : Except Cause Value :=
  match op with
  | .arith op => ScriptMachine.arith op l r
  | .eq => .ok (.bool (equal l r))
  | .ne => .ok (.bool (!equal l r))
  | .order op => (ScriptMachine.order op l r).map .bool
  | .bits op => bitwise op l r

def applySymbol (op : String) (l r : Value) : Except Cause Value :=
  match BinOp.ofSymbol? op with
  | some b => b.apply l r
  | none => .error (.unknownOperator op)

end ScriptMachine
