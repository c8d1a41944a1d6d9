import Mathlib.Tactic.SplitIfs
import ScriptMachine.Machine.Action

/-!
# What operators give

The result of an operator is a number or a truth value, and the faults of operators are about their
operands.
-/

namespace ScriptMachine

theorem ofSymbol?_symbol (op : BinOp) : BinOp.ofSymbol? op.symbol = some op := by
  cases op with
  | eq | ne => rfl
  | arith op | order op | bits op => cases op <;> rfl

theorem applySymbol_symbol (op : BinOp) (l r : Value) :
    applySymbol op.symbol l r = op.apply l r := by
  rw [applySymbol, ofSymbol?_symbol]

/-- The values that operators give. -/
def Value.isComputed : Value → Bool
  | int _ | float _ | bool _ => true
  | _ => false

theorem Value.isSet_of_isComputed {v : Value} (h : v.isComputed = true) : v.isSet = true := by
  cases v <;> first | rfl | cases h

/-- The causes of faults that operators have. -/
def Cause.isOfOperator : Cause → Bool
  | mismatch .. | integersExpected .. | negativeShift _ | badPattern .. => true
  | _ => false

/-- What an operator may give. -/
def Computes : Except Cause Value → Prop
  | .ok v => v.isComputed = true
  | .error c => c.isOfOperator = true

theorem isComputed_intArith (op : ArithOp) (l r : Int64) : (intArith op l r).isComputed = true := by
  cases op
  case add | sub | mul => rfl
  case div =>
    show (intDiv l r).isComputed = true
    unfold intDiv
    split_ifs <;> rfl
  case mod =>
    show (intMod l r).isComputed = true
    unfold intMod
    split_ifs <;> rfl
  case pow =>
    unfold intArith
    dsimp only
    split_ifs <;> rfl

theorem computes_arith (op : ArithOp) (l r : Value) : Computes (arith op l r) := by
  unfold arith
  split
  · rename_i a b _ _
    cases a <;> cases b
    · exact isComputed_intArith op _ _
    all_goals rfl
  · rfl

theorem computes_bitwise (op : BitOp) (l r : Value) : Computes (bitwise op l r) := by
  unfold bitwise
  split
  · cases op
    case and | or | xor => rfl
    case shl | shr =>
      unfold intBits
      dsimp only
      split_ifs <;> rfl
  · rfl

theorem computes_order (op : OrderOp) (l r : Value) : Computes ((order op l r).map .bool) := by
  unfold order
  split
  · rfl
  · rfl
  · split <;> rfl

theorem computes_apply (op : BinOp) (l r : Value) : Computes (op.apply l r) := by
  cases op with
  | arith op => exact computes_arith op l r
  | eq => rfl
  | ne => rfl
  | order op => exact computes_order op l r
  | bits op => exact computes_bitwise op l r

theorem computes_matchPattern (l r : Value) (negate : Bool) :
    Computes (Machine.matchPattern l r negate) := by
  unfold Machine.matchPattern
  split <;> rfl

end ScriptMachine
