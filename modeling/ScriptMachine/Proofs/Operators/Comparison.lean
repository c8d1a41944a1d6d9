import ScriptMachine.Proofs.Machine.Operators

/-!
# Comparisons

The comparison operators fit together on values that are no doubles.

1. Equality tells plain values apart by their `Identity`, so it is an equivalence relation.
2. Two integers and two strings are compared by a linear order (`ComparedBy`), and what the six
   operators give follows from the one outcome of that comparison (`Ranked.coherent`).
3. All other values have no order: the ordering operators fail on them (`order_eq_error`).
-/

namespace ScriptMachine

/-! ## Linear orders -/

section

variable {α : Type} [LE α] [LT α] [DecidableLT α] [Std.IsLinearOrder α] [Std.LawfulOrderLT α]

/-- Compares by `<` alone. -/
def compareByLT (a b : α) : Ordering := if a < b then .lt else if b < a then .gt else .eq

theorem isLE_compareByLT {a b : α} : (compareByLT a b).isLE = true ↔ a ≤ b := by
  unfold compareByLT
  by_cases hab : a < b
  · simp [hab, Std.le_of_lt hab]
  · by_cases hba : b < a
    · simp [hab, hba, Std.not_le.mpr hba]
    · simp [hab, hba, Std.not_lt.mp hba]

instance : Std.OrientedCmp (compareByLT (α := α)) where
  eq_swap {a b} := by
    unfold compareByLT
    by_cases hab : a < b
    · simp [hab, Std.not_gt_of_lt hab]
    · by_cases hba : b < a <;> simp [hab, hba]

instance : Std.TransCmp (compareByLT (α := α)) where
  isLE_trans hab hbc := by
    rw [isLE_compareByLT] at *
    exact Std.le_trans hab hbc

instance : Std.LawfulEqCmp (compareByLT (α := α)) where
  compare_self := by simp [compareByLT, Std.lt_irrefl]
  eq_of_compare {a b} h := by
    have hab := isLE_compareByLT.mp (Ordering.isLE_of_eq_eq h)
    have hba := isLE_compareByLT.mp (Ordering.isLE_of_eq_eq (Std.OrientedCmp.eq_comm.mp h))
    exact Std.le_antisymm hab hba

end

instance : Std.TransCmp compareInt := inferInstanceAs (Std.TransCmp (compareByLT (α := Int64)))

instance : Std.LawfulEqCmp compareInt :=
  inferInstanceAs (Std.LawfulEqCmp (compareByLT (α := Int64)))

instance : Std.TransCmp compareString := inferInstanceAs (Std.TransCmp (compareByLT (α := String)))

instance : Std.LawfulEqCmp compareString :=
  inferInstanceAs (Std.LawfulEqCmp (compareByLT (α := String)))

/-! ## Operators that hold -/

/-- `l op r` is true. -/
def Holds (op : String) (l r : Value) : Prop := applySymbol op l r = .ok (.bool true)

theorem holds_eq {l r : Value} : Holds "==" l r ↔ equal l r = true := by
  rw [Holds, show "==" = BinOp.eq.symbol from rfl, applySymbol_symbol]
  simp [BinOp.apply]

theorem applySymbol_order (op : OrderOp) (l r : Value) :
    applySymbol (BinOp.order op).symbol l r = (order op l r).map .bool :=
  applySymbol_symbol (.order op) l r

theorem holds_order {op : OrderOp} {l r : Value} {o : Ordering}
    (h : order op l r = .ok (op.holds o)) :
    Holds (BinOp.order op).symbol l r ↔ op.holds o = true := by
  rw [Holds, applySymbol_order, h]
  simp [Except.map]

/-! ## Equality -/

/-- Null, integers, strings, truth values and closures. -/
inductive Value.IsPlain : Value → Prop
  | null : IsPlain .null
  | int (n : Int64) : IsPlain (.int n)
  | string (s : String) : IsPlain (.string s)
  | bool (b : Bool) : IsPlain (.bool b)
  | closure (c : Closure Value) : IsPlain (.closure c)
  | dangling : IsPlain .dangling

/-- What plain values are told apart by. A closure has its own identity, and those with nothing
behind them share one. -/
inductive Identity where
  | null
  | int (n : Int64)
  | string (s : String)
  | bool (b : Bool)
  | closure (id : Option ClosureId)

def Value.identity? : Value → Option Identity
  | null => some .null
  | int n => some (.int n)
  | string s => some (.string s)
  | bool b => some (.bool b)
  | closure c => some (.closure (some c.id))
  | dangling => some (.closure none)
  | unset | float _ | reg _ | foreign => none

theorem equal_iff_identity? {l r : Value} (hl : l.IsPlain) (hr : r.IsPlain) :
    equal l r = true ↔ l.identity? = r.identity? := by
  cases hl <;> cases hr <;>
    simp [equal, Value.num?, Num.same, equalWithinKind, Value.identity?]

theorem equivalence_equal :
    Equivalence fun u v : { v : Value // v.IsPlain } => equal u.1 v.1 = true where
  refl u := (equal_iff_identity? u.2 u.2).mpr rfl
  symm {u v} huv := by
    rw [equal_iff_identity? u.2 v.2] at huv
    exact (equal_iff_identity? v.2 u.2).mpr huv.symm
  trans {u v w} huv hvw := by
    rw [equal_iff_identity? u.2 v.2] at huv
    rw [equal_iff_identity? v.2 w.2] at hvw
    exact (equal_iff_identity? u.2 w.2).mpr (huv.trans hvw)

/-! ## Ordering -/

/-- Two integers, or two strings. -/
inductive Value.Ordered : Value → Value → Prop
  | ints (a b : Int64) : Ordered (.int a) (.int b)
  | strings (a b : String) : Ordered (.string a) (.string b)

def Value.isFloat : Value → Bool
  | float _ => true
  | _ => false

/-- What the operators give on two values follows from the outcome of one comparison. -/
structure Ranked (l r : Value) (o : Ordering) : Prop where
  order : ∀ op, order op l r = .ok (op.holds o)
  order_swap : ∀ op, ScriptMachine.order op r l = .ok (op.holds o.swap)
  equal_iff : equal l r = true ↔ o = .eq

/-- The operators compare the values that `make` makes just as `cmp` compares what they are made
of. -/
structure ComparedBy {α : Type} (make : α → Value) (cmp : α → α → Ordering) : Prop where
  order : ∀ op a b, order op (make a) (make b) = .ok (op.holds (cmp a b))
  equal_iff : ∀ a b, equal (make a) (make b) = true ↔ a = b

namespace ComparedBy

variable {α : Type} {make : α → Value} {cmp : α → α → Ordering} (h : ComparedBy make cmp)
  {a b c : α}

include h

theorem ranked [Std.TransCmp cmp] [Std.LawfulEqCmp cmp] : Ranked (make a) (make b) (cmp a b) := by
  refine ⟨fun op => h.order op a b, fun op => ?_, ?_⟩
  · have hswap : cmp b a = (cmp a b).swap := Std.OrientedCmp.eq_swap
    rw [h.order, hswap]
  · rw [h.equal_iff, Std.LawfulEqCmp.compare_eq_iff_eq]

theorem holds_lt : Holds "<" (make a) (make b) ↔ cmp a b = .lt :=
  (holds_order (h.order .lt a b)).trans beq_iff_eq

theorem lt_trans [Std.TransCmp cmp] (hab : Holds "<" (make a) (make b))
    (hbc : Holds "<" (make b) (make c)) : Holds "<" (make a) (make c) := by
  rw [h.holds_lt] at *
  exact Std.TransCmp.lt_trans hab hbc

end ComparedBy

theorem comparedBy_compareInt : ComparedBy .int compareInt :=
  ⟨fun _ _ _ => rfl, fun _ _ => beq_iff_eq⟩

theorem comparedBy_compareString : ComparedBy .string compareString :=
  ⟨fun _ _ _ => rfl, fun _ _ => beq_iff_eq⟩

namespace Value.Ordered

variable {l m r : Value}

theorem ranked (h : l.Ordered r) : ∃ o, Ranked l r o := by
  cases h with
  | ints a b => exact ⟨_, comparedBy_compareInt.ranked⟩
  | strings a b => exact ⟨_, comparedBy_compareString.ranked⟩

theorem lt_trans (hlm : l.Ordered m) (hmr : m.Ordered r) (hlt : Holds "<" l m)
    (hlt' : Holds "<" m r) : Holds "<" l r := by
  cases hlm with
  | ints a b =>
    cases hmr with
    | ints _ c => exact comparedBy_compareInt.lt_trans hlt hlt'
  | strings a b =>
    cases hmr with
    | strings _ c => exact comparedBy_compareString.lt_trans hlt hlt'

end Value.Ordered

/-- Values that are neither two numbers nor two strings have no order. -/
theorem order_eq_error {l r : Value} (hl : l.isFloat = false) (hr : r.isFloat = false)
    (h : ¬ l.Ordered r) (op : OrderOp) :
    order op l r = .error (.mismatch l.kind (BinOp.order op).symbol r.kind) := by
  cases l with
  | int a =>
    cases r with
    | int b => exact absurd (.ints a b) h
    | float x => cases hr
    | _ => rfl
  | string a =>
    cases r with
    | string b => exact absurd (.strings a b) h
    | _ => rfl
  | float x => cases hl
  | _ => rfl

/-! ## Coherence -/

/-- The ordering operators and equality fit together on two values: each of the former gives a truth
value, exactly one of `<`, `==` and `>` holds, and the others follow from these. -/
structure Coherent (l r : Value) : Prop where
  answers : ∀ op : OrderOp, ∃ b, applySymbol (BinOp.order op).symbol l r = .ok (.bool b)
  one : Holds "<" l r ∧ ¬ Holds "==" l r ∧ ¬ Holds ">" l r ∨
    ¬ Holds "<" l r ∧ Holds "==" l r ∧ ¬ Holds ">" l r ∨
    ¬ Holds "<" l r ∧ ¬ Holds "==" l r ∧ Holds ">" l r
  le : Holds "<=" l r ↔ Holds "<" l r ∨ Holds "==" l r
  ge : Holds ">=" l r ↔ Holds ">" l r ∨ Holds "==" l r
  swap : Holds "<" l r ↔ Holds ">" r l

theorem Ranked.coherent {l r : Value} {o : Ordering} (h : Ranked l r o) : Coherent l r := by
  have hlt : Holds "<" l r ↔ o = .lt := (holds_order (h.order .lt)).trans beq_iff_eq
  have hgt : Holds ">" l r ↔ o = .gt := (holds_order (h.order .gt)).trans beq_iff_eq
  have hle : Holds "<=" l r ↔ o ≠ .gt := (holds_order (h.order .le)).trans bne_iff_ne
  have hge : Holds ">=" l r ↔ o ≠ .lt := (holds_order (h.order .ge)).trans bne_iff_ne
  have heq : Holds "==" l r ↔ o = .eq := holds_eq.trans h.equal_iff
  have hswap : Holds ">" r l ↔ o.swap = .gt := (holds_order (h.order_swap .gt)).trans beq_iff_eq
  constructor
  · intro op
    refine ⟨op.holds o, ?_⟩
    rw [applySymbol_order, h.order]
    rfl
  all_goals
    simp only [hlt, hgt, hle, hge, heq, hswap]
    cases o <;> decide

/-- Comparisons are coherent. Equality is an equivalence relation on plain values, on closures by
identity; on two integers or two strings the operators fit together and `<` is transitive; on all
other pairs without a double the ordering operators fail with a type mismatch; and `==` and `!=` never
fail, and deny each other. -/
theorem comparisons_coherent :
    (Equivalence fun u v : { v : Value // v.IsPlain } => equal u.1 v.1 = true) ∧
    (∀ c d, equal (.closure c) (.closure d) = true ↔ c.id = d.id) ∧
    (∀ l r, l.Ordered r → Coherent l r) ∧
    (∀ l m r, l.Ordered m → m.Ordered r → Holds "<" l m → Holds "<" m r → Holds "<" l r) ∧
    (∀ l r, l.isFloat = false → r.isFloat = false → ¬ l.Ordered r → ∀ op : OrderOp,
      ∃ c, applySymbol (BinOp.order op).symbol l r = .error c ∧ c.kind = .typeMismatch) ∧
    ∀ l r, ∃ b, applySymbol "==" l r = .ok (.bool b) ∧ applySymbol "!=" l r = .ok (.bool !b) := by
  refine ⟨equivalence_equal, fun c d => beq_iff_eq, fun l r h => ?_,
    fun l m r => Value.Ordered.lt_trans, fun l r hl hr h op => ?_, fun l r => ?_⟩
  · obtain ⟨o, ho⟩ := h.ranked
    exact ho.coherent
  · rw [applySymbol_order, order_eq_error hl hr h]
    exact ⟨_, rfl, rfl⟩
  · exact ⟨equal l r, applySymbol_symbol .eq l r, applySymbol_symbol .ne l r⟩

theorem tenAndNine_coherent :
    Value.Ordered (.string "10") (.string "9") ∧ Coherent (.string "10") (.string "9") ∧
      Holds "<" (.string "10") (.string "9") ∧ ¬ Value.Ordered .null (.int 0) ∧
      ∃ c, applySymbol "<" .null (.int 0) = .error c ∧ c.kind = .typeMismatch :=
  ⟨.strings "10" "9", comparisons_coherent.2.2.1 _ _ (.strings "10" "9"), rfl, by rintro ⟨⟩,
    comparisons_coherent.2.2.2.2.1 _ _ rfl rfl (by rintro ⟨⟩) .lt⟩

end ScriptMachine
