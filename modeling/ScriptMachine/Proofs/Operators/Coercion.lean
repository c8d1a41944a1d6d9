import ScriptMachine.Lowering.Program
import ScriptMachine.Proofs.Machine.Operators
import ScriptMachine.Proofs.Number.DecimalText

/-!
# Integers and their decimal texts

A 64-bit integer and its decimal text stand for each other: as a number literal the text is lowered
to the integer, and as an operand of an operator on numbers it gives what the integer gives.

1. Operators on numbers see their operands only through the numbers that these hold, up to the kinds
   that a fault names (`coincide_applySymbol`).
2. A decimal text holds its integer, white space around it aside (`ofText?_decimal`).
-/

namespace ScriptMachine

open Text (decimal isBlank)

/-! ## Operators on numbers -/

/-- The symbols of the operators that take numbers, and strings that hold a number. -/
def numericSymbols : List String := ["+", "-", "*", "/", "%", "**", "&", "|", "^", "<<", ">>"]

theorem symbol_of_mem_numericSymbols {s : String} (h : s ∈ numericSymbols) :
    (∃ op, s = (BinOp.arith op).symbol) ∨ ∃ op, s = (BinOp.bits op).symbol := by
  simp only [numericSymbols, List.mem_cons, List.not_mem_nil, or_false] at h
  obtain rfl | rfl | rfl | rfl | rfl | rfl | rfl | rfl | rfl | rfl | rfl := h
  · exact .inl ⟨.add, rfl⟩
  · exact .inl ⟨.sub, rfl⟩
  · exact .inl ⟨.mul, rfl⟩
  · exact .inl ⟨.div, rfl⟩
  · exact .inl ⟨.mod, rfl⟩
  · exact .inl ⟨.pow, rfl⟩
  · exact .inr ⟨.and, rfl⟩
  · exact .inr ⟨.or, rfl⟩
  · exact .inr ⟨.xor, rfl⟩
  · exact .inr ⟨.shl, rfl⟩
  · exact .inr ⟨.shr, rfl⟩

/-- Two results with the same value, or two type mismatches. -/
inductive Coincide : Except Cause Value → Except Cause Value → Prop
  | ok (v : Value) : Coincide (.ok v) (.ok v)
  | mismatch {c c' : Cause} (h : c.kind = .typeMismatch) (h' : c'.kind = .typeMismatch) :
      Coincide (.error c) (.error c')

theorem coincide_intBits (op : BitOp) (a b : Int64) :
    Coincide ((intBits op a b).map .int) ((intBits op a b).map .int) := by
  cases op with
  | and | or | xor => exact .ok _
  | shl | shr =>
    dsimp only [intBits]
    by_cases hb : b < 0
    · rw [if_pos hb]
      exact .mismatch rfl rfl
    · rw [if_neg hb]
      exact .ok _

section

variable {l l' r r' : Value} (hl : Num.ofValue? l = Num.ofValue? l')
  (hr : Num.ofValue? r = Num.ofValue? r')

include hl hr

theorem coincide_arith (op : ArithOp) : Coincide (arith op l r) (arith op l' r') := by
  unfold arith
  rw [hl, hr]
  cases Num.ofValue? l' with
  | none => exact .mismatch rfl rfl
  | some a =>
    cases Num.ofValue? r' with
    | none => exact .mismatch rfl rfl
    | some b => exact .ok _

theorem coincide_bitwise (op : BitOp) : Coincide (bitwise op l r) (bitwise op l' r') := by
  unfold bitwise
  rw [hl, hr]
  rcases Num.ofValue? l' with _ | a | x
  · exact .mismatch rfl rfl
  · rcases Num.ofValue? r' with _ | b | y
    · exact .mismatch rfl rfl
    · exact coincide_intBits op a b
    · exact .mismatch rfl rfl
  · exact .mismatch rfl rfl

theorem coincide_applySymbol {op : String} (hop : op ∈ numericSymbols) :
    Coincide (applySymbol op l r) (applySymbol op l' r') := by
  obtain ⟨op, rfl⟩ | ⟨op, rfl⟩ := symbol_of_mem_numericSymbols hop
  · rw [applySymbol_symbol, applySymbol_symbol]
    exact coincide_arith hl hr op
  · rw [applySymbol_symbol, applySymbol_symbol]
    exact coincide_bitwise hl hr op

end

/-! ## Decimal texts -/

/-- A string with a decimal text, around which there may be white space, holds the integer. -/
theorem Num.ofText?_decimal (v : Int64) {before after : String}
    (hbefore : ∀ c ∈ before.toList, isBlank c = true)
    (hafter : ∀ c ∈ after.toList, isBlank c = true) :
    Num.ofText? (before ++ decimal v.toInt ++ after) = some (.int v) := by
  unfold Num.ofText?
  dsimp only
  rw [Text.trimBlank_append_decimal v.toInt hbefore hafter, Number.readInt_decimal]

theorem Lowering.number_text (pos : Position) (v : Int64) :
    Lowering.number pos (Value.int v).text = pure (.int v) := by
  have hvalue : Lowering.numberValue? (Value.int v).text = some (.int v) := by
    change Lowering.numberValue? (decimal v.toInt) = some (.int v)
    unfold Lowering.numberValue?
    dsimp only
    rw [Number.readInt_decimal]
    rfl
  rw [Lowering.number, hvalue]

/-- The text of an integer stands for the integer. A number literal with this text is lowered to a
constant with the integer, with no complaint, and in an operator on numbers a string that holds the
text, with any white space around it, gives on either side what the integer gives: the same value, or
a type mismatch as well. -/
theorem decimal_text_interchangeable (v : Int64) :
    (∀ pos (s : Builder), (Lowering.number pos (Value.int v).text).run s = (.int v, s)) ∧
    (∀ pos b, Lowering.node b (.number pos (Value.int v).text) = Lowering.constant b (.int v)) ∧
    ∀ op ∈ numericSymbols, ∀ before after : String,
      (∀ c ∈ before.toList, isBlank c = true) → (∀ c ∈ after.toList, isBlank c = true) → ∀ x,
        Coincide (applySymbol op (.string (before ++ (Value.int v).text ++ after)) x)
          (applySymbol op (.int v) x) ∧
        Coincide (applySymbol op x (.string (before ++ (Value.int v).text ++ after)))
          (applySymbol op x (.int v)) := by
  refine ⟨fun pos s => ?_, fun pos b => ?_, fun op hop before after hbefore hafter x => ?_⟩
  · rw [Lowering.number_text]
    rfl
  · rw [Lowering.node, Lowering.number_text]
    rfl
  · have hsame : Num.ofValue? (.string (before ++ (Value.int v).text ++ after)) =
        Num.ofValue? (.int v) := Num.ofText?_decimal v hbefore hafter
    exact ⟨coincide_applySymbol hsame rfl hop, coincide_applySymbol rfl hsame hop⟩

theorem minValue_text_interchangeable :
    "+" ∈ numericSymbols ∧ (∀ c ∈ " \t".toList, isBlank c = true) ∧
    (∀ c ∈ "\n".toList, isBlank c = true) ∧
    Coincide (applySymbol "+" (.string (" \t" ++ (Value.int Int64.minValue).text ++ "\n")) (.int 1))
      (applySymbol "+" (.int Int64.minValue) (.int 1)) :=
  ⟨by decide, List.all_eq_true.mp rfl, List.all_eq_true.mp rfl,
    ((decimal_text_interchangeable Int64.minValue).2.2 "+" (by decide) " \t" "\n"
      (List.all_eq_true.mp rfl) (List.all_eq_true.mp rfl) (.int 1)).1⟩

/-- Spaces, tabs and newlines are white space. -/
example : isBlank ' ' = true ∧ isBlank '\t' = true ∧ isBlank '\n' = true := by decide

end ScriptMachine
