import Mathlib.Data.List.Basic
import Mathlib.Tactic.Common
import ScriptMachine.Code.Program

/-!
# The code of a function

`Func.code` is the code of a block as a list, empty where there is no block. What the steps of
building a function do to it: a new block has no code, an instruction goes to the end of one block,
and a replaced instruction keeps its place. `CodeAt` says what stands in it from an index on.
-/

namespace ScriptMachine

/-- The indices of a block of fewer instructions than this are 64-bit integers. -/
def codeLimit : Nat := 1 <<< 63

theorem codeLimit_eq : codeLimit = 9223372036854775808 := rfl

/-- Whether the last instruction of some code ends its block. -/
def endsBlock (code : List Instr) : Bool := code.getLast?.any Instr.isTerminator

@[simp] theorem endsBlock_nil : endsBlock [] = false := rfl

@[simp] theorem endsBlock_append (code : List Instr) (x : Instr) :
    endsBlock (code ++ [x]) = x.isTerminator := by
  simp [endsBlock]

/-- From the index `i` on, the code goes on with `xs`. -/
def CodeAt (code : List Instr) (i : Nat) (xs : List Instr) : Prop :=
  ∀ a x, xs[a]? = some x → code[i + a]? = some x

namespace CodeAt

variable {code xs ys : List Instr} {x : Instr} {i : Nat}

theorem of_append (h : code = xs ++ ys) : CodeAt code xs.length ys := by
  intro a x hx
  rw [h, List.getElem?_append_right (Nat.le_add_right _ _), Nat.add_sub_cancel_left, hx]

theorem head (h : CodeAt code i (x :: xs)) : code[i]? = some x := h 0 x rfl

theorem tail (h : CodeAt code i (x :: xs)) : CodeAt code (i + 1) xs := by
  intro a y hy
  rw [Nat.add_right_comm]
  exact h (a + 1) y hy

theorem left (h : CodeAt code i (xs ++ ys)) : CodeAt code i xs := fun a x hx =>
  h a x (by rw [List.getElem?_append_left (List.getElem?_eq_some_iff.mp hx).1, hx])

theorem last (h : CodeAt code i (xs ++ [x])) : code[i + xs.length]? = some x :=
  h _ x List.getElem?_concat_length

theorem of_map {α : Type} {f : α → Instr} {ms : List α} (h : CodeAt code i (ms.map f)) (a : Nat) (m : α)
    (hm : ms[a]? = some m) : code[i + a]? = some (f m) :=
  h a _ (by rw [List.getElem?_map, hm]; rfl)

end CodeAt

namespace Func

/-- The code of a block; a block that does not exist has none. -/
def code (f : Func) (b : BlockId) : List Instr :=
  match f.block? b with
  | some k => k.code.toList
  | none => []

/-- A function has a block. -/
def Has (f : Func) (b : BlockId) : Prop := 0 ≤ b.index ∧ b.index < f.blocks.size

/-- A register that the function has. -/
def InRange (f : Func) (r : Reg) : Prop := 0 ≤ r.index ∧ r.index < f.numRegs

theorem block?_natCast (f : Func) (n : Nat) : f.block? ⟨n⟩ = f.blocks[n]? := by
  have h : ¬ (n : Int) < 0 := by omega
  simp [block?, h]

theorem isSome_block?_iff (f : Func) (b : BlockId) : (f.block? b).isSome ↔ f.Has b := by
  unfold block? Has
  split <;> simp <;> omega

theorem has_natCast_iff (f : Func) (n : Nat) : f.Has ⟨n⟩ ↔ n < f.blocks.size := by
  simp [Has]

theorem Has.exists_natCast {f : Func} {b : BlockId} (h : f.Has b) :
    ∃ n : Nat, n < f.blocks.size ∧ b = ⟨n⟩ := by
  obtain ⟨i⟩ := b
  obtain ⟨h₀, h₁⟩ := h
  refine ⟨i.toNat, ?_, ?_⟩
  · simp only at h₀ h₁; omega
  · simp only [BlockId.mk.injEq]; simp only at h₀; omega

theorem block?_eq_some_of_has {f : Func} {b : BlockId} (h : f.Has b) : ∃ k, f.block? b = some k :=
  Option.isSome_iff_exists.mp ((isSome_block?_iff f b).mpr h)

theorem code_of_block? {f : Func} {b : BlockId} {k : Block} (h : f.block? b = some k) :
    f.code b = k.code.toList := by
  simp [code, h]

theorem code_congr {f g : Func} (h : f.blocks = g.blocks) (b : BlockId) : f.code b = g.code b := by
  simp only [code, block?, h]

theorem code_eq_nil_of_not_has {f : Func} {b : BlockId} (h : ¬ f.Has b) : f.code b = [] := by
  have : f.block? b = none := by
    rw [← Option.not_isSome_iff_eq_none, isSome_block?_iff]; exact h
  simp [code, this]

theorem has_of_code_ne_nil {f : Func} {b : BlockId} (h : f.code b ≠ []) : f.Has b := by
  by_contra hb
  exact h (code_eq_nil_of_not_has hb)

/-! ## Registers and blocks -/

section
variable (f : Func)

@[simp] theorem newReg_reg : f.newReg.2 = ⟨f.numRegs⟩ := rfl
@[simp] theorem newReg_numRegs : f.newReg.1.numRegs = f.numRegs + 1 := rfl
@[simp] theorem newReg_blocks : f.newReg.1.blocks = f.blocks := rfl
@[simp] theorem newReg_code (b : BlockId) : f.newReg.1.code b = f.code b := rfl
@[simp] theorem newReg_has (b : BlockId) : f.newReg.1.Has b ↔ f.Has b := Iff.rfl

@[simp] theorem newBlock_id : f.newBlock.2 = ⟨f.blocks.size⟩ := rfl
@[simp] theorem newBlock_numRegs : f.newBlock.1.numRegs = f.numRegs := rfl

@[simp] theorem newBlock_size : f.newBlock.1.blocks.size = f.blocks.size + 1 := by
  simp [newBlock]

theorem newBlock_has_iff (b : BlockId) : f.newBlock.1.Has b ↔ f.Has b ∨ b = ⟨f.blocks.size⟩ := by
  obtain ⟨i⟩ := b
  simp only [Has, newBlock_size, BlockId.mk.injEq]
  omega

theorem not_has_size : ¬ f.Has ⟨f.blocks.size⟩ := fun h => absurd h.2 (by simp)

@[simp] theorem code_size : f.code ⟨f.blocks.size⟩ = [] := code_eq_nil_of_not_has f.not_has_size

theorem newBlock_has_self : f.newBlock.1.Has ⟨f.blocks.size⟩ :=
  (newBlock_has_iff f _).mpr (.inr rfl)

/-- A new block is empty. -/
@[simp] theorem newBlock_code (b : BlockId) : f.newBlock.1.code b = f.code b := by
  by_cases hb : b.index < 0
  · simp [code, block?, hb]
  · have hpush : (f.blocks.push { id := ⟨f.blocks.size⟩ })[b.index.toNat]? =
        if b.index.toNat = f.blocks.size then some { id := ⟨f.blocks.size⟩ }
        else f.blocks[b.index.toNat]? := Array.getElem?_push
    by_cases hn : b.index.toNat = f.blocks.size
    · simp [code, block?, hb, newBlock, hn]
    · simp [code, block?, hb, newBlock, hpush, hn]

end

/-! ## Instructions -/

section
variable {f : Func} {b : BlockId}

@[simp] theorem append_size (f : Func) (b : BlockId) (x : Instr) :
    (f.append b x).blocks.size = f.blocks.size := by
  unfold append; split <;> simp

@[simp] theorem append_numRegs (f : Func) (b : BlockId) (x : Instr) :
    (f.append b x).numRegs = f.numRegs := by
  unfold append; split <;> rfl

@[simp] theorem append_has (f : Func) (b c : BlockId) (x : Instr) :
    (f.append b x).Has c ↔ f.Has c := by
  simp [Has]

theorem append_code_self (h : f.Has b) (x : Instr) : (f.append b x).code b = f.code b ++ [x] := by
  obtain ⟨n, hn, rfl⟩ := h.exists_natCast
  have hn₀ : ¬ (n : Int) < 0 := by omega
  simp [code, append, block?, Array.getElem_modify, hn, hn₀]

/-- A change of one block is none of the others. -/
theorem modify_code_ne {c : BlockId} (h : c ≠ b) (hb : 0 ≤ b.index) (change : Block → Block) :
    ({ f with blocks := f.blocks.modify b.index.toNat change } : Func).code c = f.code c := by
  by_cases hc : c.index < 0
  · simp [code, block?, hc]
  · have hne : b.index.toNat ≠ c.index.toNat := by
      intro he
      apply h
      obtain ⟨i⟩ := b
      obtain ⟨j⟩ := c
      simp only [BlockId.mk.injEq] at *
      omega
    simp [code, block?, hc, Array.getElem?_modify, hne]

theorem append_code_ne {c : BlockId} (h : c ≠ b) (x : Instr) :
    (f.append b x).code c = f.code c := by
  unfold append
  split
  · rfl
  · exact modify_code_ne h (by omega) _

theorem append_code_of_not_has (h : ¬ f.Has b) (x : Instr) (c : BlockId) :
    (f.append b x).code c = f.code c := by
  by_cases hc : c = b
  · subst hc
    rw [code_eq_nil_of_not_has h, code_eq_nil_of_not_has (by rwa [append_has])]
  · exact append_code_ne hc x

@[simp] theorem replace_size (f : Func) (b : BlockId) (i : Nat) (x : Instr) :
    (f.replace b i x).blocks.size = f.blocks.size := by
  unfold replace; split <;> simp

@[simp] theorem replace_numRegs (f : Func) (b : BlockId) (i : Nat) (x : Instr) :
    (f.replace b i x).numRegs = f.numRegs := by
  unfold replace; split <;> rfl

@[simp] theorem replace_has (f : Func) (b c : BlockId) (i : Nat) (x : Instr) :
    (f.replace b i x).Has c ↔ f.Has c := by
  simp [Has]

theorem replace_code_self (f : Func) (b : BlockId) (i : Nat) (x : Instr) :
    (f.replace b i x).code b = (f.code b).set i x := by
  by_cases h : f.Has b
  · obtain ⟨n, hn, rfl⟩ := h.exists_natCast
    have hn₀ : ¬ (n : Int) < 0 := by omega
    simp [code, replace, block?, Array.getElem_modify, hn, hn₀]
  · rw [code_eq_nil_of_not_has h, code_eq_nil_of_not_has (by rwa [replace_has])]
    rfl

theorem replace_code_ne {c : BlockId} (h : c ≠ b) (i : Nat) (x : Instr) :
    (f.replace b i x).code c = f.code c := by
  unfold replace
  split
  · rfl
  · exact modify_code_ne h (by omega) _

end

theorem terminated_eq_endsBlock (k : Block) : k.terminated = endsBlock k.code.toList := by
  unfold Block.terminated endsBlock
  rw [Array.getLast?_toList]
  cases k.code.back? <;> rfl

end Func

end ScriptMachine
