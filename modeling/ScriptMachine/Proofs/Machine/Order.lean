import Mathlib.Data.Set.Insert
import ScriptMachine.Proofs.Machine.Accesses
import ScriptMachine.Proofs.Machine.Certificate

/-!
# Plans

A plan of a program gives an outlook for points of its blocks: the blocks that may still be entered in
the frame, all from some number on, and the registers that may still be written. From each instruction
to whatever may run next the outlook may only become narrower. The registers that the instruction reads
must lie outside of it, and so must a block once it was entered.

If a program has a plan, the logs of its runs are orderly: what was read or entered lies outside the
outlook at hand, and what is written or entered next lies within.
-/

namespace ScriptMachine

/-- What may still happen in a frame: blocks are entered from a number on, and some registers are
written. -/
structure Outlook where
  blocks : Int
  regs : Set Reg

/-- An outlook that allows no more than another. -/
instance : LE Outlook := ⟨fun o' o => o.blocks ≤ o'.blocks ∧ o'.regs ⊆ o.regs⟩

theorem Outlook.le_refl (o : Outlook) : o ≤ o := ⟨Int.le_refl _, subset_rfl⟩

theorem Outlook.le_trans {o₁ o₂ o₃ : Outlook} (h₁ : o₁ ≤ o₂) (h₂ : o₂ ≤ o₃) : o₁ ≤ o₃ :=
  ⟨Int.le_trans h₂.1 h₁.1, h₁.2.trans h₂.2⟩

/-! ## Logs and outlooks -/

/-- The log of a frame with an outlook: it is orderly, and nothing in it stands against what may
still happen. -/
structure Log.Ready (log : Log) (o : Outlook) : Prop where
  orderly : log.Orderly
  entered : ∀ b, .enter b ∈ log → b.index < o.blocks
  read : ∀ r, .read r ∈ log → r ∉ o.regs

namespace Log.Ready

variable {log : Log} {o o' : Outlook}

theorem mono (h : log.Ready o) (ho : o' ≤ o) : log.Ready o' where
  orderly := h.orderly
  entered b hb := lt_of_lt_of_le (h.entered b hb) ho.1
  read r hr hmem := h.read r hr (ho.2 hmem)

theorem append_reads (h : log.Ready o) {x : Instr} (hx : ∀ r, .reg r ∈ x.ins → r ∉ o.regs) :
    Ready (log ++ x.readLog) o where
  orderly := by
    refine List.pairwise_append.mpr ⟨h.orderly, List.pairwise_of_forall_mem_list ?_, ?_⟩
    · intro a ha c hc
      obtain ⟨r, -, rfl⟩ := Instr.mem_readLog.mp ha
      obtain ⟨q, -, rfl⟩ := Instr.mem_readLog.mp hc
      trivial
    · intro a _ c hc
      obtain ⟨q, -, rfl⟩ := Instr.mem_readLog.mp hc
      cases a <;> trivial
  entered b hb := by
    rcases List.mem_append.mp hb with hb | hb
    · exact h.entered b hb
    · obtain ⟨q, -, hq⟩ := Instr.mem_readLog.mp hb
      cases hq
  read r hr := by
    rcases List.mem_append.mp hr with hr | hr
    · exact h.read r hr
    · obtain ⟨q, hmem, hq⟩ := Instr.mem_readLog.mp hr
      cases hq
      exact hx r hmem

theorem append_write (h : log.Ready o) {r : Reg} (hr : r ∈ o.regs) :
    Ready (log ++ [.write r]) o where
  orderly := by
    refine List.pairwise_append.mpr ⟨h.orderly, List.pairwise_singleton _ _, ?_⟩
    intro a ha c hc
    obtain rfl := List.mem_singleton.mp hc
    cases a with
    | read q => exact fun heq => h.read q ha (heq ▸ hr)
    | enter b | write q => trivial
  entered b hb := h.entered b (by simpa using hb)
  read q hq := h.read q (by simpa using hq)

theorem append_enter (h : log.Ready o) {b : BlockId} (hb : o.blocks ≤ b.index) (ho : o' ≤ o)
    (hb' : b.index < o'.blocks) : Ready (log ++ [.enter b]) o' where
  orderly := by
    refine List.pairwise_append.mpr ⟨h.orderly, List.pairwise_singleton _ _, ?_⟩
    intro a ha c hc
    obtain rfl := List.mem_singleton.mp hc
    cases a with
    | enter d =>
      have hd := h.entered d ha
      exact fun heq => by rw [heq] at hd; omega
    | read q | write q => trivial
  entered c hc := by
    rcases List.mem_append.mp hc with hc | hc
    · exact lt_of_lt_of_le (h.entered c hc) ho.1
    · obtain rfl : c = b := by simpa using hc
      exact hb'
  read q hq hmem := h.read q (by simpa using hq) (ho.2 hmem)

/-- A frame starts with its arguments and its first block. -/
theorem start (rs : List Reg) {b : BlockId} (hb : b.index < o.blocks) (log : Log)
    (hlog : log = [.enter b] ∨ log = []) : Ready (rs.map .write ++ log) o where
  orderly := by
    refine List.pairwise_append.mpr ⟨List.pairwise_map.mpr (List.pairwise_of_forall fun _ _ => trivial),
      ?_, ?_⟩
    · rcases hlog with rfl | rfl <;> simp
    · intro a ha c _
      obtain ⟨r, -, rfl⟩ := List.mem_map.mp ha
      trivial
  entered c hc := by
    rcases hlog with rfl | rfl
    · obtain rfl : c = b := by simpa using hc
      exact hb
    · simp at hc
  read q hq := by
    rcases hlog with rfl | rfl <;> simp at hq

end Log.Ready

/-! ## Plans -/

/-- Outlooks for the points of a function: the block, the index there, the outlook at hand, and the
one that is left when the block ends. -/
abbrev Outlooks := BlockId → Int64 → Outlook → Outlook → Prop

/-- A point where the outlook is no wider than `o`. -/
def Outlooks.Goes (A : Outlooks) (b : BlockId) (ip : Int64) (o z : Outlook) : Prop :=
  ∃ o', o' ≤ o ∧ A b ip o' z

/-- Behind the instruction at a point, which writes `dest` last of all. -/
def Outlooks.Behind (A : Outlooks) (b : BlockId) (ip : Int64) (dest : Reg) (z o : Outlook) : Prop :=
  dest ∈ o.regs ∧ A.Goes b (ip + 1) o z

/-- A block that may be entered, and that leaves the outlook `z`. -/
def Outlooks.Opens (A : Outlooks) (c : BlockId) (o z : Outlook) : Prop :=
  o.blocks ≤ c.index ∧ ∃ o', o' ≤ o ∧ c.index < o'.blocks ∧ A c 0 o' z

/-- The cleanup of a guarded section, if there is one, and what follows. -/
def Guard.Finishes (A : Outlooks) (next : Outlook → Prop) (g : Guard) (o : Outlook) : Prop :=
  if g.cleanup = .none then next o else ∃ z, A.Opens g.cleanup o z ∧ next z

/-- The handler of a guarded section, if there is one, and what follows. -/
def Guard.Recovers (A : Outlooks) (next : Outlook → Prop) (g : Guard) (o : Outlook) : Prop :=
  ∃ z, z ≤ o ∧ (g.handler ≠ .none → g.caught ∈ o.regs ∧ A.Opens g.handler o z) ∧
    g.Finishes A next z

namespace Instr

/-- Where an instruction leads, by the outlooks. -/
def Moves (A : Outlooks) (b : BlockId) (ip : Int64) (o z : Outlook) : Instr → Prop
  | leave .. | stray _ => True
  | circuit _ dest _ _ skip => dest ∈ o.regs ∧ A.Goes b (ip + 1) o z ∧ A.Goes b (ip + skip + 1) o z
  | dispatch dest _ arms default => ∃ z', z' ≤ o ∧ A.Behind b ip dest z z' ∧
    ∀ c ∈ default :: arms.map (·.block), c ≠ .none → A.Opens c o z'
  | guarded dest g => ∃ z', A.Opens g.body o z' ∧ g.Recovers A (A.Behind b ip dest z) z'
  | x => A.Behind b ip x.out z o

theorem Straight.moves_iff {x : Instr} (h : x.Straight) {A : Outlooks} {b : BlockId} {ip : Int64}
    {o z : Outlook} : x.Moves A b ip o z ↔ A.Behind b ip x.out z o := by
  cases x with
  | leave | stray | circuit | dispatch | guarded => exact h.elim
  | _ => exact Iff.rfl

end Instr

/-- A plan of a program: at an instruction the outlook may be narrowed first, and then the instruction
reads nothing that may still be written and leads to where the plan goes on. Any block may be the first
one of a frame. -/
structure Plan (p : Program) where
  At : Func → Outlooks
  le : ∀ {f b ip o z}, At f b ip o z → z ≤ o
  obeys : ∀ {f b ip o z x}, p.Defines f → At f b ip o z → 0 ≤ ip.toInt →
    (f.code b)[ip.toInt.toNat]? = some x →
    ∃ o', o' ≤ o ∧ z ≤ o' ∧ (∀ r, .reg r ∈ x.ins → r ∉ o'.regs) ∧ x.Moves (At f) b ip o' z
  start : ∀ {f b}, p.Defines f → f.Has b → ∃ o z, b.index < o.blocks ∧ At f b 0 o z

end ScriptMachine
