import Mathlib.Data.Set.Insert
import ScriptMachine.Lowering.Join
import ScriptMachine.Proofs.Blocks

/-!
# The shape of lowered code

`Shape g k b p q` describes a stretch of the code of block `b` of a finished function `g`, from the
point `p` to the point `q`. A point is an index in the block together with what is known there: the
number of the next block to be made, the registers that are set, and whether the block has ended.

1. A plain instruction reads registers that are set and sets its own.
2. A short circuit stands in front of the code of its right operand, which ends with a move to its
   register. Behind that code only this register is set for sure.
3. An instruction that enters other blocks comes after all of them were made, one after the other,
   each with a shape of its own. Behind a guarded section the registers that its cleanup sets are
   set too.
4. A terminator ends the block. Code behind it breaks the block, and so does a block that does not
   end, or a right operand that ends the block.
-/

namespace ScriptMachine

open Instr (Entry BlockRef)

/-! ## Flow -/

/-- How far a block has got: control reaches its end, it has ended, or there is code behind an
end. -/
inductive Flow where
  | live | ended | broken
deriving DecidableEq, Repr

namespace Flow

/-- Behind an instruction that does not end the block. -/
def next : Flow → Flow
  | live => live
  | _ => broken

/-- Behind a terminator. -/
def finish : Flow → Flow
  | live => ended
  | _ => broken

/-- Where a terminator is added unless the block has ended. -/
def sealed : Flow → Flow
  | live => ended
  | e => e

/-- Behind a short circuit, given the flow of its right operand. -/
def around (e inner : Flow) : Flow := if inner = live then e.next else broken

/-- Behind an instruction that enters blocks, given the flow of each. -/
def enter (e : Flow) (inner : List Flow) : Flow := if ∀ f ∈ inner, f = ended then e.next else broken

@[simp] theorem next_live : next live = live := rfl
@[simp] theorem finish_live : finish live = ended := rfl
@[simp] theorem next_broken : next broken = broken := rfl
@[simp] theorem finish_broken : finish broken = broken := rfl
@[simp] theorem around_live (e : Flow) : e.around live = e.next := rfl

variable {e inner : Flow}

theorem next_eq_broken (h : e ≠ live) : e.next = broken := by
  cases e <;> simp_all [next]

theorem next_eq_live_iff : e.next = live ↔ e = live := by cases e <;> simp [next]

theorem next_ne_ended (e : Flow) : e.next ≠ ended := by cases e <;> simp [next]

theorem finish_ne_live (e : Flow) : e.finish ≠ live := by cases e <;> simp [finish]

theorem finish_eq_ended_iff : e.finish = ended ↔ e = live := by
  cases e <;> simp [finish]

theorem finish_eq_broken (h : e ≠ live) : e.finish = broken := by
  cases e <;> simp_all [finish]

theorem sealed_ne_live (e : Flow) : e.sealed ≠ live := by cases e <;> simp [sealed]

theorem sealed_eq_ended_iff : e.sealed = ended ↔ e ≠ broken := by
  cases e <;> simp [sealed]

theorem around_eq_live_iff : e.around inner = live ↔ e = live ∧ inner = live := by
  unfold around; split <;> simp_all [next_eq_live_iff]

theorem around_ne_ended (e inner : Flow) : e.around inner ≠ ended := by
  unfold around; split <;> simp [next_ne_ended]

theorem around_eq_broken (h : e ≠ live) : e.around inner = broken := by
  unfold around; split <;> simp [next_eq_broken h]

theorem enter_eq_live_iff {inner : List Flow} :
    e.enter inner = live ↔ e = live ∧ ∀ f ∈ inner, f = ended := by
  unfold enter
  split
  · rename_i h
    rw [next_eq_live_iff]
    exact ⟨fun he => ⟨he, h⟩, And.left⟩
  · simp_all

theorem enter_ne_ended (e : Flow) (inner : List Flow) : e.enter inner ≠ ended := by
  unfold enter; split <;> simp [next_ne_ended]

theorem enter_eq_broken {inner : List Flow} (h : e ≠ live) : e.enter inner = broken := by
  unfold enter; split <;> simp [next_eq_broken h]

/-- From a block that is not live no live one comes, and a broken one stays broken. -/
structure Persists (e e' : Flow) : Prop where
  dead : e ≠ .live → e' ≠ .live
  broken : e = .broken → e' = .broken

theorem Persists.refl (e : Flow) : Persists e e := ⟨id, id⟩

theorem Persists.trans {e e₁ e₂ : Flow} (h₁ : Persists e e₁) (h₂ : Persists e₁ e₂) : Persists e e₂ :=
  ⟨fun h => h₂.dead (h₁.dead h), fun h => h₂.broken (h₁.broken h)⟩

theorem persists_next (e : Flow) : Persists e e.next :=
  ⟨fun h => by simp [next_eq_broken h], fun h => by simp [h]⟩

theorem persists_finish (e : Flow) : Persists e e.finish :=
  ⟨fun _ => finish_ne_live e, fun h => by simp [h]⟩

end Flow

/-! ## Instructions -/

/-- An operand that can be read where the registers `D` are set: such a register, or a constant that
is no closure. -/
def Ready (D : Set Reg) : Value → Prop
  | .reg r => r ∈ D
  | .unset | .closure _ | .dangling => False
  | _ => True

theorem Ready.mono {D E : Set Reg} (h : D ⊆ E) {v : Value} (hv : Ready D v) : Ready E v := by
  cases v with
  | reg r => exact h hv
  | _ => exact hv

namespace Instr

/-- An instruction that goes on to the next one and enters no block. -/
def Plain : Instr → Prop
  | binary .. | regex .. | load .. | move .. | call .. | closureCall .. | command .. => True
  | _ => False

/-- An instruction that refers to blocks. -/
def Enters : Instr → Prop
  | closureCreate .. | dispatch .. | guarded .. => True
  | _ => False

/-- The registers that are set at the start of a block that an instruction enters, if those in `D`
are set where it stands. -/
def given (x : Instr) (D : Set Reg) (c : BlockId) : Set Reg :=
  match x with
  | closureCreate _ _ captures params _ => {r | r ∈ captures.map (·.reg) ∨ r ∈ params}
  | guarded _ g => if c = g.handler then insert g.caught D else D
  | _ => D

/-- The block that runs whenever an instruction comes to its end. -/
def Always (x : Instr) (c : BlockId) : Prop :=
  match x with
  | guarded _ g => c = g.cleanup
  | _ => False

/-- The registers that an instruction gives to the blocks it enters exist. -/
def Sane (f : Func) : Instr → Prop
  | closureCreate _ _ captures params names =>
    params.length = names.length ∧ (∀ r ∈ params, f.InRange r) ∧
      ∀ c ∈ captures, f.InRange c.reg
  | guarded _ g => (g.handler ≠ .none → f.InRange g.caught) ∧ (g.caught = .none ∨ f.InRange g.caught)
  | _ => True

theorem given_mono (x : Instr) {D E : Set Reg} (h : D ⊆ E) (c : BlockId) :
    x.given D c ⊆ x.given E c := by
  cases x <;> simp only [given, subset_refl, h]
  split
  · exact Set.insert_subset_insert h
  · exact h

theorem Plain.not_terminator {x : Instr} (h : x.Plain) : x.isTerminator = false := by
  cases x <;> simp_all [Plain, isTerminator]

theorem Plain.refs {x : Instr} (h : x.Plain) : x.refs = [] := by
  cases x <;> simp_all [Plain, Instr.refs]

theorem Plain.writes {x : Instr} (h : x.Plain) : x.writes = [x.out] := by
  cases x <;> simp_all [Plain, Instr.writes]

theorem Enters.not_terminator {x : Instr} (h : x.Enters) : x.isTerminator = false := by
  cases x <;> simp_all [Enters, isTerminator]

end Instr

/-! ## Points and shapes -/

/-- Where a block stands: in the body of a closure or of a function, and entered from another block
of the same call or not. -/
structure Context where
  closure : Bool
  nested : Bool

namespace Context

/-- The terminators that a block may end with. -/
def Allows (k : Context) : Terminator → Prop
  | .ret => k.closure = false
  | .closureRet => k.closure = true
  | .yield => k.nested = true
  | .throw => True

/-- The place of a block that is entered from a block at `k`. -/
def enter (k : Context) : Entry → Context
  | .nested => ⟨k.closure, true⟩
  | .closure => ⟨true, false⟩
  | .function => ⟨false, false⟩

end Context

/-- A point in a block: the index of the next instruction, the number of the next block, the
registers that are set, and the flow. -/
structure Point where
  index : Nat
  blocks : Nat
  regs : Set Reg
  flow : Flow

/-- A block that an instruction enters: the reference, the number of the next block behind all the
blocks inside it, and the registers that are set and the flow at its end. -/
structure Sub where
  ref : BlockRef
  stop : Nat
  regs : Set Reg
  flow : Flow

/-- Blocks made one after the other, the first with the number `n` and each with all the blocks
inside it, up to the number `m`. -/
def Chain (n : Nat) : List Sub → Nat → Prop
  | [], m => n = m
  | s :: ss, m => s.ref.block = ⟨n⟩ ∧ Chain s.stop ss m

variable {n m : Nat}

theorem chain_append {ss ts : List Sub} : Chain n (ss ++ ts) m ↔ ∃ i, Chain n ss i ∧ Chain i ts m := by
  induction ss generalizing n with
  | nil => simp [Chain]
  | cons s ss ih => simp [Chain, ih, and_assoc]

/-- The blocks inside a block come behind it. -/
def Sub.Wide (s : Sub) : Prop := s.ref.block.index.toNat < s.stop

variable {ss : List Sub}

theorem Chain.le (h : Chain n ss m) (hw : ∀ s ∈ ss, s.Wide) : n + ss.length ≤ m := by
  induction ss generalizing n with
  | nil => exact Nat.le_of_eq h
  | cons s ss ih =>
    have hs := hw s List.mem_cons_self
    have := ih h.2 fun t ht => hw t (List.mem_cons_of_mem s ht)
    rw [Sub.Wide, h.1] at hs
    simp only [Int.toNat_natCast, List.length_cons] at hs ⊢
    omega

/-- The blocks of a chain, with all the blocks inside them, lie between its ends. -/
theorem Chain.mem_bounds (h : Chain n ss m) (hw : ∀ s ∈ ss, s.Wide)
    {s : Sub} (hs : s ∈ ss) : ∃ i : Nat, s.ref.block = ⟨i⟩ ∧ n ≤ i ∧ i < s.stop ∧ s.stop ≤ m := by
  induction ss generalizing n with
  | nil => cases hs
  | cons t ts ih =>
    have ht := hw t List.mem_cons_self
    have hts : ∀ s ∈ ts, s.Wide := fun u hu => hw u (List.mem_cons_of_mem t hu)
    have hle := h.2.le hts
    rw [Sub.Wide, h.1, Int.toNat_natCast] at ht
    rcases List.mem_cons.mp hs with rfl | hs
    · exact ⟨n, h.1, le_refl n, ht, by omega⟩
    · obtain ⟨i, hi, hn, hstop, hm⟩ := ih h.2 hts hs
      exact ⟨i, hi, by omega, hstop, hm⟩

theorem Chain.nodup (h : Chain n ss m) (hw : ∀ s ∈ ss, s.Wide) : (ss.map (·.ref.block)).Nodup := by
  induction ss generalizing n with
  | nil => exact List.nodup_nil
  | cons t ts ih =>
    have ht := hw t List.mem_cons_self
    have hts : ∀ s ∈ ts, s.Wide := fun u hu => hw u (List.mem_cons_of_mem t hu)
    refine List.nodup_cons.mpr ⟨?_, ih h.2 hts⟩
    intro hmem
    obtain ⟨s, hs, heq⟩ : ∃ s ∈ ts, s.ref.block = t.ref.block := List.mem_map.mp hmem
    obtain ⟨i, hi, hn, -, -⟩ := h.2.mem_bounds hts hs
    rw [Sub.Wide, h.1, Int.toNat_natCast] at ht
    rw [hi, h.1] at heq
    simp only [BlockId.mk.injEq] at heq
    omega

/-- The end of a right operand at index `m`, whose value if any is in `r`: a move to the register
of the short circuit. `j` is the index behind it. -/
def Lands (g : Func) (b : BlockId) (dest : Reg) (D : Set Reg) (m j : Nat) : Option Reg → Prop
  | none => j = m
  | some r => r ∈ D ∧ (g.code b)[m]? = some (.move dest r) ∧ j = m + 1

/-- The shape of a stretch of code of block `b`. -/
inductive Shape (g : Func) : Context → BlockId → Point → Point → Prop
  | done {k b i n e} {D D' : Set Reg} (hD : D' ⊆ D) : Shape g k b ⟨i, n, D, e⟩ ⟨i, n, D', e⟩
  | plain {k b i n e q x} {D : Set Reg} (hx : (g.code b)[i]? = some x) (hp : x.Plain)
      (hin : ∀ v ∈ x.ins, Ready D v) (hout : g.InRange x.out)
      (hq : Shape g k b ⟨i + 1, n, insert x.out D, e.next⟩ q) : Shape g k b ⟨i, n, D, e⟩ q
  | leave {k b i n e q how v} {D : Set Reg} (hx : (g.code b)[i]? = some (.leave how v))
      (hk : k.Allows how) (hv : Ready D v) (hq : Shape g k b ⟨i + 1, n, D, e.finish⟩ q) :
      Shape g k b ⟨i, n, D, e⟩ q
  | circuit {k b i n e q kind dest left r m j n' e'} {D D' : Set Reg}
      (hx : (g.code b)[i]? =
        some (.circuit kind dest left (operand r) (Int64.ofNat (j - (i + 1)))))
      (hl : Ready D left) (hout : g.InRange dest)
      (hr : Shape g k b ⟨i + 1, n, D, .live⟩ ⟨m, n', D', e'⟩) (hj : Lands g b dest D' m j r)
      (hq : Shape g k b ⟨j, n', insert dest D, e.around e'⟩ q) : Shape g k b ⟨i, n, D, e⟩ q
  | enter {k b i n e q x n'} {D E : Set Reg} (subs : List Sub) (hx : (g.code b)[i]? = some x)
      (he : x.Enters) (hin : ∀ v ∈ x.ins, Ready D v) (hout : g.InRange x.out) (hs : x.Sane g)
      (hrefs : x.refs.Perm (subs.map (·.ref))) (hc : Chain n subs n')
      (hhas : ∀ s ∈ subs, g.Has s.ref.block)
      (hsub : ∀ s ∈ subs, Shape g (k.enter s.ref.entry) s.ref.block
        ⟨0, s.ref.block.index.toNat + 1, x.given D s.ref.block, .live⟩
        ⟨(g.code s.ref.block).length, s.stop, s.regs, s.flow⟩)
      (hE : ∀ r ∈ E, ∃ s ∈ subs, x.Always s.ref.block ∧ r ∈ s.regs)
      (hq : Shape g k b ⟨i + 1, n', insert x.out (D ∪ E), e.enter (subs.map (·.flow))⟩ q) :
      Shape g k b ⟨i, n, D, e⟩ q

namespace Shape

variable {g : Func} {k : Context} {b : BlockId} {p q r : Point}

theorem refl (p : Point) : Shape g k b p p := .done (le_refl p.regs)

theorem weaken (h : Shape g k b p q) {E : Set Reg} (hE : p.regs ⊆ E) :
    Shape g k b ⟨p.index, p.blocks, E, p.flow⟩ q := by
  induction h generalizing E with
  | done hD => exact .done (hD.trans hE)
  | plain hx hp hin hout _ ih =>
    exact .plain hx hp (fun v hv => (hin v hv).mono hE) hout (ih (Set.insert_subset_insert hE))
  | leave hx hk hv _ ih => exact .leave hx hk (hv.mono hE) (ih hE)
  | circuit hx hl hout _ hj _ ihr ih =>
    exact .circuit hx (hl.mono hE) hout (ihr hE) hj (ih (Set.insert_subset_insert hE))
  | enter subs hx he hin hout hs hrefs hc hhas _ hgain _ ihsub ih =>
    exact .enter subs hx he (fun v hv => (hin v hv).mono hE) hout hs hrefs hc hhas
      (fun s hs => ihsub s hs (Instr.given_mono _ hE _)) hgain
      (ih (Set.insert_subset_insert (Set.union_subset_union_left _ hE)))

theorem trans (h₁ : Shape g k b p q) (h₂ : Shape g k b q r) : Shape g k b p r := by
  induction h₁ with
  | done hD => exact h₂.weaken hD
  | plain hx hp hin hout _ ih => exact .plain hx hp hin hout (ih h₂)
  | leave hx hk hv _ ih => exact .leave hx hk hv (ih h₂)
  | circuit hx hl hout hr hj _ _ ih => exact .circuit hx hl hout hr hj (ih h₂)
  | enter subs hx he hin hout hs hrefs hc hhas hsub hgain _ _ ih =>
    exact .enter subs hx he hin hout hs hrefs hc hhas hsub hgain (ih h₂)

/-- Some of the registers that are set may be forgotten at the end. -/
theorem forget (h : Shape g k b p q) {E : Set Reg} (hE : E ⊆ q.regs) :
    Shape g k b p ⟨q.index, q.blocks, E, q.flow⟩ :=
  h.trans (.done hE)

theorem lands_le {dest : Reg} {D : Set Reg} {m j : Nat} {r : Option Reg}
    (h : Lands g b dest D m j r) : m ≤ j := by
  cases r with
  | none => exact h.ge
  | some r => exact h.2.2 ▸ Nat.le_succ m

section
variable (h : Shape g k b p q)
include h

theorem index_le : p.index ≤ q.index := by
  induction h with
  | done => exact le_refl _
  | plain _ _ _ _ _ ih => exact Nat.le_of_succ_le ih
  | leave _ _ _ _ ih => exact Nat.le_of_succ_le ih
  | circuit _ _ _ _ hj _ ihr ih =>
    have := lands_le hj
    simp only at ihr ih ⊢
    omega
  | enter _ _ _ _ _ _ _ _ _ _ _ _ _ ih => exact Nat.le_of_succ_le ih

theorem flow_of_broken (hp : p.flow = .broken) : q.flow = .broken := by
  induction h with
  | done => exact hp
  | plain _ _ _ _ _ ih => simp only at hp; exact ih (by simp [hp])
  | leave _ _ _ _ ih => simp only at hp; exact ih (by simp [hp])
  | circuit _ _ _ _ _ _ _ ih =>
    simp only at hp
    exact ih (Flow.around_eq_broken (by simp [hp]))
  | enter _ _ _ _ _ _ _ _ _ _ _ _ _ ih =>
    simp only at hp
    exact ih (Flow.enter_eq_broken (by simp [hp]))

theorem flow_ne_live (hp : p.flow ≠ .live) : q.flow ≠ .live := by
  cases h with
  | done => exact hp
  | plain _ _ _ _ hq => simp [hq.flow_of_broken (Flow.next_eq_broken hp)]
  | leave _ _ _ hq => simp [hq.flow_of_broken (Flow.finish_eq_broken hp)]
  | circuit _ _ _ _ _ hq => simp [hq.flow_of_broken (Flow.around_eq_broken hp)]
  | enter _ _ _ _ _ _ _ _ _ _ _ hq => simp [hq.flow_of_broken (Flow.enter_eq_broken hp)]

theorem persists : Flow.Persists p.flow q.flow :=
  ⟨h.flow_ne_live, h.flow_of_broken⟩

theorem blocks_le : p.blocks ≤ q.blocks := by
  induction h with
  | done => exact le_refl _
  | plain _ _ _ _ _ ih => exact ih
  | leave _ _ _ _ ih => exact ih
  | circuit _ _ _ _ _ _ ihr ih => exact le_trans ihr ih
  | enter _ _ _ _ _ _ _ hc _ _ _ _ ihsub ih =>
    exact le_trans (Nat.le_of_add_right_le (hc.le fun s hs => ihsub s hs)) ih

/-- Where no block is made, it does not matter how many there are. -/
theorem renumber (hpq : p.blocks = q.blocks) (m : Nat) :
    Shape g k b ⟨p.index, m, p.regs, p.flow⟩ ⟨q.index, m, q.regs, q.flow⟩ := by
  induction h with
  | done hD => exact .done hD
  | plain hx hp hin hout _ ih => exact .plain hx hp hin hout (ih hpq)
  | leave hx hk hv _ ih => exact .leave hx hk hv (ih hpq)
  | circuit hx hl hout hr hj hq ihr ih =>
    have h₁ := hr.blocks_le
    have h₂ := hq.blocks_le
    simp only at h₁ h₂ hpq
    exact .circuit hx hl hout (ihr (by simp only; omega)) hj (ih (by simp only; omega))
  | enter subs hx he hin hout hs hrefs hc hhas hsub hgain hq _ ih =>
    have h₁ := hc.le fun s hs => (hsub s hs).blocks_le
    have h₂ := hq.blocks_le
    simp only at h₂ hpq
    obtain rfl : subs = [] := List.length_eq_zero_iff.mp (by omega)
    exact .enter [] hx he hin hout hs hrefs rfl hhas (by simp) hgain (ih (by simp only; omega))

end

end Shape

end ScriptMachine
