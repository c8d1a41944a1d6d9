import ScriptMachine.Proofs.Check.Reachability
import ScriptMachine.Proofs.Lowering.Accepted
import ScriptMachine.Proofs.Lowering.Layout

/-!
# The blocks of lowered functions

The references between the blocks of a lowered function make a tree with the entry as its root: each
other block is referred to once, and each block can be reached. This holds for all trees, also for
those with a return or throw in an operand, since the shape of code does not depend on whether a block
is broken.

A chain of references tells the place of the block it leads to (`FuncShape.leads`). So returns stand
outside of closures, returns from a closure inside of one, and yields in blocks that another block of the
same call enters.
-/

namespace ScriptMachine

open Instr (Entry BlockRef)
open Check

variable {g : Func} {k : Context} {b : BlockId} {x : Instr}

/-! ## References -/

namespace FuncShape

variable {f : Func} {e : Flow}

/-- Each block but the entry is referred to once. -/
theorem refsFrom_eq (h : FuncShape f e) (b : BlockId) :
    f.refsFrom (fun _ => True) b = inSpan b 1 f.blocks.size := by
  have hspan : (f.ids.filter fun _ => true).flatMap f.code = span f 0 f.blocks.size := by
    rw [List.filter_true, Func.ids, span, List.flatMap_map, Nat.sub_zero, List.range_eq_range']
  rw [Func.refsFrom_eq (p := fun _ => true) (by simp), hspan, h.refCount_span]

theorem ref_ne_entry (h : FuncShape f e) {b : BlockId} {x : Instr} {r : BlockRef}
    (hx : x ∈ f.code b) (hr : r ∈ x.refs) : r.block ≠ f.entry :=
  h.entry_not_target (r := ⟨b, .function⟩) (List.mem_flatMap.mpr ⟨x, hx, hr⟩)

end FuncShape

/-- The terminators that a block may have, by a chain of references that leads to it. -/
structure LeavesBy (rs : List BlockRef) (x : Instr) : Prop where
  ret : ∀ v, x = .leave .ret v → ∀ r ∈ rs, r.entry ≠ .closure
  closureRet : ∀ v, x = .leave .closureRet v → ∃ r ∈ rs, r.entry = .closure
  yield : ∀ v, x = .leave .yield v → ∃ r, rs.getLast? = some r ∧ r.entry = .nested

theorem FuncShape.leavesBy {f : Func} {e : Flow} (h : FuncShape f e) {rs : List BlockRef}
    {b : BlockId} (hb : f.Leads rs b) (hx : x ∈ f.code b) : LeavesBy rs x := by
  obtain ⟨k, hk, hclosure, hnested⟩ := h.leads hb
  have hleave := (hk.keeps hx).leave
  refine ⟨fun v hv r hr hentry => ?_, fun v hv => ?_, fun v hv => ?_⟩
  · have hfalse : k.closure = false := hleave .ret v hv
    simp [hclosure.mpr ⟨r, hr, hentry⟩] at hfalse
  · exact hclosure.mp (hleave .closureRet v hv)
  · exact hnested.mp (hleave .yield v hv)

/-! ## The check -/

/-- No block of a shaped function is listed as unreachable. -/
theorem FuncShape.unreachable_nil {f : Func} {e : Flow} (h : FuncShape f e) (hnum : f.Numbered)
    {ps : List Problem} {bs : List BlockId} (hfun : function f = .ok (ps, bs)) : bs = [] := by
  cases hw : writtenRegs f with
  | error c =>
    rw [writtenRegs_eq_error_iff, ← function_eq_error_iff, hfun] at hw
    cases hw
  | ok written =>
    have hbalanced := @balanced_visit f written h.has
    obtain ⟨qs, -, heq⟩ := function_eq h.has hw
    obtain ⟨-, rfl⟩ := Prod.mk.inj (Except.ok.inj (hfun.symm.trans heq))
    rw [unvisited_eq hnum fun b hb => (hbalanced.saw b hb).1]
    refine List.filter_eq_nil_iff.mpr fun b hb => ?_
    have hsaw := (hbalanced.saw_iff h.has b).mpr (h.reachable (Func.mem_ids_iff.mp hb))
    rw [Saw] at hsaw
    simp [hsaw]

theorem FuncShape.function_ok {f : Func} {e : Flow} (h : FuncShape f e)
    (hregs : f.numRegs ≤ 64 * BitSet.maxWords) : ∃ found, function f = .ok found := by
  obtain ⟨written, hw⟩ := (h.checkable hregs).exists_writtenRegs
  obtain ⟨qs, -, heq⟩ := function_eq h.has hw
  exact ⟨_, heq⟩

namespace Lowering

/-- A lowered program with not too many registers is checked to its end. -/
theorem program_checked (t : Node)
    (hregs : ∀ f ∈ (program t).1.funcs, f.numRegs ≤ 64 * BitSet.maxWords) :
    ∃ r, Check.program (program t).1 = .ok r := by
  refine Check.program_eq_ok_iff.mpr fun name _ f hf => ?_
  have hmem := List.mem_of_find?_eq_some hf
  obtain ⟨d, -, hmakes⟩ := (program_sourced t).funcs f hmem
  obtain ⟨e, hshape, -⟩ := hmakes.shape
  exact hshape.function_ok (hregs f hmem)

/-- The blocks of every function of a lowered program: they are numbered in order, the entry is
referred to by no instruction and each other block by one, all of them can be reached, the checker
lists none as unreachable, and terminators stand where their references allow them. -/
theorem program_blocks (t : Node) :
    (∀ f ∈ (program t).1.funcs,
      f.Numbered ∧ f.Has f.entry ∧
      (∀ b, ∀ x ∈ f.code b, ∀ r ∈ x.refs, f.Has r.block ∧ r.block ≠ f.entry) ∧
      (∀ b, f.Has b → b ≠ f.entry → f.refsFrom (fun _ => True) b = 1) ∧
      (∀ b, f.Has b → f.Reachable b) ∧
      ∀ rs b, f.Leads rs b → ∀ x ∈ f.code b, LeavesBy rs x) ∧
    (∀ r, Check.program (program t).1 = .ok r → r.unreachable = []) ∧
    ((∀ f ∈ (program t).1.funcs, f.numRegs ≤ 64 * BitSet.maxWords) →
      ∃ r, Check.program (program t).1 = .ok r) := by
  have hsource := program_sourced t
  refine ⟨fun f hf => ?_, fun r hr => ?_, program_checked t⟩
  · obtain ⟨d, -, hmakes⟩ := hsource.funcs f hf
    obtain ⟨e, hshape, -⟩ := hmakes.shape
    refine ⟨hmakes.laidOut.1, hshape.has, fun b x hx r hr => ?_, fun b hb hne => ?_,
      fun b hb => hshape.reachable hb, fun rs b hb x hx => hshape.leavesBy hb hx⟩
    · obtain ⟨rs, hrs⟩ := hshape.reachable (Func.has_of_code_ne_nil (List.ne_nil_of_mem hx))
      obtain ⟨k, hk, -⟩ := hshape.leads hrs
      exact ⟨((hk.keeps hx).refs r hr).1, hshape.ref_ne_entry hx hr⟩
    · rw [hshape.refsFrom_eq, inSpan, if_pos]
      rw [hshape.entry] at hne
      obtain ⟨i, hi, rfl⟩ := hb.exists_natCast
      have : i ≠ 0 := by rintro rfl; exact hne rfl
      simp only
      omega
  · refine List.eq_nil_iff_forall_not_mem.mpr fun p hp => ?_
    obtain ⟨-, f, ps, hf, hfun, hne⟩ := (Check.mem_unreachable_iff hr p.1 p.2).mp hp
    have hmem := List.mem_of_find?_eq_some hf
    obtain ⟨d, -, hmakes⟩ := hsource.funcs f hmem
    obtain ⟨e, hshape, -⟩ := hmakes.shape
    exact hne (hshape.unreachable_nil hmakes.laidOut.1 hfun)

/-- A closure whose body catches a fault and gives a text back. -/
def guardedClosure : Node :=
  .closure {} [] [] (.guarded {} (.throw {} (.string {} "a"))
    [.mk "e" .absent (.ret {} (.word {} "e"))] .absent)

theorem guardedClosure_blocks : ∃ f ∈ (program guardedClosure).1.funcs, f.blocks.size = 4 ∧
    (∀ b, f.Has b → f.Reachable b) ∧ (∀ b, f.Has b → b ≠ f.entry →
      f.refsFrom (fun _ => True) b = 1) ∧
    ∃ r, Check.program (program guardedClosure).1 = .ok r := by
  have hsize : ∃ f ∈ (program guardedClosure).1.funcs, f.blocks.size = 4 := by decide +kernel
  have hregs : ∀ f ∈ (program guardedClosure).1.funcs, f.numRegs ≤ 64 * BitSet.maxWords := by
    decide +kernel
  obtain ⟨f, hf, hblocks⟩ := hsize
  obtain ⟨-, -, -, honce, hreach, -⟩ := (program_blocks guardedClosure).1 f hf
  exact ⟨f, hf, hblocks, hreach, honce, (program_blocks guardedClosure).2.2 hregs⟩

end Lowering

end ScriptMachine
