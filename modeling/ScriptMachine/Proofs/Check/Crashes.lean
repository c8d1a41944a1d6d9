import ScriptMachine.Proofs.Check.Reachability

/-!
# Where the checker crashes

The checker is there for programs that are not well-formed, and it has to come to an end with a
report on each of them. The numbers of registers and blocks go into bit sets, which take no negative
numbers and grow to no number beyond the words that memory has addresses for.

1. Blocks are looked up before they get into a set that has room for them all, and the registers that
   instructions write are left out if they are negative. What is left are the room for the registers of
   a function, negative registers of its parameters, and written registers that are too large
   (`crash?`).
2. A function is checked to the end just if none of these crashes (`function_eq_error_iff`), and the
   check of a program crashes as the first function does that cannot be checked
   (`program_eq_error_iff`).
-/

namespace ScriptMachine

/-- The functions that a check looks at, in order. -/
def Program.checked (p : Program) : List Func := p.order.filterMap p.func?

namespace Check

variable {f : Func} {p : Program}

theorem named_eq_error_iff (r : Report) (name : String) (c : Crash) :
    named p r name = .error c ↔ (p.func? name).bind crash? = some c := by
  unfold named
  cases p.func? name with
  | none => simp
  | some f =>
    rw [Option.bind_some, ← function_eq_error_iff, bind_eq_error_iff, or_iff_left]
    rintro ⟨found, -, h⟩
    cases h

/-- A program is checked function by function up to the first that crashes. -/
theorem program_eq_error_iff {c : Crash} :
    program p = .error c ↔ p.checked.findSome? crash? = some c := by
  rw [Program.checked, ← List.head?_filterMap, List.filterMap_filterMap, List.head?_filterMap]
  exact foldlM_eq_error_iff named_eq_error_iff p.order _ c

/-- A program is checked to its end with a report just if each function that its order names has
room for its registers, no parameter with a negative one, and no written one that a set cannot grow to.
Otherwise the check crashes with what is wrong with the first of the others. In either case the visits of
blocks come to an end. -/
theorem program_reports_iff (p : Program) :
    ((∃ r, program p = .ok r) ↔ ∀ f ∈ p.checked, Checkable f) ∧
      (∀ c, program p = .error c ↔ p.checked.findSome? crash? = some c) ∧
      ∀ f written,
        Visits f written (({} : WorkList Instr.BlockRef).push waitKey ⟨f.entry, .function⟩)
          { seen := ⟨#[], true⟩ } (visit f written) := by
  refine ⟨?_, fun c => program_eq_error_iff, visits_visit⟩
  have hnone : p.checked.findSome? crash? = none ↔ ∀ f ∈ p.checked, Checkable f := by
    simp only [List.findSome?_eq_none_iff, crash?_eq_none_iff]
  rw [← hnone, Option.eq_none_iff_forall_ne_some]
  simp only [ne_eq, ← program_eq_error_iff]
  cases program p <;> simp

/-- A function whose parameter has a negative register. -/
def negativeParam : Func where
  name := mainName
  params := ["x"]
  paramRegs := [⟨-1⟩]
  blocks := #[⟨⟨0⟩, #[.leave .ret .null]⟩]
  numRegs := 1

theorem negativeParam_crashes :
    ¬ ∃ r, program (({} : Program).add negativeParam) = .ok r := by
  have hcrash : program (({} : Program).add negativeParam) = .error .negativeShift := rfl
  simp [hcrash]

end Check

end ScriptMachine
