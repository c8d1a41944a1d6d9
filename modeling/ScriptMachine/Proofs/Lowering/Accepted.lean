import ScriptMachine.Proofs.Lowering.Placement
import ScriptMachine.Proofs.Lowering.ShapePasses

/-!
# Which lowered programs are accepted

The checker accepts a lowered function unless the flow of its body is broken.

1. A program whose returns and throws are in statement position is accepted, whatever lowering had
   to complain about.
2. Without a complaint, a program is accepted just if none of its functions has a broken body. Not
   every tree is of that kind: behind a return in an operand there is more code in the same block,
   and lowering does not complain about it.

All of this is for functions that fit the machine.
-/

namespace ScriptMachine

namespace Declaration.Makes

variable {quiet : Prop} {d : Declaration} {f : Func}

theorem passes (h : d.Makes quiet f) (hfits : f.Fits) (hflow : d.body.flow ≠ .broken) :
    Check.Passes f := by
  obtain ⟨e, hshape, hne, hiff⟩ := h.shape
  exact (hshape.passes_iff hne hfits).mpr ((hiff (.inl hflow)).mpr hflow)

theorem passes_iff (h : d.Makes True f) (hfits : f.Fits) :
    Check.Passes f ↔ d.body.flow ≠ .broken := by
  obtain ⟨e, hshape, hne, hiff⟩ := h.shape
  exact (hshape.passes_iff hne hfits).trans (hiff (.inr trivial))

end Declaration.Makes

namespace Lowering

/-- Every function of a program fits the machine. -/
def Fit (p : Program) : Prop := ∀ f ∈ p.funcs, f.Fits

instance (p : Program) : Decidable (Fit p) := inferInstanceAs (Decidable (∀ f ∈ p.funcs, f.Fits))

theorem Sourced.main?_isSome {t : Node} (h : Sourced t) : (program t).1.main?.isSome := by
  obtain ⟨f, hf, hname, -⟩ := h.main
  have hfunc := h.wellNamed.func? hf
  rw [hname] at hfunc
  simp [Program.main?, hfunc]

/-- A lowered program is accepted if each of its functions passes. -/
theorem accepts_iff_passes (t : Node) :
    Check.Accepts (program t).1 ↔ ∀ f ∈ (program t).1.funcs, Check.Passes f := by
  have hsource := program_sourced t
  rw [Check.accepts_iff_forall hsource.wellNamed]
  exact and_iff_right hsource.main?_isSome

theorem accepts_of_placed {t : Node} (ht : t.exitsPlaced .statement = true)
    (hfit : Fit (program t).1) : Check.Accepts (program t).1 := by
  rw [accepts_iff_passes]
  intro f hf
  obtain ⟨d, hd, hmakes⟩ := (program_sourced t).funcs f hf
  exact hmakes.passes (hfit f hf) (functions_placed ht d hd).flow_ne_broken

/-- The function that holds the code of the tree itself has to pass. -/
theorem flow_ne_broken_of_accepts {t : Node} (hquiet : (program t).2 = [])
    (hfit : Fit (program t).1) (h : Check.Accepts (program t).1) : t.flow ≠ .broken := by
  obtain ⟨f, hf, -, hmakes⟩ := (program_sourced t).main
  have hpass := (accepts_iff_passes t).mp h f hf
  exact ((hmakes.mono fun _ => hquiet).passes_iff (hfit f hf)).mp hpass

/-- A tree that lowers without a complaint is accepted just if every function of the program is the
code of a declaration, or of the tree itself, whose body breaks no block. -/
theorem accepts_iff_unbroken (t : Node) (hquiet : (program t).2 = [])
    (hfit : Fit (program t).1) :
    Check.Accepts (program t).1 ↔ ∀ f ∈ (program t).1.funcs, ∃ d ∈ functions t,
      d.Makes True f ∧ d.body.flow ≠ .broken := by
  rw [accepts_iff_passes]
  refine forall₂_congr fun f hf => ⟨fun hpass => ?_, ?_⟩
  · obtain ⟨d, hd, hmakes⟩ := (program_sourced t).funcs f hf
    have hmakes' : d.Makes True f := hmakes.mono fun _ => hquiet
    exact ⟨d, hd, hmakes', (hmakes'.passes_iff (hfit f hf)).mp hpass⟩
  · rintro ⟨d, -, hmakes, hflow⟩
    exact hmakes.passes (hfit f hf) hflow

/-- A function that returns its parameter out of a guarded section, and a call of it. -/
def guardedReturn : Node :=
  .list {} [
    .func {} "f" ["x"]
      (.guarded {} (.ret {} (.word {} "x")) [.mk "e" .absent (.throw {} (.word {} "e"))] .absent),
    .call {} (.word {} "f") [.string {} "a"]]

theorem guardedReturn_accepts_iff : (program guardedReturn).2 = [] ∧ Fit (program guardedReturn).1 ∧
    (Check.Accepts (program guardedReturn).1 ↔ ∀ f ∈ (program guardedReturn).1.funcs,
      ∃ d ∈ functions guardedReturn, d.Makes True f ∧ d.body.flow ≠ .broken) :=
  have hquiet : (program guardedReturn).2 = [] := by decide +kernel
  have hfit : Fit (program guardedReturn).1 := by decide +kernel
  ⟨hquiet, hfit, accepts_iff_unbroken guardedReturn hquiet hfit⟩

/-- The comparison of a returned text with another: `(return "a") == "b"`. -/
def returnInOperand : Node := .binary {} (.ret {} (.string {} "a")) "==" (.string {} "b")

/-- Lowering does not complain about a return in an operand, but the checker does. -/
theorem not_accepts_returnInOperand :
    (program returnInOperand).2 = [] ∧ ¬ Check.Accepts (program returnInOperand).1 := by
  have hquiet : (program returnInOperand).2 = [] := by decide
  have hfit : Fit (program returnInOperand).1 := by decide
  have hbroken : returnInOperand.flow = .broken := by decide
  exact ⟨hquiet, fun h => flow_ne_broken_of_accepts hquiet hfit h hbroken⟩

end Lowering

end ScriptMachine
