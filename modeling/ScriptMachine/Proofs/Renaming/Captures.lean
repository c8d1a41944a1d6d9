import ScriptMachine.Proofs.Lowering.Safety
import ScriptMachine.Proofs.Renaming.Lockstep
import ScriptMachine.Proofs.Renaming.NodeTracking

/-!
# Listed captures

Trees that differ only in what closures list as captures run alike, if all that is listed is bound where
the closure stands (`main_agrees_of_recaptured`).

1. A tree and what it is without such lists lower to programs that are alike.
2. Two trees that differ only in such lists are the same without them, so that their programs are alike.
3. No run of a lowered program has a fault about a register, and so the runs of the two agree.
-/

namespace ScriptMachine

open Build Lowering Machine

/-- Functions that are linked have registers that stand for each other. -/
theorem Func.Linked.alike {f f' : Func} (h : f.Linked f') :
    ∃ σ : Reg → Reg → Prop, Relator.BiUnique σ ∧ f.Alike σ (SameCaptures σ) f' := by
  obtain ⟨L, hfits, halike⟩ := h
  exact ⟨L.Pairs, hfits.biUnique, halike.mono (fun _ _ => id) fun _ _ hc => hc.same hfits⟩

theorem Program.exists_alike {p p' : Program} (h : List.Forall₂ Func.Linked p.funcs p'.funcs) :
    ∃ ρ : Pairing, p.Alike ρ p' := by
  have hname : ∀ name, ∃ σ : Reg → Reg → Prop, Relator.BiUnique σ ∧
      Option.Rel (Func.Alike σ (SameCaptures σ)) (p.func? name) (p'.func? name) := by
    intro name
    have hf := func?_linked h name
    generalize p.func? name = f at hf
    generalize p'.func? name = f' at hf
    cases hf with
    | none => exact ⟨fun _ _ => False, ⟨nofun, nofun⟩, .none⟩
    | some hf =>
      obtain ⟨σ, hσ, halike⟩ := hf.alike
      exact ⟨σ, hσ, .some halike⟩
  choose ρ hρ using hname
  exact ⟨ρ, fun name => (hρ name).1, fun name => (hρ name).2⟩

namespace Lowering

variable {t t' : Node}

/-- A tree and what it is without its lists of captures lower to linked functions. -/
theorem linked_bare (ht : t.exitsPlaced .statement = true) :
    List.Forall₂ Func.Linked (program t).1.funcs (program (t.bare [])).1.funcs := by
  have hmain : (Func.new mainName []).Linked (Func.new mainName []) := by
    refine ⟨_, ?_, Func.alike_new mainName []⟩
    rw [Func.new_numRegs]
    exact Link.fits_self _
  have hstart : List.Forall₂ Func.Linked mainStart.program.funcs mainStart.program.funcs :=
    .cons hmain .nil
  obtain ⟨M, -, hM, -⟩ := tracks_wholeBody hstart mainName [] [] [] fun c => tracks_node c t ht []
  exact Program.linked_add hM.program hM.linked

theorem exitsPlaced_of_recaptured (h : t.Recaptured [] t') (p : Place) :
    t'.exitsPlaced p = t.exitsPlaced p :=
  (h.same.placed p).symm

/-- Trees that differ only in what closures list as captures lower to programs that are alike. -/
theorem alike_of_recaptured (h : t.Recaptured [] t') (ht : t.exitsPlaced .statement = true) :
    ∃ ρ : Pairing, (program t).1.Alike ρ (program t').1 := by
  have ht' : t'.exitsPlaced .statement = true := (exitsPlaced_of_recaptured h .statement).trans ht
  obtain ⟨ρ, hρ⟩ := Program.exists_alike (linked_bare ht)
  obtain ⟨ρ', hρ'⟩ := Program.exists_alike (linked_bare ht')
  rw [← h.same.bare] at hρ'
  exact ⟨_, hρ.through hρ'⟩

theorem startable_of_fit (ht : t.exitsPlaced .statement = true) (hfit : Fit (program t).1) :
    Startable (program t).1 := by
  intro name f hf
  have hmem := (Program.func?_eq_some hf).1
  have hmin := (shape_of_placed ht f hmem).numRegs
  have hmax := (hfit f hmem).numRegs
  exact ⟨_, Frame.new_eq_ok_iff.mpr ⟨⟨hmin, hmax⟩, rfl⟩⟩

theorem accessFree_of_placed (ht : t.exitsPlaced .statement = true) (hfit : Fit (program t).1)
    {cfg : RunConfig} (hcfg : cfg.ClosureFree) : AccessFree cfg (program t).1 := by
  intro c hc
  have hcert := shapeCertificate fun f hf => ⟨shape_of_placed ht f hf, hfit f hf⟩
  have hpermits := hcert.permits_of_raises hcfg hc
  cases c with
  | readUnset | callUnset | writeOutside => exact absurd trivial hpermits
  | _ => rfl

/-- Let a tree have its returns and throws in statement position, and let another differ from it only in
the captures that closures list, all of them bound where the closure stands. Then the programs of the two
are the same up to a pairing of their registers, and under every configuration whose commands answer no
closures their runs end alike, with values or faults that agree, after the same commands. -/
theorem main_agrees_of_recaptured (h : t.Recaptured [] t') (ht : t.exitsPlaced .statement = true)
    (hfit : Fit (program t).1) (hfit' : Fit (program t').1) (cfg : RunConfig)
    (hcfg : cfg.ClosureFree) :
    ∃ ρ : Pairing, (program t).1.Alike ρ (program t').1 ∧
      (main cfg (program t).1).Agree ρ (main cfg (program t').1) := by
  have ht' : t'.exitsPlaced .statement = true := (exitsPlaced_of_recaptured h .statement).trans ht
  obtain ⟨ρ, hρ⟩ := alike_of_recaptured h ht
  exact ⟨ρ, hρ, agree_main hρ (startable_of_fit ht hfit) (startable_of_fit ht' hfit')
    (accessFree_of_placed ht hfit hcfg) (accessFree_of_placed ht' hfit' hcfg) hcfg⟩

/-- A closure that returns a closure, which gives a command one name from outside of both and the
parameter of the first. They list the captures `cs` and `ds`. -/
def nestedClosures (cs ds : List String) : Node :=
  .list {} [
    .assign {} "x" (.string {} "a"),
    .assign {} "y" (.string {} "b"),
    .assign {} "f"
      (.closure {} ["p"] cs
        (.closure {} [] ds (.command {} "probe" [.word {} "x", .word {} "p"] ""))),
    .call {} (.call {} (.word {} "f") [.string {} "c"]) []]

theorem nestedClosures_agrees :
    (nestedClosures ["y", "x"] []).Recaptured [] (nestedClosures [] ["p", "y"]) ∧
      RunConfig.shallow.ClosureFree ∧
      ∃ ρ : Pairing, (program (nestedClosures ["y", "x"] [])).1.Alike ρ
          (program (nestedClosures [] ["p", "y"])).1 ∧
        (main .shallow (program (nestedClosures ["y", "x"] [])).1).Agree ρ
          (main .shallow (program (nestedClosures [] ["p", "y"])).1) :=
  have h : (nestedClosures ["y", "x"] []).Recaptured [] (nestedClosures [] ["p", "y"]) :=
    .list (.cons (.refl _ _) (.cons (.refl _ _) (.cons
      (.assign (.recapture (by decide) (by decide) (.recapture (by decide) (by decide) (.refl _ _))))
      (.cons (.refl _ _) .nil))))
  ⟨h, RunConfig.shallow_closureFree, main_agrees_of_recaptured h (by decide) (by decide +kernel)
    (by decide +kernel) .shallow RunConfig.shallow_closureFree⟩

end Lowering

end ScriptMachine
