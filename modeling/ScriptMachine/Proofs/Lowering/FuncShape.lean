import ScriptMachine.Proofs.Lowering.Declared
import ScriptMachine.Proofs.Lowering.NodeShape

/-!
# The shape of lowered functions

The code of a declared function has a shape from its entry to its end, starting with the parameters
as the registers that are set. It is broken just if the flow of its tree is.
-/

namespace ScriptMachine

namespace Func

/-! ## New functions -/

theorem addParams_spec (f : Func) (ps : List String) :
    (f.addParams ps).params = f.params ∧ (f.addParams ps).blocks = f.blocks ∧
      (f.addParams ps).entry = f.entry ∧ (f.addParams ps).numRegs = f.numRegs + ps.length ∧
      (f.addParams ps).paramRegs.length = f.paramRegs.length + ps.length ∧
      ∀ r ∈ (f.addParams ps).paramRegs,
        r ∈ f.paramRegs ∨ f.numRegs ≤ r.index ∧ r.index < f.numRegs + ps.length := by
  induction ps generalizing f with
  | nil => exact ⟨rfl, rfl, rfl, by simp [addParams], rfl, fun r hr => .inl hr⟩
  | cons p ps ih =>
    obtain ⟨h₁, h₂, h₃, h₄, h₅, h₆⟩ :=
      ih { f with numRegs := f.numRegs + 1, paramRegs := f.paramRegs ++ [⟨f.numRegs⟩] }
    simp only [List.length_append, List.length_cons, List.length_nil, List.mem_append,
      List.mem_singleton] at h₁ h₂ h₃ h₄ h₅ h₆ ⊢
    refine ⟨h₁, h₂, h₃, ?_, ?_, fun r hr => ?_⟩
    · rw [addParams, newReg, h₄]
      omega
    · rw [addParams, newReg, h₅]
      omega
    · rcases h₆ r hr with (h | rfl) | h
      · exact .inl h
      · exact .inr ⟨le_refl _, by simp only; omega⟩
      · exact .inr ⟨by omega, by omega⟩

variable (name : String) (params : List String)

@[simp] theorem new_params : (new name params).params = params := by
  simp [new, newBlock, (addParams_spec _ params).1]

@[simp] theorem new_entry : (new name params).entry = ⟨0⟩ := by
  simp [new, newBlock, (addParams_spec _ params).2.2.1]

@[simp] theorem new_blocks_size : (new name params).blocks.size = 1 := by
  simp [new, newBlock, (addParams_spec _ params).2.1]

@[simp] theorem new_numRegs : (new name params).numRegs = params.length := by
  simp [new, newBlock, (addParams_spec _ params).2.2.2.1]

@[simp] theorem new_paramRegs_length : (new name params).paramRegs.length = params.length := by
  simp [new, newBlock, (addParams_spec _ params).2.2.2.2.1]

theorem new_paramRegs_inRange {r : Reg} (hr : r ∈ (new name params).paramRegs) :
    (new name params).InRange r := by
  have h := (addParams_spec _ params).2.2.2.2.2 r hr
  simp only [List.not_mem_nil, false_or] at h
  simpa [InRange] using h

theorem new_code (b : BlockId) : (new name params).code b = [] := by
  have h : (new name params).blocks = #[{ id := ⟨0⟩ }] := by
    simp [new, newBlock, (addParams_spec _ params).2.1]
  cases hb : (new name params).block? b with
  | none => simp [code, hb]
  | some k =>
    rw [code_of_block? hb]
    unfold block? at hb
    split at hb
    · cases hb
    · rw [h] at hb
      have := Array.mem_of_getElem? hb
      simp_all

theorem new_has_entry : (new name params).Has (new name params).entry := by
  simp [Has]

end Func

/-! ## Functions of a program -/

/-- The shape of a whole function with the flow `e` at its end. -/
structure FuncShape (f : Func) (e : Flow) : Prop where
  entry : f.entry = ⟨0⟩
  has : f.Has f.entry
  numRegs : 0 ≤ f.numRegs
  paramCount : f.paramRegs.length = f.params.length
  paramRegs : ∀ r ∈ f.paramRegs, f.InRange r
  shape : Shape f ⟨false, false⟩ f.entry ⟨0, 1, {r | r ∈ f.paramRegs}, .live⟩
    ⟨(f.code f.entry).length, f.blocks.size, ∅, e⟩

namespace Declaration

open Build Lowering

/-- The start of a function, before its parameters are bound. -/
theorem situation_new {s : Builder} {name : String} {params : List String}
    (hfunc : s.func = Func.new name params) (hnames : s.names = []) (hencl : s.enclosing = [])
    (D : Set Reg) : Situation ⟨false, false⟩ s.func.entry s D .live where
  numRegs := by simp [hfunc]
  closure := by simp [hencl]
  scope := by rw [hencl]; trivial
  names := by simp [hnames]
  has := by rw [hfunc]; exact Func.new_has_entry _ _
  live _ := by rw [hfunc, Func.new_code]; rfl
  ended h := by cases h

/-- A function has the shape of its declaration. -/
theorem Makes.shape {quiet : Prop} {d : Declaration} {f : Func} (h : d.Makes quiet f) :
    ∃ e, FuncShape f e ∧ e ≠ .live ∧
      (d.body.flow ≠ .broken ∨ quiet → (e = .ended ↔ d.body.flow ≠ .broken)) := by
  obtain ⟨s, hfunc, hnames, hencl, rfl, hquiet⟩ := h
  have hlaw : Shaped (wholeBody s.func (node · d.body) s).2.func ⟨false, false⟩ quiet s.func.entry
      {r | r ∈ s.func.paramRegs} .live (wholeBody s.func (node · d.body)) fun _ _ e' =>
        ∃ r e₁, Flow.Follows quiet d.body.flow .live r e₁ ∧ e' = e₁.sealed := by
    refine (shaped_bindAll s.func.params fun r hr => hr).bind (by grind) ?_
    rintro _ D₁ e₁ - ⟨rfl, rfl⟩
    refine Shaped.bind (by grind) (lowers_node s.func.entry d.body ⟨false, false⟩ _ _) ?_
    rintro r D₂ e₂ - ⟨hr, hf⟩
    refine (shaped_sealBody hr).post ?_
    rintro _ D' e' ⟨rfl, rfl⟩
    exact ⟨r, e₂, hf, rfl⟩
  have hg := adds_wholeBody s.func (fun c => adds_node c d.body) s
  have hlaw := hlaw s
  unfold ShapedAt at hlaw
  generalize (wholeBody s.func (node · d.body) s).2 = t at *
  have hagree : Agrees t.func ∅ s t :=
    ⟨le_refl _, le_refl _, fun _ _ _ _ h => h, fun _ _ _ _ => rfl⟩
  have hcaptured : capturedRegs t.enclosing ⊆ {r | r ∈ s.func.paramRegs} := by
    have hgrow := hg.enclosing
    rw [hencl] at hgrow
    rw [List.forall₂_nil_left_iff.mp hgrow]
    exact Set.empty_subset _
  obtain ⟨D', e', -, hsh, ht, r, e₁, hf, rfl⟩ := hlaw (situation_new hfunc hnames hencl _) hcaptured
    hagree hquiet
  have hpoint : s.point s.func.entry {r | r ∈ s.func.paramRegs} .live =
      ⟨0, 1, {r | r ∈ s.func.paramRegs}, .live⟩ := by
    simp [Builder.point, hfunc, Func.new_code]
  rw [hpoint] at hsh
  refine ⟨e₁.sealed, ?_, Flow.sealed_ne_live e₁, hf.sealed⟩
  exact {
    entry := by rw [hg.func.entry, hfunc, Func.new_entry]
    has := hg.func.entry ▸ ht.has
    numRegs := ht.numRegs
    paramCount := by rw [hg.func.paramRegs, hg.func.params, hfunc]; simp
    paramRegs := fun r hr => by
      rw [hg.func.paramRegs, hfunc] at hr
      have := Func.new_paramRegs_inRange _ _ hr
      rw [← hfunc] at this
      exact ⟨this.1, lt_of_lt_of_le this.2 hg.func.numRegs⟩
    shape := by
      rw [hg.func.entry, hg.func.paramRegs]
      exact hsh.forget (Set.empty_subset _) }

end Declaration

end ScriptMachine
