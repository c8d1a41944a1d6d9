import ScriptMachine.Proofs.Lowering.NodeGrowth
import ScriptMachine.Proofs.Lowering.StepLaws
import ScriptMachine.Proofs.Programs

/-!
# The functions of a lowered program

Every function that lowering adds to the program is the code of a function that the tree declares.
`Build.Declares ds m` is the law of a step that adds only functions of the declarations `ds`.
-/

namespace ScriptMachine

/-- A function that is the code of a declaration, lowered on its own in some program; without a
complaint if `quiet`. -/
def Declaration.Makes (quiet : Prop) (d : Declaration) (f : Func) : Prop :=
  ∃ s : Builder, s.func = Func.new d.name d.params ∧ s.names = [] ∧ s.enclosing = [] ∧
    f = (Lowering.wholeBody s.func (Lowering.node · d.body) s).2.func ∧
    (quiet → (Lowering.wholeBody s.func (Lowering.node · d.body) s).2.diags = s.diags)

theorem Declaration.Makes.mono {q q' : Prop} {d : Declaration} {f : Func} (h : d.Makes q f)
    (hq : q' → q) : d.Makes q' f := by
  obtain ⟨s, h₁, h₂, h₃, h₄, h₅⟩ := h
  exact ⟨s, h₁, h₂, h₃, h₄, fun h => h₅ (hq h)⟩

/-! ## Steps that add functions -/

/-- What a step does to the program, if it adds only functions of the declarations `ds`. -/
structure Builder.Gains (ds : List Declaration) (s t : Builder) : Prop where
  diags : s.diags <+: t.diags
  funcs : ∀ f ∈ t.program.funcs, f ∈ s.program.funcs ∨ ∃ d ∈ ds, d.Makes (t.diags = s.diags) f
  wellNamed : s.program.WellNamed → t.program.WellNamed

namespace Builder.Gains

variable {ds es : List Declaration} {s t u : Builder}

theorem refl (ds : List Declaration) (s : Builder) : Gains ds s s :=
  ⟨List.prefix_rfl, fun _ h => .inl h, id⟩

theorem trans (h₁ : Gains ds s t) (h₂ : Gains ds t u) : Gains ds s u where
  diags := h₁.diags.trans h₂.diags
  funcs f hf := by
    have hquiet := quiet_of_prefix h₁.diags h₂.diags
    rcases h₂.funcs f hf with hf | ⟨d, hd, hm⟩
    · rcases h₁.funcs f hf with hf | ⟨d, hd, hm⟩
      · exact .inl hf
      · exact .inr ⟨d, hd, hm.mono fun h => (hquiet h).1⟩
    · exact .inr ⟨d, hd, hm.mono fun h => (hquiet h).2⟩
  wellNamed h := h₂.wellNamed (h₁.wellNamed h)

end Builder.Gains

namespace Build

variable {α β : Type} {ds : List Declaration} {m : Build α} {f : α → Build β}

/-- A step that adds only functions of the declarations `ds`. -/
def Declares (ds : List Declaration) (m : Build α) : Prop := ∀ s, Builder.Gains ds s (m s).2

theorem Declares.bind (hm : Declares ds m) (hf : ∀ a, Declares ds (f a)) : Declares ds (m >>= f) :=
  fun s => (hm s).trans (hf _ _)

/-- A step that leaves program and diagnostics alone. -/
theorem declares_still (h : ∀ s, (m s).2.program = s.program ∧ (m s).2.diags = s.diags) :
    Declares ds m := by
  intro s
  obtain ⟨hp, hd⟩ := h s
  exact ⟨hd ▸ List.prefix_rfl, fun f hf => .inl (hp ▸ hf), fun hw => hp ▸ hw⟩

theorem declares_lookupOutside (name : String) : Declares ds (lookupOutside name) :=
  declares_still fun s => by
    rcases s with ⟨p, f, ns, _ | ⟨e, es⟩, ds⟩ <;> exact ⟨rfl, rfl⟩

theorem enclosed_nil {s : Builder} (h : (m s.enclose).2.enclosing = []) :
    enclosed m s = (((m s.enclose).1, []), (m s.enclose).2) := by
  simp only [enclosed, Builder.enclose] at h ⊢
  generalize m _ = r at h ⊢
  obtain ⟨a, t⟩ := r
  dsimp only at h ⊢
  rw [h]

theorem enclosed_cons {s : Builder} {e : Enclosure} {es : List Enclosure}
    (h : (m s.enclose).2.enclosing = e :: es) :
    enclosed m s = (((m s.enclose).1, e.captures),
      { (m s.enclose).2 with names := e.outer, enclosing := es }) := by
  simp only [enclosed, Builder.enclose] at h ⊢
  generalize m _ = r at h ⊢
  obtain ⟨a, t⟩ := r
  dsimp only at h ⊢
  rw [h]

/-- The body of a closure adds to the program and the diagnostics what it adds elsewhere. -/
theorem enclosed_table (m : Build α) (s : Builder) :
    (enclosed m s).2.program = (m s.enclose).2.program ∧
      (enclosed m s).2.diags = (m s.enclose).2.diags ∧
      (enclosed m s).2.func = (m s.enclose).2.func := by
  cases h : (m s.enclose).2.enclosing with
  | nil =>
    rw [enclosed_nil h]
    exact ⟨rfl, rfl, rfl⟩
  | cons e es =>
    rw [enclosed_cons h]
    exact ⟨rfl, rfl, rfl⟩

theorem declares_enclosed (h : Declares ds m) : Declares ds (enclosed m) := by
  intro s
  obtain ⟨hp, hd, -⟩ := enclosed_table m s
  have hg := h s.enclose
  exact ⟨hd ▸ hg.diags, by rw [hp, hd]; exact hg.funcs, fun hw => hp ▸ hg.wellNamed hw⟩

/-- Another function: those declared inside it, and the one that is built. -/
theorem declares_function {d : Declaration} (hd : d ∈ ds) (h : Declares ds d.steps) :
    Declares ds (function (Func.new d.name d.params) d.steps) := by
  intro s
  have hmakes : ∀ t : Builder, t.func = Func.new d.name d.params → t.names = [] →
      t.enclosing = [] → t.diags = s.diags →
      d.Makes ((Lowering.wholeBody t.func (Lowering.node · d.body) t).2.diags = s.diags)
        (Lowering.wholeBody t.func (Lowering.node · d.body) t).2.func :=
    fun t h₁ h₂ h₃ h₄ => ⟨t, h₁, h₂, h₃, rfl, fun h => h.trans h₄.symm⟩
  have hmade := hmakes { s with func := Func.new d.name d.params, names := [], enclosing := [] }
    rfl rfl rfl rfl
  have hg := h { s with func := Func.new d.name d.params, names := [], enclosing := [] }
  rw [function_apply]
  refine ⟨hg.diags, fun f hf => ?_, fun hw => (hg.wellNamed hw).add _⟩
  rcases Program.mem_add hf with ⟨hf, -⟩ | rfl
  · exact hg.funcs f hf
  · exact .inr ⟨d, hd, hmade⟩

theorem declares_law (ds : List Declaration) : Law ds (Declares ds) where
  pure _ s := .refl ds s
  bind := Declares.bind
  newReg := declares_still fun _ => ⟨rfl, rfl⟩
  newBlock := declares_still fun _ => ⟨rfl, rfl⟩
  emit _ _ := declares_still fun _ => ⟨rfl, rfl⟩
  length _ := declares_still fun _ => ⟨rfl, rfl⟩
  replace _ _ _ := declares_still fun _ => ⟨rfl, rfl⟩
  terminated _ := declares_still fun _ => ⟨rfl, rfl⟩
  lookup _ := declares_still fun _ => ⟨rfl, rfl⟩
  bindName _ _ := declares_still fun _ => ⟨rfl, rfl⟩
  names := declares_still fun _ => ⟨rfl, rfl⟩
  inClosure := declares_still fun _ => ⟨rfl, rfl⟩
  lookupOutside := declares_lookupOutside
  capture _ _ := declares_still fun s => by rw [capture_apply]; exact ⟨rfl, rfl⟩
  complain _ _ _ := ⟨List.prefix_append _ _, fun _ h => .inl h, id⟩
  isolated h s := ⟨(h s).diags, (h s).funcs, (h s).wellNamed⟩
  enclosed := declares_enclosed
  function _ hd _ _ := declares_function hd

end Build

namespace Lowering

open Build

/-! ## Programs -/

/-- The functions of a tree as a program: the main function, whose body is the tree, and those that
it declares. -/
def functions (t : Node) : List Declaration := ⟨mainName, [], t⟩ :: t.declarations

/-- The functions of a lowered program. -/
structure Sourced (t : Node) : Prop where
  wellNamed : (program t).1.WellNamed
  main : ∃ f ∈ (program t).1.funcs, f.name = mainName ∧
    (⟨mainName, [], t⟩ : Declaration).Makes ((program t).2 = []) f
  funcs : ∀ f ∈ (program t).1.funcs, ∃ d ∈ functions t, d.Makes ((program t).2 = []) f

/-- The state in which the main function is lowered. -/
def mainStart : Builder where
  program := ({} : Program).add (Func.new mainName [])
  func := Func.new mainName []

theorem program_apply (t : Node) : program t =
    (fun x : Builder => (x.program.add x.func, x.diags))
      (wholeBody mainStart.func (node · t) mainStart).2 := rfl

theorem wholeBody_name (t : Node) :
    (wholeBody mainStart.func (node · t) mainStart).2.func.name = mainName :=
  (adds_wholeBody mainStart.func (fun c => adds_node c t) mainStart).func.name

theorem program_sourced (t : Node) : Sourced t := by
  have law := declares_law t.declarations
  have hgains := law.wholeBody mainStart.func (fun c => law.node c t (List.Subset.refl _)) mainStart
  have hname := wholeBody_name t
  have hmakes : (⟨mainName, [], t⟩ : Declaration).Makes
      ((wholeBody mainStart.func (node · t) mainStart).2.diags = [])
      (wholeBody mainStart.func (node · t) mainStart).2.func :=
    ⟨mainStart, rfl, rfl, rfl, rfl, id⟩
  have happ := program_apply t
  generalize (wholeBody mainStart.func (node · t) mainStart).2 = done at *
  have hstart : mainStart.program.WellNamed := Program.wellNamed_empty.add _
  refine ⟨?_, ?_, ?_⟩ <;> rw [happ]
  · exact (hgains.wellNamed hstart).add _
  · exact ⟨done.func, Program.mem_add_self _ _, hname, hmakes⟩
  · intro f hf
    rcases Program.mem_add hf with ⟨hf, hne⟩ | rfl
    · rcases hgains.funcs f hf with hf | ⟨d, hd, hm⟩
      · -- the main function that was there from the start is replaced
        rcases Program.mem_add hf with ⟨hf, -⟩ | rfl
        · cases hf
        · exact absurd hname.symm hne
      · exact ⟨d, List.mem_cons_of_mem _ hd, hm⟩
    · exact ⟨_, List.mem_cons_self, hmakes⟩

end Lowering

end ScriptMachine
