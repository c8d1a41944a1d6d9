import ScriptMachine.Proofs.Lowering.Declared

/-!
# The table of functions

1. A step of a lowering sees neither the program so far nor the diagnostics (`Build.Blind`), and the
   steps of a function start without names. So a declaration makes the same function wherever it
   stands (`func?_alone`).
2. Steps only append to the order of the program, and under no empty name (`Builder.Lists`).
3. The table of a lowered program starts with the main function, has one function for each name, and
   every other function is the one that its declaration makes when it is all there is
   (`program_table`).
-/

namespace ScriptMachine

/-! ## Programs -/

namespace Program

variable (p : Program) (f : Func)

/-- Putting `f` in the place of the functions with its name keeps all names. -/
theorem find?_replaced (fs : List Func) (name : String) :
    (fs.map fun g => if g.name == f.name then f else g).find? (·.name == name) =
      (fs.find? (·.name == name)).map fun g => if g.name == f.name then f else g := by
  have hkept : ((·.name == name) ∘ fun g : Func => if g.name == f.name then f else g) =
      (·.name == name) := by
    funext g
    by_cases hg : g.name = f.name <;> simp [hg]
  rw [List.find?_map, hkept]

theorem func?_add (name : String) :
    (p.add f).func? name = if name = f.name then some f else p.func? name := by
  unfold add
  cases hf : p.func? f.name with
  | none =>
    by_cases hname : name = f.name
    · subst hname
      have hnone : p.funcs.find? (·.name == f.name) = none := hf
      simp [func?, hnone]
    · simp [func?, hname, Ne.symm hname]
  | some g =>
    rw [func?, find?_replaced]
    change (p.func? name).map _ = _
    by_cases hname : name = f.name
    · subst hname
      simp [hf, (func?_eq_some hf).2]
    · cases hother : p.func? name with
      | none => simp [hname]
      | some h =>
        have hh : h.name ≠ f.name := (func?_eq_some hother).2 ▸ hname
        simp [hname, hh]

theorem order_add : p.order <+: (p.add f).order := by
  unfold add
  split
  · exact List.prefix_rfl
  · exact List.prefix_append _ _

theorem mem_order_add {p : Program} {f : Func} {name : String} (h : name ∈ (p.add f).order) :
    name ∈ p.order ∨ name = f.name := by
  unfold add at h
  split at h
  · exact .inl h
  · simpa using h

/-- A well-named program lists the names under which it has a function. -/
theorem WellNamed.mem_order_iff {p : Program} (hp : p.WellNamed) {name : String} :
    name ∈ p.order ↔ ∃ f, p.func? name = some f := by
  rw [hp.order, List.mem_map]
  constructor
  · rintro ⟨f, hf, rfl⟩
    exact ⟨f, hp.func? hf⟩
  · rintro ⟨f, hf⟩
    exact ⟨f, func?_eq_some hf⟩

end Program

theorem Func.addParams_name (f : Func) (ps : List String) : (f.addParams ps).name = f.name := by
  induction ps generalizing f with
  | nil => rfl
  | cons p ps ih => exact ih _

@[simp] theorem Func.new_name (name : String) (params : List String) :
    (Func.new name params).name = name :=
  Func.addParams_name _ params

/-! ## What a step does not see -/

/-- Two lowerings that are at the same point of the same function, in whichever programs and with
whichever diagnostics. -/
structure Builder.SameCode (s t : Builder) : Prop where
  func : s.func = t.func
  names : s.names = t.names
  enclosing : s.enclosing = t.enclosing

namespace Build

variable {α β : Type} {m : Build α} {f : α → Build β}

/-- A step that goes by the code and the names at hand alone. -/
def Blind (m : Build α) : Prop :=
  ∀ s t : Builder, s.SameCode t → (m s).1 = (m t).1 ∧ (m s).2.SameCode (m t).2

theorem blind_iff : Blind m ↔ ∀ p p' f ns es ds ds',
    (m ⟨p, f, ns, es, ds⟩).1 = (m ⟨p', f, ns, es, ds'⟩).1 ∧
      (m ⟨p, f, ns, es, ds⟩).2.SameCode (m ⟨p', f, ns, es, ds'⟩).2 := by
  constructor
  · exact fun h p p' f ns es ds ds' => h _ _ ⟨rfl, rfl, rfl⟩
  · rintro h ⟨p, f, ns, es, ds⟩ ⟨p', _, _, _, ds'⟩ ⟨rfl, rfl, rfl⟩
    exact h p p' f ns es ds ds'

theorem Blind.bind (hm : Blind m) (hf : ∀ a, Blind (f a)) : Blind (m >>= f) := by
  intro s t hst
  obtain ⟨ha, hst'⟩ := hm s t hst
  rw [bind_apply, bind_apply, ha]
  exact hf _ _ _ hst'

theorem blind_lookupOutside (name : String) : Blind (lookupOutside name) := by
  rw [blind_iff]
  intro p p' f ns es ds ds'
  cases es <;> exact ⟨rfl, rfl, rfl, rfl⟩

theorem blind_capture (name : String) (v : Value) : Blind (capture name v) := by
  rw [blind_iff]
  intro p p' f ns es ds ds'
  rw [capture_apply, capture_apply]
  exact ⟨rfl, rfl, rfl, rfl⟩

theorem blind_isolated (h : Blind m) : Blind (isolated m) := by
  intro s t hst
  obtain ⟨ha, hst'⟩ := h s t hst
  rw [isolated_apply, isolated_apply, ha, hst'.names]
  exact ⟨rfl, hst'.func, hst.names, hst'.enclosing⟩

theorem blind_enclosed (h : Blind m) : Blind (enclosed m) := by
  intro s t hst
  have hstart : s.enclose.SameCode t.enclose :=
    ⟨hst.func, rfl, by simp only [Builder.enclose, hst.names, hst.enclosing]⟩
  obtain ⟨ha, hst'⟩ := h _ _ hstart
  cases hes : (m s.enclose).2.enclosing with
  | nil =>
    rw [enclosed_nil hes, enclosed_nil (hst'.enclosing ▸ hes), ha]
    exact ⟨rfl, hst'⟩
  | cons e es =>
    rw [enclosed_cons hes, enclosed_cons (hst'.enclosing ▸ hes), ha]
    exact ⟨rfl, hst'.func, rfl, rfl⟩

theorem blind_law (ds : List Declaration) : Law ds Blind where
  pure _ _ _ hst := ⟨rfl, hst⟩
  bind := Blind.bind
  newReg := blind_iff.mpr fun _ _ _ _ _ _ _ => ⟨rfl, rfl, rfl, rfl⟩
  newBlock := blind_iff.mpr fun _ _ _ _ _ _ _ => ⟨rfl, rfl, rfl, rfl⟩
  emit _ _ := blind_iff.mpr fun _ _ _ _ _ _ _ => ⟨rfl, rfl, rfl, rfl⟩
  length _ := blind_iff.mpr fun _ _ _ _ _ _ _ => ⟨rfl, rfl, rfl, rfl⟩
  replace _ _ _ := blind_iff.mpr fun _ _ _ _ _ _ _ => ⟨rfl, rfl, rfl, rfl⟩
  terminated _ := blind_iff.mpr fun _ _ _ _ _ _ _ => ⟨rfl, rfl, rfl, rfl⟩
  lookup _ := blind_iff.mpr fun _ _ _ _ _ _ _ => ⟨rfl, rfl, rfl, rfl⟩
  bindName _ _ := blind_iff.mpr fun _ _ _ _ _ _ _ => ⟨rfl, rfl, rfl, rfl⟩
  names := blind_iff.mpr fun _ _ _ _ _ _ _ => ⟨rfl, rfl, rfl, rfl⟩
  inClosure := blind_iff.mpr fun _ _ _ _ _ _ _ => ⟨rfl, rfl, rfl, rfl⟩
  lookupOutside := blind_lookupOutside
  capture := blind_capture
  complain _ _ _ _ hst := ⟨rfl, hst.func, hst.names, hst.enclosing⟩
  isolated := blind_isolated
  enclosed := blind_enclosed
  function _ _ _ _ _ _ _ hst := ⟨rfl, hst.func, hst.names, hst.enclosing⟩

end Build

/-! ## What a step does to the table -/

/-- The function at hand stays under its name, and the order of the program has got longer by names
that are not empty. -/
structure Builder.Lists (s t : Builder) : Prop where
  name : t.func.name = s.func.name
  order : s.program.order <+: t.program.order
  named : ∀ name ∈ t.program.order, name ∈ s.program.order ∨ name ≠ ""

namespace Build

variable {α β : Type} {m : Build α} {f : α → Build β}

/-- A step that only appends to the table. -/
def Lists (m : Build α) : Prop := ∀ s : Builder, s.Lists (m s).2

theorem Lists.bind (hm : Lists m) (hf : ∀ a, Lists (f a)) : Lists (m >>= f) := by
  intro s
  have h₁ := hm s
  have h₂ := hf (m s).1 (m s).2
  refine ⟨h₂.name.trans h₁.name, h₁.order.trans h₂.order, fun name hname => ?_⟩
  rcases h₂.named name hname with hname | hname
  · exact h₁.named name hname
  · exact .inr hname

/-- A step that adds code leaves the table alone. -/
theorem lists_of_adds {S : Set BlockId} (h : Adds S m) (hp : ∀ s, (m s).2.program = s.program) :
    Lists m := fun s =>
  ⟨(h s).func.name, hp s ▸ List.prefix_rfl, fun _ hname => .inl (hp s ▸ hname)⟩

theorem lists_newBlock : Lists newBlock := fun _ => ⟨rfl, List.prefix_rfl, fun _ => .inl⟩

theorem lists_replace (b : BlockId) (i : Nat) (x : Instr) : Lists (replace b i x) := by
  intro s
  refine ⟨?_, List.prefix_rfl, fun _ => .inl⟩
  rw [replace_apply]
  unfold Func.replace
  split <;> rfl

theorem lists_enclosed (h : Lists m) : Lists (enclosed m) := by
  intro s
  obtain ⟨hp, -, hf⟩ := enclosed_table m s
  have hs := h s.enclose
  exact ⟨hf ▸ hs.name, hp ▸ hs.order, hp ▸ hs.named⟩

/-- Another function is listed under its name. -/
theorem lists_function {d : Declaration} (hempty : d.name ≠ "") (h : Lists d.steps) :
    Lists (function (Func.new d.name d.params) d.steps) := by
  intro s
  have hs := h { s with func := Func.new d.name d.params, names := [], enclosing := [] }
  rw [function_apply]
  refine ⟨rfl, hs.order.trans (Program.order_add _ _), fun name hname => ?_⟩
  rcases Program.mem_order_add hname with hname | rfl
  · exact hs.named name hname
  · rw [hs.name]
    exact .inr (by simpa using hempty)

theorem lists_law (ds : List Declaration) : Law ds Lists where
  pure _ _ := ⟨rfl, List.prefix_rfl, fun _ => .inl⟩
  bind := Lists.bind
  newReg := lists_of_adds (adds_newReg (S := ∅)) fun _ => rfl
  newBlock := lists_newBlock
  emit b x := lists_of_adds (adds_emit b x (Set.mem_singleton b)) fun _ => rfl
  length b := lists_of_adds (adds_length (S := ∅) b) fun _ => rfl
  replace := lists_replace
  terminated b := lists_of_adds (adds_terminated (S := ∅) b) fun _ => rfl
  lookup name := lists_of_adds (adds_lookup (S := ∅) name) fun _ => rfl
  bindName name r := lists_of_adds (adds_bind_name (S := ∅) name r) fun _ => rfl
  names := lists_of_adds (adds_names (S := ∅)) fun _ => rfl
  inClosure := lists_of_adds (adds_inClosure (S := ∅)) fun _ => rfl
  lookupOutside name := lists_of_adds (adds_lookupOutside (S := ∅) name) fun s => by
    rcases s with ⟨p, f, ns, _ | ⟨e, es⟩, ds⟩ <;> rfl
  capture name v := lists_of_adds (adds_capture (S := ∅) name v) fun s => by rw [capture_apply]
  complain pos c := lists_of_adds (adds_complain (S := ∅) pos c) fun _ => rfl
  isolated h s := ⟨(h s).name, (h s).order, (h s).named⟩
  enclosed := lists_enclosed
  function _ _ _ hempty := lists_function hempty

end Build

/-! ## A function on its own -/

/-- A tree that declares a function and nothing else. -/
def Declaration.alone (d : Declaration) (pos pos' : Position) : Node :=
  .program pos [.func pos' d.name d.params d.body]

namespace Lowering

open Build

theorem wholeBody_program (f : Func) (body : BlockId → Build (Option Reg)) (s : Builder) :
    (wholeBody f body s).2.program =
      (body f.entry (bindAll f.params f.paramRegs s).2).2.program := by
  simp only [wholeBody, bind_apply, sealBody, terminated_apply]
  split <;> rfl

theorem name_of_makes {d : Declaration} {q : Prop} {f : Func} (h : d.Makes q f) :
    f.name = d.name := by
  obtain ⟨s, hfunc, -, -, rfl, -⟩ := h
  rw [(adds_wholeBody s.func (fun c => adds_node c d.body) s).func.name, hfunc, Func.new_name]

/-- The state in which a function that is declared first of all starts. -/
def aloneStart (d : Declaration) : Builder :=
  { mainStart with func := Func.new d.name d.params, names := [], enclosing := [] }

/-- A tree that only declares a function adds it to the program. -/
theorem node_alone (d : Declaration) (hmain : d.name ≠ mainName) (hempty : d.name ≠ "")
    (pos pos' : Position) : (node mainStart.func.entry (d.alone pos pos') mainStart).2.program =
      (d.steps (aloneStart d)).2.program.add (d.steps (aloneStart d)).2.func := by
  have hname : ¬ (d.name = mainName ∨ d.name = "") := not_or.mpr ⟨hmain, hempty⟩
  simp only [Declaration.alone, node, stmts, function, if_neg hname, bind_apply, terminated_apply]
  split <;> rfl

/-- The function that a declaration makes somewhere in a tree is the one that it makes alone. -/
theorem func?_alone {d : Declaration} {q : Prop} {f : Func} (h : d.Makes q f)
    (hmain : d.name ≠ mainName) (hempty : d.name ≠ "") (pos pos' : Position) :
    (program (d.alone pos pos')).1.func? d.name = some f := by
  have hname := name_of_makes h
  obtain ⟨s, hfunc, hnames, henclosing, rfl, -⟩ := h
  have hblind : Blind d.steps :=
    have law := blind_law d.body.declarations
    law.wholeBody _ fun c => law.node c d.body (List.Subset.refl _)
  have hcode := (hblind s (aloneStart d) ⟨hfunc, hnames, henclosing⟩).2.func
  rw [hfunc] at hname ⊢
  rw [program_apply, Program.func?_add, wholeBody_name, if_neg hmain, wholeBody_program]
  have hbind : (bindAll mainStart.func.params mainStart.func.paramRegs mainStart).2 = mainStart := rfl
  rw [hbind, node_alone d hmain hempty, Program.func?_add, ← hcode]
  exact if_pos hname.symm

/-! ## The table of a program -/

theorem program_order (t : Node) : [mainName] <+: (program t).1.order ∧
    ∀ name ∈ (program t).1.order, name ≠ "" := by
  have law := lists_law t.declarations
  have hlists := law.wholeBody mainStart.func (fun c => law.node c t (List.Subset.refl _)) mainStart
  rw [program_apply]
  refine ⟨hlists.order.trans (Program.order_add _ _), fun name hname => ?_⟩
  rcases Program.mem_order_add hname with hname | rfl
  · rcases hlists.named name hname with hname | hname
    · rw [List.mem_singleton.mp hname]
      decide
    · exact hname
  · rw [hlists.name]
    decide

/-- The functions of a lowered program: the first is the main one, each name has one function, no
name is empty, and every function but the main one is what a declaration of that name somewhere in
the tree makes when it is the only statement of a program. -/
theorem program_table (t : Node) :
    (program t).1.order.head? = some mainName ∧ (program t).1.order.Nodup ∧
      (∀ name, name ∈ (program t).1.order ↔ ∃ f, (program t).1.func? name = some f) ∧
      (∀ f ∈ (program t).1.funcs, (program t).1.func? f.name = some f ∧ f.name ≠ "") ∧
      ∀ f ∈ (program t).1.funcs, f.name ≠ mainName → ∃ d ∈ t.declarations, d.name = f.name ∧
        ∀ pos pos', (program (d.alone pos pos')).1.func? d.name = some f := by
  have hsourced := program_sourced t
  have hnamed := hsourced.wellNamed
  obtain ⟨⟨rest, hrest⟩, hempty⟩ := program_order t
  refine ⟨by rw [← hrest]; rfl, hnamed.order ▸ hnamed.nodup, fun name => hnamed.mem_order_iff,
    fun f hf => ?_, fun f hf hmain => ?_⟩
  · exact ⟨hnamed.func? hf, hempty f.name (hnamed.mem_order_iff.mpr ⟨f, hnamed.func? hf⟩)⟩
  · obtain ⟨d, hd, hmakes⟩ := hsourced.funcs f hf
    have hname := name_of_makes hmakes
    rcases List.mem_cons.mp hd with rfl | hd
    · exact absurd hname hmain
    · have hne := hempty f.name (hnamed.mem_order_iff.mpr ⟨f, hnamed.func? hf⟩)
      exact ⟨d, hd, hname.symm, func?_alone hmakes (hname ▸ hmain) (hname ▸ hne)⟩

end Lowering

end ScriptMachine
