import Mathlib.Data.List.Forall2
import Mathlib.Data.Set.Insert
import ScriptMachine.Lowering.Program
import ScriptMachine.Proofs.Blocks

/-!
# Growth

A lowering only adds. `Func.Extends S f g`: the function `g` has all that `f` has, and of the blocks
of `f` only those in `S` may have got longer. `Builder.Grows` says the same of the whole state, with
the closures around the code at hand and the diagnostics. `Build.Adds S m` is the law of a step `m`:
whatever the state, running it is such growth. Lowering into a block `b` has the law `Adds {b}`,
since the other blocks that it fills are its own.
-/

namespace ScriptMachine

/-! ## Functions -/

/-- `g` is `f` with more registers, more blocks, and more code at the end of the blocks in `S`. -/
structure Func.Extends (S : Set BlockId) (f g : Func) : Prop where
  name : g.name = f.name
  params : g.params = f.params
  paramRegs : g.paramRegs = f.paramRegs
  entry : g.entry = f.entry
  numRegs : f.numRegs ≤ g.numRegs
  size : f.blocks.size ≤ g.blocks.size
  kept : ∀ c, f.Has c → c ∉ S → g.code c = f.code c
  grown : ∀ c, f.code c <+: g.code c

namespace Func.Extends

variable {S T : Set BlockId} {f g h : Func}

theorem refl (S : Set BlockId) (f : Func) : Extends S f f :=
  ⟨rfl, rfl, rfl, rfl, le_refl _, le_refl _, fun _ _ _ => rfl, fun _ => List.prefix_rfl⟩

theorem has (h : Extends S f g) {c : BlockId} (hc : f.Has c) : g.Has c :=
  ⟨hc.1, lt_of_lt_of_le hc.2 (by exact_mod_cast h.size)⟩

/-- The second part may also change blocks that the first one made. -/
theorem trans (h₁ : Extends S f g) (h₂ : Extends T g h) (hT : ∀ c ∈ T, f.Has c → c ∈ S) :
    Extends S f h where
  name := h₂.name.trans h₁.name
  params := h₂.params.trans h₁.params
  paramRegs := h₂.paramRegs.trans h₁.paramRegs
  entry := h₂.entry.trans h₁.entry
  numRegs := le_trans h₁.numRegs h₂.numRegs
  size := le_trans h₁.size h₂.size
  kept c hc hS := by
    rw [h₂.kept c (h₁.has hc) fun hcT => hS (hT c hcT hc), h₁.kept c hc hS]
  grown c := (h₁.grown c).trans (h₂.grown c)

theorem mono (h : Extends S f g) (hS : S ⊆ T) : Extends T f g :=
  { h with kept := fun c hc hT => h.kept c hc fun hcS => hT (hS hcS) }

theorem getElem? (h : Extends S f g) {c : BlockId} {i : Nat} {x : Instr}
    (hx : (f.code c)[i]? = some x) : (g.code c)[i]? = some x := by
  obtain ⟨rest, hr⟩ := h.grown c
  rw [← hr]
  exact List.getElem?_append_left (List.getElem?_eq_some_iff.mp hx).1 ▸ hx

theorem length_le (h : Extends S f g) (c : BlockId) : (f.code c).length ≤ (g.code c).length :=
  (h.grown c).length_le

end Func.Extends

namespace Func

variable (f : Func)

theorem extends_newReg : Extends ∅ f f.newReg.1 :=
  ⟨rfl, rfl, rfl, rfl, by simp only [newReg_numRegs]; omega, le_refl _, fun _ _ _ => rfl,
    fun _ => List.prefix_rfl⟩

theorem extends_newBlock : Extends ∅ f f.newBlock.1 where
  name := rfl
  params := rfl
  paramRegs := rfl
  entry := rfl
  numRegs := le_refl _
  size := by simp
  kept c _ _ := newBlock_code f c
  grown c := (newBlock_code f c).symm ▸ List.prefix_rfl

theorem extends_append (b : BlockId) (x : Instr) : Extends {b} f (f.append b x) where
  name := by unfold append; split <;> rfl
  params := by unfold append; split <;> rfl
  paramRegs := by unfold append; split <;> rfl
  entry := by unfold append; split <;> rfl
  numRegs := by simp
  size := by simp
  kept c _ hc := append_code_ne hc x
  grown c := by
    by_cases hb : f.Has b
    · by_cases hc : c = b
      · subst hc
        rw [append_code_self hb]
        exact List.prefix_append _ _
      · exact (append_code_ne hc x).symm ▸ List.prefix_rfl
    · exact (append_code_of_not_has hb x c).symm ▸ List.prefix_rfl

variable {f}

/-- An instruction that was added may be replaced. -/
theorem Extends.replace {S : Set BlockId} {g : Func} (h : Extends S f g) {b : BlockId} (hb : b ∈ S)
    {i : Nat} (hi : (f.code b).length ≤ i) (x : Instr) : Extends S f (g.replace b i x) where
  name := by unfold Func.replace; split <;> exact h.name
  params := by unfold Func.replace; split <;> exact h.params
  paramRegs := by unfold Func.replace; split <;> exact h.paramRegs
  entry := by unfold Func.replace; split <;> exact h.entry
  numRegs := by simp [h.numRegs]
  size := by simp [h.size]
  kept c hc hS := by
    have hne : c ≠ b := by rintro rfl; exact hS hb
    rw [replace_code_ne hne, h.kept c hc hS]
  grown c := by
    by_cases hc : c = b
    · subst hc
      obtain ⟨rest, hr⟩ := h.grown c
      rw [replace_code_self, ← hr, List.set_append_right i x hi]
      exact List.prefix_append _ _
    · rw [replace_code_ne hc]
      exact h.grown c

end Func

/-! ## Scopes -/

namespace Names

variable {ns : Names} {name : String} {r : Reg}

theorem mem_of_get? (h : ns.get? name = some r) : (name, r) ∈ ns := by
  obtain ⟨l₁, l₂, rfl, -⟩ := List.lookup_eq_some_iff.mp h
  exact List.mem_append_right _ List.mem_cons_self

theorem mem_bind {p : String × Reg} (h : p ∈ ns.bind name r) : p = (name, r) ∨ p ∈ ns := by
  rcases List.mem_cons.mp h with h | h
  · exact .inl h
  · exact .inr (List.mem_of_mem_filter h)

theorem get?_bind (ns : Names) (name other : String) (r : Reg) :
    (ns.bind name r).get? other = if other = name then some r else ns.get? other := by
  unfold bind get?
  rw [List.lookup_cons]
  split
  · rename_i h
    rw [if_pos (by simpa using h)]
  · rename_i h
    have hne : other ≠ name := by simpa using h
    rw [if_neg hne]
    induction ns with
    | nil => rfl
    | cons p ns ih => grind

theorem get?_cons (joins : Names) (name other : String) (j : Reg) :
    get? ((name, j) :: joins) other = if other = name then some j else joins.get? other := by
  unfold get?
  rw [List.lookup_cons]
  by_cases h : other = name
  · simp [h]
  · rw [if_neg h, beq_false_of_ne h]

theorem isSome_get?_iff {ns : Names} {name : String} :
    (ns.get? name).isSome = true ↔ name ∈ ns.map (·.1) := by
  induction ns with
  | nil => simp [get?]
  | cons p ns ih =>
    rw [List.map_cons, List.mem_cons, ← ih, get?_cons]
    split <;> simp_all

end Names

/-- The closure `e'` is `e` with more captures, each in a register from the number `n` on. -/
structure Enclosure.Grows (n : Int) (e e' : Enclosure) : Prop where
  outer : e'.outer = e.outer
  captures : e.captures <+: e'.captures
  fresh : ∀ c ∈ e'.captures, c ∈ e.captures ∨ n ≤ c.reg.index
  bound : ∀ name, (e.bound.get? name).isSome → (e'.bound.get? name).isSome

theorem Enclosure.Grows.refl (n : Int) (e : Enclosure) : Grows n e e :=
  ⟨rfl, List.prefix_rfl, fun _ hc => .inl hc, fun _ => id⟩

theorem Enclosure.Grows.trans {n m : Int} {e₁ e₂ e₃ : Enclosure} (h₁ : Grows n e₁ e₂)
    (h₂ : Grows m e₂ e₃) (hnm : n ≤ m) : Grows n e₁ e₃ where
  outer := h₂.outer.trans h₁.outer
  captures := h₁.captures.trans h₂.captures
  fresh c hc := by
    rcases h₂.fresh c hc with hc | hm
    · exact h₁.fresh c hc
    · exact .inr (le_trans hnm hm)
  bound name hname := h₂.bound name (h₁.bound name hname)

theorem Enclosure.grows_capture {n : Int} (e : Enclosure) (name : String) (v : Value) {r : Reg}
    (hr : n ≤ r.index) : Grows n e (e.capture name v r) where
  outer := rfl
  captures := List.prefix_append _ _
  fresh c hc := by
    rcases List.mem_append.mp hc with hc | hc
    · exact .inl hc
    · rw [List.mem_singleton.mp hc]
      exact .inr hr
  bound other hother := by
    show ((e.bound.bind name r).get? other).isSome
    rw [Names.get?_bind]
    split
    · rfl
    · exact hother

/-- Closures around the code at hand, each with more captures in registers from `n` on. -/
abbrev Enclosing.Grow (n : Int) (es es' : List Enclosure) : Prop :=
  List.Forall₂ (Enclosure.Grows n) es es'

theorem Enclosing.Grow.refl (n : Int) (es : List Enclosure) : Grow n es es :=
  List.forall₂_same.mpr fun e _ => .refl n e

theorem Enclosing.Grow.trans {n m : Int} {es₁ es₂ es₃ : List Enclosure} (h₁ : Grow n es₁ es₂)
    (h₂ : Grow m es₂ es₃) (hnm : n ≤ m) : Grow n es₁ es₃ := by
  induction h₁ generalizing es₃ with
  | nil =>
    cases h₂
    exact .nil
  | cons he _ ih =>
    cases h₂ with
    | cons he' hes' => exact .cons (he.trans he' hnm) (ih hes')

/-- Looking a name up takes registers and adds captures, and nothing else. -/
theorem resolve_grows (name : String) (f : Func) (names : Names) (es : List Enclosure) :
    Func.Extends ∅ f (resolve name f names es).2.1 ∧
      (resolve name f names es).2.1.blocks = f.blocks ∧
      Enclosing.Grow f.numRegs es (resolve name f names es).2.2 := by
  induction es generalizing names with
  | nil => exact ⟨.refl _ f, rfl, .nil⟩
  | cons e es ih =>
    unfold resolve
    split
    · exact ⟨.refl _ f, rfl, .refl _ _⟩
    · obtain ⟨hf, hb, hes⟩ := ih e.outer
      split
      · rename_i f' es' heq
        rw [heq] at hf hb hes
        exact ⟨hf, hb, .cons (.refl _ e) hes⟩
      · rename_i outer f' es' heq
        rw [heq] at hf hb hes
        exact ⟨hf.trans (Func.extends_newReg f') (by simp), hb,
          .cons (e.grows_capture name _ hf.numRegs) hes⟩

/-! ## States -/

/-- The state `t` is `s` with more code in the blocks of `S` and in new blocks, more captures and
more diagnostics. -/
structure Builder.Grows (S : Set BlockId) (s t : Builder) : Prop where
  func : Func.Extends S s.func t.func
  enclosing : Enclosing.Grow s.func.numRegs s.enclosing t.enclosing
  diags : s.diags <+: t.diags

/-- If there is no new diagnostic in the end, there was none on the way. -/
theorem quiet_of_prefix {ds ds₁ ds₂ : List Diagnostic} (h₁ : ds <+: ds₁) (h₂ : ds₁ <+: ds₂)
    (h : ds₂ = ds) : ds₁ = ds ∧ ds₂ = ds₁ := by
  obtain rfl := h₁.eq_of_length (le_antisymm h₁.length_le (h ▸ h₂.length_le))
  exact ⟨rfl, h⟩

namespace Builder.Grows

variable {S T : Set BlockId} {s t u : Builder}

theorem refl (S : Set BlockId) (s : Builder) : Grows S s s :=
  ⟨.refl S s.func, .refl _ _, List.prefix_rfl⟩

theorem trans (h₁ : Grows S s t) (h₂ : Grows T t u) (hT : ∀ c ∈ T, s.func.Has c → c ∈ S) :
    Grows S s u :=
  ⟨h₁.func.trans h₂.func hT, h₁.enclosing.trans h₂.enclosing h₁.func.numRegs,
    h₁.diags.trans h₂.diags⟩

theorem mono (h : Grows S s t) (hS : S ⊆ T) : Grows T s t := { h with func := h.func.mono hS }

theorem of_eq {t' : Builder} (h : Grows S s t) (hf : t'.func = t.func)
    (he : t'.enclosing = t.enclosing) (hd : t'.diags = t.diags) : Grows S s t' :=
  ⟨hf ▸ h.func, he ▸ h.enclosing, hd ▸ h.diags⟩

theorem quiet (h₁ : Grows S s t) (h₂ : Grows T t u) (h : u.diags = s.diags) :
    t.diags = s.diags ∧ u.diags = t.diags :=
  quiet_of_prefix h₁.diags h₂.diags h

end Builder.Grows

/-! ## Steps -/

/-- The state in which the body of a closure starts. -/
def Builder.enclose (s : Builder) : Builder :=
  { s with names := [], enclosing := ⟨s.names, [], []⟩ :: s.enclosing }

namespace Build

variable {α β : Type}

@[simp] theorem pure_apply (a : α) (s : Builder) : (pure a : Build α) s = (a, s) := rfl

@[simp] theorem bind_apply (m : Build α) (f : α → Build β) (s : Builder) :
    (m >>= f) s = f (m s).1 (m s).2 := rfl

@[simp] theorem map_apply (f : α → β) (m : Build α) (s : Builder) :
    (f <$> m) s = (f (m s).1, (m s).2) := rfl

@[simp] theorem newReg_apply (s : Builder) :
    newReg s = (⟨s.func.numRegs⟩, { s with func := s.func.newReg.1 }) := rfl

@[simp] theorem newBlock_apply (s : Builder) :
    newBlock s = (⟨s.func.blocks.size⟩, { s with func := s.func.newBlock.1 }) := rfl

@[simp] theorem emit_apply (b : BlockId) (x : Instr) (s : Builder) :
    emit b x s = ((), { s with func := s.func.append b x }) := rfl

@[simp] theorem replace_apply (b : BlockId) (i : Nat) (x : Instr) (s : Builder) :
    replace b i x s = ((), { s with func := s.func.replace b i x }) := rfl

@[simp] theorem length_apply (b : BlockId) (s : Builder) :
    length b s = ((s.func.code b).length, s) := by
  show (((s.func.block? b).map (·.code.size)).getD 0, s) = _
  unfold Func.code
  cases s.func.block? b <;> simp

@[simp] theorem terminated_apply (b : BlockId) (s : Builder) :
    terminated b s = (endsBlock (s.func.code b), s) := by
  show (((s.func.block? b).map Block.terminated).getD false, s) = _
  unfold Func.code
  cases s.func.block? b <;> simp [Func.terminated_eq_endsBlock]

@[simp] theorem lookup_apply (name : String) (s : Builder) :
    lookup name s = ((resolve name s.func s.names s.enclosing).1,
      { s with func := (resolve name s.func s.names s.enclosing).2.1
               enclosing := (resolve name s.func s.names s.enclosing).2.2 }) := rfl

@[simp] theorem bind_name_apply (name : String) (r : Reg) (s : Builder) :
    Build.bind name r s = ((), { s with names := s.names.bind name r }) := rfl

@[simp] theorem names_apply (s : Builder) : names s = (s.names, s) := rfl

@[simp] theorem isolated_apply (m : Build α) (s : Builder) :
    isolated m s = (((m s).1, (m s).2.names), { (m s).2 with names := s.names }) := rfl

@[simp] theorem inClosure_apply (s : Builder) : inClosure s = (!s.enclosing.isEmpty, s) := rfl

@[simp] theorem complain_apply (pos : Position) (c : Complaint) (s : Builder) :
    complain pos c s = ((), { s with diags := s.diags ++ [⟨pos, c⟩] }) := rfl

@[simp] theorem function_apply (f : Func) (m : Build Unit) (s : Builder) :
    function f m s = ((), { (m { s with func := f, names := [], enclosing := [] }).2 with
      program := (m { s with func := f, names := [], enclosing := [] }).2.program.add
        (m { s with func := f, names := [], enclosing := [] }).2.func
      func := s.func, names := s.names, enclosing := s.enclosing }) := rfl

/-- Whatever the state, a step adds to it, and of the code that is there only to the blocks in
`S`. -/
def Adds (S : Set BlockId) (m : Build α) : Prop := ∀ s, Builder.Grows S s (m s).2

variable {S T : Set BlockId} {m : Build α} {f : α → Build β}

theorem Adds.mono (h : Adds S m) (hS : S ⊆ T) : Adds T m := fun s => (h s).mono hS

theorem Adds.of_empty (h : Adds ∅ m) : Adds S m := h.mono (Set.empty_subset S)

@[grind .] theorem Adds.bind (hm : Adds S m) (hf : ∀ a, Adds S (f a)) : Adds S (m >>= f) := fun s =>
  (hm s).trans (hf _ _) fun _ hc _ => hc

@[grind .] theorem adds_pure (a : α) : Adds S (pure a) := fun s => .refl S s

theorem adds_ite {c : Prop} [Decidable c] {m₁ m₂ : Build α} (h₁ : Adds S m₁) (h₂ : Adds S m₂) :
    Adds S (if c then m₁ else m₂) := by
  split <;> assumption

@[grind .] theorem adds_newReg : Adds S newReg := fun s =>
  ⟨(Func.extends_newReg s.func).mono (Set.empty_subset S), .refl _ _, List.prefix_rfl⟩

@[grind .] theorem adds_emit (b : BlockId) (x : Instr) (hb : b ∈ S) : Adds S (emit b x) := fun s =>
  ⟨(Func.extends_append s.func b x).mono (Set.singleton_subset_iff.mpr hb), .refl _ _,
    List.prefix_rfl⟩

@[grind .]
theorem adds_emitAll (b : BlockId) (xs : List Instr) (hb : b ∈ S) : Adds S (emitAll b xs) := by
  induction xs with
  | nil => exact adds_pure ()
  | cons x xs ih => exact (adds_emit b x hb).bind fun _ => ih

@[grind .] theorem adds_length (b : BlockId) : Adds S (length b) := fun s => by
  rw [length_apply]; exact .refl S s

@[grind .] theorem adds_terminated (b : BlockId) : Adds S (terminated b) := fun s => by
  rw [terminated_apply]; exact .refl S s

@[grind .] theorem adds_lookup (name : String) : Adds S (lookup name) := fun s =>
  have h := resolve_grows name s.func s.names s.enclosing
  ⟨h.1.mono (Set.empty_subset S), h.2.2, List.prefix_rfl⟩

@[grind .] theorem adds_bind_name (name : String) (r : Reg) : Adds S (Build.bind name r) := fun s =>
  (Builder.Grows.refl S s).of_eq rfl rfl rfl

@[grind .] theorem adds_names : Adds S names := fun s => .refl S s

@[grind .]
theorem adds_isolated (h : Adds S m) : Adds S (isolated m) := fun s => (h s).of_eq rfl rfl rfl

@[grind .] theorem adds_inClosure : Adds S inClosure := fun s => .refl S s

@[grind .]
theorem adds_complain (pos : Position) (c : Complaint) : Adds S (complain pos c) := fun s =>
  ⟨.refl S s.func, .refl _ _, List.prefix_append _ _⟩

@[grind .] theorem adds_newRegs (ns : List String) : Adds S (newRegs ns) := by
  induction ns with
  | nil => exact adds_pure []
  | cons _ ns ih => exact adds_newReg.bind fun _ => ih.bind fun _ => adds_pure _

@[grind .] theorem adds_bindAll (ns : List String) (rs : List Reg) : Adds S (bindAll ns rs) := by
  induction ns generalizing rs with
  | nil => exact adds_pure ()
  | cons n ns ih =>
    cases rs with
    | nil => exact adds_pure ()
    | cons r rs => exact (adds_bind_name n r).bind fun _ => ih rs

@[grind .] theorem adds_load {b : BlockId} (hb : b ∈ S) (v : Value) : Adds S (load b v) :=
  adds_newReg.bind fun _ => (adds_emit b _ hb).bind fun _ => adds_pure _

@[grind .]
theorem adds_orNull {b : BlockId} (hb : b ∈ S) (r : Option Reg) : Adds S (orNull b r) := by
  cases r with
  | some r => exact adds_pure r
  | none => exact adds_load hb .null

@[grind .]
theorem adds_produce {b : BlockId} (hb : b ∈ S) (x : Reg → Instr) : Adds S (produce b x) :=
  adds_newReg.bind fun _ => (adds_emit b _ hb).bind fun _ => adds_pure _

@[grind .] theorem adds_lookupOutside (name : String) : Adds S (lookupOutside name) := by
  intro s
  unfold lookupOutside
  rcases h : s.enclosing with _ | ⟨e, es⟩
  · simp only [modifyGet, MonadStateOf.modifyGet, StateT.modifyGet, h]
    exact .refl S s
  · have hr := resolve_grows name s.func e.outer es
    simp only [modifyGet, MonadStateOf.modifyGet, StateT.modifyGet, h]
    exact ⟨hr.1.mono (Set.empty_subset S), h ▸ .cons (.refl _ e) hr.2.2, List.prefix_rfl⟩

theorem capture_apply (name : String) (v : Value) (s : Builder) :
    capture name v s = ((), { s with
      func := s.func.newReg.1
      enclosing := match s.enclosing with
        | [] => []
        | e :: es => e.capture name v ⟨s.func.numRegs⟩ :: es }) := by
  rcases s with ⟨p, f, ns, _ | ⟨e, es⟩, ds⟩ <;> rfl

@[grind .] theorem adds_capture (name : String) (v : Value) : Adds S (capture name v) := by
  intro s
  rw [capture_apply]
  refine ⟨(Func.extends_newReg s.func).mono (Set.empty_subset S), ?_, List.prefix_rfl⟩
  rcases s.enclosing with _ | ⟨e, es⟩
  · exact .nil
  · exact .cons (e.grows_capture name v (le_refl _)) (Enclosing.Grow.refl _ es)

/-- A closure is left as it was entered, but for what it captured. -/
theorem enclosed_apply (h : Adds S m) (s : Builder) :
    ∃ e es, (m s.enclose).2.enclosing = e :: es ∧ e.outer = s.names ∧
      Enclosing.Grow s.func.numRegs s.enclosing es ∧
      enclosed m s = (((m s.enclose).1, e.captures),
        { (m s.enclose).2 with names := s.names, enclosing := es }) := by
  have hg := (h s.enclose).enclosing
  rcases ht : (m s.enclose).2.enclosing with _ | ⟨e, es⟩
  · rw [ht] at hg
    cases hg
  · rw [ht] at hg
    cases hg with
    | cons he hes =>
      refine ⟨e, es, rfl, he.outer, hes, ?_⟩
      show (match (m s.enclose).2.enclosing with
        | [] => (((m s.enclose).1, []), (m s.enclose).2)
        | e :: es => (((m s.enclose).1, e.captures),
          { (m s.enclose).2 with names := e.outer, enclosing := es })) = _
      rw [ht]
      simp only [he.outer]

@[grind .] theorem adds_enclosed (h : Adds S m) : Adds S (enclosed m) := by
  intro s
  obtain ⟨e, es, -, -, hes, heq⟩ := enclosed_apply h s
  have hg := h s.enclose
  rw [heq]
  exact ⟨hg.func, hes, hg.diags⟩

/-- A step that works in a block of its own adds nothing to the others. -/
theorem adds_newBlock_bind {f : BlockId → Build β} (h : ∀ c, Adds (insert c S) (f c)) :
    Adds S (newBlock >>= f) := by
  intro s
  have hb : Builder.Grows S s (newBlock s).2 :=
    ⟨(Func.extends_newBlock s.func).mono (Set.empty_subset S), .refl _ _, List.prefix_rfl⟩
  refine hb.trans (h _ _) ?_
  rintro c (rfl | hc) hs
  · exact absurd hs.2 (by simp)
  · exact hc

/-- Another function is built apart from the one at hand; only its diagnostics are added. -/
@[grind .]
theorem adds_function (f : Func) {m : Build Unit} (h : Adds T m) : Adds S (function f m) :=
  fun s => ⟨.refl S s.func, .refl _ _, (h { s with func := f, names := [], enclosing := [] }).diags⟩

end Build

end ScriptMachine
