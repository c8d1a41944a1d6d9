import ScriptMachine.Proofs.Lowering.Growth
import ScriptMachine.Proofs.Lowering.Shape

/-!
# Steps that lay out code

`Build.Shaped` is a law of steps that work at the end of a block `b`: what they add to `b`, and the
blocks they make, have a shape in every finished function `g` that agrees with the state they leave.

1. `Situation` is what holds of a state between two steps: the names at hand stand for registers that
   are set, and each closure around the code captures from the scope outside of it (`ScopeOk`).
2. Registers that the closure at hand captures are set in all of its code, so a law starts from
   registers that contain all captures, also those that are made later.
3. `Shaped.bind` chains laws, and each primitive step has one. That the second step only adds to what
   the first one left is known beforehand (`Adds`).
-/

namespace ScriptMachine

/-! ## Scopes -/

/-- The registers that the innermost closure captures. -/
def capturedRegs : List Enclosure → Set Reg
  | [] => ∅
  | e :: _ => {r | ∃ c ∈ e.captures, c.reg = r}

/-- The registers that names can stand for: those at hand, and those captured. -/
def visibleRegs (names : Names) (es : List Enclosure) : Set Reg :=
  {r | ∃ p ∈ names, p.2 = r} ∪ capturedRegs es

/-- Each closure captures what is visible where it is created, in registers below `n`, and names
that it takes from outside stand for such registers. -/
def ScopeOk (n : Int) : List Enclosure → Prop
  | [] => True
  | e :: es => (∀ p ∈ e.bound, p.2 ∈ capturedRegs (e :: es)) ∧
      (∀ c ∈ e.captures, (0 ≤ c.reg.index ∧ c.reg.index < n) ∧
        Ready (visibleRegs e.outer es) c.value) ∧ ScopeOk n es

variable {es es' : List Enclosure}

theorem capturedRegs_mono {n : Int} (h : Enclosing.Grow n es es') :
    capturedRegs es ⊆ capturedRegs es' := by
  cases h with
  | nil => exact subset_rfl
  | cons he _ =>
    rintro r ⟨c, hc, rfl⟩
    exact ⟨c, he.captures.subset hc, rfl⟩

theorem visibleRegs_mono (names : Names) {n : Int}
    (h : Enclosing.Grow n es es') : visibleRegs names es ⊆ visibleRegs names es' :=
  Set.union_subset_union_right _ (capturedRegs_mono h)

theorem ScopeOk.mono {n m : Int} (h : n ≤ m) (hes : ScopeOk n es) : ScopeOk m es := by
  induction es with
  | nil => trivial
  | cons e es ih =>
    obtain ⟨hb, hc, hrest⟩ := hes
    exact ⟨hb, fun c hc' => ⟨⟨(hc c hc').1.1, lt_of_lt_of_le (hc c hc').1.2 h⟩, (hc c hc').2⟩,
      ih hrest⟩

theorem ScopeOk.cons_grow {n m : Int} {e : Enclosure} (h : ScopeOk n (e :: es))
    (hg : Enclosing.Grow m es es') (hes' : ScopeOk n es') : ScopeOk n (e :: es') :=
  ⟨h.1, fun c hc => ⟨(h.2.1 c hc).1, (h.2.1 c hc).2.mono (visibleRegs_mono _ hg)⟩, hes'⟩

/-- Capturing what is visible outside keeps scopes in order. -/
theorem ScopeOk.capture {n : Int} {e : Enclosure} (h : ScopeOk n (e :: es))
    (name : String) {v : Value} {r : Reg} (hr : 0 ≤ r.index ∧ r.index < n)
    (hv : Ready (visibleRegs e.outer es) v) : ScopeOk n (e.capture name v r :: es) := by
  refine ⟨?_, ?_, h.2.2⟩
  · intro p hp
    rcases Names.mem_bind hp with rfl | hp
    · exact ⟨⟨v, r⟩, List.mem_append_right _ List.mem_cons_self, rfl⟩
    · exact capturedRegs_mono (.cons (e.grows_capture name v (le_refl _)) (Enclosing.Grow.refl _ es))
        (h.1 p hp)
  · intro c hc
    rcases List.mem_append.mp hc with hc | hc
    · exact h.2.1 c hc
    · rw [List.mem_singleton.mp hc]
      exact ⟨hr, hv⟩

/-- A name stands for a visible register, and looking it up keeps scopes in order. -/
theorem resolve_scope (name : String) {f : Func} (hf : 0 ≤ f.numRegs) (names : Names)
    (hes : ScopeOk f.numRegs es) :
    ScopeOk (resolve name f names es).2.1.numRegs (resolve name f names es).2.2 ∧
      ∀ r, (resolve name f names es).1 = some r →
        r ∈ visibleRegs names (resolve name f names es).2.2 := by
  induction es generalizing names with
  | nil => exact ⟨trivial, fun r hr => .inl ⟨_, Names.mem_of_get? hr, rfl⟩⟩
  | cons e es ih =>
    unfold resolve
    split
    · rename_i r heq
      refine ⟨hes, fun q hq => ?_⟩
      obtain rfl : r = q := Option.some.inj hq
      rcases Option.or_eq_some_iff.mp heq with h | ⟨-, h⟩
      · exact .inl ⟨_, Names.mem_of_get? h, rfl⟩
      · exact .inr (hes.1 _ (Names.mem_of_get? h))
    · obtain ⟨hok, hvis⟩ := ih e.outer hes.2.2
      have hg := resolve_grows name f e.outer es
      split
      · rename_i f' es' heq
        rw [heq] at hok hg
        exact ⟨(hes.mono hg.1.numRegs).cons_grow hg.2.2 hok, fun q hq => by cases hq⟩
      · rename_i outer f' es' heq
        rw [heq] at hok hvis hg
        have hle : f.numRegs ≤ f'.numRegs := hg.1.numRegs
        have hstep : f'.numRegs ≤ f'.newReg.1.numRegs := (Func.extends_newReg f').numRegs
        have hhere : ScopeOk f'.newReg.1.numRegs (e :: es') :=
          ((hes.mono hle).cons_grow hg.2.2 hok).mono hstep
        refine ⟨hhere.capture name ⟨?_, ?_⟩ (hvis outer rfl), ?_⟩
        · exact le_trans hf hle
        · show f'.numRegs < f'.numRegs + 1
          omega
        · intro q hq
          obtain rfl : (⟨f'.numRegs⟩ : Reg) = q := Option.some.inj hq
          exact .inr ⟨⟨.reg outer, _⟩, List.mem_append_right _ List.mem_cons_self, rfl⟩

/-! ## Situations -/

/-- What holds of a state between two steps in place `k`, where the registers `D` are set. -/
structure Around (k : Context) (s : Builder) (D : Set Reg) : Prop where
  numRegs : 0 ≤ s.func.numRegs
  closure : s.enclosing.isEmpty = !k.closure
  scope : ScopeOk s.func.numRegs s.enclosing
  names : ∀ p ∈ s.names, p.2 ∈ D

/-- What holds between two steps that work at the end of block `b`, where the flow is `e`. -/
structure Situation (k : Context) (b : BlockId) (s : Builder) (D : Set Reg) (e : Flow) : Prop
    extends Around k s D where
  has : s.func.Has b
  live : e = .live → endsBlock (s.func.code b) = false
  ended : e = .ended → endsBlock (s.func.code b) = true

/-- The point at the end of block `b`. -/
def Builder.point (s : Builder) (b : BlockId) (D : Set Reg) (e : Flow) : Point :=
  ⟨(s.func.code b).length, s.func.blocks.size, D, e⟩

/-- The finished function `g` has what was added between `s` and `t`: the code, which may go on, and
the blocks that were made, which are finished but for those in `O`. -/
structure Agrees (g : Func) (O : Set BlockId) (s t : Builder) : Prop where
  numRegs : t.func.numRegs ≤ g.numRegs
  size : t.func.blocks.size ≤ g.blocks.size
  code : ∀ c i x, (s.func.code c).length ≤ i → (t.func.code c)[i]? = some x →
    (g.code c)[i]? = some x
  finished : ∀ c, ¬ s.func.Has c → t.func.Has c → c ∉ O → g.code c = t.func.code c

namespace Agrees

variable {g : Func} {O S : Set BlockId} {s t u : Builder}

theorem has (h : Agrees g O s t) {c : BlockId} (hc : t.func.Has c) : g.Has c :=
  ⟨hc.1, lt_of_lt_of_le hc.2 (by exact_mod_cast h.size)⟩

theorem inRange (h : Agrees g O s t) {r : Reg} (hr : t.func.InRange r) : g.InRange r :=
  ⟨hr.1, lt_of_lt_of_le hr.2 h.numRegs⟩

theorem mono {T : Set BlockId} (h : Agrees g O s t) (hO : O ⊆ T) : Agrees g T s t :=
  { h with finished := fun c hc ht hT => h.finished c hc ht fun hcO => hT (hO hcO) }

/-- The first part of what was added, if the second one changes only blocks that need not be
finished. -/
theorem left (h : Agrees g O s u) (h₂ : Builder.Grows S t u)
    (hS : ∀ c ∈ S, s.func.Has c ∨ c ∈ O) : Agrees g O s t where
  numRegs := le_trans h₂.func.numRegs h.numRegs
  size := le_trans h₂.func.size h.size
  code c i x hi hx := h.code c i x hi (h₂.func.getElem? hx)
  finished c hc ht hO := by
    have hcS : c ∉ S := fun hcS => (hS c hcS).elim hc hO
    rw [h.finished c hc (h₂.func.has ht) hO, h₂.func.kept c ht hcS]

theorem congr {s' t' : Builder} (h : Agrees g O s t) (hs : s'.func = s.func)
    (ht : t'.func = t.func) : Agrees g O s' t' := by
  obtain ⟨h₁, h₂, h₃, h₄⟩ := h
  exact ⟨ht ▸ h₁, ht ▸ h₂, hs ▸ ht ▸ h₃, hs ▸ ht ▸ h₄⟩

theorem right (h : Agrees g O s u) (h₁ : Builder.Grows S s t) : Agrees g O t u where
  numRegs := h.numRegs
  size := h.size
  code c i x hi hx := h.code c i x (le_trans (h₁.func.length_le c) hi) hx
  finished c hc hu hO := h.finished c (fun hs => hc (h₁.func.has hs)) hu hO

end Agrees

/-! ## The law -/

namespace Build

variable {α β : Type}

/-- What a step `m` does in state `s` at the end of block `b`, where the registers `D` are set and the
flow is `e`: it adds code with a shape, and `Q` holds of its result and of the registers and the flow
behind it. If `quiet`, no diagnostic is recorded. -/
def ShapedAt (g : Func) (k : Context) (quiet : Prop) (b : BlockId) (D : Set Reg) (e : Flow)
    (m : Build α) (Q : α → Set Reg → Flow → Prop) (s : Builder) : Prop :=
  Situation k b s D e → capturedRegs (m s).2.enclosing ⊆ D → Agrees g ∅ s (m s).2 →
    (quiet → (m s).2.diags = s.diags) →
    ∃ D' e', D ⊆ D' ∧ Shape g k b (s.point b D e) ((m s).2.point b D' e') ∧
      Situation k b (m s).2 D' e' ∧ Q (m s).1 D' e'

/-- The law of a step, in all states. -/
def Shaped (g : Func) (k : Context) (quiet : Prop) (b : BlockId) (D : Set Reg) (e : Flow)
    (m : Build α) (Q : α → Set Reg → Flow → Prop) : Prop :=
  ∀ s, ShapedAt g k quiet b D e m Q s

section
variable {g : Func} {k : Context} {quiet : Prop} {b : BlockId} {D : Set Reg} {e : Flow}
  {m : Build α} {Q Q' : α → Set Reg → Flow → Prop}

theorem Shaped.post (h : Shaped g k quiet b D e m Q) (hQ : ∀ a D' e', Q a D' e' → Q' a D' e') :
    Shaped g k quiet b D e m Q' := by
  intro s hs hc ha hd
  obtain ⟨D', e', hD, hsh, hs', hq⟩ := h s hs hc ha hd
  exact ⟨D', e', hD, hsh, hs', hQ _ _ _ hq⟩

theorem ShapedAt.bind {f : α → Build β} {R : β → Set Reg → Flow → Prop} {s : Builder}
    (ha : Adds {b} m ∧ ∀ a, Adds {b} (f a)) (hm : ShapedAt g k quiet b D e m Q s)
    (hf : ∀ D' e', D ⊆ D' → Q (m s).1 D' e' →
      ShapedAt g k quiet b D' e' (f (m s).1) R (m s).2) :
    ShapedAt g k quiet b D e (m >>= f) R s := by
  obtain ⟨am, af⟩ := ha
  intro hs hc ha hd
  have hg₁ := am s
  have hg₂ := af (m s).1 (m s).2
  rw [bind_apply] at hc ha hd ⊢
  obtain ⟨D₁, e₁, hD₁, hsh₁, hs₁, hQ⟩ := hm hs ((capturedRegs_mono hg₂.enclosing).trans hc)
    (ha.left hg₂ fun c hcb => .inl (hcb ▸ hs.has)) fun hq => (hg₁.quiet hg₂ (hd hq)).1
  obtain ⟨D₂, e₂, hD₂, hsh₂, hs₂, hR⟩ := hf D₁ e₁ hD₁ hQ hs₁ (hc.trans hD₁) (ha.right hg₁)
    fun hq => (hg₁.quiet hg₂ (hd hq)).2
  exact ⟨D₂, e₂, hD₁.trans hD₂, hsh₁.trans hsh₂, hs₂, hR⟩

theorem Shaped.bind {f : α → Build β} {R : β → Set Reg → Flow → Prop}
    (ha : Adds {b} m ∧ ∀ a, Adds {b} (f a)) (hm : Shaped g k quiet b D e m Q)
    (hf : ∀ a D' e', D ⊆ D' → Q a D' e' → Shaped g k quiet b D' e' (f a) R) :
    Shaped g k quiet b D e (m >>= f) R := fun s =>
  (hm s).bind ha fun D' e' hD hQ => hf _ D' e' hD hQ _

theorem Shaped.of_still
    (h : ∀ s, Situation k b s D e → capturedRegs (m s).2.enclosing ⊆ D → Agrees g ∅ s (m s).2 →
      (quiet → (m s).2.diags = s.diags) →
      (m s).2.func.code b = s.func.code b ∧ (m s).2.func.blocks.size = s.func.blocks.size ∧
        Situation k b (m s).2 D e ∧ Q (m s).1 D e) :
    Shaped g k quiet b D e m Q := by
  intro s hs hc ha hd
  obtain ⟨hcode, hsize, hs', hq⟩ := h s hs hc ha hd
  refine ⟨D, e, subset_rfl, ?_, hs', hq⟩
  rw [Builder.point, Builder.point, hcode, hsize]
  exact .refl _

/-! ## Steps without code -/

theorem shaped_pure {a : α} (h : Q a D e) : Shaped g k quiet b D e (pure a) Q :=
  .of_still fun _ hs _ _ _ => ⟨rfl, rfl, hs, h⟩

theorem shaped_newReg : Shaped g k quiet b D e newReg fun r D' e' =>
    g.InRange r ∧ D' = D ∧ e' = e := by
  refine .of_still fun s hs _ ha _ => ⟨rfl, rfl, ?_, ?_, rfl, rfl⟩
  · exact { hs with
      numRegs := le_trans hs.numRegs (Func.extends_newReg s.func).numRegs
      scope := hs.scope.mono (Func.extends_newReg s.func).numRegs }
  · refine ha.inRange ⟨hs.numRegs, ?_⟩
    simp only [newReg_apply, Func.newReg_numRegs]
    omega

theorem shaped_terminated : Shaped g k quiet b D e (terminated b) fun t D' e' =>
    (t = true → e ≠ .live) ∧ (t = false → e ≠ .ended) ∧ D' = D ∧ e' = e := by
  refine .of_still fun s hs _ _ _ => ?_
  rw [terminated_apply]
  refine ⟨rfl, rfl, hs, fun h he => ?_, fun h he => ?_, rfl, rfl⟩
  · simp [hs.live he] at h
  · simp [hs.ended he] at h

theorem shaped_inClosure : Shaped g k quiet b D e inClosure fun t D' e' =>
    t = k.closure ∧ D' = D ∧ e' = e := by
  refine .of_still fun s hs _ _ _ => ⟨rfl, rfl, hs, ?_, rfl, rfl⟩
  rw [inClosure_apply, hs.closure, Bool.not_not]

theorem shaped_complain (pos : Position) (c : Complaint) :
    Shaped g k quiet b D e (complain pos c) fun _ D' e' => ¬ quiet ∧ D' = D ∧ e' = e := by
  refine .of_still fun s hs _ _ hd => ⟨rfl, rfl, { hs with }, fun hq => ?_, rfl, rfl⟩
  have := hd hq
  simp at this

theorem shaped_bind_name (name : String) {r : Reg} (hr : r ∈ D) :
    Shaped g k quiet b D e (Build.bind name r) fun _ D' e' => D' = D ∧ e' = e := by
  refine .of_still fun s hs _ _ _ => ⟨rfl, rfl, { hs with names := fun p hp => ?_ }, rfl, rfl⟩
  rcases Names.mem_bind hp with rfl | hp
  · exact hr
  · exact hs.names p hp

theorem isEmpty_of_grow {n : Int} {es es' : List Enclosure} (h : Enclosing.Grow n es es') :
    es'.isEmpty = es.isEmpty := by
  cases h <;> rfl

theorem shaped_lookup (name : String) : Shaped g k quiet b D e (lookup name) fun r D' e' =>
    Ready D (operand r) ∧ D' = D ∧ e' = e := by
  refine .of_still fun s hs hc _ _ => ?_
  obtain ⟨hf, hb, hes⟩ := resolve_grows name s.func s.names s.enclosing
  obtain ⟨hok, hvis⟩ := resolve_scope name hs.numRegs s.names hs.scope
  rw [lookup_apply] at hc ⊢
  have hcode := Func.code_congr hb
  refine ⟨hcode b, by simp only [hb], ?_, ?_, rfl, rfl⟩
  · exact {
      has := hf.has hs.has
      numRegs := le_trans hs.numRegs hf.numRegs
      closure := (isEmpty_of_grow hes).trans hs.closure
      scope := hok
      names := hs.names
      live := fun he => by rw [hcode, hs.live he]
      ended := fun he => by rw [hcode, hs.ended he] }
  · rcases h : (resolve name s.func s.names s.enclosing).1 with _ | r
    · trivial
    · rcases hvis r h with ⟨p, hp, rfl⟩ | hr
      · exact hs.names p hp
      · exact hc hr

theorem shaped_function (f : Func) (m : Build Unit) :
    Shaped g k quiet b D e (function f m) fun _ D' e' => D' = D ∧ e' = e :=
  .of_still fun _ hs _ _ _ => ⟨rfl, rfl, { hs with }, rfl, rfl⟩

/-! ## Steps that append -/

theorem situation_emit {s : Builder} {D' : Set Reg} {e' : Flow} (hs : Situation k b s D e)
    (x : Instr) (hD : D ⊆ D') (hl : e' = .live → x.isTerminator = false)
    (he : e' = .ended → x.isTerminator = true) : Situation k b (Build.emit b x s).2 D' e' where
  has := (Func.append_has s.func b b x).mpr hs.has
  numRegs := by simpa using hs.numRegs
  closure := hs.closure
  scope := by simpa using hs.scope
  names p hp := hD (hs.names p hp)
  live h := by rw [emit_apply, Func.append_code_self hs.has, endsBlock_append, hl h]
  ended h := by rw [emit_apply, Func.append_code_self hs.has, endsBlock_append, he h]

theorem getElem?_of_agrees_emit {s : Builder} {O : Set BlockId} (hb : s.func.Has b) {x : Instr}
    (ha : Agrees g O s (emit b x s).2) : (g.code b)[(s.func.code b).length]? = some x := by
  refine ha.code b _ x (le_refl _) ?_
  rw [emit_apply, Func.append_code_self hb]
  exact List.getElem?_concat_length

theorem point_emit {s : Builder} (hb : s.func.Has b) (x : Instr) (D' : Set Reg) (e' : Flow) :
    (emit b x s).2.point b D' e' =
      ⟨(s.func.code b).length + 1, s.func.blocks.size, D', e'⟩ := by
  simp [Builder.point, Func.append_code_self hb]

theorem shaped_emit {x : Instr} (hp : x.Plain) (hin : ∀ v ∈ x.ins, Ready D v)
    (hout : g.InRange x.out) : Shaped g k quiet b D e (emit b x) fun _ D' e' =>
      D' = insert x.out D ∧ e' = e.next := by
  intro s hs _ ha _
  have hx := getElem?_of_agrees_emit hs.has ha
  have hD : D ⊆ insert x.out D := Set.subset_insert _ _
  refine ⟨insert x.out D, e.next, hD, ?_, situation_emit hs x hD (fun _ => hp.not_terminator) ?_, rfl, rfl⟩
  · rw [point_emit hs.has]
    exact .plain hx hp hin hout (.refl _)
  · exact fun h => absurd h (Flow.next_ne_ended e)

theorem shaped_emit_leave (how : Terminator) {v : Value} (hk : k.Allows how) (hv : Ready D v) :
    Shaped g k quiet b D e (emit b (.leave how v)) fun _ D' e' => D' = D ∧ e' = e.finish := by
  intro s hs _ ha _
  have hx := getElem?_of_agrees_emit hs.has ha
  refine ⟨D, e.finish, subset_rfl, ?_, situation_emit hs _ subset_rfl ?_ (fun _ => rfl), rfl, rfl⟩
  · rw [point_emit hs.has]
    exact .leave hx hk hv (.refl _)
  · exact fun h => absurd h (Flow.finish_ne_live e)

theorem shaped_load (v : Value) (hv : Ready D v) :
    Shaped g k quiet b D e (load b v) fun r D' e' => r ∈ D' ∧ e' = e.next := by
  refine shaped_newReg.bind (by grind) ?_
  rintro r D₁ e₁ - ⟨hr, rfl, rfl⟩
  refine (shaped_emit (x := .load r v) trivial (by simpa [Instr.ins] using hv) hr).bind (by grind) ?_
  rintro _ D₂ e₂ - ⟨rfl, rfl⟩
  exact shaped_pure ⟨Set.mem_insert _ _, rfl⟩

theorem shaped_orNull {r : Option Reg} (hr : Ready D (operand r)) :
    Shaped g k quiet b D e (orNull b r) fun q D' e' =>
      q ∈ D' ∧ e' = if r.isSome then e else e.next := by
  cases r with
  | some r => exact shaped_pure ⟨hr, rfl⟩
  | none => exact shaped_load .null trivial

/-- A plain instruction with a new register for its result. -/
theorem shaped_produce {x : Reg → Instr} (hp : ∀ r, (x r).Plain) (ho : ∀ r, (x r).out = r)
    (hin : ∀ r, ∀ v ∈ (x r).ins, Ready D v) :
    Shaped g k quiet b D e (produce b x) fun r D' e' => Ready D' (operand r) ∧ e' = e.next := by
  refine shaped_newReg.bind (by grind) ?_
  rintro r D₁ e₁ - ⟨hr, rfl, rfl⟩
  refine (shaped_emit (hp r) (hin r) ((ho r).symm ▸ hr)).bind (by grind) ?_
  rintro _ D₂ e₂ - ⟨rfl, rfl⟩
  exact shaped_pure ⟨by rw [ho]; exact Set.mem_insert _ _, rfl⟩

end

end Build

end ScriptMachine
