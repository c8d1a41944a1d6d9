import ScriptMachine.Proofs.Lowering.NodeGrowth
import ScriptMachine.Proofs.Lowering.Shaped
import ScriptMachine.Proofs.Lowering.TreeFlow

/-!
# The shape of operators and calls

The laws of the steps that lower one construct, given the laws of the steps for its parts.
`Lowers … m f` is the law of a step that lowers a part whose tree has the flow `f`; its result, if
any, is in a register that is set. `LowersAll … m p` is the law of arguments, where `p` says that
control gets through all of them.
-/

namespace ScriptMachine

namespace Build

variable {g : Func} {k : Context} {quiet : Prop} {b : BlockId} {D : Set Reg} {e f : Flow}

/-- The law of a step that lowers a tree of flow `f`. -/
def Lowers (g : Func) (k : Context) (quiet : Prop) (b : BlockId) (D : Set Reg) (e : Flow)
    (m : Build (Option Reg)) (f : Flow) : Prop :=
  Shaped g k quiet b D e m fun r D' e' => Ready D' (operand r) ∧ Flow.Follows quiet f e r e'

/-- The law of a step that lowers arguments. -/
def LowersAll (g : Func) (k : Context) (quiet : Prop) (b : BlockId) (D : Set Reg) (e : Flow)
    (m : Build (List Value)) (p : Prop) : Prop :=
  Shaped g k quiet b D e m fun vs D' e' => (∀ v ∈ vs, Ready D' v) ∧ Flow.Lives quiet p e e'

end Build

namespace Lowering

open Build

variable {g : Func} {k : Context} {quiet : Prop} {b : BlockId} {D : Set Reg} {e f : Flow}
  {value : Build (Option Reg)} {v : Value}

/-! ## Leaves -/

theorem ready_of_numberValue? {text : String} (h : numberValue? text = some v) : Ready D v := by
  simp only [numberValue?, Option.orElse_eq_orElse, Option.orElse_eq_or, Option.or_eq_some_iff,
    Option.map_eq_some_iff] at h
  rcases h with ⟨_, _, rfl⟩ | ⟨-, ⟨_, _, rfl⟩ | ⟨-, _, _, rfl⟩⟩ <;> trivial

theorem shaped_number (pos : Position) (text : String) :
    Shaped g k quiet b D e (number pos text) fun v D' e' => Ready D v ∧ D' = D ∧ e' = e := by
  unfold number
  split
  · rename_i v h
    exact shaped_pure ⟨ready_of_numberValue? h, rfl, rfl⟩
  · refine (shaped_complain pos _).bind (by grind) ?_
    rintro _ D₁ e₁ - ⟨-, rfl, rfl⟩
    exact shaped_pure ⟨trivial, rfl, rfl⟩

theorem shaped_constant (hv : Ready D v) :
    Shaped g k quiet b D e (constant b v) fun r D' e' => Ready D' (operand r) ∧ e' = e.next := by
  refine (shaped_load v hv).bind (by grind) ?_
  rintro r D₁ e₁ - ⟨hr, rfl⟩
  exact shaped_pure ⟨hr, rfl⟩

theorem lowers_constant (hv : Ready D v) : Lowers g k quiet b D e (constant b v) .live :=
  (shaped_constant hv).post fun r _ _ h => ⟨h.1, h.2 ▸ Flow.follows_next quiet e r⟩

theorem lowers_number (pos : Position) (text : String) :
    Lowers g k quiet b D e (number pos text >>= constant b) .live := by
  refine (shaped_number pos text).bind (by grind) ?_
  rintro v D₁ e₁ - ⟨hv, rfl, rfl⟩
  exact lowers_constant hv

theorem shaped_degrade (pos : Position) (c : Complaint) :
    Shaped g k quiet b D e (degrade b pos c) fun r D' e' =>
      ¬ quiet ∧ Ready D' (operand r) ∧ e' = e.next := by
  refine (shaped_complain pos c).bind (by grind) ?_
  rintro _ D₁ e₁ - ⟨hq, rfl, rfl⟩
  exact (shaped_constant (v := .null) trivial).post fun _ _ _ h => ⟨hq, h⟩

theorem lowers_degrade (pos : Position) (c : Complaint) :
    Lowers g k quiet b D e (degrade b pos c) .live :=
  (shaped_degrade pos c).post fun r _ _ h => ⟨h.2.1, h.2.2 ▸ Flow.follows_next quiet e r⟩

/-- A complaint in the place of code of which some may be lowered. -/
theorem lowers_degrade_of_lives (pos : Position) (c : Complaint) {e₀ : Flow} {p q : Prop}
    [Decidable q] (h : Flow.Lives quiet p e₀ e) (hqp : q → p) :
    Shaped g k quiet b D e (degrade b pos c) fun r D' e' =>
      Ready D' (operand r) ∧ Flow.Follows quiet (.ofLive q) e₀ r e' := by
  refine (shaped_degrade pos c).post ?_
  rintro r D' e' ⟨hq, hr, rfl⟩
  exact ⟨hr, (h.of_not_quiet hq hqp).follows_next r⟩

theorem lowers_word (name : String) : Lowers g k quiet b D e (word b name) .live := by
  refine (shaped_lookup name).bind (by grind) ?_
  rintro r D₁ e₁ - ⟨hr, rfl, rfl⟩
  cases r with
  | some r =>
    refine shaped_pure ⟨hr, { Flow.Persists.refl e₁ with exact := fun he _ => he, silent := ?_ }⟩
    rintro rfl ⟨⟩
  | none => exact lowers_constant trivial

/-! ## The ends of blocks -/

theorem shaped_leave (hv : Ready D v) :
    Shaped g k quiet b D e (leave b v) fun _ D' e' => D' = D ∧ e' = e.finish := by
  refine shaped_inClosure.bind (by grind) ?_
  rintro t D₁ e₁ - ⟨rfl, rfl, rfl⟩
  refine shaped_emit_leave _ ?_ hv
  cases h : k.closure <;> exact h

/-- A value that a terminator leaves the block with. -/
theorem lowers_exit (exit : Value → Build Unit) (ax : ∀ v, Adds {b} (exit v))
    (hx : ∀ {D e v}, Ready D v →
      Shaped g k quiet b D e (exit v) fun _ D' e' => D' = D ∧ e' = e.finish)
    (av : Adds {b} value) (hv : Lowers g k quiet b D e value f) :
    Lowers g k quiet b D e (value >>= fun r => exit (operand r) >>= fun _ => pure none) f.finish := by
  refine Shaped.bind (by grind) hv ?_
  rintro r D₁ e₁ - ⟨hr, hf⟩
  refine (hx hr).bind (by grind) ?_
  rintro _ D₂ e₂ - ⟨rfl, rfl⟩
  exact shaped_pure ⟨trivial, hf.finished⟩

/-- A block ends as one that has ended already, or with a terminator that is added. -/
theorem shaped_seal {m : Build Unit} (am : Adds {b} m)
    (hm : Shaped g k quiet b D e m fun _ D' e' => D' = D ∧ e' = e.finish) :
    Shaped g k quiet b D e (terminated b >>= fun t => if t then pure () else m) fun _ D' e' =>
      D' = D ∧ e' = e.sealed := by
  refine shaped_terminated.bind (by grind) ?_
  rintro t D₁ e₁ - ⟨ht, hf, rfl, rfl⟩
  cases t with
  | true =>
    refine shaped_pure ⟨rfl, ?_⟩
    have := ht rfl
    cases e₁ <;> simp_all [Flow.sealed]
  | false =>
    refine hm.post ?_
    rintro _ D' e' ⟨rfl, rfl⟩
    have := hf rfl
    cases e₁ <;> simp_all [Flow.sealed]

theorem shaped_sealBody {last : Option Reg} (hl : Ready D (operand last)) :
    Shaped g k quiet b D e (sealBody b last) fun _ D' e' => D' = D ∧ e' = e.sealed :=
  shaped_seal (by grind) (shaped_leave hl)

theorem shaped_sealNested {last : Option Reg} (hk : k.nested = true) (hl : Ready D (operand last)) :
    Shaped g k quiet b D e (sealNested b last) fun _ D' e' => D' = D ∧ e' = e.sealed :=
  shaped_seal (by grind) (shaped_emit_leave .yield hk hl)

/-! ## Commands and calls -/

/-- An instruction that uses all values that came before. -/
theorem shaped_use {x : Reg → Instr} (hp : ∀ r, (x r).Plain) (ho : ∀ r, (x r).out = r)
    (hin : ∀ r, ∀ v ∈ (x r).ins, Ready D v) {e₀ : Flow} {p : Prop} [Decidable p]
    (h : Flow.Lives quiet p e₀ e) :
    Shaped g k quiet b D e (produce b x) fun r D' e' =>
      Ready D' (operand r) ∧ Flow.Follows quiet (.ofLive p) e₀ r e' :=
  (shaped_produce hp ho hin).post fun r _ _ hr => ⟨hr.1, hr.2 ▸ h.follows_next r⟩

section
variable {args : Build (List Value)} {p : Prop} [Decidable p]

theorem lowers_issue (aa : Adds {b} args) (name : String) (words : List String)
    (ha : LowersAll g k quiet b D e args p) :
    Lowers g k quiet b D e (issue b name words args) (.ofLive p) := by
  refine Shaped.bind (by grind) ha ?_
  rintro vs D₁ e₁ - ⟨hvs, hl⟩
  refine shaped_use (x := (.command · name (words.map Value.string ++ vs))) (fun _ => trivial)
    (fun _ => rfl) (fun _ v hv => ?_) hl
  have hv : v ∈ words.map Value.string ++ vs := hv
  rcases List.mem_append.mp hv with hv | hv
  · obtain ⟨w, -, rfl⟩ := List.mem_map.mp hv
    exact trivial
  · exact hvs v hv

theorem lowers_command (aa : Adds {b} args) (pos : Position) (name line : String)
    (ha : LowersAll g k quiet b D e args p) :
    Lowers g k quiet b D e (command b pos name line args) (.ofLive p) := by
  unfold command
  split
  · exact lowers_issue aa name [] ha
  · split
    · exact lowers_degrade_of_lives pos _ (Flow.Lives.refl quiet e) fun _ => trivial
    · exact lowers_degrade_of_lives pos _ (Flow.Lives.refl quiet e) fun _ => trivial
    · split
      · exact lowers_issue aa _ _ ha
      · exact lowers_issue aa _ _ ha

/-- A call of what is in a register, behind code that leads from `e₀` to `e`. -/
theorem shaped_callHeld {callee : Reg} (aa : Adds {b} args) (hc : callee ∈ D)
    (ha : LowersAll g k quiet b D e args p) {e₀ : Flow} {q : Prop} [Decidable q]
    (hq : Flow.Lives quiet q e₀ e) :
    Shaped g k quiet b D e (callHeld b callee args) fun r D' e' =>
      Ready D' (operand r) ∧ Flow.Follows quiet (.ofLive (q ∧ p)) e₀ r e' := by
  refine Shaped.bind (by grind) ha ?_
  rintro vs D₁ e₁ hD ⟨hvs, hl⟩
  refine shaped_use (x := (.closureCall · callee vs)) (fun _ => trivial) (fun _ => rfl)
    (fun _ v hv => ?_) (hq.trans hl)
  rcases List.mem_cons.mp hv with rfl | hv
  · exact hD hc
  · exact hvs v hv

theorem lowers_callNamed (aa : Adds {b} args) (name : String)
    (ha : LowersAll g k quiet b D e args p) :
    Lowers g k quiet b D e (callNamed b name args) (.ofLive p) := by
  refine Shaped.bind (by grind) ha ?_
  rintro vs D₁ e₁ - ⟨hvs, hl⟩
  exact shaped_use (x := (.call · name vs)) (fun _ => trivial) (fun _ => rfl) (fun _ => hvs) hl

end

/-- A call. The arguments are lowered behind the callee, whatever the flow there. -/
theorem lowers_call {args : Build (List Value)} (hadd : Adds {b} value ∧ Adds {b} args)
    (pos : Position) {callee : Node} {p : Prop} [Decidable p]
    (hv : Lowers g k quiet b D e value callee.flow)
    (ha : ∀ D₁ e₁, LowersAll g k quiet b D₁ e₁ args p) :
    Lowers g k quiet b D e (call b pos callee value args)
      (.ofLive (callee.flow = .live ∧ p)) := by
  unfold call
  split
  · rename_i w name
    have hw : (Node.word w name).flow = .live := by simp [Node.flow]
    refine (shaped_lookup name).bind (by grind) ?_
    rintro r D₁ e₁ - ⟨hr, rfl, rfl⟩
    have hl := (Flow.Lives.refl quiet e₁).congr (iff_of_true trivial hw)
    cases r with
    | some r => exact shaped_callHeld hadd.2 hr (ha _ _) hl
    | none =>
      have := lowers_callNamed hadd.2 name (ha D₁ e₁)
      simpa [Lowers, hw] using this
  · refine Shaped.bind (by grind) hv ?_
    rintro r D₁ e₁ - ⟨hr, hf⟩
    cases r with
    | some r => exact shaped_callHeld hadd.2 hr (ha _ _) hf.lives
    | none => exact lowers_degrade_of_lives pos _ hf.lives And.left

/-! ## Assignments and operators -/

theorem lowers_assign (av : Adds {b} value) (name : String) (hv : Lowers g k quiet b D e value f) :
    Lowers g k quiet b D e (assign b name value) f.next := by
  refine Shaped.bind (by grind) hv ?_
  rintro r D₁ e₁ - ⟨hr, hf⟩
  refine (shaped_orNull hr).bind (by grind) ?_
  rintro q D₂ e₂ - ⟨hq, rfl⟩
  refine (shaped_bind_name name hq).bind (by grind) ?_
  rintro _ D₃ e₃ - ⟨rfl, rfl⟩
  exact shaped_pure ⟨hq, hf.assigned (some q)⟩

/-! ## Short circuits -/

section
variable {s : Builder} {xs : List Instr}

theorem emitAll_code_self (xs : List Instr) (h : s.func.Has b) :
    (emitAll b xs s).2.func.code b = s.func.code b ++ xs := by
  induction xs generalizing s with
  | nil => simp [emitAll]
  | cons x xs ih =>
    have hb : (emit b x s).2.func.Has b := (Func.append_has s.func b b x).mpr h
    rw [emitAll, bind_apply, ih hb, emit_apply, Func.append_code_self h, List.append_assoc]
    rfl

theorem emitAll_code_ne {c : BlockId} (h : c ≠ b) :
    (emitAll b xs s).2.func.code c = s.func.code c := by
  induction xs generalizing s with
  | nil => rfl
  | cons x xs ih => rw [emitAll, bind_apply, ih, emit_apply, Func.append_code_ne h]

theorem emitAll_fields : (emitAll b xs s).2.func.numRegs = s.func.numRegs ∧
    (emitAll b xs s).2.func.blocks.size = s.func.blocks.size ∧
    (emitAll b xs s).2.names = s.names ∧ (emitAll b xs s).2.enclosing = s.enclosing ∧
    (emitAll b xs s).2.diags = s.diags := by
  induction xs generalizing s with
  | nil => exact ⟨rfl, rfl, rfl, rfl, rfl⟩
  | cons x xs ih =>
    obtain ⟨h₁, h₂, h₃, h₄, h₅⟩ := @ih (emit b x s).2
    refine ⟨h₁.trans ?_, h₂.trans ?_, h₃, h₄, h₅⟩ <;> simp

end

theorem getElem?_replace_ne {f : Func} {c : BlockId} {i j : Nat} {x : Instr} (h : j ≠ i) :
    ((f.replace b i x).code c)[j]? = (f.code c)[j]? := by
  by_cases hc : c = b
  · subst hc
    rw [Func.replace_code_self, List.getElem?_set_ne (Ne.symm h)]
  · rw [Func.replace_code_ne hc]

theorem endsBlock_set {code : List Instr} {i : Nat} {x : Instr} (hx : x.isTerminator = false)
    (h : endsBlock code = false) : endsBlock (code.set i x) = false := by
  simp only [endsBlock, List.getLast?_eq_getElem?, List.length_set, List.getElem?_set] at h ⊢
  split
  · split
    · simpa using hx
    · rfl
  · exact h

section
variable {kind : Circuit} {left : Option Reg} {right : Build (Option Reg)} {s : Builder}

theorem circuitStart_code (hb : s.func.Has b) : (circuitStart b kind left s).func.code b =
    s.func.code b ++ [.circuit kind ⟨s.func.numRegs⟩ (operand left) .null 0] :=
  Func.append_code_self ((Func.newReg_has s.func b).mpr hb) _

/-- The code of the right operand starts with a live block. -/
theorem situation_circuitStart (hs : Situation k b s D e) :
    Situation k b (circuitStart b kind left s) D .live where
  numRegs := by
    have := hs.numRegs
    simp only [circuitStart, Func.append_numRegs, Func.newReg_numRegs]
    omega
  closure := hs.closure
  scope := by
    simp only [circuitStart, Func.append_numRegs]
    exact hs.scope.mono (Func.extends_newReg s.func).numRegs
  names := hs.names
  has := (Func.append_has _ b b _).mpr hs.has
  live _ := by rw [circuitStart_code hs.has, endsBlock_append]; rfl
  ended h := by cases h

/-- Behind the code of the right operand only the end of that code is added, and the instruction in
front of it is replaced. -/
theorem circuitEnd_code (ar : Adds {b} right) (hb : s.func.Has b) :
    (circuitEnd b kind left right s).func.code b =
      (right (circuitStart b kind left s)).2.func.code b ++
        landing ⟨s.func.numRegs⟩ (right (circuitStart b kind left s)).1 := by
  have hb' : (right (circuitStart b kind left s)).2.func.Has b :=
    (ar _).func.has ((Func.append_has _ b b _).mpr hb)
  exact emitAll_code_self _ (s := { (right (circuitStart b kind left s)).2 with names := s.names }) hb'

theorem circuitEnd_fields :
    (circuitEnd b kind left right s).func.numRegs =
        (right (circuitStart b kind left s)).2.func.numRegs ∧
      (circuitEnd b kind left right s).func.blocks.size =
        (right (circuitStart b kind left s)).2.func.blocks.size ∧
      (circuitEnd b kind left right s).names = s.names ∧
      (circuitEnd b kind left right s).enclosing =
        (right (circuitStart b kind left s)).2.enclosing ∧
      (circuitEnd b kind left right s).diags = (right (circuitStart b kind left s)).2.diags :=
  emitAll_fields

/-- The finished function has the code of the right operand. -/
theorem agrees_circuit (ar : Adds {b} right) (hb : s.func.Has b)
    (ha : Agrees g ∅ s (circuit b kind left right s).2) :
    Agrees g ∅ (circuitStart b kind left s) (right (circuitStart b kind left s)).2 := by
  have hg := grows_landing (Set.mem_singleton b) kind left right s
  have hstart := grows_circuitStart (S := {b}) rfl kind left s
  rw [circuit_apply] at ha
  have hlen : (circuitStart b kind left s).func.code b = _ := circuitStart_code hb
  exact {
    numRegs := by simpa using le_trans hg.func.numRegs (by simpa using ha.numRegs)
    size := le_trans hg.func.size (by simpa using ha.size)
    code := by
      intro c i x hi hx
      refine ha.code c i x (le_trans (hstart.func.length_le c) hi) ?_
      by_cases hc : c = b
      · subst hc
        rw [hlen, List.length_append] at hi
        simp only [List.length_cons, List.length_nil] at hi
        simp only
        rw [getElem?_replace_ne (by omega)]
        exact hg.func.getElem? hx
      · simp only
        rw [Func.replace_code_ne hc]
        exact hg.func.getElem? hx
    finished := by
      intro c hc ht _
      have hne : c ≠ b := by
        rintro rfl
        exact hc (hstart.func.has hb)
      have hs : ¬ s.func.Has c := fun h => hc (hstart.func.has h)
      rw [ha.finished c hs (by simpa using hg.func.has ht) id, Func.replace_code_ne hne,
        hg.func.kept c ht hne] }

/-- The code of a short circuit: its instruction, which was put in its place last, and what follows. -/
theorem agrees_replace {u : Builder} {x : Instr} (ha : Agrees g ∅ s
      { u with func := u.func.replace b (s.func.code b).length x })
    (hlt : (s.func.code b).length < (u.func.code b).length) :
    (g.code b)[(s.func.code b).length]? = some x ∧
      ∀ i y, (s.func.code b).length < i → (u.func.code b)[i]? = some y → (g.code b)[i]? = some y := by
  refine ⟨ha.code b _ _ (le_refl _) ?_, fun i y hi hy => ha.code b i y (le_of_lt hi) ?_⟩
  · rw [Func.replace_code_self, List.getElem?_set_self hlt]
  · rwa [getElem?_replace_ne (Nat.ne_of_gt hi)]

/-- The shape of a short circuit whose right operand starts in `s₁` and leads to `t`, with its end in
`u`, in terms of the code alone. -/
theorem shape_circuit {s₁ t u : Builder} {dest : Reg} {r : Option Reg} {e' : Flow} {D' : Set Reg}
    (hl : Ready D (operand left)) (hdest : g.InRange dest)
    (hs₁ : (s₁.func.code b).length = (s.func.code b).length + 1)
    (hsize : s₁.func.blocks.size = s.func.blocks.size)
    (hr : Shape g k b (s₁.point b D .live) (t.point b D' e')) (hready : Ready D' (operand r))
    (hu : u.func.code b = t.func.code b ++ landing dest r)
    (husize : u.func.blocks.size = t.func.blocks.size)
    (hx : (g.code b)[(s.func.code b).length]? = some (.circuit kind dest (operand left) (operand r)
      (Int64.ofNat ((u.func.code b).length - ((s.func.code b).length + 1)))))
    (hcode : ∀ i x, (s.func.code b).length < i → (u.func.code b)[i]? = some x →
      (g.code b)[i]? = some x) :
    Shape g k b (s.point b D e) (u.point b (insert dest D) (e.around e')) := by
  have hpoint : s₁.point b D .live =
      ⟨(s.func.code b).length + 1, s.func.blocks.size, D, .live⟩ := by
    rw [Builder.point, hs₁, hsize]
  rw [hpoint] at hr
  have hle : (s.func.code b).length + 1 ≤ (t.func.code b).length := hr.index_le
  refine Shape.circuit hx hl hdest hr ?_ ?_
  · cases r with
    | none => simp [Lands, hu, landing]
    | some r =>
      refine ⟨hready, hcode _ _ (by omega) ?_, ?_⟩
      · rw [hu]
        exact List.getElem?_concat_length
      · simp [hu, landing]
  · rw [Builder.point, husize]
    exact .refl _

theorem shaped_circuit {Q : Flow → Prop} (ar : Adds {b} right) (hl : Ready D (operand left))
    (hr : Shaped g k quiet b D .live right fun r D' e' => Ready D' (operand r) ∧ Q e') :
    Shaped g k quiet b D e (circuit b kind left right) fun r D' e' =>
      Ready D' (operand r) ∧ ∃ e₂, Q e₂ ∧ e' = e.around e₂ := by
  intro s hs hc ha hd
  have hb := Set.mem_singleton b
  have hs₁ : (circuitStart b kind left s).func.code b = _ := circuitStart_code hs.has
  have hsit : Situation k b (circuitStart b kind left s) D .live := situation_circuitStart hs
  have hregs : (circuitStart b kind left s).func.numRegs = s.func.numRegs + 1 := by
    simp [circuitStart]
  have hsize : (circuitStart b kind left s).func.blocks.size = s.func.blocks.size := by
    simp [circuitStart]
  have hdiags : (circuitStart b kind left s).diags = s.diags := rfl
  have hu : (circuitEnd b kind left right s).func.code b = _ := circuitEnd_code ar hs.has
  have hfields := @circuitEnd_fields b kind left right s
  have hugrow := grows_landing hb kind left right s
  have hagree := agrees_circuit ar hs.has ha
  rw [circuit_apply] at hc ha hd ⊢
  -- from here on only these facts matter, not how the states came about
  generalize circuitEnd b kind left right s = u at *
  generalize circuitStart b kind left s = s₁ at *
  simp only at hc ha hd ⊢
  obtain ⟨hunum, husize, hunames, huenc, hudiags⟩ := hfields
  obtain ⟨D', e', hD', hsh, ht, hready, hQ⟩ := hr s₁ hsit (huenc ▸ hc) hagree
    fun hq => (hudiags ▸ hd hq).trans hdiags.symm
  have hgrow := (ar s₁).func
  generalize right s₁ = t at *
  have hle : (s₁.func.code b).length ≤ (t.2.func.code b).length := hgrow.length_le b
  have hule : (t.2.func.code b).length ≤ (u.func.code b).length := hugrow.func.length_le b
  have hlen : (s₁.func.code b).length = (s.func.code b).length + 1 := by simp [hs₁]
  have hnum := hgrow.numRegs
  obtain ⟨hx, hcode⟩ := agrees_replace ha (by omega)
  refine ⟨insert ⟨s.func.numRegs⟩ D, e.around e', Set.subset_insert _ _, ?_, ?_,
    Set.mem_insert _ _, e', hQ, rfl⟩
  · have hdest : g.InRange ⟨s.func.numRegs⟩ := by
      refine ha.inRange ⟨hs.numRegs, ?_⟩
      simp only [Func.replace_numRegs]
      omega
    have := shape_circuit (e := e) hl hdest hlen hsize hsh hready hu husize hx hcode
    simpa [Builder.point, Func.replace_code_self] using this
  · have hnames : ∀ p ∈ u.names, p.2 ∈ insert (⟨s.func.numRegs⟩ : Reg) D := fun p hp =>
      Set.mem_insert_of_mem _ (hs.names p (hunames ▸ hp))
    refine { numRegs := ?_, closure := ?_, scope := ?_, names := hnames, has := ?_, live := ?_,
             ended := fun h => absurd h (Flow.around_ne_ended e e') }
    · simpa [hunum] using ht.numRegs
    · simpa [huenc] using ht.closure
    · simpa [hunum, huenc] using ht.scope
    · simpa using hugrow.func.has ht.has
    · intro h
      simp only [Func.replace_code_self]
      refine endsBlock_set rfl ?_
      rw [hu]
      rcases t.1 with _ | r
      · simpa [landing] using ht.live (Flow.around_eq_live_iff.mp h).2
      · exact endsBlock_append _ _

end

/-- A binary operator. The right operand is lowered behind the left one, whatever the flow there. -/
theorem lowers_binary {left right : Build (Option Reg)} (hadd : Adds {b} left ∧ Adds {b} right)
    (pos : Position) (op : String) {fl fr : Flow} (hl : Lowers g k quiet b D e left fl)
    (hr : ∀ D₁ e₁, Lowers g k quiet b D₁ e₁ right fr) :
    Lowers g k quiet b D e (binary b pos op left right)
      (.ofLive (fl = .live ∧ fr = .live)) := by
  refine Shaped.bind (by grind) hl ?_
  rintro l D₁ e₁ - ⟨hready, hfl⟩
  split
  · refine (shaped_circuit hadd.2 (Q := fun e₂ => ∃ r, Flow.Follows quiet fr .live r e₂) hready
      ((hr D₁ .live).post fun r _ _ h => ⟨h.1, r, h.2⟩)).post ?_
    rintro r D' e' ⟨hr', e₂, ⟨r₂, hfr⟩, rfl⟩
    exact ⟨hr', hfl.lives.follows_around hfr.lives r⟩
  · split
    · exact lowers_degrade_of_lives pos _ hfl.lives And.left
    · rename_i instr hop
      refine Shaped.bind (by grind) (hr D₁ e₁) ?_
      rintro r D₂ e₂ hD ⟨hready₂, hfr⟩
      refine shaped_use (x := fun q => instr q (operand l) (operand r))
        (fun q => (operator?_spec hop q _ _).1) (fun q => (operator?_spec hop q _ _).2.1)
        (fun q v hv => ?_) (hfl.lives.trans hfr.lives)
      rw [(operator?_spec hop q _ _).2.2] at hv
      rcases List.mem_pair.mp hv with rfl | rfl
      · exact hready.mono hD
      · exact hready₂

end Lowering

end ScriptMachine
