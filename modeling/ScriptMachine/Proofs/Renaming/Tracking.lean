import ScriptMachine.Proofs.Renaming.Bindings
import ScriptMachine.Proofs.Renaming.Links

/-!
# Two lowerings at once

`Linked` relates the states of two lowerings of a tree, one of which is ahead of the other with what it
captures. `Tracks` is a law of two steps: from linked states they lead to linked states, and to results
that are related. `Tracks.bind` chains such laws, and each primitive step has one.
-/

namespace ScriptMachine

open Build Lowering

/-! ## Functions that are built alike -/

theorem forall₂_set {α β : Type} {R : α → β → Prop} {xs : List α} {ys : List β}
    (h : List.Forall₂ R xs ys) {x : α} {y : β} (hxy : R x y) (i : Nat) :
    List.Forall₂ R (xs.set i x) (ys.set i y) := by
  induction h generalizing i with
  | nil => exact .nil
  | cons hhead htail ih =>
    cases i with
    | zero => exact .cons hxy htail
    | succ i => exact .cons hhead (ih i)

namespace Func.Alike

variable {ρ : Reg → Reg → Prop} {C : List (Capture Value) → List (Capture Value) → Prop} {f f' g g' : Func}

section
variable (h : f.Alike ρ C f')
include h

theorem congr (hf : Func.Extends ∅ f g) (hb : g.blocks = f.blocks)
    (hf' : Func.Extends ∅ f' g') (hb' : g'.blocks = f'.blocks) : g.Alike ρ C g' where
  name := by rw [hf.name, hf'.name, h.name]
  params := by rw [hf.params, hf'.params, h.params]
  paramRegs := by rw [hf.paramRegs, hf'.paramRegs]; exact h.paramRegs
  entry := by rw [hf.entry, hf'.entry, h.entry]
  size := by rw [hb, hb', h.size]
  code b := by rw [code_congr hb, code_congr hb']; exact h.code b

theorem newReg : f.newReg.1.Alike ρ C f'.newReg.1 :=
  h.congr (extends_newReg f) rfl (extends_newReg f') rfl

theorem newBlock : f.newBlock.1.Alike ρ C f'.newBlock.1 where
  name := h.name
  params := h.params
  paramRegs := h.paramRegs
  entry := h.entry
  size := by rw [newBlock_size, newBlock_size, h.size]
  code b := by rw [newBlock_code, newBlock_code]; exact h.code b

theorem has_iff (b : BlockId) : f.Has b ↔ f'.Has b := by
  unfold Has
  rw [h.size]

theorem append (b : BlockId) {x x' : Instr} (hx : x.Alike ρ C x') :
    (f.append b x).Alike ρ C (f'.append b x') where
  name := by rw [(extends_append f b x).name, (extends_append f' b x').name, h.name]
  params := by rw [(extends_append f b x).params, (extends_append f' b x').params, h.params]
  paramRegs := by
    rw [(extends_append f b x).paramRegs, (extends_append f' b x').paramRegs]
    exact h.paramRegs
  entry := by rw [(extends_append f b x).entry, (extends_append f' b x').entry, h.entry]
  size := by rw [append_size, append_size, h.size]
  code c := by
    by_cases hb : f.Has b
    · by_cases hc : c = b
      · subst hc
        rw [append_code_self hb, append_code_self ((h.has_iff c).mp hb)]
        exact List.rel_append (h.code c) (.cons hx .nil)
      · rw [append_code_ne hc, append_code_ne hc]
        exact h.code c
    · rw [append_code_of_not_has hb, append_code_of_not_has fun hb' => hb ((h.has_iff b).mpr hb')]
      exact h.code c

/-- An instruction is put in the place of another one on both sides. -/
theorem replace (b : BlockId) (i : Nat) {x x' : Instr} (hx : x.Alike ρ C x') :
    (f.replace b i x).Alike ρ C (f'.replace b i x') := by
  have hfields : ∀ (g : Func) y, g.replace b i y = { g with blocks := (g.replace b i y).blocks } := by
    intro g y
    unfold Func.replace
    split <;> rfl
  refine ⟨?_, ?_, ?_, ?_, by rw [replace_size, replace_size, h.size], fun c => ?_⟩
  · rw [hfields, hfields f']
    exact h.name
  · rw [hfields, hfields f']
    exact h.params
  · rw [hfields, hfields f']
    exact h.paramRegs
  · rw [hfields, hfields f']
    exact h.entry
  · by_cases hc : c = b
    · subst hc
      rw [replace_code_self, replace_code_self]
      exact forall₂_set (h.code c) hx i
    · rw [replace_code_ne hc, replace_code_ne hc]
      exact h.code c

end

end Func.Alike

/-! ## States -/

/-- Functions with a link between them. -/
def Func.Linked (f f' : Func) : Prop :=
  ∃ L : Link, L.Fits f.numRegs f'.numRegs ∧ f.Alike L.Pairs L.Captures f'

/-- The states of two lowerings with a link between the functions at hand. -/
structure Linked (L : Link) (s s' : Builder) : Prop where
  program : List.Forall₂ Func.Linked s.program.funcs s'.program.funcs
  func : s.func.Alike L.Pairs L.Captures s'.func
  fits : L.Fits s.func.numRegs s'.func.numRegs
  names : L.Names s.names s'.names
  scopes : L.Scopes s.func.numRegs s.enclosing s'.enclosing

theorem Func.Alike.link {L M : Link} {f f' : Func} (h : f.Alike L.Pairs L.Captures f') (hLM : L.Le M) :
    f.Alike M.Pairs M.Captures f' :=
  h.mono (fun _ _ hp => hp.mono hLM) fun _ _ hc => hc.mono hLM

/-- Two steps that lead from linked states to linked states, with related results. -/
def Tracks {α β : Type} (L : Link) (s s' : Builder) (m : Build α) (m' : Build β)
    (R : Link → α → β → Prop) : Prop :=
  ∃ M : Link, L.Le M ∧ Linked M (m s).2 (m' s').2 ∧ R M (m s).1 (m' s').1

section
variable {α β γ δ : Type} {L M : Link} {s s' : Builder} {m : Build α} {m' : Build β} {b : BlockId}
  {args args' : Build (List Value)} {r r' : Option Reg}

theorem Tracks.bind {R : Link → α → β → Prop} (h : Tracks L s s' m m' R) {f : α → Build γ}
    {f' : β → Build δ} {Q : Link → γ → δ → Prop}
    (hf : ∀ M : Link, L.Le M → Linked M (m s).2 (m' s').2 → R M (m s).1 (m' s').1 →
      Tracks M (m s).2 (m' s').2 (f (m s).1) (f' (m' s').1) Q) :
    Tracks L s s' (m >>= f) (m' >>= f') Q := by
  obtain ⟨M, hLM, hM, hR⟩ := h
  obtain ⟨N, hMN, hN⟩ := hf M hLM hM hR
  exact ⟨N, hLM.trans hMN, hN⟩

/-! ## Registers, blocks and code -/

section
variable (h : Linked L s s')
include h

theorem tracks_pure {a : α} {a' : β} {R : Link → α → β → Prop} (hR : R L a a') :
    Tracks L s s' (pure a) (pure a') R :=
  ⟨L, .refl L, h, hR⟩

theorem tracks_newReg : Tracks L s s' newReg newReg fun M r r' => M.Pairs r r' := by
  have hle : s.func.numRegs ≤ s.func.numRegs + 1 := le_of_lt (Int.lt_succ _)
  refine ⟨L.push ⟨s.func.numRegs⟩, L.le_push _, ?_, h.fits.pairs_push _⟩
  exact {
    program := h.program
    func := h.func.newReg.link (L.le_push _)
    fits := h.fits.push h.fits.not_mem_pairs h.fits.not_mem_spare (Int.lt_succ _) hle
    names := h.names.mono (L.le_push _)
    scopes := h.scopes.push hle fun hr => absurd (h.scopes.range _ hr).1 (lt_irrefl _) }

theorem tracks_newBlock : Tracks L s s' newBlock newBlock fun _ c c' => c = c' := by
  refine ⟨L, .refl L, { h with func := h.func.newBlock, fits := h.fits, scopes := h.scopes }, ?_⟩
  show (⟨(s.func.blocks.size : Int)⟩ : BlockId) = ⟨(s'.func.blocks.size : Int)⟩
  rw [h.func.size]

theorem Linked.emit (b : BlockId) {x x' : Instr}
    (hx : x.Alike L.Pairs L.Captures x') : Linked L (emit b x s).2 (emit b x' s').2 where
  program := h.program
  func := h.func.append b hx
  fits := by simpa using h.fits
  names := h.names
  scopes := by simpa using h.scopes

theorem Linked.emitAll (b : BlockId) {xs xs' : List Instr}
    (hxs : List.Forall₂ (Instr.Alike L.Pairs L.Captures) xs xs') :
    Linked L (emitAll b xs s).2 (emitAll b xs' s').2 := by
  induction hxs generalizing s s' with
  | nil => exact h
  | cons hx _ ih => exact ih (h.emit b hx)

theorem tracks_emit (b : BlockId) {x x' : Instr}
    (hx : x.Alike L.Pairs L.Captures x') : Tracks L s s' (emit b x) (emit b x') fun _ _ _ => True :=
  ⟨L, .refl L, h.emit b hx, trivial⟩

theorem tracks_emitAll (b : BlockId) {xs xs' : List Instr}
    (hxs : List.Forall₂ (Instr.Alike L.Pairs L.Captures) xs xs') :
    Tracks L s s' (emitAll b xs) (emitAll b xs') fun _ _ _ => True :=
  ⟨L, .refl L, h.emitAll b hxs, trivial⟩

theorem Linked.length_eq (b : BlockId) : (s.func.code b).length = (s'.func.code b).length :=
  (h.func.code b).length_eq

theorem Linked.endsBlock_eq (b : BlockId) : endsBlock (s.func.code b) = endsBlock (s'.func.code b) :=
  endsBlock_eq_of_alike (h.func.code b)

theorem tracks_length (b : BlockId) : Tracks L s s' (length b) (length b) fun _ n n' => n = n' := by
  refine ⟨L, .refl L, ?_, ?_⟩
  · rw [length_apply, length_apply]
    exact h
  · rw [length_apply, length_apply]
    exact h.length_eq b

theorem tracks_terminated (b : BlockId) :
    Tracks L s s' (terminated b) (terminated b) fun _ t t' => t = t' := by
  refine ⟨L, .refl L, ?_, ?_⟩
  · rw [terminated_apply, terminated_apply]
    exact h
  · rw [terminated_apply, terminated_apply]
    exact h.endsBlock_eq b

theorem tracks_replace (b : BlockId) (i : Nat) {x x' : Instr} (hx : x.Alike L.Pairs L.Captures x') :
    Tracks L s s' (replace b i x) (replace b i x') fun _ _ _ => True := by
  refine ⟨L, .refl L, { h with func := h.func.replace b i hx, fits := ?_, scopes := ?_ }, trivial⟩
  · simpa using h.fits
  · simpa using h.scopes

end

/-- The result of a node: paired registers, or no value on both sides. -/
abbrev Paired (M : Link) (r r' : Option Reg) : Prop := Option.Rel M.Pairs r r'

theorem Paired.mono (h : Paired L r r') (hLM : L.Le M) : Paired M r r' := by
  cases h with
  | some h => exact .some (h.mono hLM)
  | none => exact .none

theorem Value.alike_null (ρ : Reg → Reg → Prop) : Value.null.Alike ρ .null := .const rfl nofun

theorem Value.alike_string (ρ : Reg → Reg → Prop) (str : String) :
    (Value.string str).Alike ρ (.string str) := .const rfl nofun

theorem Paired.alike_operand (h : Paired L r r') : (operand r).Alike L.Pairs (operand r') := by
  cases h with
  | some h => exact .reg h
  | none => exact Value.alike_null _

section
variable (h : Linked L s s')
include h

theorem tracks_produce (b : BlockId) {x x' : Reg → Instr}
    (hx : ∀ (M : Link) d d', L.Le M → M.Pairs d d' → (x d).Alike M.Pairs M.Captures (x' d')) :
    Tracks L s s' (produce b x) (produce b x') Paired := by
  refine (tracks_newReg h).bind fun M hLM hM hd => ?_
  refine (tracks_emit hM b (hx M _ _ hLM hd)).bind fun N hMN hN _ => ?_
  exact tracks_pure hN (.some (hd.mono hMN))

theorem tracks_constant (b : BlockId) {v v' : Value} (hv : v.Alike L.Pairs v') :
    Tracks L s s' (constant b v) (constant b v') Paired := by
  show Tracks L s s' (produce b (.load · v)) (produce b (.load · v')) Paired
  exact tracks_produce h b fun M _ _ hLM hd => .load hd (hv.mono fun _ _ hp => hp.mono hLM)

theorem Linked.complain (pos pos' : Position) (c c' : Complaint) :
    Linked L (complain pos c s).2 (complain pos' c' s').2 := { h with }

theorem tracks_degrade (b : BlockId) (pos pos' : Position) (c c' : Complaint) :
    Tracks L s s' (degrade b pos c) (degrade b pos' c') Paired :=
  tracks_constant (h.complain pos pos' c c') b (Value.alike_null _)

theorem tracks_orNull (b : BlockId) (hr : Paired L r r') :
    Tracks L s s' (orNull b r) (orNull b r') fun M q q' => M.Pairs q q' := by
  cases hr with
  | some hr => exact tracks_pure h hr
  | none =>
    refine (tracks_newReg h).bind fun M hLM hM hd => ?_
    refine (tracks_emit hM b (.load hd (Value.alike_null _))).bind fun N hMN hN _ => ?_
    exact tracks_pure hN (hd.mono hMN)

/-! ## Names -/

theorem tracks_lookup (name : String) : Tracks L s s' (lookup name) (lookup name) Paired := by
  obtain ⟨M, hLM, hM, hs, hr⟩ := Link.scopes_resolve name h.fits h.names h.scopes
  have hf := resolve_grows name s.func s.names s.enclosing
  have hf' := resolve_grows name s'.func s'.names s'.enclosing
  exact ⟨M, hLM.le, {
    program := h.program
    func := (h.func.congr hf.1 hf.2.1 hf'.1 hf'.2.1).link hLM.le
    fits := hM
    names := h.names.mono hLM.le
    scopes := hs }, hr⟩

theorem Linked.bind (name : String) {r r' : Reg} (hr : L.Pairs r r') :
    Linked L (Build.bind name r s).2 (Build.bind name r' s').2 :=
  { h with names := h.names.bind name hr }

theorem Linked.bindAll (ns : List String) {rs rs' : List Reg}
    (hrs : List.Forall₂ L.Pairs rs rs') : Linked L (bindAll ns rs s).2 (bindAll ns rs' s').2 := by
  induction ns generalizing rs rs' s s' with
  | nil => exact h
  | cons n ns ih =>
    cases hrs with
    | nil => exact h
    | cons hr hrs => exact ih (h.bind n hr) hrs

theorem tracks_newRegs (ns : List String) :
    Tracks L s s' (newRegs ns) (newRegs ns) fun M rs rs' => List.Forall₂ M.Pairs rs rs' := by
  induction ns generalizing L s s' with
  | nil => exact tracks_pure h .nil
  | cons n ns ih =>
    refine (tracks_newReg h).bind fun M hLM hM hr => ?_
    refine (ih hM).bind fun N hMN hN hrs => ?_
    exact tracks_pure hN (.cons (hr.mono hMN) hrs)

theorem tracks_names : Tracks L s s' Build.names Build.names fun M ns ns' => M.Names ns ns' :=
  ⟨L, .refl L, h, h.names⟩

/-- The names of steps that run apart are returned, and those in front of them are at hand again. -/
theorem Tracks.isolated {R : Link → α → β → Prop} (hm : Tracks L s s' m m' R) :
    Tracks L s s' (isolated m) (isolated m') fun M x x' => R M x.1 x'.1 ∧ M.Names x.2 x'.2 := by
  obtain ⟨M, hLM, hM, hR⟩ := hm
  exact ⟨M, hLM, { hM with names := h.names.mono hLM }, hR, hM.names⟩

theorem tracks_inClosure : Tracks L s s' inClosure inClosure fun _ t t' => t = t' := by
  refine ⟨L, .refl L, h, ?_⟩
  have := h.scopes.around
  simp only [inClosure_apply]
  generalize s.enclosing = es at this
  generalize s'.enclosing = es' at this
  cases this <;> rfl

theorem tracks_leave (b : BlockId) {v v' : Value} (hv : v.Alike L.Pairs v') :
    Tracks L s s' (leave b v) (leave b v') fun _ _ _ => True := by
  refine (tracks_inClosure h).bind fun M hLM hM ht => ?_
  rw [ht]
  exact tracks_emit hM b (.leave (hv.mono fun _ _ hp => hp.mono hLM))

theorem tracks_sealBody (b : BlockId) (hr : Paired L r r') :
    Tracks L s s' (sealBody b r) (sealBody b r') fun _ _ _ => True := by
  refine (tracks_terminated h b).bind fun M hLM hM ht => ?_
  rw [ht]
  split
  · exact tracks_pure hM trivial
  · exact tracks_leave hM b (hr.mono hLM).alike_operand

theorem tracks_sealNested (b : BlockId) (hr : Paired L r r') :
    Tracks L s s' (sealNested b r) (sealNested b r') fun _ _ _ => True := by
  refine (tracks_terminated h b).bind fun M hLM hM ht => ?_
  rw [ht]
  split
  · exact tracks_pure hM trivial
  · exact tracks_emit hM b (.leave (hr.mono hLM).alike_operand)

/-! ## Values -/

theorem tracks_word (b : BlockId) (name : String) :
    Tracks L s s' (word b name) (word b name) Paired := by
  refine (tracks_lookup h name).bind fun M _ hM hr => ?_
  generalize (lookup name s).1 = r at hr
  generalize (lookup name s').1 = r' at hr
  cases hr with
  | some hr => exact tracks_pure hM (.some hr)
  | none => exact tracks_constant hM b (Value.alike_string _ name)

end

theorem tracks_assign (b : BlockId) (name : String) {value value' : Build (Option Reg)}
    (hv : Tracks L s s' value value' Paired) :
    Tracks L s s' (assign b name value) (assign b name value') Paired := by
  refine hv.bind fun M _ hM hr => ?_
  refine (tracks_orNull hM b hr).bind fun N _ hN hq => ?_
  exact ⟨N, .refl N, hN.bind name hq, .some hq⟩

/-- Arguments that are the same up to a link. -/
abbrev PairedAll (M : Link) (vs vs' : List Value) : Prop := List.Forall₂ (Value.Alike M.Pairs) vs vs'

theorem PairedAll.mono {vs vs' : List Value} (h : PairedAll L vs vs') (hLM : L.Le M) :
    PairedAll M vs vs' :=
  List.Forall₂.imp (fun _ _ hv => hv.mono fun _ _ hp => hp.mono hLM) h

theorem tracks_issue (b : BlockId) (name : String) (words : List String)
    (ha : Tracks L s s' args args' PairedAll) :
    Tracks L s s' (issue b name words args) (issue b name words args') Paired := by
  refine ha.bind fun M _ hM hvs => tracks_produce hM b fun N d d' hMN hd => .command hd ?_
  refine List.rel_append ?_ (hvs.mono hMN)
  rw [List.forall₂_map_left_iff, List.forall₂_map_right_iff, List.forall₂_same]
  exact fun word _ => Value.alike_string _ word

theorem tracks_command (h : Linked L s s') (b : BlockId) (pos : Position) (name line : String)
    (ha : Tracks L s s' args args' PairedAll) :
    Tracks L s s' (command b pos name line args) (command b pos name line args') Paired := by
  unfold command
  by_cases hline : line = ""
  · rw [if_pos hline, if_pos hline]
    exact tracks_issue b name [] ha
  rw [if_neg hline, if_neg hline]
  cases Words.split line with
  | error e => exact tracks_degrade h b pos pos _ _
  | ok ws =>
    cases ws with
    | nil => exact tracks_degrade h b pos pos _ _
    | cons word words =>
      by_cases hname : name = ""
      · simp only [if_pos hname]
        exact tracks_issue b word words ha
      · simp only [if_neg hname]
        exact tracks_issue b name (word :: words) ha

theorem tracks_callHeld (b : BlockId) {callee callee' : Reg} (hc : L.Pairs callee callee')
    (ha : Tracks L s s' args args' PairedAll) :
    Tracks L s s' (callHeld b callee args) (callHeld b callee' args') Paired :=
  ha.bind fun _ hLM hM hvs => tracks_produce hM b fun _ _ _ hMN hd =>
    .closureCall hd (hc.mono (hLM.trans hMN)) (hvs.mono hMN)

theorem tracks_callNamed (b : BlockId) (name : String) (ha : Tracks L s s' args args' PairedAll) :
    Tracks L s s' (callNamed b name args) (callNamed b name args') Paired :=
  ha.bind fun _ _ hM hvs => tracks_produce hM b fun _ _ _ hMN hd => .call hd (hvs.mono hMN)

/-- Steps that track each other wherever control reaches the end of a block and the names of a scope can
be looked up. -/
abbrev TracksIn (b : BlockId) (S : List String) (m : Build α) (m' : Build β)
    (R : Link → α → β → Prop) : Prop :=
  ∀ {L s s'}, Linked L s s' → s.OpenAt b → Knows S s → Tracks L s s' m m' R

/-- The scope behind code that leaves names bound. -/
theorem Knows.leave {S ns : List String} {f : Flow} {v : Bool} {B : Set BlockId} {t : Builder}
    (h : Knows S s) (hl : Leaves b f ns v s r t) (hg : Builder.Grows B s t) : Knows (S ++ ns) t :=
  (h.grow hg hl.within).append hl.names

variable {S : List String}

theorem Knows.lookup (h : Knows S s) (name : String) : Knows S (Build.lookup name s).2 :=
  h.grow (adds_lookup (S := ∅) name s) (.refl _)

theorem bare_ne_word {x : Node} (h : ∀ p name, x ≠ .word p name) (S : List String) :
    ∀ p name, x.bare S ≠ .word p name := by
  cases x with
  | word p name => exact absurd rfl (h p name)
  | _ => exact nofun

theorem tracks_call (pos : Position) {callee : Node} (hlive : callee.flow = .live)
    {value value' : Build (Option Reg)} (av : Adds {b} value)
    (lv : ∀ s, s.OpenAt b →
      Leaves b callee.flow callee.binds callee.yields s (value s).1 (value s).2)
    (tv : TracksIn b S value value' Paired)
    (ta : TracksIn b (S ++ callee.binds) args args' PairedAll) :
    TracksIn b S (call b pos callee value args) (call b pos (callee.bare S) value' args') Paired := by
  intro L s s' h hs hk
  by_cases hword : ∃ p name, callee = .word p name
  · obtain ⟨p, name, rfl⟩ := hword
    refine (tracks_lookup h name).bind fun M _ hM hr => ?_
    have hk' : Knows (S ++ []) (lookup name s).2 := by
      rw [List.append_nil]
      exact hk.lookup name
    have hargs := ta hM (openAt_lookup hs name) hk'
    generalize (lookup name s).1 = r at hr
    generalize (lookup name s').1 = r' at hr
    cases hr with
    | some hr => exact tracks_callHeld b hr hargs
    | none => exact tracks_callNamed b name hargs
  · have hne : ∀ p name, callee ≠ .word p name := fun p name h => hword ⟨p, name, h⟩
    rw [call_of_ne_word hne, call_of_ne_word (bare_ne_word hne S)]
    have hl := (lv s hs).of_live hlive
    refine (tv h hs hk).bind fun M _ hM hr => ?_
    have hargs := ta hM (hl.open_at rfl) (hk.leave hl (av s))
    generalize (value s).1 = r at hr
    generalize (value' s').1 = r' at hr
    cases hr with
    | some hr => exact tracks_callHeld b hr hargs
    | none => exact tracks_degrade hM b pos pos _ _

theorem alike_landing {C : List (Capture Value) → List (Capture Value) → Prop} {d d' : Reg}
    (hd : L.Pairs d d') (hr : Paired L r r') :
    List.Forall₂ (Instr.Alike L.Pairs C) (landing d r) (landing d' r') := by
  cases hr with
  | some hr => exact .cons (.move hd hr) .nil
  | none => exact .nil

/-- A short circuit: the instruction in front of the right operand is replaced by the same one, since
both operands have code of the same length. -/
theorem tracks_circuit (h : Linked L s s') (hs : s.OpenAt b) (kind : Circuit) {left left' : Option Reg}
    (hleft : Paired L left left') (hk : Knows S s) {right right' : Build (Option Reg)}
    (tr : TracksIn b S right right' Paired) :
    Tracks L s s' (circuit b kind left right) (circuit b kind left' right') Paired := by
  refine (tracks_newReg h).bind fun M₁ h₁ hM₁ hd => ?_
  refine (tracks_length hM₁ b).bind fun M₂ h₂ hM₂ hi => ?_
  have hd₂ := hd.mono h₂
  have hleft₂ := hleft.mono (h₁.trans h₂)
  refine (tracks_emit hM₂ b (.circuit hd₂ hleft₂.alike_operand (Value.alike_null _))).bind
    fun M₃ h₃ hM₃ _ => ?_
  have hopen : (circuitStart b kind left s).OpenAt b :=
    openAt_emit (s := (newReg s).2) (x := .circuit kind ⟨s.func.numRegs⟩ (operand left) .null 0)
      hs.has rfl
  have hknows : Knows S (circuitStart b kind left s) :=
    hk.grow (grows_circuitStart (Set.mem_singleton b) kind left s) (.refl _)
  refine (Tracks.isolated hM₃ (tr hM₃ hopen hknows)).bind fun M₄ h₄ hM₄ hr => ?_
  have hd₄ := hd₂.mono (h₃.trans h₄)
  refine (tracks_emitAll hM₄ b (alike_landing hd₄ hr.1)).bind fun M₅ h₅ hM₅ _ => ?_
  refine (tracks_length hM₅ b).bind fun M₆ h₆ hM₆ hn => ?_
  have hd₆ := hd₄.mono (h₅.trans h₆)
  have hleft₆ := hleft₂.mono (((h₃.trans h₄).trans h₅).trans h₆)
  rw [hi, hn]
  refine (tracks_replace hM₆ b _ (.circuit hd₆ hleft₆.alike_operand
    (hr.1.mono (h₅.trans h₆)).alike_operand)).bind fun M₇ h₇ hM₇ _ => ?_
  exact tracks_pure hM₇ (.some (hd₆.mono h₇))

theorem alike_operator {op : String} {instr : Reg → Value → Value → Instr}
    (h : operator? op = some instr) {C : List (Capture Value) → List (Capture Value) → Prop}
    {ρ : Reg → Reg → Prop} {d d' : Reg} {l l' r r' : Value} (hd : ρ d d') (hl : l.Alike ρ l')
    (hr : r.Alike ρ r') : (instr d l r).Alike ρ C (instr d' l' r') := by
  unfold operator? at h
  split at h
  · cases h
    exact .regex hd hl hr
  · cases h
    exact .regex hd hl hr
  · obtain ⟨o, -, rfl⟩ := Option.map_eq_some_iff.mp h
    exact .binary hd hl hr

theorem tracks_binary {S ns : List String} {v : Bool} (pos : Position) (op : String)
    {left left' right right' : Build (Option Reg)} (al : Adds {b} left)
    (ll : ∀ s, s.OpenAt b → Leaves b .live ns v s (left s).1 (left s).2)
    (tl : TracksIn b S left left' Paired) (tr : TracksIn b (S ++ ns) right right' Paired) :
    TracksIn b S (binary b pos op left right) (binary b pos op left' right') Paired := by
  intro L s s' h hs hk
  have hl := ll s hs
  have hk' := hk.leave hl (al s)
  refine (tl h hs hk).bind fun M _ hM hleft => ?_
  cases circuit? op with
  | some kind => exact tracks_circuit hM (hl.open_at rfl) kind hleft hk' tr
  | none =>
    cases ho : operator? op with
    | none => exact tracks_degrade hM b pos pos _ _
    | some instr =>
      refine (tr hM (hl.open_at rfl) hk').bind fun N hMN hN hright => tracks_produce hN b ?_
      intro K d d' hNK hd
      exact alike_operator ho hd (hleft.mono (hMN.trans hNK)).alike_operand
        (hright.mono hNK).alike_operand

end

end ScriptMachine
