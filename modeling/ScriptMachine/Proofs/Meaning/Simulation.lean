import ScriptMachine.Proofs.Lowering.Shaped
import ScriptMachine.Proofs.Machine.Steps
import ScriptMachine.Proofs.Meaning.Evaluator

/-!
# Code that evaluates

`Setting.Evaluates` is a law of a stretch of code in a block: from every frame in which the registers
of the names at hand hold the values of an environment, the machine runs to the end of the stretch as
an evaluation does, with the same value, names and commands, or to a fault of the same cause.
`Build.Simulates` is the law of a step of a lowering that lays out such a stretch.

1. `Frame.Mirrors` relates names and registers to an environment. Registers are never reused, so a
   stretch keeps those that were in use before it and those that are taken after it (`Frame.Keeps`).
2. Conditions on registers that are in use outlast every stretch (`Lasting`). Laws are therefore
   chained by `Simulates.bind` with all that is known so far.
3. Names that are bound are known from the code alone (`Names.Rebinds`), as the joins behind a choice
   need it.
-/

namespace ScriptMachine

/-! ## Frames -/

namespace Frame

/-- A frame of the function `g`. -/
structure Of (g : Func) (fr : Frame) : Prop where
  func : fr.func = g
  size : (fr.regs.size : Int) = g.numRegs

/-- The operand `o` has the value `v`, and reads no register from `n` on. -/
def Shows (fr : Frame) (n : Int) (o v : Value) : Prop :=
  match o with
  | .reg r => r.index < n ∧ fr.get? r = some v
  | o => o = v ∧ v.isSet = true

/-- The registers of names hold the values of an environment, and all of them are below `n`. -/
def Mirrors (fr : Frame) (n : Int) (names : Names) (env : Bindings) : Prop :=
  ∀ name, Option.Rel (fun r v => fr.Shows n (.reg r) v) (names.get? name) (env name)

/-- Only registers from `lo` to `hi` have changed. -/
structure Keeps (fr : Frame) (lo hi : Int) (fr' : Frame) : Prop where
  func : fr'.func = fr.func
  size : fr'.regs.size = fr.regs.size
  get? : ∀ r, r.index < lo ∨ hi ≤ r.index → fr'.get? r = fr.get? r

variable {g : Func} {fr fr' fr'' : Frame} {n m lo hi : Int} {o v : Value} {names : Names}
  {env : Bindings}

theorem Keeps.refl (lo hi : Int) (fr : Frame) : fr.Keeps lo hi fr := ⟨rfl, rfl, fun _ _ => rfl⟩

theorem Keeps.mono (h : fr.Keeps lo hi fr') (hn : n ≤ lo) (hm : hi ≤ m) : fr.Keeps n m fr' :=
  { h with get? := fun r hr => h.get? r (by omega) }

theorem Keeps.trans (h₁ : fr.Keeps lo n fr') (h₂ : fr'.Keeps n hi fr'') (hlo : lo ≤ n)
    (hhi : n ≤ hi) : fr.Keeps lo hi fr'' where
  func := h₂.func.trans h₁.func
  size := h₂.size.trans h₁.size
  get? r hr := (h₂.get? r (by omega)).trans (h₁.get? r (by omega))

theorem Keeps.comp (h₁ : fr.Keeps lo hi fr') (h₂ : fr'.Keeps lo hi fr'') : fr.Keeps lo hi fr'' where
  func := h₂.func.trans h₁.func
  size := h₂.size.trans h₁.size
  get? r hr := (h₂.get? r hr).trans (h₁.get? r hr)

theorem Of.keeps (h : fr.Of g) (hk : fr.Keeps lo hi fr') : fr'.Of g :=
  ⟨hk.func.trans h.func, by rw [hk.size, h.size]⟩

theorem Shows.keeps (h : fr.Shows n o v) (hk : fr.Keeps lo hi fr') (hn : n ≤ lo) (hm : n ≤ m) :
    fr'.Shows m o v := by
  cases o with
  | reg r => exact ⟨lt_of_lt_of_le h.1 hm, (hk.get? r (.inl (lt_of_lt_of_le h.1 hn))).trans h.2⟩
  | _ => exact h

theorem Mirrors.keeps (h : fr.Mirrors n names env) (hk : fr.Keeps lo hi fr') (hn : n ≤ lo)
    (hm : n ≤ m) : fr'.Mirrors m names env := fun name => by
  have h := h name
  generalize names.get? name = r, env name = w at h ⊢
  cases h with
  | none => exact .none
  | some h => exact .some (h.keeps hk hn hm)

theorem Shows.mono (h : fr.Shows n o v) (hn : n ≤ m) : fr.Shows m o v :=
  h.keeps (.refl n n fr) (le_refl _) hn

section
variable (h : fr.Mirrors n names env)
include h

theorem Mirrors.mono (hn : n ≤ m) : fr.Mirrors m names env :=
  h.keeps (.refl n n fr) (le_refl _) hn

/-- A name that stands for a register has the value that is there. -/
theorem Mirrors.of_some {name : String} {r : Reg}
    (hr : names.get? name = some r) : ∃ v, env name = some v ∧ fr.Shows n (.reg r) v := by
  have h := h name
  rw [hr] at h
  cases hv : env name with
  | none =>
    rw [hv] at h
    cases h
  | some v =>
    rw [hv] at h
    cases h with
    | some h => exact ⟨v, rfl, h⟩

theorem Mirrors.of_none {name : String} (hr : names.get? name = none) : env name = none := by
  have h := h name
  rw [hr] at h
  cases hv : env name with
  | none => rfl
  | some v =>
    rw [hv] at h
    cases h

/-- A name that stands for the same register as before has the same value. -/
theorem Mirrors.same {names' : Names} {env' : Bindings}
    (h' : fr'.Mirrors m names' env') (hk : fr.Keeps lo hi fr') (hn : n ≤ lo) {name : String}
    (hname : names'.get? name = names.get? name) : env' name = env name := by
  cases hr : names.get? name with
  | none => rw [h.of_none hr, h'.of_none (hname.trans hr)]
  | some r =>
    obtain ⟨v, hv, hlt, hget⟩ := h.of_some hr
    obtain ⟨v', hv', -, hget'⟩ := h'.of_some (hname.trans hr)
    rw [hk.get? r (.inl (lt_of_lt_of_le hlt hn)), hget] at hget'
    rw [hv, hv', hget']

end

theorem Shows.read (h : fr.Shows n o v) : fr.read o = .ok v := by
  cases o with
  | reg r => simp only [Frame.read, h.2]
  | _ => exact congrArg Except.ok h.1

theorem Shows.isSet (h : fr.Shows n o v) : v.isSet = true := by
  cases o with
  | reg r => exact isSet_of_get? h.2
  | _ => exact h.2

theorem shows_null : fr.Shows n .null .null := ⟨rfl, rfl⟩

/-- A register of the function can be written, and only that register changes. -/
theorem Of.write (h : fr.Of g) {r : Reg} (hr : g.InRange r) (hv : v.isSet = true) :
    ∃ fr', fr.write r v = .ok fr' ∧ fr.Keeps r.index (r.index + 1) fr' ∧
      fr'.Shows (r.index + 1) (.reg r) v := by
  have hw : fr.write r v = .ok { fr with regs := fr.regs.set! r.index.toNat v } :=
    write_eq_ok_iff.mpr ⟨⟨hr.1, h.size ▸ hr.2⟩, rfl⟩
  refine ⟨_, hw, ⟨func_write hw, size_write hw, fun q hq => get?_write_of_ne hw ?_⟩,
    by omega, get?_write_self hw hv⟩
  rintro rfl
  omega

end Frame

/-! ## Names -/

/-- The names `bs` are bound, and others stand for what they stood for. -/
structure Names.Rebinds (bs : List String) (before after : Names) : Prop where
  bound : ∀ name ∈ bs, (after.get? name).isSome = true
  others : ∀ name, name ∉ bs → after.get? name = before.get? name

theorem Names.Rebinds.refl (ns : Names) : Rebinds [] ns ns := ⟨by simp, fun _ _ => rfl⟩

theorem Names.Rebinds.trans {bs cs : List String} {ns₁ ns₂ ns₃ : Names} (h₁ : Rebinds bs ns₁ ns₂)
    (h₂ : Rebinds cs ns₂ ns₃) : Rebinds (bs ++ cs) ns₁ ns₃ where
  bound name h := by
    by_cases hc : name ∈ cs
    · exact h₂.bound name hc
    · rw [h₂.others name hc]
      exact h₁.bound name ((List.mem_append.mp h).resolve_right hc)
  others name h := by
    rw [List.mem_append, not_or] at h
    rw [h₂.others name h.2, h₁.others name h.1]

/-- Every entry counts. -/
def Names.Proper (ns : Names) : Prop := ∀ p ∈ ns, ns.get? p.1 = some p.2

theorem Names.Proper.bind {ns : Names} (h : ns.Proper) (name : String) (r : Reg) :
    (ns.bind name r).Proper := by
  intro p hp
  rw [get?_bind]
  rcases List.mem_cons.mp hp with rfl | hp
  · rw [if_pos rfl]
  · obtain ⟨hp, hne⟩ := List.mem_filter.mp hp
    rw [if_neg (by simpa using hne)]
    exact h p hp

/-! ## Evaluations -/

namespace Eval

variable {α β : Type} {m : Eval α} {f : α → Eval β} {μ ν : Memory}

theorem bind_of_ok {a : α} (h : m μ = (.ok a, ν)) : (m >>= f) μ = f a ν := by
  show (ExceptT.bindCont f (m μ).1 : StateM Memory _) (m μ).2 = _
  rw [h]
  rfl

theorem bind_of_error {c : Cause} (h : m μ = (.error c, ν)) : (m >>= f) μ = (.error c, ν) := by
  show (ExceptT.bindCont f (m μ).1 : StateM Memory _) (m μ).2 = _
  rw [h]
  rfl

theorem keeping_of_ok {names : List String} {a : α} (h : m μ = (.ok a, ν)) :
    keeping names m μ = (.ok a, { ν with
      env := fun name => if name ∈ names then some ((ν.env name).getD .null) else μ.env name }) := by
  simp only [keeping, h]

theorem keeping_of_error {names : List String} {c : Cause} (h : m μ = (.error c, ν)) :
    keeping names m μ = (.error c, { ν with
      env := fun name => if name ∈ names then some ((ν.env name).getD .null) else μ.env name }) := by
  simp only [keeping, h]

end Eval

/-! ## Stretches of code -/

/-- A place in the code of a block, with the number of registers in use and the names at hand. -/
structure Mark where
  index : Nat
  regs : Int
  names : Names

/-- The end of block `b` so far. -/
def Builder.mark (s : Builder) (b : BlockId) : Mark :=
  ⟨(s.func.code b).length, s.func.numRegs, s.names⟩

/-- A condition on a frame, given the number of registers in use. -/
abbrev Condition := Int → Frame → Prop

/-- A condition that holds until the registers that it is about change. -/
def Lasting (P : Condition) : Prop :=
  ∀ ⦃n m : Int⦄ ⦃fr fr' : Frame⦄, n ≤ m → fr.Keeps n m fr' → P n fr → P m fr'

theorem lasting_true : Lasting fun _ _ => True := fun _ _ _ _ _ _ _ => trivial

theorem lasting_shows (o v : Value) : Lasting fun n fr => fr.Shows n o v :=
  fun _ _ _ _ hnm hk h => h.keeps hk (le_refl _) hnm

theorem Lasting.and {P Q : Condition} (hP : Lasting P) (hQ : Lasting Q) :
    Lasting fun n fr => P n fr ∧ Q n fr :=
  fun _ _ _ _ hnm hk h => ⟨hP hnm hk h.1, hQ hnm hk h.2⟩

/-- How and where code runs: the configuration, the program, and the finished function, whose blocks
are short enough for their indices. -/
structure Setting where
  cfg : RunConfig
  prog : Program
  func : Func
  short : ∀ b, (func.code b).length < codeLimit

namespace Setting

variable {S : Setting} {n : Nat} {b : BlockId} {p q r : Mark} {α β γ δ : Type}
  {P P' : Condition} {ev : Eval β}

/-- Where an evaluation with the outcome `out` leaves the machine: at the place `q`, or with a fault
of the block. -/
def Arrives (S : Setting) (b : BlockId) (p q : Mark) (fr : Frame) (k : Stack) (made : Nat)
    (Q : β → Condition) (out : Except Cause β × Memory) (t : State) : Prop :=
  match out.1 with
  | .ok v => ∃ fr', t = .inCode S.func b q.index fr' k ⟨out.2.issued, made⟩ ∧
      fr.Keeps p.regs q.regs fr' ∧ fr'.Mirrors q.regs q.names out.2.env ∧ Q v q.regs fr'
  | .error c => t.Faulted k ⟨out.2.issued, made⟩ c

/-- The code of block `b` from `p` to `q` does what `ev` does, if `P` holds before it and `n` more
blocks may be entered. Then `Q` holds behind it. -/
def Evaluates (S : Setting) (n : Nat) (b : BlockId) (p q : Mark) (P : Condition) (ev : Eval β)
    (Q : β → Condition) : Prop :=
  ∀ (fr : Frame) (k : Stack) (made : Nat) (μ : Memory), k.height + n < S.cfg.maxDepth →
    fr.Of S.func → fr.Mirrors p.regs p.names μ.env → P p.regs fr →
    Machine.RunsTo S.cfg S.prog (S.Arrives b p q fr k made Q (ev μ))
      (.inCode S.func b p.index fr k ⟨μ.issued, made⟩)

theorem Evaluates.pre {Q : β → Condition} (h : S.Evaluates n b p q P ev Q)
    (hP : ∀ fr, P' p.regs fr → P p.regs fr) : S.Evaluates n b p q P' ev Q :=
  fun fr k made μ hk hfr hm hp => h fr k made μ hk hfr hm (hP fr hp)

theorem Evaluates.post {Q Q' : β → Condition} (h : S.Evaluates n b p q P ev Q)
    (hQ : ∀ v fr, Q v q.regs fr → Q' v q.regs fr) : S.Evaluates n b p q P ev Q' := by
  intro fr k made μ hk hfr hm hp
  refine (h fr k made μ hk hfr hm hp).mono fun t ht => ?_
  unfold Arrives at ht ⊢
  split at ht
  · obtain ⟨fr', ht, hkeep, hm', hq⟩ := ht
    exact ⟨fr', ht, hkeep, hm', hQ _ _ hq⟩
  · exact ht

theorem Evaluates.bind {Q : β → Condition} {ev' : β → Eval δ} {R : δ → Condition}
    (h : S.Evaluates n b p q P ev Q) (hP : Lasting P) (hpq : p.regs ≤ q.regs)
    (hqr : q.regs ≤ r.regs)
    (h' : ∀ v, S.Evaluates n b q r (fun l fr => P l fr ∧ Q v l fr) (ev' v) R) :
    S.Evaluates n b p r P (ev >>= ev') R := by
  intro fr k made μ hk hfr hm hp
  refine (h fr k made μ hk hfr hm hp).trans fun t ht => ?_
  rcases hev : ev μ with ⟨c | v, ν⟩
  · rw [hev] at ht
    rw [Eval.bind_of_error hev]
    exact .here ht
  · rw [hev] at ht
    obtain ⟨fr', rfl, hkeep, hm', hq⟩ := ht
    rw [Eval.bind_of_ok hev]
    refine (h' v fr' k made ν hk (hfr.keeps hkeep) hm' ⟨hP hpq hkeep hp, hq⟩).mono fun t ht => ?_
    unfold Arrives at ht ⊢
    split at ht
    · obtain ⟨fr'', ht, hkeep', hm'', hr⟩ := ht
      exact ⟨fr'', ht, hkeep.trans hkeep' hpq hqr, hm'', hr⟩
    · exact ht

theorem evaluates_pure {Q : β → Condition} {v : β} (h : ∀ fr, P p.regs fr → Q v p.regs fr) :
    S.Evaluates n b p p P (pure v) Q := fun fr _ _ _ _ _ hm hp =>
  .here ⟨fr, rfl, .refl _ _ fr, hm, h fr hp⟩

end Setting

/-! ## Steps of a lowering -/

/-- A lowering works at the end of block `b`, which has not ended and belongs to no closure. -/
structure Builder.Stands (s : Builder) (b : BlockId) : Prop where
  has : s.func.Has b
  live : endsBlock (s.func.code b) = false
  outside : s.enclosing = []
  numRegs : 0 ≤ s.func.numRegs
  proper : s.names.Proper

theorem Builder.Stands.emit {s : Builder} {b : BlockId} (h : s.Stands b) {x : Instr}
    (hx : x.isTerminator = false) : (Build.emit b x s).2.Stands b where
  has := (Func.append_has s.func b b x).mpr h.has
  live := by rw [Build.emit_apply, Func.append_code_self h.has, endsBlock_append, hx]
  outside := h.outside
  numRegs := by simpa using h.numRegs
  proper := h.proper

theorem Builder.mark_emit {s : Builder} {b : BlockId} (h : s.func.Has b) (x : Instr) :
    (Build.emit b x s).2.mark b = ⟨(s.mark b).index + 1, s.func.numRegs, s.names⟩ := by
  simp [Builder.mark, Func.append_code_self h]

namespace Setting

open Build

variable {S : Setting} {n : Nat} {b : BlockId} {α β γ δ : Type} {m : Build α} {bs cs : List String}
  {P P' : Condition} {ev : Eval β} {Q Q' : α → β → Condition}

/-- What a step `m` does in a state: it binds the names `bs`, and the code that it lays out does what
`ev` does. -/
structure SimulatesAt (S : Setting) (n : Nat) (b : BlockId) (m : Build α) (bs : List String)
    (P : Condition) (ev : Eval β) (Q : α → β → Condition) (s : Builder) : Prop where
  stands : (m s).2.Stands b
  rebinds : Names.Rebinds bs s.names (m s).2.names
  evaluates : S.Evaluates n b (s.mark b) ((m s).2.mark b) P ev (Q (m s).1)

/-- The law of a step, in all states that lead to the finished function. -/
def Simulates (S : Setting) (n : Nat) (b : BlockId) (m : Build α) (bs : List String)
    (P : Condition) (ev : Eval β) (Q : α → β → Condition) : Prop :=
  ∀ s : Builder, s.Stands b → Agrees S.func ∅ s (m s).2 → S.SimulatesAt n b m bs P ev Q s

theorem Simulates.pre (h : S.Simulates n b m bs P ev Q) (hP : ∀ l fr, P' l fr → P l fr) :
    S.Simulates n b m bs P' ev Q := fun s hs ha =>
  { h s hs ha with evaluates := (h s hs ha).evaluates.pre fun fr => hP _ fr }

theorem Simulates.bind [Inhabited β] {f : α → Build γ} {ev' : β → Eval δ} {R : γ → δ → Condition}
    (ha : Adds {b} m ∧ ∀ a, Adds {b} (f a)) (hm : S.Simulates n b m bs P ev Q) (hP : Lasting P)
    (hf : ∀ a v, S.Simulates n b (f a) cs (fun l fr => P l fr ∧ Q a v l fr) (ev' v) R) :
    S.Simulates n b (m >>= f) (bs ++ cs) P (ev >>= ev') R := by
  obtain ⟨am, af⟩ := ha
  intro s hs ha
  have hg₁ := am s
  have hg₂ := af (m s).1 (m s).2
  rw [bind_apply] at ha
  have h₁ := hm s hs (ha.left hg₂ fun c hc => .inl (hc ▸ hs.has))
  have h₂ := fun v => hf (m s).1 v (m s).2 h₁.stands (ha.right hg₁)
  exact {
    stands := (h₂ default).stands
    rebinds := h₁.rebinds.trans (h₂ default).rebinds
    evaluates := h₁.evaluates.bind hP hg₁.func.numRegs hg₂.func.numRegs fun v => (h₂ v).evaluates }

/-- A step that changes nothing but the diagnostics. -/
theorem Simulates.after_quiet {f : α → Build γ} {R : γ → β → Condition} {a : α}
    (hm : ∀ s, ∃ diags, m s = (a, { s with diags }))
    (hf : S.Simulates n b (f a) bs P ev R) : S.Simulates n b (m >>= f) bs P ev R := by
  intro s hs ha
  obtain ⟨diags, heq⟩ := hm s
  rw [bind_apply, heq] at ha
  have h := hf { s with diags } { hs with } (ha.congr rfl rfl)
  constructor
  · rw [bind_apply, heq]
    exact h.stands
  · rw [bind_apply, heq]
    exact h.rebinds
  · rw [bind_apply, heq]
    exact h.evaluates

theorem simulates_pure {a : α} {v : β} (h : ∀ l fr, P l fr → Q a v l fr) :
    S.Simulates n b (pure a) [] P (pure v) Q := fun _ hs _ =>
  ⟨hs, .refl _, evaluates_pure fun fr => h _ fr⟩

/-! ## Instructions -/

/-- An instruction that does what `ev` does, writes the value to its register, and binds no name. -/
structure Acts (S : Setting) (P : Condition) (x : Reg → Instr) (ev : Eval Value) : Prop where
  performs : ∀ l fr made μ dest, P l fr →
    Machine.perform S.cfg.runner S.prog fr ⟨μ.issued, made⟩ (x dest) =
      (⟨(ev μ).2.issued, made⟩, (ev μ).1 >>= Machine.finish fr dest)
  env : ∀ μ, (ev μ).2.env = μ.env
  isSet : ∀ l fr μ v, P l fr → (ev μ).1 = .ok v → v.isSet = true

theorem lt_of_getElem? (S : Setting) {i : Nat} {x : Instr} (h : (S.func.code b)[i]? = some x) :
    i < codeLimit :=
  lt_trans (List.getElem?_eq_some_iff.mp h).1 (S.short b)

theorem Acts.evaluates {x : Reg → Instr} {ev : Eval Value} (h : S.Acts P x ev) {p : Mark}
    {dest : Reg} {hi : Int} (hx : (S.func.code b)[p.index]? = some (x dest))
    (hdest : S.func.InRange dest) (hlo : p.regs ≤ dest.index) (hhi : dest.index < hi) :
    S.Evaluates n b p ⟨p.index + 1, hi, p.names⟩ P ev fun v l fr => fr.Shows l (.reg dest) v := by
  intro fr k made μ hk hfr hm hp
  have hperf := h.performs p.regs fr made μ dest hp
  have henv := h.env μ
  have hset := fun v => h.isSet p.regs fr μ v hp
  generalize ev μ = out at hperf henv hset ⊢
  obtain ⟨c | v, ν⟩ := out
  · obtain ⟨t, ht, hfault⟩ := Machine.step_fail (k := k) hx (S.lt_of_getElem? hx) hperf
    exact .step ht (.here hfault)
  · obtain ⟨fr', hwrite, hkeep, hshow⟩ := hfr.write hdest (hset v rfl)
    have hperf' : Machine.perform S.cfg.runner S.prog fr ⟨μ.issued, made⟩ (x dest) =
        (⟨ν.issued, made⟩, .ok (.next fr' (Int64.ofNat 0))) := by
      rw [hperf]
      show (_, Machine.finish fr dest v) = _
      rw [Machine.finish, hwrite]
      rfl
    have hkeep' : fr.Keeps p.regs hi fr' := hkeep.mono hlo (by omega)
    have hle : dest.index + 1 ≤ hi := hhi
    refine .step (Machine.step_next hx (S.lt_of_getElem? hx) hperf')
      (.here ⟨fr', rfl, hkeep', ?_, hshow.keeps (.refl hi hi fr') hle hle⟩)
    rw [show ν.env = μ.env from henv]
    exact hm.keeps hkeep' (le_refl _) (le_of_lt (lt_of_le_of_lt hlo hhi))

theorem simulates_produce {x : Reg → Instr} {ev : Eval Value} (h : S.Acts P x ev)
    (hx : ∀ r, (x r).isTerminator = false) :
    S.Simulates n b (produce b x) [] P ev fun r v l fr => fr.Shows l (operand r) v := by
  intro s hs ha
  have happ : produce b x s = (some ⟨s.func.numRegs⟩,
      (emit b (x ⟨s.func.numRegs⟩) { s with func := s.func.newReg.1 }).2) := rfl
  have hs₁ : Builder.Stands { s with func := s.func.newReg.1 } b :=
    { hs with numRegs := by have := hs.numRegs; simp only [Func.newReg_numRegs]; omega }
  have hmark := Builder.mark_emit hs₁.has (x ⟨s.func.numRegs⟩)
  rw [happ] at ha
  have hcode := getElem?_of_agrees_emit (s := { s with func := s.func.newReg.1 }) hs₁.has
    (ha.right (adds_newReg (S := ∅) s))
  have hlt : s.func.numRegs < s.func.numRegs + 1 := by omega
  have hrange : S.func.InRange ⟨s.func.numRegs⟩ :=
    ⟨hs.numRegs, lt_of_lt_of_le hlt (by simpa using ha.numRegs)⟩
  refine ⟨?_, ?_, ?_⟩ <;> rw [happ]
  · exact hs₁.emit (hx _)
  · exact .refl _
  · rw [hmark]
    exact h.evaluates hcode hrange (le_refl _) hlt

end Setting

end ScriptMachine
