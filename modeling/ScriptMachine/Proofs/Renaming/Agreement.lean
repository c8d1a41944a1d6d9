import ScriptMachine.Machine.Run
import ScriptMachine.Proofs.Machine.Frames
import ScriptMachine.Proofs.Machine.Operators
import ScriptMachine.Proofs.Renaming.Alike

/-!
# What instructions do up to a pairing

Two values agree if they are equal or if they are closures of the same block that were made at the same
time and captured values that agree into paired registers. No instruction can tell such values apart.

So an instruction and its counterpart do the same to frames that agree on paired registers
(`matches_perform`), or one of them fails to read or to write a register.
-/

namespace ScriptMachine

/-! ## Values -/

/-- Values that agree up to a pairing. -/
inductive Value.Agree (ρ : Pairing) : Value → Value → Prop
  | plain {v} (h : ∀ c, v ≠ .closure c) : Agree ρ v v
  | closure {c c' : Closure Value} (hid : c.id = c'.id) (hfunc : c.func = c'.func)
      (hblock : c.block = c'.block) (hparams : List.Forall₂ (ρ c.func) c.params c'.params)
      (hregs : ∀ r r', ρ c.func r r' →
        (r ∈ c.captures.map (·.reg) ↔ r' ∈ c'.captures.map (·.reg)))
      (hvalues : ∀ cp ∈ c.captures, ∀ cp' ∈ c'.captures, ρ c.func cp.reg cp'.reg →
        Agree ρ cp.value cp'.value) :
      Agree ρ (.closure c) (.closure c')

namespace Value.Agree

variable {ρ : Pairing} {v v' l l' r r' : Value}

theorem kind (h : v.Agree ρ v') : v.kind = v'.kind := by cases h <;> rfl

theorem truthy (h : v.Agree ρ v') : v.truthy = v'.truthy := by cases h <;> rfl

theorem text (h : v.Agree ρ v') : v.text = v'.text := by
  cases h with
  | plain => rfl
  | closure _ hfunc hblock => simp [Value.text, Value.render, hfunc, hblock]

theorem ofValue? (h : v.Agree ρ v') : Num.ofValue? v = Num.ofValue? v' := by cases h <;> rfl

theorem num? (h : v.Agree ρ v') : v.num? = v'.num? := by cases h <;> rfl

theorem equalWithinKind (hl : l.Agree ρ l') (hr : r.Agree ρ r') :
    equalWithinKind l r = ScriptMachine.equalWithinKind l' r' := by
  cases hl with
  | plain hl =>
    cases hr with
    | plain hr => rfl
    | closure => cases l <;> first | rfl | exact absurd rfl (hl _)
  | closure hid =>
    cases hr with
    | plain hr => cases r <;> first | rfl | exact absurd rfl (hr _)
    | closure hid' => simp [ScriptMachine.equalWithinKind, hid, hid']

theorem equal (hl : l.Agree ρ l') (hr : r.Agree ρ r') : equal l r = ScriptMachine.equal l' r' := by
  unfold ScriptMachine.equal
  rw [hl.num?, hr.num?, hl.equalWithinKind hr]

theorem order (op : OrderOp) (hl : l.Agree ρ l') (hr : r.Agree ρ r') :
    order op l r = ScriptMachine.order op l' r' := by
  cases hl with
  | plain hl =>
    cases hr with
    | plain hr => rfl
    | closure => cases l <;> rfl
  | closure =>
    cases hr with
    | plain hr => cases r <;> rfl
    | closure => rfl

/-- An operator gives the same for operands that agree. -/
theorem apply (op : BinOp) (hl : l.Agree ρ l') (hr : r.Agree ρ r') :
    op.apply l r = op.apply l' r' := by
  cases op with
  | arith op =>
    simp only [BinOp.apply, arith, hl.ofValue?, hr.ofValue?, hl.kind, hr.kind]
  | eq => simp only [BinOp.apply, hl.equal hr]
  | ne => simp only [BinOp.apply, hl.equal hr]
  | order op => simp only [BinOp.apply, hl.order op hr]
  | bits op =>
    simp only [BinOp.apply, bitwise, hl.ofValue?, hr.ofValue?, hl.kind, hr.kind]

theorem matchPattern (hl : l.Agree ρ l') (hr : r.Agree ρ r') (negate : Bool) :
    Machine.matchPattern l r negate = Machine.matchPattern l' r' negate := by
  unfold Machine.matchPattern
  rw [hl.text, hr.text]

end Value.Agree

/-! ## Causes -/

/-- Causes that agree up to a pairing: equal, or two throws of values that agree. -/
inductive Cause.Agree (ρ : Pairing) : Cause → Cause → Prop
  | same {c} (h : ∀ v, c ≠ .thrown v) : Agree ρ c c
  | thrown {v v'} (h : v.Agree ρ v') : Agree ρ (.thrown v) (.thrown v')

/-- A register could not be read, written or called. -/
def Cause.isAccess : Cause → Bool
  | readUnset _ | callUnset _ | writeOutside .. => true
  | _ => false

namespace Cause.Agree

variable {ρ : Pairing} {c c' : Cause}

theorem kind (h : c.Agree ρ c') : c.kind = c'.kind := by cases h <;> rfl

theorem message (h : c.Agree ρ c') : c.message = c'.message := by
  cases h with
  | same => rfl
  | thrown hv => exact hv.text

theorem inner? (h : c.Agree ρ c') : c.inner? = c'.inner? := by cases h <;> rfl

end Cause.Agree

/-- Causes that operators and patterns have are no throws. -/
theorem Cause.agree_of_isOfOperator {ρ : Pairing} {c : Cause} (h : c.isOfOperator = true) :
    c.Agree ρ c :=
  .same fun v hv => by rw [hv] at h; cases h

theorem Value.agree_of_isComputed {ρ : Pairing} {v : Value} (h : v.isComputed = true) :
    v.Agree ρ v :=
  .plain fun c hc => by rw [hc] at h; cases h

/-- Two results that agree, unless a register could not be accessed. -/
inductive Matches {α β : Type} (ρ : Pairing) (R : α → β → Prop) :
    Except Cause α → Except Cause β → Prop
  | ok {a b} (h : R a b) : Matches ρ R (.ok a) (.ok b)
  | error {c c'} (h : c.Agree ρ c') : Matches ρ R (.error c) (.error c')
  | left {c b} (h : c.isAccess = true) : Matches ρ R (.error c) b
  | right {a c} (h : c.isAccess = true) : Matches ρ R a (.error c)

namespace Matches

variable {α β γ δ : Type} {ρ : Pairing} {R : α → β → Prop} {S : γ → δ → Prop}

theorem bind {a : Except Cause α} {b : Except Cause β} {f : α → Except Cause γ}
    {g : β → Except Cause δ} (h : Matches ρ R a b) (hfg : ∀ x y, R x y → Matches ρ S (f x) (g y)) :
    Matches ρ S (a >>= f) (b >>= g) := by
  cases h with
  | ok h => exact hfg _ _ h
  | error h => exact .error h
  | left h => exact .left h
  | right h => exact .right h

theorem mono {R' : α → β → Prop} {a : Except Cause α} {b : Except Cause β} (h : Matches ρ R a b)
    (hR : ∀ x y, R x y → R' x y) : Matches ρ R' a b := by
  cases h with
  | ok h => exact .ok (hR _ _ h)
  | error h => exact .error h
  | left h => exact .left h
  | right h => exact .right h

/-- What an operator gives agrees with itself. -/
theorem of_computes {m : Except Cause Value} (h : Computes m) : Matches ρ (Value.Agree ρ) m m := by
  cases m with
  | ok v => exact .ok (Value.agree_of_isComputed h)
  | error c => exact .error (Cause.agree_of_isOfOperator h)

end Matches

/-! ## Frames -/

/-- Frames of two functions that are alike, with values that agree in paired registers. -/
structure Frame.Agree (ρ : Pairing) (fr fr' : Frame) : Prop where
  func : fr.func.Alike (ρ fr.func.name) (SameCaptures (ρ fr.func.name)) fr'.func
  unique : Relator.BiUnique (ρ fr.func.name)
  regs : ∀ {r r' v v'}, ρ fr.func.name r r' → fr.get? r = some v → fr'.get? r' = some v' →
    v.Agree ρ v'

namespace Frame.Agree

variable {ρ : Pairing} {fr fr' : Frame}

theorem read (h : fr.Agree ρ fr') {v v' : Value} (hv : v.Alike (ρ fr.func.name) v') :
    Matches ρ (Value.Agree ρ) (fr.read v) (fr'.read v') := by
  cases hv with
  | const hreg hc =>
    have hread : ∀ fr : Frame, fr.read v = .ok v := fun fr =>
      read_eq_ok_iff.mpr (.inr ⟨hreg, rfl⟩)
    rw [hread, hread]
    exact .ok (.plain hc)
  | @reg r r' hr =>
    cases hx : fr.get? r with
    | none =>
      rw [read_eq_error_iff.mpr ⟨r, rfl, hx, rfl⟩]
      exact .left rfl
    | some x =>
      cases hx' : fr'.get? r' with
      | none =>
        rw [read_eq_error_iff.mpr ⟨r', rfl, hx', rfl⟩]
        exact .right rfl
      | some x' =>
        rw [read_eq_ok_iff.mpr (.inl ⟨r, rfl, hx⟩), read_eq_ok_iff.mpr (.inl ⟨r', rfl, hx'⟩)]
        exact .ok (h.regs hr hx hx')

theorem readAll (h : fr.Agree ρ fr') {vs vs' : List Value}
    (hvs : List.Forall₂ (Value.Alike (ρ fr.func.name)) vs vs') :
    Matches ρ (List.Forall₂ (Value.Agree ρ)) (fr.readAll vs) (fr'.readAll vs') := by
  induction hvs with
  | nil => exact .ok .nil
  | cons hv _ ih =>
    refine (h.read hv).bind fun x x' hx => ih.bind fun xs xs' hxs => ?_
    exact .ok (.cons hx hxs)

/-- Frames after a step of a call: they agree, and the functions are the same as before. -/
def Still (ρ : Pairing) (fr a a' : Frame) : Prop := a.Agree ρ a' ∧ a.func = fr.func

theorem write (h : fr.Agree ρ fr') {d d' : Reg} (hd : ρ fr.func.name d d') {v v' : Value}
    (hv : v.Agree ρ v') : Matches ρ (Still ρ fr) (fr.write d v) (fr'.write d' v') := by
  cases hw : fr.write d v with
  | error c =>
    rw [(write_eq_error_iff.mp hw).2]
    exact .left rfl
  | ok a =>
    cases hw' : fr'.write d' v' with
    | error c =>
      rw [(write_eq_error_iff.mp hw').2]
      exact .right rfl
    | ok a' =>
      have hfunc := func_write hw
      refine .ok ⟨⟨?_, ?_, ?_⟩, hfunc⟩
      · rw [hfunc, func_write hw']
        exact h.func
      · rw [hfunc]
        exact h.unique
      · intro r r' x x' hr hx hx'
        rw [hfunc] at hr
        by_cases heq : r = d
        · -- no register has two partners
          subst heq
          obtain rfl : r' = d' := h.unique.2 hr hd
          rw [eq_of_get?_write hw hx, eq_of_get?_write hw' hx']
          exact hv
        · have hne : r' ≠ d' := by
            rintro rfl
            exact heq (h.unique.1 hr hd)
          rw [get?_write_of_ne hw heq] at hx
          rw [get?_write_of_ne hw' hne] at hx'
          exact h.regs hr hx hx'

theorem writeAll (h : fr.Agree ρ fr') {name : String} (hname : fr.func.name = name)
    {bs bs' : List (Reg × Value)}
    (hbs : List.Forall₂ (fun b b' => ρ name b.1 b'.1 ∧ b.2.Agree ρ b'.2) bs bs') :
    Matches ρ (Still ρ fr) (fr.writeAll bs) (fr'.writeAll bs') := by
  induction hbs generalizing fr fr' with
  | nil => exact .ok ⟨h, rfl⟩
  | @cons b b' bs bs' hb _ ih =>
    obtain ⟨r, v⟩ := b
    obtain ⟨r', v'⟩ := b'
    refine (h.write (hname ▸ hb.1) hb.2).bind fun a a' ha => ?_
    refine (ih ha.1 (ha.2 ▸ hname)).mono fun x x' hx => ⟨hx.1, hx.2.trans ha.2⟩

end Frame.Agree

theorem Frame.writeAll_append (fr : Frame) (bs cs : List (Reg × Value)) :
    fr.writeAll (bs ++ cs) = fr.writeAll bs >>= fun fr => fr.writeAll cs := by
  induction bs generalizing fr with
  | nil => rfl
  | cons b bs ih =>
    obtain ⟨r, v⟩ := b
    simp only [List.cons_append, writeAll, ih, bind_assoc]

theorem Frame.mem_of_get?_writeAll {fr fr' : Frame} {bs : List (Reg × Value)}
    (h : fr.writeAll bs = .ok fr') {r : Reg} {v : Value} (hv : fr'.get? r = some v) :
    fr.get? r = some v ∨ (r, v) ∈ bs := by
  induction bs generalizing fr with
  | nil =>
    rw [Except.ok.inj h]
    exact .inl hv
  | cons b bs ih =>
    obtain ⟨q, x⟩ := b
    obtain ⟨fr₁, h₁, h⟩ := bind_eq_ok_iff.mp h
    rcases ih h with hget | hmem
    · rcases get?_of_write h₁ hget with hget | ⟨rfl, rfl⟩
      · exact .inl hget
      · exact .inr List.mem_cons_self
    · exact .inr (List.mem_cons_of_mem _ hmem)

theorem Frame.isAccess_of_writeAll {fr : Frame} {bs : List (Reg × Value)} {c : Cause}
    (h : fr.writeAll bs = .error c) : c.isAccess = true := by
  induction bs generalizing fr with
  | nil => cases h
  | cons b bs ih =>
    obtain ⟨q, x⟩ := b
    rcases bind_eq_error_iff.mp h with h | ⟨fr₁, -, h⟩
    · rw [(write_eq_error_iff.mp h).2]
      rfl
    · exact ih h

/-! ## Calls -/

/-- Registers to be set in a call: what was captured, where paired registers get values that agree, and
then the arguments, one by one. -/
structure BindsAgree (ρ : Pairing) (name : String) (bs bs' : List (Reg × Value)) : Prop where
  split : ∃ cs cs' as as', bs = cs ++ as ∧ bs' = cs' ++ as' ∧
    (∀ c ∈ cs, ∀ c' ∈ cs', ρ name c.1 c'.1 → c.2.Agree ρ c'.2) ∧
    List.Forall₂ (fun a a' => ρ name a.1 a'.1 ∧ a.2.Agree ρ a'.2) as as'

/-- Calls that agree: of functions that are alike, at the same block. -/
structure Callee.Agree (ρ : Pairing) (c c' : Callee) : Prop where
  func : c.func.Alike (ρ c.func.name) (SameCaptures (ρ c.func.name)) c'.func
  unique : Relator.BiUnique (ρ c.func.name)
  start : c.start = c'.start
  tooDeep : ∀ n, (c.tooDeep n).Agree ρ (c'.tooDeep n)
  binds : BindsAgree ρ c.func.name c.binds c'.binds

theorem agree_bindArgs {ρ : Pairing} {name : String} {rs rs' : List Reg} {vs vs' : List Value}
    (hrs : List.Forall₂ (ρ name) rs rs') (hvs : List.Forall₂ (Value.Agree ρ) vs vs') :
    List.Forall₂ (fun a a' => ρ name a.1 a'.1 ∧ a.2.Agree ρ a'.2)
      (bindArgs rs vs) (bindArgs rs' vs') := by
  induction hrs generalizing vs vs' with
  | nil => exact .nil
  | cons hr _ ih =>
    cases hvs with
    | nil => exact .cons ⟨hr, .plain nofun⟩ (ih .nil)
    | cons hv hvs => exact .cons ⟨hr, hv⟩ (ih hvs)

/-- A call starts with frames that agree. -/
theorem Callee.Agree.writeAll {ρ : Pairing} {c c' : Callee} (h : c.Agree ρ c') {fr fr' : Frame}
    (hnew : Frame.new c.func = .ok fr) (hnew' : Frame.new c'.func = .ok fr') :
    Matches ρ (Frame.Agree ρ) (fr.writeAll c.binds) (fr'.writeAll c'.binds) := by
  obtain ⟨cs, cs', as, as', hbs, hbs', hcs, has⟩ := h.binds.split
  have hfunc : fr.func = c.func := by rw [(Frame.new_eq_ok_iff.mp hnew).2]
  have hfunc' : fr'.func = c'.func := by rw [(Frame.new_eq_ok_iff.mp hnew').2]
  rw [hbs, hbs', Frame.writeAll_append, Frame.writeAll_append]
  cases hw : fr.writeAll cs with
  | error e => exact .left (Frame.isAccess_of_writeAll hw)
  | ok a =>
    cases hw' : fr'.writeAll cs' with
    | error e => exact .right (Frame.isAccess_of_writeAll hw')
    | ok a' =>
      have hname : a.func = c.func := (Frame.func_writeAll hw).trans hfunc
      have hname' : a'.func = c'.func := (Frame.func_writeAll hw').trans hfunc'
      have hagree : a.Agree ρ a' := by
        refine ⟨?_, ?_, ?_⟩
        · rw [hname, hname']
          exact h.func
        · rw [hname]
          exact h.unique
        · intro r r' v v' hr hv hv'
          rw [hname] at hr
          -- in a new frame, all that is set was captured
          have hmem : (r, v) ∈ cs := by
            rcases Frame.mem_of_get?_writeAll hw hv with hget | hmem
            · rw [Frame.get?_new hnew] at hget
              cases hget
            · exact hmem
          have hmem' : (r', v') ∈ cs' := by
            rcases Frame.mem_of_get?_writeAll hw' hv' with hget | hmem
            · rw [Frame.get?_new hnew'] at hget
              cases hget
            · exact hmem
          exact hcs _ hmem _ hmem' hr
      exact (hagree.writeAll (by rw [hname]) has).mono fun _ _ hx => hx.1

/-! ## Actions -/

/-- Outcomes that agree: values that do, or faults with causes that do, at the same place. -/
inductive Outcome.Agree (ρ : Pairing) : Outcome → Outcome → Prop
  | value {v v' exit} (h : v.Agree ρ v') : Agree ρ (.value v exit) (.value v' exit)
  | fault {f f'} (hc : f.cause.Agree ρ f'.cause) (hp : f.place = f'.place) :
      Agree ρ (.fault f) (.fault f')

/-- Nested blocks of a function whose outcomes are for the same. -/
inductive After.Agree (ρ : Pairing) (name : String) : After → After → Prop
  | arm {d d'} (hd : ρ name d d') : Agree ρ name (.arm d) (.arm d')
  | body {d d' g g'} (hd : ρ name d d') (hg : g.Alike (ρ name) g') :
      Agree ρ name (.body d g) (.body d' g')
  | handler {d d' g g'} (hd : ρ name d d') (hg : g.Alike (ρ name) g') :
      Agree ρ name (.handler d g) (.handler d' g')
  | cleanup {d d' o o'} (hd : ρ name d d') (ho : o.Agree ρ o') :
      Agree ρ name (.cleanup d o) (.cleanup d' o')

/-- Instructions of the function `f` and its counterpart that ask for the same. -/
inductive Action.Agree (ρ : Pairing) (f : Func) : Action → Action → Prop
  | next {fr fr' skip} (h : fr.Agree ρ fr') (hf : fr.func = f) :
      Agree ρ f (.next fr skip) (.next fr' skip)
  | leave {v v' exit} (h : v.Agree ρ v') : Agree ρ f (.leave v exit) (.leave v' exit)
  | call {c c' d d'} (hc : c.Agree ρ c') (hd : ρ f.name d d') : Agree ρ f (.call c d) (.call c' d')
  | enter {b after after'} (h : after.Agree ρ f.name after') :
      Agree ρ f (.enter b after) (.enter b after')

/-- Results with the world behind them, which is the same unless a register could not be accessed. -/
inductive Performs {α β : Type} (ρ : Pairing) (R : α → β → Prop) :
    World × Except Cause α → World × Except Cause β → Prop
  | both {w a b} (h : Matches ρ R a b) : Performs ρ R (w, a) (w, b)
  | left {w c b} (h : c.isAccess = true) : Performs ρ R (w, .error c) b
  | right {a w c} (h : c.isAccess = true) : Performs ρ R a (w, .error c)

theorem Performs.bind {α β γ δ : Type} {ρ : Pairing} {R : α → β → Prop} {S : γ → δ → Prop}
    {a : World × Except Cause α} {b : World × Except Cause β} {f : α → Except Cause γ}
    {g : β → Except Cause δ} (h : Performs ρ R a b) (hfg : ∀ x y, R x y → Matches ρ S (f x) (g y)) :
    Performs ρ S (a.1, a.2.bind f) (b.1, b.2.bind g) := by
  cases h with
  | both h => exact .both (h.bind hfg)
  | left h => exact .left h
  | right h => exact .right h

/-- Either no program has a function of some name, or both have one. -/
theorem Program.Alike.func?_cases {ρ : Pairing} {p p' : Program} (hp : p.Alike ρ p') (name : String) :
    p.func? name = none ∧ p'.func? name = none ∨
      ∃ f f', p.func? name = some f ∧ p'.func? name = some f' ∧ f.name = name ∧
        f.Alike (ρ f.name) (SameCaptures (ρ f.name)) f' := by
  have hrel := hp.funcs name
  cases hf : p.func? name with
  | none =>
    rw [hf] at hrel
    generalize p'.func? name = o at hrel ⊢
    cases hrel
    exact .inl ⟨rfl, rfl⟩
  | some f =>
    have hname := (Program.func?_eq_some hf).2
    rw [hf] at hrel
    generalize p'.func? name = o at hrel ⊢
    cases hrel with
    | some h => exact .inr ⟨f, _, rfl, rfl, hname, hname ▸ h⟩

namespace Machine

variable {ρ : Pairing} {p p' : Program} {fr fr' : Frame}

section
variable (hp : Program.Alike ρ p p') {vs vs' : List Value}

include hp

theorem matches_calleeNamed (name : String) (hvs : List.Forall₂ (Value.Agree ρ) vs vs') :
    Matches ρ (Callee.Agree ρ) (calleeNamed p name vs) (calleeNamed p' name vs') := by
  unfold calleeNamed
  rcases hp.func?_cases name with ⟨hf, hf'⟩ | ⟨f, f', hf, hf', rfl, hfunc⟩
  · rw [hf, hf']
    exact .error (.same nofun)
  · rw [hf, hf']
    refine .ok ⟨hfunc, hp.unique _, hfunc.entry, fun n => .same nofun,
      ⟨[], [], _, _, rfl, rfl, by simp, ?_⟩⟩
    exact agree_bindArgs hfunc.paramRegs hvs

theorem matches_callee {v v' : Value} (hv : v.Agree ρ v') (hvs : List.Forall₂ (Value.Agree ρ) vs vs') :
    Matches ρ (Callee.Agree ρ) (callee p v vs) (callee p' v' vs') := by
  cases hv with
  | plain hne =>
    cases v with
    | string name => exact matches_calleeNamed hp name hvs
    | closure c => exact absurd rfl (hne c)
    | _ => exact .error (.same nofun)
  | @closure c c' hid hfunc hblock hparams hregs hvalues =>
    unfold callee calleeClosure
    dsimp only
    rw [← hfunc]
    rcases hp.func?_cases c.func with ⟨hf, hf'⟩ | ⟨f, f', hf, hf', hname, halike⟩
    · rw [hf, hf']
      exact .error (.same nofun)
    · rw [hf, hf']
      rw [← hname] at hparams hvalues
      refine .ok ⟨halike, hp.unique _, hblock, fun n => hblock ▸ .same nofun,
        ⟨_, _, _, _, rfl, rfl, ?_, agree_bindArgs hparams hvs⟩⟩
      intro b hb b' hb' hr
      obtain ⟨cp, hcp, rfl⟩ := List.mem_map.mp hb
      obtain ⟨cp', hcp', rfl⟩ := List.mem_map.mp hb'
      exact hvalues cp hcp cp' hcp' hr

theorem matches_callHeld (h : fr.Agree ρ fr') {r r' : Reg} (hr : ρ fr.func.name r r')
    (hvs : List.Forall₂ (Value.Alike (ρ fr.func.name)) vs vs') :
    Matches ρ (Callee.Agree ρ) (callHeld p fr r vs) (callHeld p' fr' r' vs') := by
  unfold callHeld
  cases hv : fr.get? r with
  | none => exact .left rfl
  | some v =>
    cases hv' : fr'.get? r' with
    | none => exact .right rfl
    | some v' =>
      exact (h.readAll hvs).bind fun xs xs' hxs => matches_callee hp (h.regs hr hv hv') hxs

end

/-! ## Instructions -/

theorem isAccess_of_read {v : Value} {c : Cause} (h : fr.read v = .error c) : c.isAccess = true := by
  obtain ⟨r, -, -, rfl⟩ := Frame.read_eq_error_iff.mp h
  rfl

/-- What a new closure captures are the values of its operands. -/
theorem capture_eq_ok {cs ks : List (Capture Value)} (h : capture fr cs = .ok ks) :
    ks.map (·.reg) = cs.map (·.reg) ∧
      ∀ k ∈ ks, ∃ c ∈ cs, c.reg = k.reg ∧ fr.read c.value = .ok k.value := by
  induction cs generalizing ks with
  | nil =>
    obtain rfl := Except.ok.inj h
    simp
  | cons c cs ih =>
    obtain ⟨v, hv, h⟩ := bind_eq_ok_iff.mp h
    obtain ⟨rest, hrest, h⟩ := bind_eq_ok_iff.mp h
    obtain rfl := Except.ok.inj h
    obtain ⟨hregs, hvalues⟩ := ih hrest
    refine ⟨by simp [hregs], ?_⟩
    intro k hk
    rcases List.mem_cons.mp hk with rfl | hk
    · exact ⟨c, List.mem_cons_self, rfl, hv⟩
    · obtain ⟨c', hc', hreg, hread⟩ := hvalues k hk
      exact ⟨c', List.mem_cons_of_mem c hc', hreg, hread⟩

theorem isAccess_of_capture {cs : List (Capture Value)} {c : Cause}
    (h : capture fr cs = .error c) : c.isAccess = true := by
  induction cs with
  | nil => cases h
  | cons k cs ih =>
    rcases bind_eq_error_iff.mp h with h | ⟨v, -, h⟩
    · exact isAccess_of_read h
    · rcases bind_eq_error_iff.mp h with h | ⟨rest, -, h⟩
      · exact ih h
      · cases h

section
variable (h : fr.Agree ρ fr')
include h

/-- What closures of two instructions capture: the same into paired registers. -/
theorem capture_agree {cs cs' ks ks' : List (Capture Value)}
    (hcs : SameCaptures (ρ fr.func.name) cs cs') (hks : capture fr cs = .ok ks)
    (hks' : capture fr' cs' = .ok ks') :
    (∀ r r', ρ fr.func.name r r' → (r ∈ ks.map (·.reg) ↔ r' ∈ ks'.map (·.reg))) ∧
      ∀ k ∈ ks, ∀ k' ∈ ks', ρ fr.func.name k.reg k'.reg → k.value.Agree ρ k'.value := by
  obtain ⟨hregs, hvalues⟩ := capture_eq_ok hks
  obtain ⟨hregs', hvalues'⟩ := capture_eq_ok hks'
  constructor
  · intro r r' hr
    rw [hregs, hregs']
    exact hcs.regs r r' hr
  · intro k hk k' hk' hr
    obtain ⟨c, hc, hreg, hread⟩ := hvalues k hk
    obtain ⟨c', hc', hreg', hread'⟩ := hvalues' k' hk'
    have hagree := h.read (hcs.values c hc c' hc' (by rwa [hreg, hreg']))
    rw [hread, hread'] at hagree
    cases hagree with
    | ok hv => exact hv

theorem matches_finish {d d' : Reg} (hd : ρ fr.func.name d d') {v v' : Value} (hv : v.Agree ρ v') :
    Matches ρ (Action.Agree ρ fr.func) (finish fr d v) (finish fr' d' v') := by
  have hw := h.write hd hv
  unfold finish
  generalize fr.write d v = a at hw ⊢
  generalize fr'.write d' v' = b at hw ⊢
  cases hw with
  | ok hw => exact .ok (.next hw.1 hw.2)
  | error hc => exact .error hc
  | left hc => exact .left hc
  | right hc => exact .right hc

theorem matches_circuit (kind : Circuit) {d d' : Reg} (hd : ρ fr.func.name d d') {l l' r r' : Value}
    (hl : l.Alike (ρ fr.func.name) l') (hr : r.Alike (ρ fr.func.name) r') (skip : Int64) :
    Matches ρ (Action.Agree ρ fr.func) (circuit fr kind d l r skip)
      (circuit fr' kind d' l' r' skip) := by
  have hdecided : (Value.bool kind.decides).Agree ρ (.bool kind.decides) := .plain nofun
  refine (h.read hl).bind fun x x' hx => ?_
  rw [hx.truthy, hr.isReg]
  split
  · exact (h.write hd hdecided).bind fun a a' ha => .ok (.next ha.1 ha.2)
  · split
    · exact .ok (.next h rfl)
    · exact matches_finish h hd (.plain nofun)

theorem matches_chooseArm {v v' : Value} (hv : v.Agree ρ v') (default : BlockId) {arms arms' : List Arm}
    (harms : List.Forall₂ (Arm.Alike (ρ fr.func.name)) arms arms') :
    Matches ρ Eq (chooseArm fr v default arms) (chooseArm fr' v' default arms') := by
  induction harms with
  | nil => exact .ok rfl
  | cons ha _ ih =>
    refine (h.read ha.pattern).bind fun x x' hx => ?_
    rw [hv.equal hx]
    split
    · exact .ok ha.block
    · exact ih

theorem matches_leave (how : Terminator) {v v' : Value} (hv : v.Alike (ρ fr.func.name) v') :
    Matches ρ (Action.Agree ρ fr.func) (leave fr how v) (leave fr' how v') := by
  refine (h.read hv).bind fun x x' hx => ?_
  cases how with
  | ret => exact .ok (.leave hx)
  | closureRet => exact .ok (.leave hx)
  | yield => exact .ok (.leave hx)
  | throw => exact .error (.thrown hx)

/-- The value of a command that answers with no closure. -/
theorem matches_command {runner : Option Runner}
    (hrunner : ∀ run ∈ runner, run.ClosureFree) (w : World) (name : String)
    {vs vs' : List Value} (hvs : List.Forall₂ (Value.Alike (ρ fr.func.name)) vs vs') :
    Performs ρ (Value.Agree ρ) (command runner fr w name vs) (command runner fr' w name vs') := by
  unfold command
  cases runner with
  | none => exact .both (.error (.same nofun))
  | some run =>
    have hread := h.readAll hvs
    dsimp only
    generalize fr.readAll vs = a at hread ⊢
    generalize fr'.readAll vs' = b at hread ⊢
    cases hread with
    | error hc => exact .both (.error hc)
    | left hc => exact .left hc
    | right hc => exact .right hc
    | @ok xs xs' hxs =>
      have htexts : xs.map Value.text = xs'.map Value.text := by
        induction hxs with
        | nil => rfl
        | cons hx _ ih => simp [hx.text, ih]
      have hfree := hrunner run rfl w.issued name (xs'.map Value.text)
      dsimp only
      rw [htexts]
      generalize run.answer w.issued name (xs'.map Value.text) = answer at hfree ⊢
      cases answer with
      | error problem => exact .both (.error (.same nofun))
      | ok v =>
        cases v with
        | closure c => exact absurd rfl (hfree _ rfl)
        | _ => exact .both (.ok (.plain nofun))

theorem matches_create (w : World) (block : BlockId)
    {cs cs' : List (Capture Value)} (hcs : SameCaptures (ρ fr.func.name) cs cs')
    {params params' : List Reg} (hparams : List.Forall₂ (ρ fr.func.name) params params') :
    Performs ρ (Value.Agree ρ) (create fr w block cs params)
      (create fr' w block cs' params') := by
  unfold create
  cases hks : capture fr cs with
  | error c => exact .left (isAccess_of_capture hks)
  | ok ks =>
    cases hks' : capture fr' cs' with
    | error c => exact .right (isAccess_of_capture hks')
    | ok ks' =>
      obtain ⟨hregs, hvalues⟩ := capture_agree h hcs hks hks'
      exact .both (.ok (.closure rfl h.func.name rfl hparams hregs hvalues))

end

/-- An instruction and its counterpart do the same, unless a register cannot be accessed. -/
theorem matches_perform (hp : Program.Alike ρ p p') (h : fr.Agree ρ fr') {runner : Option Runner}
    (hrunner : ∀ run ∈ runner, run.ClosureFree) (w : World) {x x' : Instr}
    (hx : x.Alike (ρ fr.func.name) (SameCaptures (ρ fr.func.name)) x') :
    Performs ρ (Action.Agree ρ fr.func) (perform runner p fr w x) (perform runner p' fr' w x') := by
  cases hx with
  | binary hd hl hr =>
    refine .both ((h.read hl).bind fun a a' ha => (h.read hr).bind fun b b' hb => ?_)
    rw [ha.apply _ hb]
    exact (Matches.of_computes (computes_apply _ _ _)).bind fun v v' hv => matches_finish h hd hv
  | regex hd hl hr =>
    refine .both ((h.read hl).bind fun a a' ha => (h.read hr).bind fun b b' hb => ?_)
    rw [ha.matchPattern hb]
    exact (Matches.of_computes (computes_matchPattern _ _ _)).bind fun v v' hv =>
      matches_finish h hd hv
  | load hd hv => exact .both ((h.read hv).bind fun v v' hv => matches_finish h hd hv)
  | move hd hr => exact .both ((h.read (.reg hr)).bind fun v v' hv => matches_finish h hd hv)
  | circuit hd hl hr => exact .both (matches_circuit h _ hd hl hr _)
  | call hd hargs =>
    refine .both ((h.readAll hargs).bind fun vs vs' hvs => ?_)
    exact (matches_calleeNamed hp _ hvs).bind fun c c' hc => .ok (.call hc hd)
  | closureCreate hd hcaps hparams =>
    exact (matches_create h w _ hcaps hparams).bind fun v v' hv => matches_finish h hd hv
  | closureCall hd hr hargs =>
    exact .both ((matches_callHeld hp h hr hargs).bind fun c c' hc => .ok (.call hc hd))
  | command hd hargs =>
    exact (matches_command h hrunner w _ hargs).bind fun v v' hv => matches_finish h hd hv
  | dispatch hd hv harms =>
    refine .both ((h.read hv).bind fun v v' hv => (matches_chooseArm h hv _ harms).bind ?_)
    rintro b _ rfl
    split
    · exact matches_finish h hd (.plain nofun)
    · exact .ok (.enter (.arm hd))
  | guarded hd hg =>
    refine .both ?_
    rw [hg.body]
    exact .ok (.enter (.body hd hg))
  | leave hv => exact .both (matches_leave h _ hv)

end Machine

end ScriptMachine
