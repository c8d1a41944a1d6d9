import Mathlib.Data.List.Forall2
import Mathlib.Logic.Relator
import ScriptMachine.Proofs.Blocks
import ScriptMachine.Proofs.Machine.Raised
import ScriptMachine.Proofs.Programs

/-!
# Programs that differ in their registers

A pairing says which registers of two programs stand for each other, function by function. Two
programs are alike if their functions have the same blocks, with the same instructions up to the
pairing, and differ further only in what closures capture into registers that have no partner: since
every register that an instruction names has one, no code looks at these.

`Value.Agree` compares what the runs of two such programs compute: closures by their identity, their
block, and what they captured into paired registers.
-/

namespace ScriptMachine

/-- The registers of two programs that stand for each other, function by function. -/
abbrev Pairing := String → Reg → Reg → Prop

/-! ## Code -/

/-- Operands that are the same up to a pairing: two registers, or a constant that is no closure. -/
inductive Value.Alike (ρ : Reg → Reg → Prop) : Value → Value → Prop
  | reg {r r'} (h : ρ r r') : Alike ρ (.reg r) (.reg r')
  | const {v} (hreg : v.isReg = false) (hc : ∀ c, v ≠ .closure c) : Alike ρ v v

structure Arm.Alike (ρ : Reg → Reg → Prop) (a a' : Arm) : Prop where
  pattern : a.pattern.Alike ρ a'.pattern
  block : a.block = a'.block

/-- Guarded sections with the same blocks; what a handler receives goes to paired registers. -/
structure Guard.Alike (ρ : Reg → Reg → Prop) (g g' : Guard) : Prop where
  body : g.body = g'.body
  handler : g.handler = g'.handler
  cleanup : g.cleanup = g'.cleanup
  caught : g.handler ≠ .none → ρ g.caught g'.caught

/-- Instructions that are the same up to a pairing; `C` compares what closures capture. -/
inductive Instr.Alike (ρ : Reg → Reg → Prop)
    (C : List (Capture Value) → List (Capture Value) → Prop) : Instr → Instr → Prop
  | binary {op d d' l l' r r'} (hd : ρ d d') (hl : l.Alike ρ l') (hr : r.Alike ρ r') :
      Alike ρ C (.binary op d l r) (.binary op d' l' r')
  | regex {d d' l l' r r' negate} (hd : ρ d d') (hl : l.Alike ρ l') (hr : r.Alike ρ r') :
      Alike ρ C (.regex d l r negate) (.regex d' l' r' negate)
  | load {d d' v v'} (hd : ρ d d') (hv : v.Alike ρ v') : Alike ρ C (.load d v) (.load d' v')
  | move {d d' r r'} (hd : ρ d d') (hr : ρ r r') : Alike ρ C (.move d r) (.move d' r')
  | circuit {kind d d' l l' r r' skip} (hd : ρ d d') (hl : l.Alike ρ l') (hr : r.Alike ρ r') :
      Alike ρ C (.circuit kind d l r skip) (.circuit kind d' l' r' skip)
  | call {d d' func args args'} (hd : ρ d d') (hargs : List.Forall₂ (Value.Alike ρ) args args') :
      Alike ρ C (.call d func args) (.call d' func args')
  | closureCreate {d d' block caps caps' params params' names} (hd : ρ d d') (hcaps : C caps caps')
      (hparams : List.Forall₂ ρ params params') :
      Alike ρ C (.closureCreate d block caps params names)
        (.closureCreate d' block caps' params' names)
  | closureCall {d d' r r' args args'} (hd : ρ d d') (hr : ρ r r')
      (hargs : List.Forall₂ (Value.Alike ρ) args args') :
      Alike ρ C (.closureCall d r args) (.closureCall d' r' args')
  | command {d d' name args args'} (hd : ρ d d')
      (hargs : List.Forall₂ (Value.Alike ρ) args args') :
      Alike ρ C (.command d name args) (.command d' name args')
  | dispatch {d d' v v' arms arms' default} (hd : ρ d d') (hv : v.Alike ρ v')
      (harms : List.Forall₂ (Arm.Alike ρ) arms arms') :
      Alike ρ C (.dispatch d v arms default) (.dispatch d' v' arms' default)
  | guarded {d d' g g'} (hd : ρ d d') (hg : g.Alike ρ g') :
      Alike ρ C (.guarded d g) (.guarded d' g')
  | leave {how v v'} (hv : v.Alike ρ v') : Alike ρ C (.leave how v) (.leave how v')

/-- Functions that are the same up to a pairing. -/
structure Func.Alike (ρ : Reg → Reg → Prop)
    (C : List (Capture Value) → List (Capture Value) → Prop) (f f' : Func) : Prop where
  name : f.name = f'.name
  params : f.params = f'.params
  paramRegs : List.Forall₂ ρ f.paramRegs f'.paramRegs
  entry : f.entry = f'.entry
  size : f.blocks.size = f'.blocks.size
  code : ∀ b, List.Forall₂ (Instr.Alike ρ C) (f.code b) (f'.code b)

/-- Closures that capture the same into paired registers. -/
structure SameCaptures (ρ : Reg → Reg → Prop) (cs cs' : List (Capture Value)) : Prop where
  regs : ∀ r r', ρ r r' → (r ∈ cs.map (·.reg) ↔ r' ∈ cs'.map (·.reg))
  values : ∀ c ∈ cs, ∀ c' ∈ cs', ρ c.reg c'.reg → c.value.Alike ρ c'.value

/-- Programs that are the same up to a pairing, in which no register has two partners. -/
structure Program.Alike (ρ : Pairing) (p p' : Program) : Prop where
  unique : ∀ name, Relator.BiUnique (ρ name)
  funcs : ∀ name, Option.Rel (Func.Alike (ρ name) (SameCaptures (ρ name)))
    (p.func? name) (p'.func? name)

section
variable {ρ σ : Reg → Reg → Prop} {C D : List (Capture Value) → List (Capture Value) → Prop}

theorem Value.Alike.mono (h : ∀ r r', ρ r r' → σ r r') {v v' : Value} (hv : v.Alike ρ v') :
    v.Alike σ v' := by
  cases hv with
  | reg hr => exact .reg (h _ _ hr)
  | const hreg hc => exact .const hreg hc

theorem Value.Alike.isReg {v v' : Value} (h : v.Alike ρ v') : v.isReg = v'.isReg := by
  cases h <;> rfl

theorem Instr.Alike.mono (h : ∀ r r', ρ r r' → σ r r') (hC : ∀ cs cs', C cs cs' → D cs cs')
    {x x' : Instr} (hx : x.Alike ρ C x') : x.Alike σ D x' := by
  have hv : ∀ {v v' : Value}, v.Alike ρ v' → v.Alike σ v' := fun hv => hv.mono h
  have hvs : ∀ {vs vs' : List Value}, List.Forall₂ (Value.Alike ρ) vs vs' →
      List.Forall₂ (Value.Alike σ) vs vs' := fun hvs => hvs.imp fun _ _ => hv
  cases hx with
  | binary hd hl hr => exact .binary (h _ _ hd) (hv hl) (hv hr)
  | regex hd hl hr => exact .regex (h _ _ hd) (hv hl) (hv hr)
  | load hd hl => exact .load (h _ _ hd) (hv hl)
  | move hd hr => exact .move (h _ _ hd) (h _ _ hr)
  | circuit hd hl hr => exact .circuit (h _ _ hd) (hv hl) (hv hr)
  | call hd hargs => exact .call (h _ _ hd) (hvs hargs)
  | closureCreate hd hcaps hparams =>
    exact .closureCreate (h _ _ hd) (hC _ _ hcaps) (hparams.imp h)
  | closureCall hd hr hargs => exact .closureCall (h _ _ hd) (h _ _ hr) (hvs hargs)
  | command hd hargs => exact .command (h _ _ hd) (hvs hargs)
  | dispatch hd hl harms =>
    exact .dispatch (h _ _ hd) (hv hl) (harms.imp fun _ _ ha => ⟨hv ha.pattern, ha.block⟩)
  | guarded hd hg => exact .guarded (h _ _ hd) { hg with caught := fun hne => h _ _ (hg.caught hne) }
  | leave hl => exact .leave (hv hl)

theorem Instr.Alike.isTerminator {x x' : Instr} (h : x.Alike ρ C x') :
    x.isTerminator = x'.isTerminator := by
  cases h <;> rfl

theorem Func.Alike.mono (h : ∀ r r', ρ r r' → σ r r') (hC : ∀ cs cs', C cs cs' → D cs cs')
    {f f' : Func} (hf : f.Alike ρ C f') : f.Alike σ D f' :=
  { hf with
    paramRegs := hf.paramRegs.imp h
    code := fun b => (hf.code b).imp fun _ _ hx => hx.mono h hC }

/-- Code that is the same up to a pairing ends its block or not. -/
theorem endsBlock_eq_of_alike {xs xs' : List Instr}
    (h : List.Forall₂ (Instr.Alike ρ C) xs xs') : endsBlock xs = endsBlock xs' := by
  induction h with
  | nil => rfl
  | @cons x x' xs xs' hx hxs ih =>
    cases hxs with
    | nil => exact hx.isTerminator
    | cons => simpa [endsBlock] using ih

end

/-! ## Programs that are alike to a third -/

/-- Registers that have the same partner. -/
def SamePartner (ρ ρ' : Reg → Reg → Prop) (r r' : Reg) : Prop := ∃ q, ρ r q ∧ ρ' r' q

section
variable {ρ ρ' : Reg → Reg → Prop}

theorem biUnique_samePartner (h : Relator.BiUnique ρ) (h' : Relator.BiUnique ρ') :
    Relator.BiUnique (SamePartner ρ ρ') := by
  constructor
  · rintro r₁ r' r₂ ⟨q₁, h₁, h₁'⟩ ⟨q₂, h₂, h₂'⟩
    obtain rfl := h'.2 h₁' h₂'
    exact h.1 h₁ h₂
  · rintro r r₁' r₂' ⟨q₁, h₁, h₁'⟩ ⟨q₂, h₂, h₂'⟩
    obtain rfl := h.2 h₁ h₂
    exact h'.1 h₁' h₂'

theorem forall₂_through {α : Type} {R R' Q : α → α → Prop}
    (hQ : ∀ {x x' y}, R x y → R' x' y → Q x x') {xs xs' ys : List α} (h : List.Forall₂ R xs ys)
    (h' : List.Forall₂ R' xs' ys) : List.Forall₂ Q xs xs' := by
  induction h generalizing xs' with
  | nil =>
    cases h'
    exact .nil
  | cons hx _ ih =>
    cases h' with
    | cons hx' hxs' => exact .cons (hQ hx hx') (ih hxs')

theorem Value.Alike.through {v v' w : Value} (h : v.Alike ρ w) (h' : v'.Alike ρ' w) :
    v.Alike (SamePartner ρ ρ') v' := by
  cases h with
  | reg hr =>
    cases h' with
    | reg hr' => exact .reg ⟨_, hr, hr'⟩
    | const hreg _ => cases hreg
  | const hreg hc =>
    cases h' with
    | reg => cases hreg
    | const => exact .const hreg hc

theorem SameCaptures.through {cs cs' ds : List (Capture Value)} (h : SameCaptures ρ cs ds)
    (h' : SameCaptures ρ' cs' ds) : SameCaptures (SamePartner ρ ρ') cs cs' where
  regs := fun r r' ⟨q, hr, hr'⟩ => (h.regs r q hr).trans (h'.regs r' q hr').symm
  values := by
    rintro c hc c' hc' ⟨q, hr, hr'⟩
    obtain ⟨d, hd, rfl⟩ := List.mem_map.mp ((h.regs c.reg q hr).mp (List.mem_map_of_mem hc))
    exact (h.values c hc d hd hr).through (h'.values c' hc' d hd hr')

theorem Guard.Alike.through {g g' k : Guard} (h : g.Alike ρ k) (h' : g'.Alike ρ' k) :
    g.Alike (SamePartner ρ ρ') g' where
  body := h.body.trans h'.body.symm
  handler := h.handler.trans h'.handler.symm
  cleanup := h.cleanup.trans h'.cleanup.symm
  caught hne := ⟨k.caught, h.caught hne, h'.caught (h'.handler ▸ h.handler ▸ hne)⟩

theorem Instr.Alike.through {x x' y : Instr} (h : x.Alike ρ (SameCaptures ρ) y)
    (h' : x'.Alike ρ' (SameCaptures ρ') y) :
    x.Alike (SamePartner ρ ρ') (SameCaptures (SamePartner ρ ρ')) x' := by
  have hvs : ∀ {vs vs' ws : List Value}, List.Forall₂ (Value.Alike ρ) vs ws →
      List.Forall₂ (Value.Alike ρ') vs' ws → List.Forall₂ (Value.Alike (SamePartner ρ ρ')) vs vs' :=
    forall₂_through fun hv hv' => hv.through hv'
  cases h with
  | binary hd hl hr =>
    cases h' with | binary hd' hl' hr' =>
    exact .binary ⟨_, hd, hd'⟩ (hl.through hl') (hr.through hr')
  | regex hd hl hr =>
    cases h' with | regex hd' hl' hr' =>
    exact .regex ⟨_, hd, hd'⟩ (hl.through hl') (hr.through hr')
  | load hd hv =>
    cases h' with | load hd' hv' =>
    exact .load ⟨_, hd, hd'⟩ (hv.through hv')
  | move hd hr =>
    cases h' with | move hd' hr' =>
    exact .move ⟨_, hd, hd'⟩ ⟨_, hr, hr'⟩
  | circuit hd hl hr =>
    cases h' with | circuit hd' hl' hr' =>
    exact .circuit ⟨_, hd, hd'⟩ (hl.through hl') (hr.through hr')
  | call hd hargs =>
    cases h' with | call hd' hargs' =>
    exact .call ⟨_, hd, hd'⟩ (hvs hargs hargs')
  | closureCreate hd hcaps hparams =>
    cases h' with | closureCreate hd' hcaps' hparams' =>
    exact .closureCreate ⟨_, hd, hd'⟩ (hcaps.through hcaps')
      (forall₂_through (fun hr hr' => ⟨_, hr, hr'⟩) hparams hparams')
  | closureCall hd hr hargs =>
    cases h' with | closureCall hd' hr' hargs' =>
    exact .closureCall ⟨_, hd, hd'⟩ ⟨_, hr, hr'⟩ (hvs hargs hargs')
  | command hd hargs =>
    cases h' with | command hd' hargs' =>
    exact .command ⟨_, hd, hd'⟩ (hvs hargs hargs')
  | dispatch hd hv harms =>
    cases h' with | dispatch hd' hv' harms' =>
    exact .dispatch ⟨_, hd, hd'⟩ (hv.through hv') (forall₂_through
      (fun ha ha' => ⟨ha.pattern.through ha'.pattern, ha.block.trans ha'.block.symm⟩) harms harms')
  | guarded hd hg =>
    cases h' with | guarded hd' hg' =>
    exact .guarded ⟨_, hd, hd'⟩ (hg.through hg')
  | leave hv =>
    cases h' with | leave hv' =>
    exact .leave (hv.through hv')

theorem Func.Alike.through {f f' g : Func} (h : f.Alike ρ (SameCaptures ρ) g)
    (h' : f'.Alike ρ' (SameCaptures ρ') g) :
    f.Alike (SamePartner ρ ρ') (SameCaptures (SamePartner ρ ρ')) f' where
  name := h.name.trans h'.name.symm
  params := h.params.trans h'.params.symm
  paramRegs := forall₂_through (fun hr hr' => ⟨_, hr, hr'⟩) h.paramRegs h'.paramRegs
  entry := h.entry.trans h'.entry.symm
  size := h.size.trans h'.size.symm
  code b := forall₂_through (fun hx hx' => hx.through hx') (h.code b) (h'.code b)

end

/-- Two programs that are alike to a third are alike. -/
theorem Program.Alike.through {ρ ρ' : Pairing} {p p' q : Program} (h : p.Alike ρ q)
    (h' : p'.Alike ρ' q) : p.Alike (fun name => SamePartner (ρ name) (ρ' name)) p' where
  unique name := biUnique_samePartner (h.unique name) (h'.unique name)
  funcs name := by
    have hf := h.funcs name
    have hf' := h'.funcs name
    generalize p.func? name = f at hf
    generalize p'.func? name = f' at hf'
    generalize q.func? name = g at hf hf'
    cases hf with
    | none =>
      cases hf'
      exact .none
    | some hf =>
      cases hf' with
      | some hf' => exact .some (hf.through hf')

end ScriptMachine
