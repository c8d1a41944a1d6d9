import ScriptMachine.Proofs.Guarded.Sections

/-!
# The code of joins

What is lowered into a block where branches are joined, and what it does.

1. `JoinCode`: in front of the branching instruction the register of each joined name is set to what the
   name stands for, and each branch that has not ended sets it again at its end. Different names have
   different registers, taken behind all branches.
2. `through_moves`: the machine sets registers from others, in order. Where none of them is both set and
   read, this is as if they were set at once (`Frame.Moved`).
-/

namespace ScriptMachine

/-! ## What names stand for -/

theorem Names.get?_append (ns ms : Names) (name : String) :
    Names.get? (ns ++ ms) name = (ns.get? name).or (ms.get? name) := by
  induction ns with
  | nil => rfl
  | cons p ns ih =>
    rw [List.cons_append, Names.get?_cons, Names.get?_cons]
    by_cases h : name = p.1
    · simp [h]
    · simp only [if_neg h, ih]

/-- The names that the innermost closure takes from outside, as far as they were looked up. -/
def Builder.outside (s : Builder) : Names := (s.enclosing.head?.map (·.bound)).getD []

/-- What a name stands for in a frame. -/
def Frame.meaning (fr : Frame) (ns : Names) (name : String) : Option Value :=
  (ns.get? name).bind fr.get?

namespace Lowering

open Build

variable {g : Func} {C : Set Reg} {b : BlockId} {s t : Builder}

/-- A name stands for a register at hand or one that was captured, maybe just now. What was captured
under other names stays. -/
theorem lookup_spec (name : String) (s : Builder) :
    (lookup name s).1 = Names.get? (s.names ++ (lookup name s).2.outside) name ∧
      (lookup name s).2.names = s.names ∧
      ∀ other, other ≠ name → (lookup name s).2.outside.get? other = s.outside.get? other := by
  rw [lookup_apply]
  simp only [Names.get?_append, Builder.outside]
  cases hes : s.enclosing with
  | nil => simp [resolve, Names.get?]
  | cons e es =>
    unfold resolve
    cases hhere : (s.names.get? name).or (e.bound.get? name) with
    | some r => simp [hhere]
    | none =>
      obtain ⟨hnames, hbound⟩ := Option.or_eq_none_iff.mp hhere
      cases hout : resolve name s.func e.outer es with
      | mk found rest =>
        cases found with
        | none => simp [hnames, hbound]
        | some outer =>
          refine ⟨?_, trivial, fun other hne => ?_⟩
          · simp [hnames, Enclosure.capture, Names.get?_bind]
          · simp [Enclosure.capture, Names.get?_bind, hne]

theorem lookupBefore_spec (name : String) (s : Builder) :
    (lookupBefore s.names name s).1 =
        Names.get? (s.names ++ (lookupBefore s.names name s).2.outside) name ∧
      (lookupBefore s.names name s).2.names = s.names ∧
      ∀ other, other ≠ name →
        (lookupBefore s.names name s).2.outside.get? other = s.outside.get? other := by
  unfold lookupBefore
  cases hname : s.names.get? name with
  | some r => exact ⟨by simp [Names.get?_append, hname], rfl, fun _ _ => rfl⟩
  | none => exact lookup_spec name s

theorem startJoins_outside {ns : List String} {other : String} (hother : other ∉ ns) :
    (startJoins b s.names ns s).2.outside.get? other = s.outside.get? other := by
  induction ns generalizing s with
  | nil => rfl
  | cons name ns ih =>
    rw [startJoins_cons_apply]
    obtain ⟨-, hnames, hstays⟩ := lookupBefore_spec name (newReg s).2
    have hsame : (newReg s).2.names = s.names := rfl
    rw [hsame] at hnames hstays
    generalize lookupBefore s.names name (newReg s).2 = ou at *
    obtain ⟨old, u⟩ := ou
    dsimp only at hnames hstays ⊢
    have hrest := ih (s := (emit b (joinStart ⟨s.func.numRegs⟩ old) u).2)
      fun hmem => hother (List.mem_cons_of_mem _ hmem)
    have hnames' : (emit b (joinStart ⟨s.func.numRegs⟩ old) u).2.names = s.names := hnames
    rw [hnames'] at hrest
    rw [hrest]
    exact hstays other fun heq => hother (heq ▸ List.mem_cons_self)

/-- The code in front of a branching instruction: the register of each joined name gets what the name
stands for. -/
theorem startJoins_code {ns : List String} (hnd : ns.Nodup) (hb : s.func.Has b) :
    (startJoins b s.names ns s).2.func.code b = s.func.code b ++
      (startJoins b s.names ns s).1.map fun q =>
        joinStart q.2 (Names.get? (s.names ++ (startJoins b s.names ns s).2.outside) q.1) := by
  induction ns generalizing s with
  | nil => simp [startJoins]
  | cons name ns ih =>
    obtain ⟨hnew, hnd⟩ := List.nodup_cons.mp hnd
    rw [startJoins_cons_apply]
    obtain ⟨hold, hnames, -⟩ := lookupBefore_spec name (newReg s).2
    have hblocks := (lookupBefore_fields s.names name (newReg s).2).1
    have hhas := (adds_lookupBefore (S := ∅) s.names name (newReg s).2).func.has hb
    have hsame : (newReg s).2.names = s.names := rfl
    rw [hsame] at hold hnames
    generalize lookupBefore s.names name (newReg s).2 = ou at *
    obtain ⟨old, u⟩ := ou
    dsimp only at hold hnames hblocks hhas ⊢
    have hcode : (emit b (joinStart ⟨s.func.numRegs⟩ old) u).2.func.code b =
        s.func.code b ++ [joinStart ⟨s.func.numRegs⟩ old] := by
      rw [emit_apply, Func.append_code_self hhas, Func.code_congr hblocks]
      rfl
    have hrest := ih hnd (s := (emit b (joinStart ⟨s.func.numRegs⟩ old) u).2)
      ((Func.append_has _ _ _ _).mpr hhas)
    have hstays := startJoins_outside (b := b) (s := (emit b (joinStart ⟨s.func.numRegs⟩ old) u).2) hnew
    have hnames' : (emit b (joinStart ⟨s.func.numRegs⟩ old) u).2.names = s.names := hnames
    have hout' : (emit b (joinStart ⟨s.func.numRegs⟩ old) u).2.outside = u.outside := rfl
    rw [hnames'] at hrest hstays
    rw [hout'] at hstays
    rw [hrest, hcode, List.map_cons, List.append_assoc, List.singleton_append]
    congr 2
    dsimp only
    rw [Names.get?_append, hstays, ← Names.get?_append, ← hold]

theorem startJoins_fresh (b : BlockId) (before : Names) (ns : List String) (s : Builder) :
    (startJoins b before ns s).1.Fresh ns s.func.numRegs (startJoins b before ns s).2.func.numRegs := by
  induction ns generalizing s with
  | nil => exact ⟨rfl, nofun, nofun⟩
  | cons name ns ih =>
    rw [startJoins_cons_apply]
    have hle := (adds_lookupBefore (S := ∅) before name (newReg s).2).func.numRegs
    generalize lookupBefore before name (newReg s).2 = ou at *
    obtain ⟨old, u⟩ := ou
    dsimp only at hle ⊢
    have hnum : (emit b (joinStart ⟨s.func.numRegs⟩ old) u).2.func.numRegs = u.func.numRegs := by simp
    have hrest := ih (emit b (joinStart ⟨s.func.numRegs⟩ old) u).2
    have hgrow := (adds_startJoins (Set.mem_singleton b) before ns
      (emit b (joinStart ⟨s.func.numRegs⟩ old) u).2).func.numRegs
    have hle' : s.func.numRegs + 1 ≤ u.func.numRegs := hle
    rw [hnum] at hrest hgrow
    refine .cons name ⟨hrest.keys, fun other j hj => ?_, hrest.inj⟩ (by omega)
    have := hrest.bounds other j hj
    omega

/-- The code of a join behind the branches `brs`, between `t` and `u`: in block `b` the registers of the
joined names are set, and the branches that have not ended hand their names on. -/
structure JoinCode (b : BlockId) (brs : List Branch) (t u : Builder) (joins : Names) : Prop where
  fresh : joins.Fresh (joinedNames t.names (brs.filter fun br => !endsBlock (t.func.code br.block)))
    t.func.numRegs u.func.numRegs
  front : u.func.code b = t.func.code b ++
    joins.map fun q => joinStart q.2 (Names.get? (t.names ++ u.outside) q.1)
  closed : ∀ br ∈ brs, u.func.code br.block = t.func.code br.block ++
    if endsBlock (t.func.code br.block) then [] else br.ending t.names joins
  names : ∀ name, u.names.get? name = (joins.get? name).or (t.names.get? name)

theorem joinCode_join {brs : List Branch} (hb : t.func.Has b) (hnd : (brs.map (·.block)).Nodup)
    (hhas : ∀ br ∈ brs, t.func.Has br.block) (hne : ∀ br ∈ brs, br.block ≠ b) :
    ∃ joins, JoinCode b brs t (join b t.names brs t).2 joins := by
  obtain ⟨u, joins, h⟩ := joinSteps_join t.names hb hnd hhas hne
  have hnodup := nodup_joinedNames t.names (brs.filter fun br => !endsBlock (t.func.code br.block))
  have hcode := startJoins_code (b := b) hnodup hb
  have hfresh := startJoins_fresh b t.names
    (joinedNames t.names (brs.filter fun br => !endsBlock (t.func.code br.block))) t
  rw [h.started] at hcode hfresh
  generalize (join b t.names brs t).2 = w at *
  have hout : w.outside = u.outside := by
    simp only [Builder.outside, h.enclosing]
  refine ⟨joins, ⟨h.numRegs ▸ hfresh, ?_, h.closed, fun name => ?_⟩⟩
  · rw [hout, h.front, hcode]
  · obtain ⟨v, hv, hbind⟩ := h.bound
    obtain ⟨names, hbind', hget, -⟩ := bindAll_joins (hfresh.keys.symm ▸ hnodup) v
    obtain rfl := (Prod.mk.inj (hbind.symm.trans hbind')).2
    rw [hget, hv]

end Lowering

/-! ## Setting registers in order -/

namespace Machine

variable {cfg : RunConfig} {p : Program} {g : Func} {b : BlockId} {i : Nat} {fr : Frame} {k : Stack}
  {w : World}

/-- No fault about a register is ever raised. -/
theorem AccessFree.not_fail (hfree : AccessFree cfg p) {s t : State} (hs : Reachable cfg p s) {c : Cause}
    (hstep : step cfg p s = .state (t.fail { cause := c })) : c.isAccess = false := by
  by_contra hc
  exact hfree.not_spoilt (.step hs hstep) (State.spoilt_fail t (by simpa using hc))

theorem read_operand {old : Option Reg} {y : Value} (h : fr.read (operand old) = .ok y) :
    y = fr.given old ∧ y.isSet = true ∧ ∀ r, old = some r → fr.get? r = some y := by
  cases old with
  | none =>
    obtain rfl : Value.null = y := Except.ok.inj h
    exact ⟨rfl, rfl, nofun⟩
  | some r =>
    rcases Frame.read_eq_ok_iff.mp h with ⟨q, hq, hget⟩ | ⟨hreg, -⟩
    · obtain rfl : r = q := Value.reg.inj hq
      refine ⟨by simp [Frame.given, hget], Frame.isSet_of_get? hget, ?_⟩
      rintro q ⟨⟩
      exact hget
    · cases hreg

theorem step_joinStart (hfree : AccessFree cfg p) (hs : Reachable cfg p (.inCode g b i fr k w))
    (hi : i < codeLimit) {j : Reg} {old : Option Reg} (hx : (g.code b)[i]? = some (joinStart j old)) :
    ∃ fr', fr.write j (fr.given old) = .ok fr' ∧ (fr.given old).isSet = true ∧
      step cfg p (.inCode g b i fr k w) = .state (.inCode g b (i + 1) fr' k w) := by
  have hp : perform cfg.runner p fr w (joinStart j old) =
      (w, (fr.read (operand old)).bind (finish fr j)) := by
    cases old <;> rfl
  cases hr : fr.read (operand old) with
  | error e =>
    rw [hr] at hp
    obtain ⟨r, -, -, rfl⟩ := Frame.read_eq_error_iff.mp hr
    cases hfree.not_fail hs (step_error hx hi hp)
  | ok y =>
    rw [hr] at hp
    obtain ⟨rfl, hset, -⟩ := read_operand hr
    cases hw : fr.write j (fr.given old) with
    | error e =>
      have hp' : perform cfg.runner p fr w (joinStart j old) = (w, .error e) := by
        rw [hp, Except.bind, finish, hw]
        rfl
      obtain ⟨-, rfl⟩ := Frame.write_eq_error_iff.mp hw
      cases hfree.not_fail hs (step_error hx hi hp')
    | ok fr' =>
      have hp' : perform cfg.runner p fr w (joinStart j old) = (w, .ok (.next fr' (Int64.ofNat 0))) := by
        rw [hp, Except.bind, finish, hw]
        rfl
      exact ⟨fr', rfl, hset, step_next hx hi hp'⟩

/-- The machine sets registers from others. -/
theorem through_moves (hfree : AccessFree cfg p) (hlen : (g.code b).length < codeLimit)
    {P : State → Prop} (hP : ∀ i fr, P (.inCode g b i fr k w)) {ms : List (Reg × Option Reg)}
    (hms : Movable ms) {i : Nat} {fr : Frame} (hs : Reachable cfg p (.inCode g b i fr k w))
    (hcode : ∀ a m, ms[a]? = some m → (g.code b)[i + a]? = some (joinStart m.1 m.2)) :
    ∃ fr', Through cfg p P (.inCode g b i fr k w) (.inCode g b (i + ms.length) fr' k w) ∧
      fr.Moved ms fr' := by
  induction ms generalizing i fr with
  | nil => exact ⟨fr, .refl (hP i fr), rfl, nofun, fun _ _ => rfl⟩
  | cons m ms ih =>
    have hx : (g.code b)[i]? = some (joinStart m.1 m.2) := hcode 0 m rfl
    have hi : i < codeLimit := Nat.lt_trans (List.getElem?_eq_some_iff.mp hx).1 hlen
    obtain ⟨fr₁, hw, hset, hstep⟩ := step_joinStart hfree hs hi hx
    obtain ⟨fr', hthrough, hmoved⟩ := ih hms.tail (.step hs hstep) fun a m' ha => by
      rw [show i + 1 + a = i + (a + 1) by omega]
      exact hcode (a + 1) m' ha
    rw [show i + 1 + ms.length = i + (m :: ms).length by rw [List.length_cons]; omega] at hthrough
    exact ⟨fr', .step (hP i fr) hstep hthrough, .cons hms hw hset hmoved⟩

end Machine

end ScriptMachine
