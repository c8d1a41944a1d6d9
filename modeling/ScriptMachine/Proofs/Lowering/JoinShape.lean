import ScriptMachine.Proofs.Lowering.BranchShape

/-!
# The shape of joins

Behind branches, each name that one of them binds anew gets a register: it is set in front of the
branching instruction, and each branch that reaches its end moves its own value there.

`shape_join` says what this does to the code: in the block of the branching instruction there are
plain instructions, and every branch ends.
-/

namespace ScriptMachine

/-- The names that are joined behind branches. -/
def joinedNames (before : Names) (brs : List Branch) : List String :=
  (brs.flatMap (·.rebound before)).eraseDups.mergeSort (· ≤ ·)

theorem mem_joinedNames {before : Names} {brs : List Branch} {name : String} :
    name ∈ joinedNames before brs ↔ ∃ br ∈ brs, name ∈ br.rebound before := by
  simp [joinedNames]

/-- The registers that a branch sets at its end. -/
def Branch.moves (br : Branch) (before joins : Names) : List (Reg × Option Reg) :=
  (br.rebound before).filterMap fun name => do
    let j ← joins.get? name
    let r ← br.names.get? name
    return (j, some r)

theorem Branch.mem_moves {br : Branch} {before joins : Names} {m : Reg × Option Reg} :
    m ∈ br.moves before joins ↔ ∃ name ∈ br.rebound before, ∃ r, joins.get? name = some m.1 ∧
      br.names.get? name = some r ∧ m.2 = some r := by
  obtain ⟨j, old⟩ := m
  simp only [moves, List.mem_filterMap, Option.bind_eq_bind, Option.bind_eq_some_iff, Option.pure_def,
    Option.some.injEq, Prod.mk.injEq]
  constructor
  · rintro ⟨name, hname, j', hj, r, hr, rfl, rfl⟩
    exact ⟨name, hname, r, hj, hr, rfl⟩
  · rintro ⟨name, hname, r, hj, hr, rfl⟩
    exact ⟨name, hname, j, hj, r, hr, rfl, rfl⟩

theorem Branch.ending_eq_moves (br : Branch) (before joins : Names) : br.ending before joins =
    (br.moves before joins).map (fun m => joinStart m.1 m.2) ++ [.leave .yield (operand br.last)] := by
  unfold ending moves
  rw [List.map_filterMap]
  congr 1
  refine List.filterMap_congr fun name _ => ?_
  cases joins.get? name with
  | none => rfl
  | some j => cases br.names.get? name <;> rfl

/-- A branch ends in moves from its names to the joined ones, and then hands on its value. -/
theorem Branch.exists_moves (br : Branch) (before joins : Names) :
    ∃ moves : List Instr, (∀ x ∈ moves, ∃ p ∈ joins, ∃ q ∈ br.names, x = .move p.2 q.2) ∧
      br.ending before joins = moves ++ [.leave .yield (operand br.last)] := by
  refine ⟨_, fun x hx => ?_, br.ending_eq_moves before joins⟩
  obtain ⟨⟨j, old⟩, hm, rfl⟩ := List.mem_map.mp hx
  obtain ⟨name, -, r, hj, hr, rfl⟩ := mem_moves.mp hm
  exact ⟨_, Names.mem_of_get? hj, _, Names.mem_of_get? hr, rfl⟩

theorem nodup_eraseDups (ns : List String) : ns.eraseDups.Nodup := by
  induction hn : ns.length using Nat.strong_induction_on generalizing ns with
  | _ n ih =>
    cases ns with
    | nil => exact .nil
    | cons name ns =>
      rw [List.eraseDups_cons, List.nodup_cons]
      refine ⟨by simp, ih _ ?_ _ rfl⟩
      rw [← hn, List.length_cons]
      exact Nat.lt_succ_of_le (List.length_filter_le _ _)

theorem nodup_joinedNames (before : Names) (brs : List Branch) : (joinedNames before brs).Nodup :=
  (List.mergeSort_perm _ _).nodup_iff.mpr (nodup_eraseDups _)

namespace Lowering

open Build

variable {g : Func} {k : Context} {quiet : Prop} {b : BlockId} {D : Set Reg} {e f : Flow}

/-! ## In front of the branching instruction -/

theorem startJoins_cons_apply (b : BlockId) (before : Names) (name : String) (ns : List String)
    (s : Builder) : startJoins b before (name :: ns) s = (fun x : Option Reg × Builder =>
      (fun y : Names × Builder => ((name, ⟨s.func.numRegs⟩) :: y.1, y.2))
        (startJoins b before ns (emit b (joinStart ⟨s.func.numRegs⟩ x.1) x.2).2))
      (lookupBefore before name (newReg s).2) := rfl

section
variable {before : Names} (hbefore : ∀ p ∈ before, p.2 ∈ D)
include hbefore

theorem shaped_lookupBefore (name : String) :
    Shaped g k quiet b D e (lookupBefore before name) fun r D' e' =>
      Ready D (operand r) ∧ D' = D ∧ e' = e := by
  unfold lookupBefore
  split
  · rename_i r h
    exact shaped_pure ⟨hbefore _ (Names.mem_of_get? h), rfl, rfl⟩
  · exact shaped_lookup name

theorem shaped_startJoins (ns : List String) :
    Shaped g k quiet b D e (startJoins b before ns) fun joins D' e' =>
      (∀ p ∈ joins, p.2 ∈ D' ∧ g.InRange p.2) ∧ (e = .live → e' = .live) := by
  induction ns generalizing D e with
  | nil => exact shaped_pure ⟨by simp, id⟩
  | cons n ns ih =>
    refine shaped_newReg.bind (by grind) ?_
    rintro j D₁ e₁ - ⟨hj, rfl, rfl⟩
    refine (shaped_lookupBefore hbefore n).bind (by grind) ?_
    rintro old D₂ e₂ - ⟨hold, rfl, rfl⟩
    have hplain : (joinStart j old).Plain ∧ (joinStart j old).out = j ∧
        ∀ v ∈ (joinStart j old).ins, Ready D₂ v := by
      cases old with
      | some r => exact ⟨trivial, rfl, by simpa [joinStart, Instr.ins, operand] using hold⟩
      | none => exact ⟨trivial, rfl, by simp [joinStart, Instr.ins, Ready]⟩
    refine (shaped_emit hplain.1 hplain.2.2 (hplain.2.1.symm ▸ hj)).bind (by grind) ?_
    rintro _ D₃ e₃ hD₃ ⟨rfl, rfl⟩
    refine Shaped.bind (by grind) (ih fun p hp => hD₃ (hbefore p hp)) ?_
    rintro joins D₄ e₄ hD₄ ⟨hjoins, he⟩
    refine shaped_pure ⟨fun p hp => ?_, fun hl => he (by simp [hl])⟩
    rcases List.mem_cons.mp hp with rfl | hp
    · have hmem : j ∈ insert (joinStart j old).out D₂ := by
        rw [hplain.2.1]
        exact Set.mem_insert j D₂
      exact ⟨hD₄ hmem, hj⟩
    · exact hjoins p hp

end

theorem lookupBefore_fields (before : Names) (name : String) (s : Builder) :
    (lookupBefore before name s).2.func.blocks = s.func.blocks ∧
      (lookupBefore before name s).2.names = s.names := by
  unfold lookupBefore
  cases before.get? name with
  | some r => exact ⟨rfl, rfl⟩
  | none => exact ⟨(resolve_grows name s.func s.names s.enclosing).2.1, rfl⟩

theorem startJoins_fields (b : BlockId) (before : Names) (ns : List String) (s : Builder) :
    (startJoins b before ns s).2.func.blocks.size = s.func.blocks.size ∧
      (startJoins b before ns s).2.names = s.names := by
  induction ns generalizing s with
  | nil => exact ⟨rfl, rfl⟩
  | cons n ns ih =>
    simp only [startJoins, bind_apply, newReg_apply, pure_apply, emit_apply]
    obtain ⟨h₁, h₂⟩ := lookupBefore_fields before n { s with func := s.func.newReg.1 }
    obtain ⟨h₃, h₄⟩ := ih { (lookupBefore before n { s with func := s.func.newReg.1 }).2 with
      func := (lookupBefore before n { s with func := s.func.newReg.1 }).2.func.append b
        (joinStart ⟨s.func.numRegs⟩ (lookupBefore before n { s with func := s.func.newReg.1 }).1) }
    refine ⟨h₃.trans ?_, h₄.trans h₂⟩
    simp only [Func.append_size, h₁, Func.newReg_blocks]

theorem bindAll_apply (ns : List String) (rs : List Reg) (s : Builder) :
    ∃ names, bindAll ns rs s = ((), { s with names }) ∧ ∀ p ∈ names, p ∈ s.names ∨ p.2 ∈ rs := by
  induction ns generalizing rs s with
  | nil => exact ⟨s.names, rfl, fun p hp => .inl hp⟩
  | cons n ns ih =>
    cases rs with
    | nil => exact ⟨s.names, rfl, fun p hp => .inl hp⟩
    | cons r rs =>
      obtain ⟨names, heq, hnames⟩ := ih rs { s with names := s.names.bind n r }
      refine ⟨names, heq, fun p hp => ?_⟩
      rcases hnames p hp with h | h
      · rcases Names.mem_bind h with rfl | h
        · exact .inr List.mem_cons_self
        · exact .inl h
      · exact .inr (List.mem_cons_of_mem r h)

theorem startJoins_keys (b : BlockId) (before : Names) (ns : List String) (s : Builder) :
    (startJoins b before ns s).1.map (·.1) = ns := by
  induction ns generalizing s with
  | nil => rfl
  | cons name ns ih =>
    simp only [startJoins, bind_apply, pure_apply]
    rw [List.map_cons, ih]

/-! ## The ends of branches -/

/-- Branches get their ends, and nothing else changes. -/
theorem closeBranches_spec (before joins : Names) {brs : List Branch}
    (hnd : (brs.map (·.block)).Nodup) {s : Builder} (hhas : ∀ br ∈ brs, s.func.Has br.block) :
    (∀ br ∈ brs, (closeBranches before joins brs s).2.func.code br.block =
        s.func.code br.block ++ br.ending before joins) ∧
      (closeBranches before joins brs s).2.func.numRegs = s.func.numRegs ∧
      (closeBranches before joins brs s).2.func.blocks.size = s.func.blocks.size ∧
      (closeBranches before joins brs s).2.names = s.names ∧
      (closeBranches before joins brs s).2.enclosing = s.enclosing ∧
      (closeBranches before joins brs s).2.diags = s.diags := by
  induction brs generalizing s with
  | nil => exact ⟨by simp, rfl, rfl, rfl, rfl, rfl⟩
  | cons br brs ih =>
    obtain ⟨hbr, hnd⟩ := List.nodup_cons.mp hnd
    have hfields := @emitAll_fields br.block s (br.ending before joins)
    have hgrow := (adds_emitAll br.block (br.ending before joins) (Set.mem_singleton br.block) s).func
    rw [closeBranches, bind_apply]
    have hself := emitAll_code_self (br.ending before joins) (hhas br List.mem_cons_self)
    generalize (emitAll br.block (br.ending before joins) s).2 = t at *
    obtain ⟨hcode, h₁, h₂, h₃, h₄, h₅⟩ := ih hnd (s := t)
      fun q hq => hgrow.has (hhas q (List.mem_cons_of_mem br hq))
    refine ⟨fun q hq => ?_, h₁.trans hfields.1, h₂.trans hfields.2.1, h₃.trans hfields.2.2.1,
      h₄.trans hfields.2.2.2.1, h₅.trans hfields.2.2.2.2⟩
    have hne : ∀ q ∈ brs, q.block ≠ br.block := fun q hq heq =>
      hbr (List.mem_map.mpr ⟨q, hq, heq⟩)
    rcases List.mem_cons.mp hq with rfl | hq
    · have hkept := (adds_closeBranches before joins (subset_refl (blocksOf brs)) t).func.kept
        q.block (hgrow.has (hhas q List.mem_cons_self))
        (by rintro ⟨r, hr, heq⟩; exact hne r hr heq)
      rw [hkept, hself]
    · rw [hcode q hq, hgrow.kept q.block (hhas q (List.mem_cons_of_mem br hq)) (hne q hq)]

theorem shape_plains {c : BlockId} {n j : Nat} {xs : List Instr}
    (hx : ∀ x ∈ xs, x.Plain ∧ (∀ v ∈ x.ins, Ready D v) ∧ g.InRange x.out)
    (hcode : CodeAt (g.code c) j xs) :
    ∃ D' e', D ⊆ D' ∧ Shape g k c ⟨j, n, D, e⟩ ⟨j + xs.length, n, D', e'⟩ ∧
      (e = .live → e' = .live) := by
  induction xs generalizing j D e with
  | nil => exact ⟨D, e, subset_rfl, .refl _, id⟩
  | cons x xs ih =>
    obtain ⟨hp, hin, hout⟩ := hx x List.mem_cons_self
    have hD : D ⊆ insert x.out D := Set.subset_insert _ _
    obtain ⟨D', e', hD', hsh, he⟩ := @ih (insert x.out D) e.next (j + 1)
      (fun y hy => ⟨(hx y (List.mem_cons_of_mem x hy)).1,
        fun v hv => ((hx y (List.mem_cons_of_mem x hy)).2.1 v hv).mono hD,
        (hx y (List.mem_cons_of_mem x hy)).2.2⟩)
      hcode.tail
    refine ⟨D', e', hD.trans hD', ?_, fun hl => he (by simp [hl])⟩
    have hlen : j + (x :: xs).length = j + 1 + xs.length := by simp; omega
    rw [hlen]
    exact .plain hcode.head hp hin hout hsh

section
variable {t : Builder} {br : Branch} {sub : Sub}

/-- A branch that reaches its end, with that end. -/
theorem Open.close (h : Open g k D t br sub) {before joins : Names}
    (hcode : g.code br.block = t.func.code br.block ++ br.ending before joins)
    (hjoins : ∀ p ∈ joins, g.InRange p.2) (hlive : endsBlock (t.func.code br.block) = false) :
    Shape g ⟨k.closure, true⟩ br.block ⟨0, br.block.index.toNat + 1, D, .live⟩
      ⟨(g.code br.block).length, sub.stop, ∅, sub.flow.sealed⟩ := by
  obtain ⟨moves, hmoves, hend⟩ := br.exists_moves before joins
  rw [hend] at hcode
  have hat := CodeAt.of_append hcode
  have hplain : ∀ x ∈ moves, x.Plain ∧ (∀ v ∈ x.ins, Ready sub.regs v) ∧ g.InRange x.out := by
    intro x hx
    obtain ⟨p, hp, q, hq, rfl⟩ := hmoves x hx
    refine ⟨trivial, fun v hv => ?_, hjoins p hp⟩
    rw [List.mem_singleton.mp hv]
    exact h.names q hq
  obtain ⟨D', e', hD', hsh, he⟩ :=
    shape_plains (k := ⟨k.closure, true⟩) (e := sub.flow) (n := sub.stop) hplain hat.left
  have hlen : (g.code br.block).length = (t.func.code br.block).length + moves.length + 1 := by
    rw [hcode, List.length_append, List.length_append]
    rfl
  have hflow : e'.finish = sub.flow.sealed := by
    have hp : Flow.Persists sub.flow e' := hsh.persists
    have hne : sub.flow ≠ .ended := fun hl => by simp [h.ended hl] at hlive
    cases hf : sub.flow with
    | live => simp [he hf, Flow.sealed]
    | ended => exact absurd hf hne
    | broken => simp [hp.broken hf, Flow.sealed]
  refine h.shape.trans (hsh.trans ?_)
  rw [hlen, ← hflow]
  exact .leave hat.last rfl (h.last.mono hD') (.done (Set.empty_subset _))

theorem Open.closed (h : Open g k D t br sub) (hcode : g.code br.block = t.func.code br.block)
    (hends : endsBlock (t.func.code br.block) = true) :
    Shape g ⟨k.closure, true⟩ br.block ⟨0, br.block.index.toNat + 1, D, .live⟩
      ⟨(g.code br.block).length, sub.stop, ∅, sub.flow.sealed⟩ := by
  have hne : sub.flow ≠ .live := fun hl => by simp [h.live hl] at hends
  have hflow : sub.flow.sealed = sub.flow := by cases hf : sub.flow <;> simp_all [Flow.sealed]
  rw [hcode, hflow]
  exact h.shape.forget (Set.empty_subset _)

end

/-! ## Joins -/

/-- The parts of a join: registers for names, the ends of the branches that reach them, and the
names behind. -/
theorem join_apply (b : BlockId) (before : Names) (brs : List Branch) (t : Builder) :
    join b before brs t = (fun x : Names × Builder =>
      bindAll (x.1.map (·.1)) (x.1.map (·.2)) (closeBranches before x.1
        (brs.filter fun br => !endsBlock (t.func.code br.block)) x.2).2)
      (startJoins b before
        (joinedNames before (brs.filter fun br => !endsBlock (t.func.code br.block))) t) := by
  rw [join, bind_apply, openBranches_apply]
  rfl

/-- The states of a join: `u` has the registers `joins` of the joined names, and behind it the branches
that reach their ends get them, and the names are bound. -/
structure JoinSteps (b : BlockId) (before : Names) (brs : List Branch) (t u w : Builder)
    (joins : Names) : Prop where
  started : startJoins b before
    (joinedNames before (brs.filter fun br => !endsBlock (t.func.code br.block))) t = (joins, u)
  start : Builder.Grows {b} t u
  later : Func.Extends (blocksOf (brs.filter fun br => !endsBlock (t.func.code br.block))) u.func
    w.func
  numRegs : w.func.numRegs = u.func.numRegs
  startSize : u.func.blocks.size = t.func.blocks.size
  size : w.func.blocks.size = t.func.blocks.size
  enclosing : w.enclosing = u.enclosing
  startNames : u.names = t.names
  bound : ∃ v : Builder, v.names = t.names ∧ bindAll (joins.map (·.1)) (joins.map (·.2)) v = ((), w)
  front : w.func.code b = u.func.code b
  closed : ∀ br ∈ brs, w.func.code br.block = t.func.code br.block ++
    if endsBlock (t.func.code br.block) then [] else br.ending before joins

theorem joinSteps_join {brs : List Branch} {t : Builder} (before : Names) (hb : t.func.Has b)
    (hnd : (brs.map (·.block)).Nodup) (hhas : ∀ br ∈ brs, t.func.Has br.block)
    (hne : ∀ br ∈ brs, br.block ≠ b) :
    ∃ u joins, JoinSteps b before brs t u (join b before brs t).2 joins := by
  have happ := join_apply b before brs t
  have hgrow := adds_startJoins (Set.mem_singleton b) before
    (joinedNames before (brs.filter fun br => !endsBlock (t.func.code br.block))) t
  have hfields := startJoins_fields b before
    (joinedNames before (brs.filter fun br => !endsBlock (t.func.code br.block))) t
  rw [happ]
  generalize hstart : startJoins b before
    (joinedNames before (brs.filter fun br => !endsBlock (t.func.code br.block))) t = ju at *
  obtain ⟨joins, u⟩ := ju
  dsimp only at hgrow hfields ⊢
  -- `v` has the ends of the branches in `opened`
  generalize hopened : (brs.filter fun br => !endsBlock (t.func.code br.block)) = opened at *
  have hmem : ∀ br, br ∈ opened ↔ br ∈ brs ∧ endsBlock (t.func.code br.block) = false := by
    simp [← hopened]
  obtain ⟨hends, hnum, hsize, hnames, henc, -⟩ := closeBranches_spec before joins
    (hnd.sublist (hopened ▸ List.filter_sublist.map _)) (s := u)
    fun br hbr => hgrow.func.has (hhas br ((hmem br).mp hbr).1)
  have hclose := (adds_closeBranches before joins (subset_refl (blocksOf opened)) u).func
  generalize (closeBranches before joins opened u).2 = v at *
  obtain ⟨names, hbind, -⟩ := bindAll_apply (joins.map (·.1)) (joins.map (·.2)) v
  rw [hbind]
  refine ⟨u, joins, ⟨hopened.symm ▸ hstart, hgrow, hopened.symm ▸ hclose, hnum, hfields.1,
    hsize.trans hfields.1, henc, hfields.2, ⟨v, hnames.trans hfields.2, hbind⟩, ?_, fun br hbr => ?_⟩⟩
  · refine hclose.kept b (hgrow.func.has hb) ?_
    rintro ⟨br, hbr, heq⟩
    exact hne br ((hmem br).mp hbr).1 heq
  · have hu : u.func.code br.block = t.func.code br.block :=
      hgrow.func.kept br.block (hhas br hbr) (hne br hbr)
    cases hend : endsBlock (t.func.code br.block) with
    | true =>
      rw [if_pos rfl, List.append_nil, ← hu]
      refine hclose.kept br.block (hgrow.func.has (hhas br hbr)) ?_
      rintro ⟨br', hbr', heq⟩
      have hlive := ((hmem br').mp hbr').2
      rw [heq, hend] at hlive
      cases hlive
    | false =>
      rw [if_neg (by simp), ← hu]
      exact hends br ((hmem br).mpr ⟨hbr, hend⟩)

namespace JoinSteps

variable {before joins : Names} {brs : List Branch} {t u w : Builder}

theorem mem_names (h : JoinSteps b before brs t u w joins) {p : String × Reg} (hp : p ∈ w.names) :
    p ∈ t.names ∨ ∃ q ∈ joins, q.2 = p.2 := by
  obtain ⟨v, hv, hbind⟩ := h.bound
  obtain ⟨names, hbind', hnames⟩ := bindAll_apply (joins.map (·.1)) (joins.map (·.2)) v
  obtain rfl := (Prod.mk.inj (hbind.symm.trans hbind')).2
  rw [← hv]
  exact (hnames p hp).imp_right List.mem_map.mp

theorem agrees (h : JoinSteps b before brs t u w joins) {O : Set BlockId} (ha : Agrees g O t w) :
    Agrees g ∅ t u := by
  refine ⟨h.numRegs ▸ ha.numRegs, (h.size.trans h.startSize.symm) ▸ ha.size,
    fun c i x hi hx => ha.code c i x hi (h.later.getElem? hx), fun c hct hcu => ?_⟩
  exact absurd ⟨hcu.1, h.startSize ▸ hcu.2⟩ hct

end JoinSteps

/-- A join: plain code in front of the branching instruction, and an end for every branch. -/
structure Joined (g : Func) (k : Context) (b : BlockId) (D : Set Reg) (e : Flow)
    (brs : List Branch) (t w : Builder) (D' : Set Reg) (e' : Flow) : Prop where
  regs : D ⊆ D'
  shape : ∀ n, Shape g k b ⟨(t.func.code b).length, n, D, e⟩ ⟨(w.func.code b).length, n, D', e'⟩
  situation : Situation k b w D' e'
  size : w.func.blocks.size = t.func.blocks.size
  live : e = .live → e' = .live
  closed : ∀ br ∈ brs, ∀ D₀ sub, Open g k D₀ t br sub → g.code br.block = w.func.code br.block →
    Shape g ⟨k.closure, true⟩ br.block ⟨0, br.block.index.toNat + 1, D₀, .live⟩
      ⟨(g.code br.block).length, sub.stop, ∅, sub.flow.sealed⟩

theorem Joined.lives {brs : List Branch} {t w : Builder} {D' : Set Reg} {e' : Flow}
    (h : Joined g k b D e brs t w D' e') : Flow.Lives quiet True e e' where
  toPersists := (h.shape 0).persists
  iff _ := by
    rw [and_true]
    exact ⟨fun he' => by_contra fun he => (h.shape 0).persists.dead he he', h.live⟩

theorem shape_join {brs : List Branch} {t : Builder} {O : Set BlockId} {before : Names}
    (hs : Situation k b t D e) (hbefore : ∀ p ∈ before, p.2 ∈ D) (hnd : (brs.map (·.block)).Nodup)
    (hhas : ∀ br ∈ brs, t.func.Has br.block) (hne : ∀ br ∈ brs, br.block ≠ b)
    (hc : capturedRegs (join b before brs t).2.enclosing ⊆ D)
    (ha : Agrees g O t (join b before brs t).2) :
    ∃ D' e', Joined g k b D e brs t (join b before brs t).2 D' e' := by
  obtain ⟨u, joins, h⟩ := joinSteps_join before hs.has hnd hhas hne
  have hlaw := @shaped_startJoins g k False b D e before hbefore
    (joinedNames before (brs.filter fun br => !endsBlock (t.func.code br.block))) t
  unfold ShapedAt at hlaw
  rw [h.started] at hlaw
  generalize (join b before brs t).2 = w at *
  obtain ⟨D', e', hD', hsh, hu, hjoins, he⟩ := hlaw hs (h.enclosing ▸ hc) (h.agrees ha) False.elim
  refine ⟨D', e', hD', fun n => ?_, ?_, h.size, he, fun br hbr D₀ sub hopen hcode => ?_⟩
  · rw [h.front]
    exact hsh.renumber h.startSize.symm n
  · exact {
      numRegs := h.numRegs ▸ hu.numRegs
      closure := h.enclosing ▸ hu.closure
      scope := h.numRegs ▸ h.enclosing ▸ hu.scope
      names := fun p hp => (h.mem_names hp).elim (fun hp => hu.names p (h.startNames ▸ hp))
        fun ⟨q, hq, heq⟩ => heq ▸ (hjoins q hq).1
      has := h.later.has hu.has
      live := h.front ▸ hu.live
      ended := h.front ▸ hu.ended }
  · rw [h.closed br hbr] at hcode
    cases hend : endsBlock (t.func.code br.block) with
    | true => exact hopen.closed (by simpa [hend] using hcode) hend
    | false => exact hopen.close (by simpa [hend] using hcode) (fun p hp => (hjoins p hp).2) hend

/-! ## Ended branches -/

/-- A nested block of the finished function, where the registers `D` are set at its start. -/
structure Runs (g : Func) (k : Context) (D : Set Reg) (sub : Sub) : Prop where
  nested : sub.ref.entry = .nested
  shape : Shape g ⟨k.closure, true⟩ sub.ref.block
    ⟨0, sub.ref.block.index.toNat + 1, D, .live⟩
    ⟨(g.code sub.ref.block).length, sub.stop, sub.regs, sub.flow⟩

theorem Runs.weaken {sub : Sub} (h : Runs g k D sub) {E : Set Reg} (hE : D ⊆ E) : Runs g k E sub :=
  ⟨h.nested, h.shape.weaken hE⟩

/-- A branch with its end. -/
def sealSub (sub : Sub) : Sub := { sub with regs := ∅, flow := sub.flow.sealed }

theorem chain_sealSub {n m : Nat} {subs : List Sub} :
    Chain n (subs.map sealSub) m ↔ Chain n subs m := by
  induction subs generalizing n with
  | nil => exact Iff.rfl
  | cons s ss ih => simp [Chain, sealSub, ← ih]

theorem map_ref_sealSub (subs : List Sub) : (subs.map sealSub).map (·.ref) = subs.map (·.ref) := by
  simp [sealSub, Function.comp_def]

theorem sealSub_ended_iff {subs : List Sub} : (∀ f ∈ (subs.map sealSub).map (·.flow), f = .ended) ↔
    ∀ sub ∈ subs, sub.flow ≠ .broken := by
  simp [sealSub, Flow.sealed_eq_ended_iff]

section
variable {t : Builder} {brs : List Branch} {subs : List Sub}
  (h : List.Forall₂ (Open g k D t) brs subs)
include h

theorem map_ref_of_open : subs.map (·.ref) = brs.map (⟨·.block, .nested⟩) := by
  induction h with
  | nil => rfl
  | cons hopen _ ih => rw [List.map_cons, List.map_cons, ih, hopen.ref]

theorem wide_of_open : ∀ sub ∈ subs, sub.Wide := by
  induction h with
  | nil => simp
  | cons hopen _ ih =>
    intro sub hsub
    rcases List.mem_cons.mp hsub with rfl | hsub
    · exact hopen.wide
    · exact ih sub hsub

/-- The blocks of branches that were made one after the other. -/
theorem blocks_of_open {n m : Nat} (hc : Chain n subs m) :
    (brs.map (·.block)).Nodup ∧
      ∀ br ∈ brs, t.func.Has br.block ∧ ∃ i : Nat, br.block = ⟨i⟩ ∧ n ≤ i := by
  have hmap : brs.map (·.block) = subs.map (·.ref.block) := by
    have := congrArg (List.map (·.block)) (map_ref_of_open h)
    simpa [Function.comp_def] using this.symm
  refine ⟨hmap ▸ hc.nodup (wide_of_open h), fun br hbr => ?_⟩
  obtain ⟨sub, hsub, hopen⟩ := exists_of_forall₂ h hbr
  obtain ⟨i, hi, hn, -⟩ := hc.mem_bounds (wide_of_open h) hsub
  exact ⟨hopen.has, i, by rw [← hi, hopen.ref], hn⟩

theorem Joined.shape_sealSub {all : List Branch} {w : Builder} {D₁ D' : Set Reg} {e' : Flow}
    (hj : Joined g k b D₁ e all t w D' e') (hall : brs ⊆ all)
    (hfin : ∀ br ∈ brs, g.code br.block = w.func.code br.block) :
    ∀ sub ∈ subs.map sealSub, Runs g k D sub := by
  intro sub hsub
  obtain ⟨sub, hmem, rfl⟩ := List.mem_map.mp hsub
  obtain ⟨br, hbr, hopen⟩ := exists_of_forall₂ h.flip hmem
  have hsh := hj.closed br (hall hbr) D sub hopen (hfin br hbr)
  exact ⟨by simp [sealSub, hopen.ref], by simpa [sealSub, hopen.ref] using hsh⟩

end

end Lowering

end ScriptMachine
