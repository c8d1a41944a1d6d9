import ScriptMachine.Proofs.Guarded.Plan

/-!
# What names stand for around a guarded section

`GuardedSection.Standing` is what a frame keeps while a guarded section runs: every register that was not
taken for it is as it was, and the registers of the joined names hold what the names stand for.

1. It holds in front of the guarded instruction (`Plan.through_front`), with what the names stood for
   before.
2. A part keeps it (`Part.runs`). If the part yields, the names stand behind it for what it hands on
   (`Branch.handsOn`); otherwise for what they stood for before.
3. It says what each name stands for at the start of a part (`Standing.meaning_part`) and behind all of
   them (`Standing.meaning_joined`).
-/

namespace ScriptMachine

open Build Lowering

/-! ## Names -/

theorem Names.proper_of_nodup {ns : Names} (h : (ns.map (·.1)).Nodup) : ns.Proper := by
  induction ns with
  | nil => exact fun p hp => by cases hp
  | cons q ns ih =>
    obtain ⟨hq, hns⟩ := List.nodup_cons.mp h
    intro p hp
    rw [get?_cons]
    rcases List.mem_cons.mp hp with rfl | hp
    · rw [if_pos rfl]
    · have hne : p.1 ≠ q.1 := fun heq => hq (List.mem_map.mpr ⟨p, hp, heq⟩)
      rw [if_neg hne]
      exact ih hns p hp

theorem Names.get?_filter_of_none {ns : Names} {keep : String × Reg → Bool} {name : String}
    (h : ∀ r, keep (name, r) = false) : Names.get? (ns.filter keep) name = none := by
  cases hget : Names.get? (ns.filter keep) name with
  | none => rfl
  | some r =>
    have hkeep := (List.mem_filter.mp (mem_of_get? hget)).2
    rw [h r] at hkeep
    cases hkeep

theorem Frame.Moved.spares {ms : List (Reg × Option Reg)} {fr fr' : Frame} (h : fr.Moved ms fr')
    {W : Set Reg} (hW : ∀ m ∈ ms, m.1 ∈ W) : fr.Spares W fr' :=
  ⟨h.func, fun r hr => h.kept r fun m hm heq => hr (heq ▸ hW m hm)⟩

theorem Outcome.eq_of_isYield {o : Outcome} (h : o.isYield = true) : ∃ x, o = .value x .yield := by
  match o with
  | .value x .yield => exact ⟨x, rfl⟩
  | .value _ .ret | .fault _ => cases h

/-- What names stand for where one of them, unless it is empty, was bound to a value. -/
def bound (E : String → Option Value) (own : String) (v : Value) (name : String) : Option Value :=
  if own ≠ "" ∧ name = own then some v else E name

theorem bound_empty (E : String → Option Value) (v : Value) : bound E "" v = E :=
  funext fun _ => if_neg fun h => h.1 rfl

/-- What names stand for behind a section that ended with an outcome. It has a variable unless `own` is
empty. -/
def Visit.leaves (v : Visit) (own : String) (fr : Frame) (o : Outcome) (E : String → Option Value) :
    String → Option Value :=
  if o.isYield then (v.branch own).handsOn fr E else E

namespace GuardedSection

variable {G : GuardedSection} {g : Func} {C : Set Reg} {joins : Names} {fr₀ fr fr' : Frame}
  {M : String → Option Value}

/-- What names stand for in front of a guarded section. -/
def meaning (G : GuardedSection) (fr : Frame) (name : String) : Option Value :=
  fr.meaning (G.start.names ++ G.outside) name

/-- What names stand for behind the body and the clauses: a name that is bound anew in one of them stands
for null where it stands for nothing. -/
def merged (G : GuardedSection) (M : String → Option Value) (name : String) : Option Value :=
  if G.joined.names.get? name = G.start.names.get? name then M name else some ((M name).getD .null)

theorem Plan.proper_joins (P : G.Plan g C joins) : joins.Proper :=
  Names.proper_of_nodup (P.join.fresh.keys ▸ nodup_joinedNames _ _)

theorem Plan.get?_joined (P : G.Plan g C joins) (name : String) :
    G.joined.names.get? name = (joins.get? name).or (G.start.names.get? name) := by
  have hnames : G.handled.names = G.start.names := P.sections.names
  rw [P.join.names, hnames]

/-- A joined name is looked up outside in front of the guarded section, if at all. -/
theorem Plan.get?_outside_of_join (P : G.Plan g C joins) {name : String} {j : Reg}
    (hj : joins.get? name = some j) : G.outside.get? name = G.joined.outside.get? name := by
  have hfilter : Names.get? (G.visit.stop.outside.filter fun q => (G.joined.names.get? q.1).isNone) name =
      none := Names.get?_filter_of_none fun r => by simp [P.get?_joined, hj]
  rw [outside, Names.get?_append, hfilter, Option.or_none]

theorem Plan.movable_starts (P : G.Plan g C joins) : Movable (G.starts joins) where
  one m hm m' hm' heq := by
    obtain ⟨q, hq, rfl⟩ := List.mem_map.mp hm
    obtain ⟨q', hq', rfl⟩ := List.mem_map.mp hm'
    have hname : q.1 = q'.1 := P.join.fresh.inj _ _ q.2 (P.proper_joins q hq)
      ((P.proper_joins q' hq').trans (congrArg some heq.symm))
    rw [hname]
  apart m hm m' hm' heq := by
    obtain ⟨q, hq, rfl⟩ := List.mem_map.mp hm
    obtain ⟨q', hq', rfl⟩ := List.mem_map.mp hm'
    have hjoin := P.proper_joins q' hq'
    have hjoined := P.get?_outside_of_join (P.proper_joins q hq)
    dsimp only at heq
    rw [Names.get?_append, ← hjoined, Option.or_eq_some_iff] at heq
    rcases heq with hr | ⟨-, hr⟩
    · exact P.ne_join (P.whole.kept.names _ (Names.mem_of_get? hr)) start_le_handled hjoin rfl
    · exact P.not_mem_taken_of_outside hr (P.joins_mem q' hq')

/-! ## Frames -/

/-- A frame in which a guarded section runs that was entered in `fr₀`. The names stand for `M` behind its
parts, as far as they have run. -/
structure Standing (G : GuardedSection) (C : Set Reg) (joins : Names) (fr₀ : Frame)
    (M : String → Option Value) (fr : Frame) : Prop where
  spares : fr₀.Spares (G.taken C) fr
  holds : fr.HoldsJoins joins M
  same : ∀ name, joins.get? name = none → M name = G.meaning fr₀ name

namespace Standing

section
variable (h : G.Standing C joins fr₀ M fr)
include h

theorem get?_of_names (P : G.Plan g C joins) {name : String} {r : Reg}
    (hr : G.start.names.get? name = some r) : fr.get? r = G.meaning fr₀ name := by
  rw [h.spares.get? r (not_mem_taken (P.whole.kept.names _ (Names.mem_of_get? hr))), meaning,
    Frame.meaning, Names.get?_append, hr]
  rfl

theorem get?_of_outside (P : G.Plan g C joins) {name : String}
    (hnone : G.start.names.get? name = none) :
    (G.outside.get? name).bind fr.get? = G.meaning fr₀ name := by
  rw [meaning, Frame.meaning, Names.get?_append, hnone, Option.none_or]
  cases hr : G.outside.get? name with
  | none => rfl
  | some r => exact h.spares.get? r (P.not_mem_taken_of_outside hr)

theorem write {r : Reg} (hr : r ∈ G.taken C) (hjoin : ∀ name, joins.get? name ≠ some r) {v : Value}
    (hw : fr.write r v = .ok fr') : G.Standing C joins fr₀ M fr' where
  spares := h.spares.write hr hw
  holds name j hj := by
    rw [Frame.get?_write_of_ne hw fun heq => hjoin name (heq ▸ hj)]
    exact h.holds name j hj
  same := h.same

/-- What names stand for in front of the cleanup. -/
theorem meaning_joined (P : G.Plan g C joins) (name : String) :
    fr.meaning (G.joined.names ++ G.outside) name = G.merged M name := by
  rw [Frame.meaning, Names.get?_append, merged, P.get?_joined]
  cases hj : joins.get? name with
  | some j =>
    rw [Option.some_or, Option.some_or, if_neg ?_]
    · exact h.holds name j hj
    · intro heq
      exact P.ne_join (P.whole.kept.names _ (Names.mem_of_get? heq.symm)) start_le_handled hj rfl
  | none =>
    rw [Option.none_or, if_pos rfl, h.same name hj]
    cases hr : G.start.names.get? name with
    | some r => exact h.get?_of_names P hr
    | none => exact h.get?_of_outside P hr

/-- What names stand for at the start of a part. -/
theorem meaning_part {v : Visit} {own : String} (P : G.Plan g C joins)
    (hv : G.Part g C v own) {x : Value} (hx : own ≠ "" → fr.get? G.caught = some x) (name : String) :
    fr.meaning (v.start.names ++ G.outside) name = bound (G.meaning fr₀) own x name := by
  have hrest : fr.meaning (G.start.names ++ G.outside) name = G.meaning fr₀ name := by
    rw [Frame.meaning, Names.get?_append]
    cases hr : G.start.names.get? name with
    | some r => exact h.get?_of_names P hr
    | none => exact h.get?_of_outside P hr
  rw [hv.names, bound]
  by_cases hown : own = ""
  · rw [if_pos hown, if_neg fun hne => hne.1 hown]
    exact hrest
  · rw [if_neg hown]
    by_cases hname : name = own
    · rw [if_pos ⟨hown, hname⟩, Frame.meaning, Names.get?_append, Names.get?_bind, if_pos hname]
      exact hx hown
    · rw [if_neg fun hne => hname hne.2, ← hrest, Frame.meaning, Frame.meaning, Names.get?_append,
        Names.get?_append, Names.get?_bind, if_neg hname]

/-- A stretch of code that writes no register of a joined name. -/
theorem spared {W : Set Reg} (hW : W ⊆ G.taken C)
    (hjoin : ∀ name j, joins.get? name = some j → j ∉ W) (hfr : fr.Spares W fr') :
    G.Standing C joins fr₀ M fr' where
  spares := h.spares.trans (hfr.mono hW)
  holds name j hj := by
    rw [hfr.get? j (hjoin name j hj)]
    exact h.holds name j hj
  same := h.same

end

end Standing

/-! ## Runs -/

open Machine

variable {cfg : RunConfig} {p : Program} {k : Stack} {w : World}

/-- In front of the guarded instruction the registers of the joined names hold what the names stand
for. -/
theorem Plan.through_front (P : G.Plan g C joins) (hfree : AccessFree cfg p)
    (hlen : (g.code G.block).length < codeLimit) {Q : State → Prop}
    (hQ : ∀ i fr, Q (.inCode g G.block i fr k w))
    (hs : Reachable cfg p (.inCode g G.block G.visit.index fr k w)) :
    ∃ fr', Through cfg p Q (.inCode g G.block G.visit.index fr k w)
        (.inCode g G.block (G.visit.index + joins.length) fr' k w) ∧
      G.Standing C joins fr (G.meaning fr) fr' := by
  obtain ⟨fr', hthrough, hmoved⟩ := through_moves hfree hlen hQ P.movable_starts hs P.front
  rw [starts, List.length_map] at hthrough
  refine ⟨fr', hthrough, hmoved.spares ?_, fun name j hj => ?_, fun _ _ => rfl⟩
  · intro m hm
    obtain ⟨q, hq, rfl⟩ := List.mem_map.mp hm
    exact P.joins_mem q hq
  · have hmem : (j, Names.get? (G.start.names ++ G.joined.outside) name) ∈ G.starts joins :=
      List.mem_map.mpr ⟨(name, j), Names.mem_of_get? hj, rfl⟩
    rw [hmoved.moved _ hmem, meaning, Frame.meaning, Frame.given, Names.get?_append, Names.get?_append,
      P.get?_outside_of_join hj]

/-- A part comes to its end, and behind it the names stand for what it leaves. -/
theorem Part.runs {v : Visit} {own : String} (hv : G.Part g C v own) (P : G.Plan g C joins)
    (S : G.Standing C joins fr₀ (G.meaning fr₀) fr) (hstart : Startable p)
    (hlen : ∀ c, (g.code c).length < codeLimit) (hfree : AccessFree cfg p) (hg : fr.func = g)
    (hcalls : CallsEnd cfg p k) (hs : Reachable cfg p (.inCode g v.block 0 fr k w)) :
    ∃ t o, Through cfg p (Above k) (.inCode g v.block 0 fr k w) t ∧ t.stack = k ∧ t.ended = some o ∧
      o.Fixed g.name ∧ (∀ x, o = .value x .yield → x.isSet = true) ∧
      G.Standing C joins fr₀ (v.leaves own t.frame o (G.meaning fr₀)) t.frame := by
  obtain ⟨t, o, hthrough, hends, hown⟩ := (hv.sectionCode P).comes hstart hlen hfree hg hcalls hs
  have hspared : ∀ fr', fr.Spares (takenRegs C v.start v.stop) fr' →
      G.Standing C joins fr₀ (G.meaning fr₀) fr' := fun fr' =>
    S.spared hv.takenRegs_subset fun name j hj => hv.join_not_mem P hj
  refine ⟨t, o, hthrough, hends.stack, hends.ended, hends.fixed, fun x hx => (hends.yields x hx).1, ?_⟩
  unfold Visit.leaves
  cases hy : o.isYield with
  | false =>
    rw [if_neg Bool.false_ne_true]
    exact hspared _ (hends.stays hy)
  | true =>
    rw [if_pos rfl]
    obtain ⟨x, rfl⟩ := Outcome.eq_of_isYield hy
    obtain ⟨-, fr₁, hfr₁, hmoved⟩ := hends.yields x rfl
    have S₁ := hspared _ hfr₁
    rcases hv.code_cases P with hcode | ⟨-, hopen⟩
    · cases hown hcode
    have hnames : G.handled.names = G.start.names := P.sections.names
    have hfresh := P.join.fresh
    rw [hnames] at hfresh
    obtain ⟨hholds, hsame⟩ := Branch.holdsJoins_handsOn hfresh hopen
      (fun q hq name j hj => P.ne_join (hv.inside.kept_stop.names q hq) hv.last hj)
      (fun q hq name j hj => P.ne_join (P.whole.kept.names q hq) start_le_handled hj)
      (fun name r hr => S₁.get?_of_names P hr) S₁.holds hmoved
    refine ⟨S₁.spares.trans (hmoved.spares fun m hm => ?_), hholds, hsame⟩
    obtain ⟨name, -, r, hj, -, -⟩ := Branch.mem_moves.mp hm
    exact P.joins_mem _ (Names.mem_of_get? hj)

end GuardedSection

end ScriptMachine
