import ScriptMachine.Proofs.Guarded.Passage

/-!
# The course of guarded sections

`GuardedSection.Course` says what a guarded section does from its first instruction to its end, whatever
its body, its clauses and its cleanup do:

1. The body runs first, and the names stand in it for what they stood for before.
2. A fault of the body that can be caught goes to the clause that takes its value: the first whose
   pattern equals it, else the first without a pattern (`chosen`). In the clause the names stand for what
   they stood for before the body, but for the variable of the clause. If no clause takes the value, it is
   thrown again; if there are no clauses at all, the fault stays as it is (`Handles`).
3. Then the cleanup runs once, if there is one, and the names stand in it for what the body or the clause
   left. If it yields, the outcome stays that of the body or of the clause, else it is its own
   (`Concludes`).

What a section leaves are the names as they stand at its end, but for two. The variable of a clause stays
local: behind the clause its name stands for what it stood for before, even where the clause assigns it.
And a binding of the empty name, in the body or in a clause without a variable, is lost
(`Branch.Loses`), where every other name is handed on (`rebinding_empty_lost`).

`course_of_reachable`: each guarded section of a lowered tree takes this course, wherever a run comes to
it with two levels of depth to spare.
-/

namespace ScriptMachine

open Build Lowering Machine

/-! ## The course -/

/-- A section of code runs from its first instruction in `s`, where names stand for what `E` says, to its
end in `t` with the outcome `o`; names that are not at hand are looked up in `out`. All the way the
machine has `P`. -/
structure Visit.Plays (v : Visit) (cfg : RunConfig) (p : Program) (P : State → Prop) (f : Func)
    (out : Names) (E : String → Option Value) (s t : State) (o : Outcome) : Prop where
  start : s = .inCode f v.block v.index s.frame s.stack s.world
  func : s.frame.func = f
  names : ∀ name, s.frame.meaning (v.start.names ++ out) name = E name
  runs : Through cfg p (fun x => Above s.stack x ∧ P x) s t
  stack : t.stack = s.stack
  ended : t.ended = some o

namespace GuardedSection

section
variable (G : GuardedSection) (cfg : RunConfig) (p : Program) (f : Func) (k : Stack)
  (E : String → Option Value)

/-- How the outcome of the body is handled, and what names stand for before and behind that. -/
inductive Handles : State → Outcome → (String → Option Value) → State → Outcome →
    (String → Option Value) → Prop
  | passes {t o M} (h : ∀ e v, o = .fault e → e.Caught v → G.clauses = []) : Handles t o M t o M
  | clause {t e M v n c w s u o} (hv : e.Caught v) (hn : chosen G.clauses v = some n)
      (hc : G.clauses[n]? = some c) (hw : G.clauseVisits[n]? = some (some w)) (hbody : w.node = c.body)
      (hpassage : Passage cfg p k t s)
      (hplays : w.Plays cfg p (Aside k) f G.outside (bound E c.name v) s u o) :
      Handles t (.fault e) M u o (w.leaves c.name u.frame o E)
  | uncaught {t e M v u e'} (hcs : G.clauses ≠ []) (hv : e.Caught v) (hn : chosen G.clauses v = none)
      (hpassage : Passage cfg p k t u) (hu : u.ended = some (.fault e')) (hagain : e'.cause = .thrown v) :
      Handles t (.fault e) M u (.fault e') E

/-- How the guarded section ends, once the outcome of the body has been handled. -/
inductive Concludes : State → Outcome → (String → Option Value) → State → Outcome → Prop
  | plain {t o M u} (habsent : G.cleanup.isAbsent = true) (hpassage : Passage cfg p k t u)
      (hnames : ∀ name, u.frame.meaning (G.visit.stop.names ++ G.outside) name = G.merged M name) :
      Concludes t o M u o
  | cleanup {t o M s t' o' u} (hpresent : G.cleanup.isAbsent = false) (hpassage : Passage cfg p k t s)
      (hplays : G.cleanupVisit.Plays cfg p (CleansUp k) f G.outside (G.merged M) s t' o')
      (hstep : step cfg p t' = .state u)
      (hnames : ∀ name, u.frame.meaning (G.visit.stop.names ++ G.outside) name =
        t'.frame.meaning (G.visit.stop.names ++ G.outside) name) :
      Concludes t o M u (if o'.isYield then o else o')

/-- A guarded section is done: its value is at hand and the machine stands behind it, or it has ended its
block. -/
structure Ends (u : State) (o : Outcome) : Prop where
  stack : u.stack = k
  value : ∀ x, o = .value x .yield →
    u = .inCode f G.block (G.visit.stop.func.code G.block).length u.frame k u.world ∧
      ∃ r, G.visit.last = some r ∧ u.frame.get? r = some x
  ended : o.isYield = false → u.ended = some o

/-- The course of a guarded section from `s` to `u`, where it is done with the outcome `o`. -/
inductive Course (s u : State) (o : Outcome) : Prop
  | mk {s' t o' t' o'' M} (hpassage : Passage cfg p k s s')
      (hplays : G.bodyVisit.Plays cfg p (Aside k) f G.outside E s' t o')
      (hhandles : G.Handles cfg p f k E t o' (G.bodyVisit.leaves "" t.frame o' E) t' o'' M)
      (hconcludes : G.Concludes cfg p f k t' o'' M u o) (hends : G.Ends f k u o)

end

/-! ## Sections that are done -/

variable {G : GuardedSection} {cfg : RunConfig} {p : Program} {g : Func} {C : Set Reg} {joins : Names}
  {j k : Stack} {fr₀ : Frame} {t : State} {o : Outcome} {M : String → Option Value} {fr : Frame}
  {w : World}

/-- The stack of a section, where its end is awaited by the guarded instruction. -/
def waits (G : GuardedSection) (g : Func) (joins : Names) (k : Stack) (after : After) : Stack :=
  k.push (.within ⟨G.block, (g.code G.block).toArray, Int64.ofNat (G.visit.index + joins.length)⟩ after)

/-- The guarded instruction takes the outcome of the section. -/
theorem step_waits (cfg : RunConfig) (p : Program) (after : After)
    (hstack : t.stack = G.waits g joins k after) (ho : t.ended = some o) : step cfg p t = .state (resume cfg
      (.inCode g G.block (G.visit.index + joins.length) t.frame k t.world) after o) :=
  step_within ho hstack

/-- A section of a guarded section that was entered in `fr₀` is done on top of a stack. The names stand
for `M` behind it. -/
structure Done (G : GuardedSection) (cfg : RunConfig) (p : Program) (g : Func) (C : Set Reg)
    (joins : Names) (fr₀ : Frame) (j : Stack) (t : State) (o : Outcome) (M : String → Option Value) :
    Prop where
  reachable : Reachable cfg p t
  stack : t.stack = j
  ended : t.ended = some o
  fixed : o.Fixed g.name
  isSet : ∀ x, o = .value x .yield → x.isSet = true
  standing : G.Standing C joins fr₀ M t.frame

/-- From `t` the machine comes to the cleanup, with a pending outcome. -/
structure Pending (G : GuardedSection) (cfg : RunConfig) (p : Program) (g : Func) (C : Set Reg)
    (joins : Names) (fr₀ : Frame) (k : Stack) (t : State) (o : Outcome) (M : String → Option Value) :
    Prop where
  reachable : Reachable cfg p t
  fixed : o.Fixed g.name
  isSet : ∀ x, o = .value x .yield → x.isSet = true
  comes : ∃ a fr, Through cfg p (fun x => Aside k x ∧ x.world = t.world) t a ∧
    step cfg p a = .state (cleanUp cfg
      (.inCode g G.block (G.visit.index + joins.length) fr k t.world) G.dest G.guard o) ∧
    G.Standing C joins fr₀ M fr

theorem Done.pending (h : G.Done cfg p g C joins fr₀ (G.waits g joins k (.handler G.dest G.guard)) t o M) :
    G.Pending cfg p g C joins fr₀ k t o M :=
  { h with
    comes := ⟨t, t.frame, .refl ⟨aside_of_above (fun _ _ h => by cases h) (above_of_eq h.stack), rfl⟩,
      step_waits cfg p _ h.stack h.ended, h.standing⟩ }

/-- So is that of the body, unless a clause may take it. -/
theorem Done.pending_of_not_caught
    (h : G.Done cfg p g C joins fr₀ (G.waits g joins k (.body G.dest G.guard)) t o M)
    (hnot : ∀ e v, o = .fault e → e.Caught v → G.guard.handler = .none) :
    G.Pending cfg p g C joins fr₀ k t o M := by
  have hstep := step_waits cfg p _ h.stack h.ended
  rw [resume, handle_of_not_caught hnot] at hstep
  exact { h with
    comes := ⟨t, t.frame, .refl ⟨aside_of_above (fun _ _ h => by cases h) (above_of_eq h.stack), rfl⟩,
      hstep, h.standing⟩ }

/-- So is that of a clause that was chosen, which goes through the block that chooses. -/
theorem Done.pending_of_arm {c : BlockId} {d v : Reg} {arms : List Arm} {default : BlockId}
    (R : Regular cfg p) (hlen : (g.code c).length < codeLimit) (hg : fr₀.func = g)
    (hcode : g.code c = [.dispatch d (.reg v) arms default, .leave .yield (.reg d)])
    (hd : d ∈ G.taken C) (hjoin : ∀ name, joins.get? name ≠ some d)
    (h : G.Done cfg p g C joins fr₀ (armOf g c 0 d (G.waits g joins k (.handler G.dest G.guard))) t o M) :
    G.Pending cfg p g C joins fr₀ k t o M := by
  have haside : ∀ s : State, Above (G.waits g joins k (.handler G.dest G.guard)) s → Aside k s :=
    fun s => aside_of_above fun _ _ h => by cases h
  have hstep : step cfg p t = .state (resume cfg (.inCode g c 0 t.frame
    (G.waits g joins k (.handler G.dest G.guard)) t.world) (.arm d) o) := step_within h.ended h.stack
  have ht : Aside k t ∧ t.world = t.world := ⟨haside t (above_of_eq h.stack).of_push, rfl⟩
  refine { h with comes := ?_ }
  cases hy : o.isYield with
  | true =>
    obtain ⟨x, rfl⟩ := Outcome.eq_of_isYield hy
    obtain ⟨fr, hw, hstep⟩ := R.store h.reachable hstep
    have hx : (g.code c)[1]? = some (.leave .yield (.reg d)) := by rw [hcode]; rfl
    have hread : fr.read (.reg d) = .ok x :=
      Frame.read_eq_ok_iff.mpr (.inl ⟨d, rfl, Frame.get?_write_self hw (h.isSet x rfl)⟩)
    have hp : perform cfg.runner p fr t.world (.leave .yield (.reg d)) =
        (t.world, .ok (.leave x .yield)) := by
      simp only [perform, Machine.leave, hread]
      rfl
    have hleave := step_leave (k := G.waits g joins k (.handler G.dest G.guard)) hx
      (Nat.lt_trans (List.getElem?_eq_some_iff.mp hx).1 hlen) hp
    refine ⟨_, fr, .step ht hstep (.step ⟨haside _ (above_of_eq rfl), rfl⟩ hleave
      (.refl ⟨haside _ (above_of_eq rfl), rfl⟩)), ?_, h.standing.write hd hjoin hw⟩
    exact step_waits cfg p (.handler G.dest G.guard) rfl rfl
  | false =>
    rw [resume, conclude_of_not_yield (h.standing.spares.func.trans hg) h.fixed hy] at hstep
    refine ⟨_, t.frame, .step ht hstep (.refl ⟨haside _ (above_of_eq rfl), rfl⟩), ?_, h.standing⟩
    exact step_waits cfg p (.handler G.dest G.guard) rfl rfl

/-- A part that is started plays, and then it is done. -/
theorem plays_part {v : Visit} {own : String} (R : Regular cfg p) (hdef : p.Defines g)
    (P : G.Plan g C joins) (hg : fr₀.func = g) (hv : G.Part g C v own)
    (hs : Reachable cfg p (.inCode g v.block 0 fr j w))
    (S : G.Standing C joins fr₀ (G.meaning fr₀) fr) {x : Value}
    (hx : own ≠ "" → fr.get? G.caught = some x) (hj : ∀ s, Above j s → Aside k s) :
    ∃ t o, v.Plays cfg p (Aside k) g G.outside (bound (G.meaning fr₀) own x)
        (.inCode g v.block 0 fr j w) t o ∧
      G.Done cfg p g C joins fr₀ j t o (v.leaves own t.frame o (G.meaning fr₀)) := by
  have hfr : fr.func = g := S.spares.func.trans hg
  obtain ⟨t, o, hthrough, hstack, hended, hfixed, hset, S'⟩ := hv.runs P S R.followed.startable
    (R.followed.fits g hdef) R.free hfr (R.calls j) hs
  refine ⟨t, o, ⟨by rw [hv.index_eq]; rfl, hfr, S.meaning_part P hv hx, ?_, hstack, hended⟩,
    hthrough.reachable hs, hstack, hended, hfixed, hset, S'⟩
  exact hthrough.mono fun s hs => ⟨hs, hj s hs⟩

/-! ## Clauses -/

/-- The register of what is caught is taken before the clauses. -/
theorem caught_lt_handled (hcs : G.clauses ≠ []) : G.caught.index < G.handled.func.numRegs := by
  obtain ⟨-, S, hgrow, -⟩ := grows_lowered hcs
  have hstart := (clausesStart_fields G.clauses (bodyDone G.body G.start)).1
  have hlow : (clausesStart G.clauses (bodyDone G.body G.start)).func.numRegs ≤ G.lowered.2.func.numRegs :=
    (gatherer_clauses G.pos G.caught G.clauses {} _).1.func.numRegs
  have hhandled := hgrow.func.numRegs
  have hcaught : G.caught.index = (bodyDone G.body G.start).func.numRegs := rfl
  omega

theorem Plan.join_ne (P : G.Plan g C joins) {r : Reg} (hr : r.index < G.handled.func.numRegs)
    (name : String) : joins.get? name ≠ some r := fun hj => by
  have := P.handled_le_join hj
  omega

/-- A single clause without a pattern takes every value. -/
theorem chosen_singleton {c : Clause} (h : c.takesAll = true) (v : Value) : chosen [c] v = some 0 := by
  obtain ⟨name, x, body⟩ := c
  have hx : x.isAbsent = true := h
  simp [chosen, List.findIdx?_cons, Clause.takes, Clause.takesAll, hx]

theorem exists_of_chosen {cs : List Clause} {v : Value} {n : Nat} (h : chosen cs v = some n) :
    ∃ c, cs[n]? = some c := by
  have hlt : n < cs.length := by
    rcases Option.or_eq_some_iff.mp h with h | ⟨-, h⟩ <;>
      exact (List.findIdx?_eq_some_iff_getElem.mp h).1
  exact ⟨cs[n], List.getElem?_eq_getElem hlt⟩

theorem node_of_clauseVisits {n : Nat} {c : Clause} {v : Visit} (hc : G.clauses[n]? = some c)
    (hv : G.clauseVisits[n]? = some (some v)) : v.node = c.body := by
  rw [clauseVisits_eq] at hv
  obtain ⟨u, rfl, -⟩ := exists_visit_of_clauses hc hv
  rfl

theorem Plan.handler_eq_none (P : G.Plan g C joins) (hcs : G.clauses = []) :
    G.guard.handler = .none := by
  cases P.handlers with
  | none _ h => exact h
  | sole hone => simp [hcs] at hone
  | choosing hne => exact absurd hcs hne

/-- In the block that chooses, the dispatch enters the arm that the value leads to. -/
theorem step_choosing {c b : BlockId} {d : Reg} {arms : List Arm} {default : BlockId}
    {v : Value} (hdepth : k.height + 3 ≤ cfg.maxDepth) (hlen : (g.code c).length < codeLimit)
    (hcode : g.code c = [.dispatch d (.reg G.caught) arms default, .leave .yield (.reg d)])
    (hfr : fr.func = g) (hcaught : fr.get? G.caught = some v)
    (harm : chooseArm fr v default arms = .ok b) (hb : g.Has b) :
    step cfg p (.inCode g c 0 fr (G.waits g joins k (.handler G.dest G.guard)) w) =
      .state (.inCode g b 0 fr (armOf g c 0 d (G.waits g joins k (.handler G.dest G.guard))) w) := by
  have hx : (g.code c)[0]? = some (.dispatch d (.reg G.caught) arms default) := by rw [hcode]; rfl
  refine step_dispatch hx (Nat.lt_trans (List.getElem?_eq_some_iff.mp hx).1 hlen)
    (Frame.read_eq_ok_iff.mpr (.inl ⟨_, rfl, hcaught⟩)) harm hfr hb ?_
  simp only [waits, Stack.height_push]
  omega

section
variable (R : Regular cfg p) (hdef : p.Defines g) (P : G.Plan g C joins) (hg : fr₀.func = g)
  (hdepth : k.height + 3 ≤ cfg.maxDepth)
include R P hg hdepth

/-- The handler starts with what was caught. -/
theorem Done.catches {c : BlockId} {e : Fault} {v : Value}
    (h : G.Done cfg p g C joins fr₀ (G.waits g joins k (.body G.dest G.guard)) t (.fault e)
      (G.meaning fr₀)) (hcs : G.clauses ≠ []) (hc : G.handler = (c, G.caught)) (hhas : g.Has c)
    (hv : e.Caught v) :
    ∃ fr, step cfg p t = .state (.inCode g c 0 fr (G.waits g joins k (.handler G.dest G.guard)) t.world) ∧
      fr.get? G.caught = some v ∧ G.Standing C joins fr₀ (G.meaning fr₀) fr := by
  have hblock : G.guard.handler = c := congrArg Prod.fst hc
  have hcaught : G.guard.caught = G.caught := congrArg Prod.snd hc
  have hmem := (P.handler_mem (by rw [hc]; exact hhas.ne_none)).1
  rw [hc] at hmem
  have hset := R.isSet_of_caught h.reachable h.ended hv
  obtain ⟨fr, hw, hstep⟩ := R.handle h.reachable (step_waits cfg p _ h.stack h.ended)
    (h.standing.spares.func.trans hg) (hblock ▸ hhas) (by omega) hv
  rw [hcaught] at hw
  rw [hblock] at hstep
  exact ⟨fr, hstep, Frame.get?_write_self hw hset,
    h.standing.write hmem (P.join_ne (caught_lt_handled hcs)) hw⟩

include hdef

/-- The outcome of the body is handled, and then it is pending. -/
theorem Done.handles (h : G.Done cfg p g C joins fr₀ (G.waits g joins k (.body G.dest G.guard)) t o M)
    (hM : o.isYield = false → M = G.meaning fr₀) :
    ∃ t' o' M', G.Handles cfg p g k (G.meaning fr₀) t o M t' o' M' ∧
      G.Pending cfg p g C joins fr₀ k t' o' M' := by
  by_cases hpass : ∀ e v, o = .fault e → e.Caught v → G.clauses = []
  · exact ⟨t, o, M, .passes hpass, h.pending_of_not_caught fun e v ho hv =>
      P.handler_eq_none (hpass e v ho hv)⟩
  push Not at hpass
  obtain ⟨e, v, rfl, hv, hcs⟩ := hpass
  obtain rfl := hM rfl
  have hlen := R.followed.fits g hdef
  have haside : ∀ s : State, Above (G.waits g joins k (.handler G.dest G.guard)) s → Aside k s :=
    fun s => aside_of_above fun _ _ h => by cases h
  have ht : Aside k t ∧ t.world = t.world :=
    ⟨aside_of_above (fun _ _ h => by cases h) (above_of_eq h.stack), rfl⟩
  cases P.handlers with
  | none hnone => exact absurd hnone hcs
  | @sole c w hone hall hw hhandler =>
    -- the handler is the clause itself
    have hc : G.clauses[0]? = some c := by rw [hone]; rfl
    have hw : G.clauseVisits[0]? = some (some w) := by rw [hw]; rfl
    have hpart := P.part_clause hc hw
    obtain ⟨fr, hstep, hcaught, S⟩ := h.catches R P hg hdepth hcs hhandler hpart.has hv
    obtain ⟨t', o', hplays, hdone⟩ := plays_part R hdef P hg hpart (.step h.reachable hstep) S
      (fun _ => hcaught) haside
    have hn : chosen G.clauses v = some 0 := by rw [hone]; exact chosen_singleton hall v
    exact ⟨t', o', _, .clause hv hn hc hw (node_of_clauseVisits hc hw) ⟨t, .refl ht, hstep, rfl⟩ hplays,
      hdone.pending⟩
  | @choosing c d arms default _ hhandler hhas hcode hd htaken hagain =>
    -- the handler dispatches over the clauses, and hands on what the chosen one yields
    obtain ⟨fr, hstep, hcaught, S⟩ := h.catches R P hg hdepth hcs hhandler hhas hv
    have hfr : fr.func = g := S.spares.func.trans hg
    have hmem : d ∈ G.taken C := by
      have hconf := (P.handler_mem (by rw [hhandler]; exact hhas.ne_none)).2
      rw [hhandler] at hconf
      exact hconf.dispatch_inv (by rw [hcode]; exact Nat.zero_lt_succ _) (by rw [hcode]; rfl)
    cases hn : chosen G.clauses v with
    | some n =>
      obtain ⟨w, hw, harm⟩ := htaken fr v n hn
      obtain ⟨cl, hcl⟩ := exists_of_chosen hn
      have hpart := P.part_clause hcl hw
      have hpass : Passage cfg p k t _ := ⟨_, .step ht hstep (.refl ⟨haside _ (above_of_eq rfl), rfl⟩),
        step_choosing hdepth (hlen c) hcode hfr hcaught harm hpart.has, rfl⟩
      obtain ⟨t', o', hplays, hdone⟩ := plays_part R hdef P hg hpart (hpass.reachable h.reachable) S
        (fun _ => hcaught) fun s hs => haside s hs.of_push
      exact ⟨t', o', _, .clause hv hn hcl hw (node_of_clauseVisits hcl hw) hpass hplays,
        hdone.pending_of_arm R (hlen c) hg hcode hmem (P.join_ne hd)⟩
    | none =>
      -- the default of the dispatch throws the value again
      obtain ⟨b, harm, hbhas, hbcode⟩ := hagain fr v hn
      have hthrow : (g.code b)[0]? = some (.leave .throw (.reg G.caught)) := by rw [hbcode]; rfl
      have hpass : Passage cfg p k t _ := ⟨_, .step ht hstep (.step ⟨haside _ (above_of_eq rfl), rfl⟩
        (step_choosing hdepth (hlen c) hcode hfr hcaught harm hbhas)
        (.refl ⟨haside _ (above_of_eq (k := armOf g c 0 d _) rfl).of_push, rfl⟩)),
        step_throw hthrow (Nat.lt_trans (List.getElem?_eq_some_iff.mp hthrow).1 (hlen b))
          (Frame.read_eq_ok_iff.mpr (.inl ⟨_, rfl, hcaught⟩)), rfl⟩
      have hdone : G.Done cfg p g C joins fr₀ (armOf g c 0 d (G.waits g joins k (.handler G.dest G.guard)))
          _ _ (G.meaning fr₀) := ⟨hpass.reachable h.reachable, rfl, rfl,
        Outcome.fixed_locate _ (congrArg Func.name hfr), (fun x hx => by cases hx), S⟩
      exact ⟨_, _, _, .uncaught hcs hv hn hpass rfl (Fault.locate_cause _ _),
        hdone.pending_of_arm R (hlen c) hg hcode hmem (P.join_ne hd)⟩

end

/-! ## The end -/

theorem sealNested_fields (b : BlockId) (last : Option Reg) (s : Builder) :
    (sealNested b last s).2.names = s.names ∧ (sealNested b last s).2.func.numRegs = s.func.numRegs := by
  rw [sealNested_apply]
  cases endsBlock (s.func.code b) <;> exact ⟨rfl, by simp⟩

theorem stop_names : G.visit.stop.names = G.cleaned.2.names := by rw [stop_eq]; rfl

theorem stop_names_of_absent (h : G.cleanup.isAbsent = true) : G.visit.stop.names = G.joined.names := by
  rw [stop_names, cleaned_of_absent h]

theorem Plan.dest_ne (P : G.Plan g C joins) {name : String} {r : Reg}
    (hr : Names.get? (G.visit.stop.names ++ G.outside) name = some r) : r ≠ G.dest := by
  rintro rfl
  rw [Names.get?_append, Option.or_eq_some_iff] at hr
  rcases hr with hr | ⟨-, hr⟩
  · have hsettled : Settled C ∅ G.cleaned.2.func.numRegs G.dest := by
      have hmem := Names.mem_of_get? hr
      rw [stop_names] at hmem
      cases habs : G.cleanup.isAbsent with
      | true =>
        rw [cleaned_of_absent habs] at hmem ⊢
        exact P.sections.joined.names _ hmem
      | false =>
        obtain ⟨hnames, hregs⟩ := sealNested_fields G.cleanupVisit.block G.cleanupVisit.last
          G.cleanupVisit.stop
        rw [cleaned_of_present habs, hnames] at hmem
        rw [cleaned_of_present habs, hregs]
        exact (P.inside_cleanup habs).kept_stop.names _ hmem
    rcases hsettled with hC | ⟨hlt, -⟩
    · exact P.dest_mem.1 hC
    · exact absurd hlt (lt_irrefl _)
  · exact P.not_mem_taken_of_outside hr P.dest_mem

/-- The guarded instruction ends with an outcome. -/
theorem ends_of_conclude (R : Regular cfg p) (P : G.Plan g C joins) {a : State}
    (ha : Reachable cfg p a) (hfr : fr.func = g) (hfixed : o.Fixed g.name)
    (hset : ∀ x, o = .value x .yield → x.isSet = true) (hstep : step cfg p a = .state
      (conclude (.inCode g G.block (G.visit.index + joins.length) fr k w) G.dest o)) :
    ∃ u, step cfg p a = .state u ∧ G.Ends g k u o ∧ u.world = w ∧
      ∀ name, u.frame.meaning (G.visit.stop.names ++ G.outside) name =
        fr.meaning (G.visit.stop.names ++ G.outside) name := by
  cases hy : o.isYield with
  | true =>
    obtain ⟨x, rfl⟩ := Outcome.eq_of_isYield hy
    obtain ⟨fr', hw, hstep⟩ := R.store ha hstep
    refine ⟨_, hstep, ⟨rfl, fun x' hx' => ?_, fun h => by cases h⟩, rfl, fun name => ?_⟩
    · obtain rfl : x = x' := by cases hx'; rfl
      exact ⟨by rw [P.length]; rfl, _, last_eq, Frame.get?_write_self hw (hset x rfl)⟩
    · unfold Frame.meaning
      cases hr : Names.get? (G.visit.stop.names ++ G.outside) name with
      | none => rfl
      | some r => exact Frame.get?_write_of_ne hw (P.dest_ne hr)
  | false =>
    rw [conclude_of_not_yield hfr hfixed hy] at hstep
    refine ⟨_, hstep, ⟨rfl, ?_, fun _ => rfl⟩, rfl, fun _ => rfl⟩
    rintro x rfl
    cases hy

/-- What an outcome is behind a cleanup. -/
theorem resume_cleanup (s : State) (dest : Reg) (o o' : Outcome) :
    resume cfg s (.cleanup dest o) o' = conclude s dest (if o'.isYield then o else o') := by
  match o' with
  | .value _ .yield | .value _ .ret | .fault _ => rfl

theorem plays_cleanup (R : Regular cfg p) (hdef : p.Defines g) (P : G.Plan g C joins)
    (hg : fr₀.func = g) (hpresent : G.cleanup.isAbsent = false)
    (hs : Reachable cfg p (.inCode g G.cleanupVisit.block 0 fr (G.waits g joins k (.cleanup G.dest o)) w))
    (S : G.Standing C joins fr₀ M fr) :
    ∃ t o', G.cleanupVisit.Plays cfg p (CleansUp k) g G.outside (G.merged M)
        (.inCode g G.cleanupVisit.block 0 fr (G.waits g joins k (.cleanup G.dest o)) w) t o' ∧
      t.frame.func = g ∧ o'.Fixed g.name ∧ ∀ x, o' = .value x .yield → x.isSet = true := by
  have hfr : fr.func = g := S.spares.func.trans hg
  obtain ⟨t, o', hthrough, hends, -⟩ := (P.sectionCode_cleanup hpresent).comes R.followed.startable
    (R.followed.fits g hdef) R.free hfr (R.calls _) hs
  refine ⟨t, o', ⟨?_, hfr, fun name => ?_, ?_, hends.stack, hends.ended⟩, ?_, hends.fixed,
    fun x hx => (hends.yields x hx).1⟩
  · rw [Visit.index, empty_cleanup]
    rfl
  · rw [names_cleanup]
    exact S.meaning_joined P name
  · exact hthrough.mono fun s hs => ⟨hs, cleansUp_of_above hs⟩
  · cases hy : o'.isYield with
    | false => exact (hends.stays hy).func.trans hfr
    | true =>
      obtain ⟨x, rfl⟩ := Outcome.eq_of_isYield hy
      obtain ⟨-, fr₁, hfr₁, hmoved⟩ := hends.yields x rfl
      exact hmoved.func.trans (hfr₁.func.trans hfr)

/-- A pending outcome goes through the cleanup, and the guarded section ends. -/
theorem Pending.concludes (h : G.Pending cfg p g C joins fr₀ k t o M) (R : Regular cfg p)
    (hdef : p.Defines g) (P : G.Plan g C joins) (hg : fr₀.func = g)
    (hdepth : k.height + 3 ≤ cfg.maxDepth) :
    ∃ u o', G.Concludes cfg p g k t o M u o' ∧ G.Ends g k u o' := by
  obtain ⟨a, fr, hthrough, hstep, S⟩ := h.comes
  have ha := hthrough.reachable h.reachable
  have hfr : fr.func = g := S.spares.func.trans hg
  cases habs : G.cleanup.isAbsent with
  | true =>
    have hnone : G.guard.cleanup = .none := congrArg Prod.fst (cleaned_of_absent habs)
    rw [cleanUp, if_pos hnone] at hstep
    obtain ⟨u, hu, hends, hworld, hnames⟩ := ends_of_conclude R P ha hfr h.fixed h.isSet hstep
    refine ⟨u, o, .plain habs ⟨a, hthrough, hu, hworld⟩ fun name => ?_, hends⟩
    rw [hnames, stop_names_of_absent habs]
    exact S.meaning_joined P name
  | false =>
    have hblock : G.guard.cleanup = G.cleanupVisit.block := congrArg Prod.fst (cleaned_of_present habs)
    have hhas := P.has_cleanup habs
    rw [cleanUp, hblock, if_neg hhas.ne_none, enter_inCode hfr hhas (by omega)] at hstep
    obtain ⟨t', o', hplays, hfr', hfixed', hset'⟩ := plays_cleanup R hdef P hg habs (.step ha hstep) S
    have hafter := step_waits cfg p _ hplays.stack hplays.ended
    rw [resume_cleanup] at hafter
    have ht' : Reachable cfg p t' := hplays.runs.reachable (.step ha hstep)
    have hfixed : (if o'.isYield then o else o').Fixed g.name := by
      split <;> [exact h.fixed; exact hfixed']
    have hset : ∀ x, (if o'.isYield then o else o') = .value x .yield → x.isSet = true := by
      split <;> [exact h.isSet; exact hset']
    obtain ⟨u, hu, hends, -, hnames⟩ := ends_of_conclude R P ht' hfr' hfixed hset hafter
    exact ⟨u, _, .cleanup habs ⟨a, hthrough, hstep, rfl⟩ hplays hu hnames, hends⟩

/-- The guarded instruction enters the body. -/
theorem Plan.step_body (P : G.Plan g C joins) (cfg : RunConfig) (p : Program)
    (hlen : (g.code G.block).length < codeLimit) (hfr : fr.func = g)
    (hdepth : k.height + 1 < cfg.maxDepth) :
    step cfg p (.inCode g G.block (G.visit.index + joins.length) fr k w) = .state
      (.inCode g G.bodyVisit.block 0 fr (G.waits g joins k (.body G.dest G.guard)) w) := by
  have hi := Nat.lt_trans (List.getElem?_eq_some_iff.mp P.instr).1 hlen
  have hp : perform cfg.runner p fr w (.guarded G.dest G.guard) =
      (w, .ok (.enter G.guard.body (.body G.dest G.guard))) := rfl
  rw [step_enters P.instr hi hp]
  exact congrArg Next.state (enter_inCode hfr P.part_body.has hdepth _)

/-- A guarded section takes its course. -/
theorem Plan.exists_course (P : G.Plan g C joins) (R : Regular cfg p) (hdef : p.Defines g)
    (hg : fr.func = g) (hdepth : k.height + 3 ≤ cfg.maxDepth)
    (hs : Reachable cfg p (.inCode g G.block G.visit.index fr k w)) :
    ∃ u o, G.Course cfg p g k (G.meaning fr) (.inCode g G.block G.visit.index fr k w) u o := by
  have hlen := R.followed.fits g hdef G.block
  obtain ⟨fr₁, hfront, S⟩ := P.through_front (Q := fun x => Aside k x ∧ x.world = w) R.free hlen
    (fun _ _ => ⟨aside_of_eq rfl, rfl⟩) hs
  have hbody := P.step_body cfg p (k := k) (w := w) hlen (S.spares.func.trans hg) (by omega)
  have hpassage : Passage cfg p k (.inCode g G.block G.visit.index fr k w) _ := ⟨_, hfront, hbody, rfl⟩
  obtain ⟨t, o, hplays, hdone⟩ := plays_part R hdef P hg P.part_body (hpassage.reachable hs) S
    (x := .null) (absurd rfl) fun s => aside_of_above fun _ _ h => by cases h
  rw [bound_empty] at hplays
  obtain ⟨t', o', M, hhandles, hpending⟩ := hdone.handles R hdef P hg hdepth fun hy => by
    rw [Visit.leaves, hy, if_neg Bool.false_ne_true]
  obtain ⟨u, o'', hconcludes, hends⟩ := hpending.concludes R hdef P hg hdepth
  exact ⟨u, o'', .mk hpassage hplays hhandles hconcludes hends⟩

end GuardedSection

/-! ## Trees -/

/-- The class of the fault that an outcome is, if it is one. -/
def Outcome.faultKind? : Outcome → Option FaultKind
  | fault f => some f.cause.kind
  | value .. => none

theorem Outcome.faultKind?_eq_some_iff {o : Outcome} {k : FaultKind} :
    o.faultKind? = some k ↔ ∃ f, o = .fault f ∧ f.cause.kind = k := by
  cases o <;> simp [faultKind?]

namespace Machine

variable {cfg : RunConfig} {p : Program} {n m : Nat}

/-- A state of a run, found by following the run. -/
theorem exists_of_trace {α : Type} {F : State → α} {a : α}
    (h : (trace cfg p n).map (fun x => F x.1) = some a) : ∃ s, Reachable cfg p s ∧ F s = a := by
  obtain ⟨⟨s, hist⟩, hs, heq⟩ := Option.map_eq_some_iff.mp h
  exact ⟨s, (traced_of_trace hs).reachable, heq⟩

/-- A block that ends with a fault. -/
theorem exists_fault_of_trace {k : FaultKind} {calls : List (List String)}
    (h : (trace cfg p n).map (fun x =>
      (x.1.stack.height, x.1.world.calls, x.1.ended.bind Outcome.faultKind?)) = some (m, calls, some k)) :
    ∃ s f, Reachable cfg p s ∧ s.stack.height = m ∧ s.world.calls = calls ∧
      s.ended = some (.fault f) ∧ f.cause.kind = k := by
  obtain ⟨s, hs, heq⟩ := exists_of_trace
    (F := fun s => (s.stack.height, s.world.calls, s.ended.bind Outcome.faultKind?)) h
  simp only [Prod.mk.injEq, Option.bind_eq_some_iff, Outcome.faultKind?_eq_some_iff] at heq
  obtain ⟨hheight, hcalls, o, ho, f, rfl, hk⟩ := heq
  exact ⟨s, f, hs, hheight, hcalls, ho, hk⟩

end Machine

namespace Lowering

/-- Let a tree have its returns and throws in statement position, and let the commands of a configuration
answer no closures. Then each guarded section in the tree, wherever a run comes to it with two levels of
depth to spare, takes its course. -/
theorem course_of_reachable {t : Node} (ht : t.exitsPlaced .statement = true) (hfit : Fit (program t).1)
    {cfg : RunConfig} (hcfg : cfg.ClosureFree) {G : GuardedSection} {fr : Frame} {k : Stack} {w : World}
    (hG : Visits fr.func G.visit)
    (hs : Reachable cfg (program t).1 (.inCode fr.func G.block G.visit.index fr k w))
    (hdepth : k.height + 3 ≤ cfg.maxDepth) :
    ∃ u o, G.Course cfg (program t).1 fr.func k (G.meaning fr)
      (.inCode fr.func G.block G.visit.index fr k w) u o := by
  obtain ⟨C, hinside⟩ := hG.sound
  obtain ⟨joins, P⟩ := GuardedSection.exists_plan hinside
  exact P.exists_course (regular_of_placed ht hfit hcfg) (sited_reachable hs).defines rfl hdepth hs

/-- A guarded section behind an assignment. Its body binds the name anew and throws a text. The second
clause takes the text, under the same name. -/
def caughtSection : GuardedSection where
  block := mainStart.func.entry
  pos := {}
  body := .list {} [.assign {} "x" (.string {} "b"), .throw {} (.string {} "c")]
  clauses := [.mk "" .absent (.ret {} (.word {} "x")), .mk "x" (.string {} "c") (.word {} "x")]
  cleanup := .command {} "probe" [.word {} "x"] ""
  start := (node mainStart.func.entry (.assign {} "x" (.string {} "a"))
    (bindAll mainStart.func.params mainStart.func.paramRegs mainStart).2).2

def caughtNames : Node := .list {} [.assign {} "x" (.string {} "a"), caughtSection.visit.node]

theorem visits_caughtSection {f : Func} (hf : (program caughtNames).1.Defines f)
    (hname : f.name = mainName) : Visits f caughtSection.visit := by
  have hlive : endsBlock (caughtSection.start.func.code mainStart.func.entry) = false := by
    decide +kernel
  refine .part (visits_main hf hname) (List.mem_cons_of_mem _ ?_)
  unfold caughtSection at hlive
  dsimp only at hlive
  simp only [hlive]
  exact List.mem_cons_self

theorem caughtNames_course : caughtNames.exitsPlaced .statement = true ∧ Fit (program caughtNames).1 ∧
    RunConfig.shallow.ClosureFree ∧ ∃ fr k w, Visits fr.func caughtSection.visit ∧
      Reachable .shallow (program caughtNames).1
        (.inCode fr.func caughtSection.block caughtSection.visit.index fr k w) ∧
      k.height + 3 ≤ RunConfig.shallow.maxDepth ∧
      ∃ u o, caughtSection.Course .shallow (program caughtNames).1 fr.func k (caughtSection.meaning fr)
        (.inCode fr.func caughtSection.block caughtSection.visit.index fr k w) u o := by
  have ht : caughtNames.exitsPlaced .statement = true := by decide
  have hfit : Fit (program caughtNames).1 := by decide +kernel
  have htrace : (trace .shallow (program caughtNames).1 1).map (fun x =>
      (x.1.frame.func.name, x.1.ended.isNone, x.1.site.block, x.1.site.ip, x.1.stack.height)) =
      some (mainName, true, caughtSection.block, Int64.ofNat caughtSection.visit.index, 0) := by
    decide +kernel
  obtain ⟨⟨s, h⟩, hsh, heq⟩ := Option.map_eq_some_iff.mp htrace
  simp only [Prod.mk.injEq, Option.isNone_iff_eq_none] at heq
  obtain ⟨hname, hended, hblock, hip, hheight⟩ := heq
  have hs := (traced_of_trace hsh).reachable
  have hsited := sited_reachable hs
  have hG : Visits s.frame.func caughtSection.visit := visits_caughtSection hsited.defines hname
  rw [hsited.eq_inCode hended hip, hblock] at hs
  have hdepth : s.stack.height + 3 ≤ RunConfig.shallow.maxDepth := by rw [hheight]; decide
  exact ⟨ht, hfit, RunConfig.shallow_closureFree, s.frame, s.stack, s.world, hG, hs, hdepth,
    course_of_reachable ht hfit RunConfig.shallow_closureFree hG hs hdepth⟩

/-! ## Names that are lost -/

/-- A guarded section whose body binds a name anew, and whose cleanup looks the name up. -/
def rebinding (name : String) : Node :=
  .list {} [.assign {} name (.string {} "a"), .guarded {} (.assign {} name (.string {} "b")) []
    (.command {} "probe" [.word {} name] "")]

/-- The cleanup sees what the body has bound a name to, but not if the name is empty. -/
theorem rebinding_empty_lost : (rebinding "").exitsPlaced .statement = true ∧
    Fit (program (rebinding "")).1 ∧ RunConfig.shallow.ClosureFree ∧
    (∃ s, Reachable .shallow (program (rebinding "")).1 s ∧
      (s.stack.height, s.world.calls) = (0, [["probe", "a"]])) ∧
    ∃ s, Reachable .shallow (program (rebinding "x")).1 s ∧
      (s.stack.height, s.world.calls) = (0, [["probe", "b"]]) := by
  have hempty : (trace .shallow (program (rebinding "")).1 8).map (fun x =>
      (x.1.stack.height, x.1.world.calls)) = some (0, [["probe", "a"]]) := by decide +kernel
  have hother : (trace .shallow (program (rebinding "x")).1 10).map (fun x =>
      (x.1.stack.height, x.1.world.calls)) = some (0, [["probe", "b"]]) := by decide +kernel
  exact ⟨by decide, by decide +kernel, RunConfig.shallow_closureFree, exists_of_trace hempty,
    exists_of_trace hother⟩

/-! ## Faults that are not thrown again -/

/-- A guarded section without clauses, whose body calls a function that is not there. -/
def clauseless : Node :=
  .guarded {} (.call {} (.word {} "h") []) [] (.command {} "probe" [] "")

/-- Without clauses the fault stays pending as it is, and no value is thrown for it. -/
theorem clauseless_not_thrown : clauseless.exitsPlaced .statement = true ∧ Fit (program clauseless).1 ∧
    RunConfig.shallow.ClosureFree ∧ ∃ s f, Reachable .shallow (program clauseless).1 s ∧
      s.stack.height = 0 ∧ s.world.calls = [["probe"]] ∧ s.ended = some (.fault f) ∧
      f.Caught (.string f.text) ∧ ∀ v, f.cause ≠ .thrown v := by
  have htrace : (trace .shallow (program clauseless).1 6).map (fun x =>
      (x.1.stack.height, x.1.world.calls, x.1.ended.bind Outcome.faultKind?)) =
      some (0, [["probe"]], some .undefinedFunction) := by
    decide +kernel
  obtain ⟨s, f, hs, hheight, hcalls, hended, hkind⟩ := exists_fault_of_trace htrace
  refine ⟨by decide, by decide +kernel, RunConfig.shallow_closureFree, s, f, hs, hheight, hcalls, hended,
    .raised (by rw [hkind]; decide) (by rw [hkind]; decide), fun v hv => ?_⟩
  rw [hv] at hkind
  cases hkind

/-- A closure with a guarded section that binds a captured name, and a call of what a command answers. -/
def callsAnswer : Node :=
  .list {} [
    .assign {} "y" (.string {} "z"),
    .assign {} "f" (.closure {} [] [] (.guarded {} (.assign {} "y" (.string {} "a")) []
      (.command {} "probe" [] ""))),
    .assign {} "g" (.command {} "forge" [] ""),
    .call {} (.word {} "g") []]

/-- Commands answer the closure of `callsAnswer`, but without what it has captured. -/
def forging : RunConfig where
  maxDepth := 8
  runner := some ⟨fun _ _ _ => .ok (.closure ⟨.written 0, mainName, ⟨1⟩, [], []⟩)⟩

/-- Where commands answer closures, a guarded section can fail in front of its body, and then it runs no
cleanup. -/
theorem forging_skips_cleanup : callsAnswer.exitsPlaced .statement = true ∧ Fit (program callsAnswer).1 ∧
    ∃ s f, Reachable forging (program callsAnswer).1 s ∧ s.stack.height = 0 ∧
      s.world.calls = [["forge"]] ∧ s.ended = some (.fault f) ∧ f.cause.kind = .invalidRegister := by
  have htrace : (trace forging (program callsAnswer).1 6).map (fun x =>
      (x.1.stack.height, x.1.world.calls, x.1.ended.bind Outcome.faultKind?)) =
      some (0, [["forge"]], some .invalidRegister) := by
    decide +kernel
  exact ⟨by decide, by decide +kernel, exists_fault_of_trace htrace⟩

end Lowering

end ScriptMachine
