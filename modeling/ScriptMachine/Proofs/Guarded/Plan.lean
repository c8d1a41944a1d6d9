import ScriptMachine.Proofs.Guarded.Handlers

/-!
# The code of guarded sections

How a guarded section is laid out in the finished function.

1. In its block stand the instructions that set the registers of the joined names, and behind them the
   instruction that enters the body (`GuardedSection.Plan`).
2. The body and each clause are sections that end in setting these registers (`Part.sectionCode`), and the
   cleanup is one that sets none (`sectionCode_cleanup`).
3. All of them write registers that were taken for the guarded section. None of these is captured or
   stands for a name in front of it, and the registers of joined names are written by no section before
   its end.
-/

namespace ScriptMachine

/-! ## What confined code writes -/

namespace Confined

variable {g : Func} {W : Set Reg} {b : BlockId} {i j : Nat}

theorem straight_inv {x : Instr} (h : Confined g W b i j) (hij : i < j)
    (hx : (g.code b)[i]? = some x) (hs : x.Straight) : x.out ∈ W ∧ Confined g W b (i + 1) j := by
  cases h with
  | stop => exact absurd hij (lt_irrefl i)
  | straight hx' _ hout next =>
    obtain rfl := Option.some.inj (hx.symm.trans hx')
    exact ⟨hout, next⟩
  | leave hx' | circuit hx' | dispatch hx' | guarded hx' =>
    obtain rfl := Option.some.inj (hx.symm.trans hx')
    exact hs.elim

theorem moves_inv {ms : List (Reg × Option Reg)} (h : Confined g W b i j) (hlen : i + ms.length ≤ j)
    (hcode : ∀ a m, ms[a]? = some m → (g.code b)[i + a]? = some (joinStart m.1 m.2)) :
    (∀ m ∈ ms, m.1 ∈ W) ∧ Confined g W b (i + ms.length) j := by
  induction ms generalizing i with
  | nil => exact ⟨(fun m hm => by cases hm), h⟩
  | cons m ms ih =>
    rw [List.length_cons] at hlen ⊢
    have hstart : (joinStart m.1 m.2).Straight ∧ (joinStart m.1 m.2).out = m.1 := by
      cases m.2 <;> exact ⟨trivial, rfl⟩
    obtain ⟨hout, hnext⟩ := h.straight_inv (by omega) (hcode 0 m rfl) hstart.1
    obtain ⟨hrest, hend⟩ := ih hnext (by omega) fun a m' ha => by
      rw [show i + 1 + a = i + (a + 1) by omega]
      exact hcode (a + 1) m' ha
    rw [show i + (ms.length + 1) = i + 1 + ms.length by omega]
    exact ⟨List.forall_mem_cons.mpr ⟨hstart.2 ▸ hout, hrest⟩, hend⟩

theorem dispatch_inv {dest : Reg} {v : Value} {arms : List Arm} {d : BlockId} (h : Confined g W b i j)
    (hij : i < j) (hx : (g.code b)[i]? = some (.dispatch dest v arms d)) : dest ∈ W := by
  cases h with
  | stop => exact absurd hij (lt_irrefl i)
  | dispatch hx' _ hdest _ =>
    obtain ⟨rfl, -⟩ := Instr.dispatch.inj (Option.some.inj (hx.symm.trans hx'))
    exact hdest
  | straight hx' hs =>
    obtain rfl := Option.some.inj (hx.symm.trans hx')
    exact hs.elim
  | leave hx' | circuit hx' | guarded hx' => cases Option.some.inj (hx.symm.trans hx')

theorem guarded_inv {dest : Reg} {gd : Guard} (h : Confined g W b i j) (hij : i < j)
    (hx : (g.code b)[i]? = some (.guarded dest gd)) : dest ∈ W ∧
      (gd.handler ≠ .none → gd.caught ∈ W ∧ Confined g W gd.handler 0 (g.code gd.handler).length) := by
  cases h with
  | stop => exact absurd hij (lt_irrefl i)
  | guarded hx' _ hcaught handler _ hdest _ =>
    obtain ⟨rfl, rfl⟩ := Instr.guarded.inj (Option.some.inj (hx.symm.trans hx'))
    exact ⟨hdest, fun hne => ⟨hcaught hne, handler hne⟩⟩
  | straight hx' hs =>
    obtain rfl := Option.some.inj (hx.symm.trans hx')
    exact hs.elim
  | leave hx' | circuit hx' | dispatch hx' => cases Option.some.inj (hx.symm.trans hx')

end Confined

/-! ## Registers of names -/

open Build Lowering

/-- Names from outside stand for captured registers. -/
theorem mem_captures_of_outside {C : Set Reg} {s : Builder} (hs : Kept C ∅ s) (hc : Captures C s)
    {p : String × Reg} (hp : p ∈ s.outside) : p.2 ∈ C := by
  have hscope := hs.scope
  unfold Builder.outside at hp
  unfold Captures at hc
  cases hes : s.enclosing with
  | nil =>
    rw [hes] at hp
    cases hp
  | cons e es =>
    rw [hes] at hp hscope hc
    have hcap := hscope.1 p hp
    exact (hc p.2 (lt_of_mem_capturedRegs hscope hcap)).mpr hcap

theorem Inside.has_stop {g : Func} {C : Set Reg} {v : Visit} (h : Inside g C v.block v.start v.stop) :
    v.stop.func.Has v.block :=
  (adds_node v.block v.node v.start).func.has h.has

theorem Inside.kept_stop {g : Func} {C : Set Reg} {v : Visit} (h : Inside g C v.block v.start v.stop) :
    Kept C ∅ v.stop :=
  (settles_node v.block v.node C ∅ _ v.start (le_refl _) h.kept h.has h.captures h.agrees).1.kept

namespace GuardedSection

/-! ## The instruction of a guarded section -/

variable (G : GuardedSection)

/-- The cleanup, if there is one, and the state behind it. -/
def cleaned : BlockId × Builder := Lowering.ending (optionalNode G.cleanup) G.joined

/-- The register of the value of the guarded section. -/
def dest : Reg := ⟨G.cleaned.2.func.numRegs⟩

def guard : Guard := ⟨G.bodyVisit.block, G.handler.1, G.handler.2, G.cleaned.1⟩

/-- The registers that are set in front of the guarded section. -/
def starts (joins : Names) : List (Reg × Option Reg) :=
  joins.map fun q => (q.2, Names.get? (G.start.names ++ G.joined.outside) q.1)

/-- The registers that were taken for the guarded section. -/
def taken (C : Set Reg) : Set Reg := takenRegs C G.start G.visit.stop

/-- The names that the closure at hand takes from outside of it, in the body, in the clauses and for the
joined names, or in the cleanup, which looks only those names up there that are not at hand. -/
def outside : Names :=
  G.joined.outside ++ G.visit.stop.outside.filter fun q => (G.joined.names.get? q.1).isNone

variable {G} {g : Func} {C : Set Reg} {joins : Names} {name : String}

theorem visit_eq : Lowering.node G.block G.visit.node G.start =
    produce G.block (.guarded · G.guard) G.cleaned.2 := by
  show Lowering.node G.block (.guarded G.pos G.body G.clauses G.cleanup) G.start = _
  rw [Lowering.node, guarded_apply]
  rfl

theorem last_eq : G.visit.last = some G.dest := congrArg Prod.fst visit_eq

theorem stop_eq : G.visit.stop = (produce G.block (.guarded · G.guard) G.cleaned.2).2 :=
  congrArg Prod.snd visit_eq

theorem grows_start_joined : Builder.Grows {G.block} G.start G.joined :=
  adds_guardedSections (fun c => adds_node c G.body) G.clauses
    (fun r => gatherer_clauses G.pos r G.clauses {}) G.start

theorem grows_cleaned : Builder.Grows ∅ G.joined G.cleaned.2 :=
  adds_ending (of_mem_optionalNode fun c => adds_node c G.cleanup) G.joined

theorem grows_stop : Builder.Grows {G.block} G.cleaned.2 G.visit.stop := by
  rw [stop_eq]
  exact adds_produce (Set.mem_singleton _) _ _

/-- What is known of a guarded section in the finished function `g`, where the registers `C` are captured
and `joins` are those of the joined names. -/
structure Plan (G : GuardedSection) (g : Func) (C : Set Reg) (joins : Names) : Prop where
  whole : Inside g C G.block G.start G.visit.stop
  sections : Sections g C G.block G.pos G.body G.clauses G.start
  handlers : G.HandlerCode g
  join : JoinCode G.block G.branches G.handled G.joined joins
  front : ∀ a m, (G.starts joins)[a]? = some m →
    (g.code G.block)[G.visit.index + a]? = some (joinStart m.1 m.2)
  instr : (g.code G.block)[G.visit.index + joins.length]? = some (.guarded G.dest G.guard)
  length : (G.visit.stop.func.code G.block).length = G.visit.index + joins.length + 1
  joins_mem : ∀ q ∈ joins, q.2 ∈ G.taken C
  dest_mem : G.dest ∈ G.taken C
  handler_mem : G.handler.1 ≠ .none →
    G.handler.2 ∈ G.taken C ∧ Confined g (G.taken C) G.handler.1 0 (g.code G.handler.1).length

theorem code_stop (hb : G.start.func.Has G.block) (hS : Sections g C G.block G.pos G.body G.clauses G.start)
    (hJ : JoinCode G.block G.branches G.handled G.joined joins) :
    G.visit.stop.func.code G.block = G.start.func.code G.block ++
      ((G.starts joins).map (fun m => joinStart m.1 m.2) ++ [.guarded G.dest G.guard]) := by
  have hjoined : G.joined.func.Has G.block := grows_start_joined.func.has hb
  have hnames : G.handled.names = G.start.names := hS.names
  have hcode : G.handled.func.code G.block = G.start.func.code G.block := hS.code
  rw [stop_eq, produce_code (grows_cleaned.func.has hjoined),
    grows_cleaned.func.kept G.block hjoined (by simp), hJ.front, hcode, hnames, List.append_assoc, starts,
    List.map_map]
  rfl

theorem exists_plan (h : Inside g C G.block G.start G.visit.stop) : ∃ joins, G.Plan g C joins := by
  have hgrow : Builder.Grows {G.block} G.joined G.visit.stop :=
    (grows_cleaned.mono (Set.empty_subset _)).trans grows_stop fun _ hc _ => hc
  have hjoined : Inside g C G.block G.start G.joined := h.left hgrow
  have hS := sections_of_inside hjoined
  have hb : G.handled.func.Has G.block :=
    hS.grows.func.has ((adds_branch "" .none (fun c => adds_node c G.body) G.start).func.has h.has)
  obtain ⟨joins, hJ⟩ : ∃ joins, JoinCode G.block G.branches G.handled G.joined joins := by
    have hnames : G.handled.names = G.start.names := hS.names
    have hjoin := joinCode_join hb hS.nodup hS.has fun br hbr heq => hS.new br hbr (heq ▸ h.has)
    rwa [hnames] at hjoin
  have hcode := code_stop h.has hS hJ
  have hindex : G.visit.index = (G.start.func.code G.block).length := rfl
  have hlen : (G.visit.stop.func.code G.block).length = G.visit.index + joins.length + 1 := by
    rw [hcode, hindex]
    simp [starts, Nat.add_assoc]
  have hat : CodeAt (g.code G.block) G.visit.index ((G.starts joins).map (fun m => joinStart m.1 m.2) ++
      [.guarded G.dest G.guard]) := fun a x hx =>
    h.agrees.code G.block _ x (Nat.le_add_right _ _) (CodeAt.of_append hcode a x hx)
  have hfront := hat.left.of_map
  have hinstr : (g.code G.block)[G.visit.index + joins.length]? = some (.guarded G.dest G.guard) := by
    simpa [starts] using hat.last
  have hconf : Confined g (G.taken C) G.block G.visit.index (G.visit.index + joins.length + 1) :=
    hlen ▸ confined_node h
  have hstarts : (G.starts joins).length = joins.length := List.length_map _
  obtain ⟨hmoves, hrest⟩ := hconf.moves_inv (by omega) hfront
  rw [hstarts] at hrest
  obtain ⟨hdest, hhandler⟩ := hrest.guarded_inv (Nat.lt_succ_self _) hinstr
  refine ⟨joins, h, hS, handlerCode hjoined, hJ, hfront, hinstr, hlen, fun q hq => ?_, hdest, hhandler⟩
  exact hmoves _ (List.mem_map_of_mem hq)

/-! ## The body and the clauses -/

/-- What is known of the body or of a clause, which keeps the name `own` to itself. -/
structure Part (G : GuardedSection) (g : Func) (C : Set Reg) (v : Visit) (own : String) : Prop where
  inside : Inside g C v.block v.start v.stop
  empty : v.start.func.code v.block = []
  mem : v.branch own ∈ G.branches
  code : G.handled.func.code v.block = v.stop.func.code v.block
  first : G.start.func.numRegs ≤ v.start.func.numRegs
  last : v.stop.func.numRegs ≤ G.handled.func.numRegs
  names : v.start.names = if own = "" then G.start.names else G.start.names.bind own G.caught

theorem code_visitBranch (own : String) (r : Reg) (x : Node) (s : Builder) :
    (visitBranch own r x s).start.func.code (visitBranch own r x s).block = [] :=
  (Func.newBlock_code _ _).trans s.func.code_size

theorem has_visitBranch (own : String) (r : Reg) (x : Node) (s : Builder) :
    (visitBranch own r x s).stop.func.Has (visitBranch own r x s).block :=
  (adds_node _ x _).func.has s.func.newBlock_has_self

theorem Plan.part_body (P : G.Plan g C joins) : G.Part g C G.bodyVisit "" := by
  have hbranch := branch_eq_visit "" .none G.body G.start
  have hdone : (bodyDone G.body G.start).func = G.bodyVisit.stop.func := by
    rw [bodyDone, hbranch]
    rfl
  have hhas : (bodyDone G.body G.start).func.Has G.bodyVisit.block := by
    rw [hdone]
    exact has_visitBranch _ _ _ _
  refine ⟨P.sections.inside, code_visitBranch _ _ _ _, ?_, ?_, le_refl _, ?_, rfl⟩
  · rw [branches, sectionBranches, hbranch]
    exact List.mem_cons_self
  · rw [← hdone]
    exact P.sections.grows.func.kept _ hhas (by simp)
  · rw [← hdone]
    exact P.sections.grows.func.numRegs

theorem clausesStart_fields (cs : List Clause) (s : Builder) :
    (clausesStart cs s).func.numRegs = s.func.numRegs + 1 ∧ (clausesStart cs s).names = s.names := by
  unfold clausesStart
  split <;> exact ⟨rfl, rfl⟩

/-- Behind the clauses only the block is added to that chooses among them, if there is one. -/
theorem grows_lowered (hcs : G.clauses ≠ []) :
    G.branches = G.bodyVisit.branch "" :: G.lowered.1.branches ∧
      ∃ S, Builder.Grows S G.lowered.2 G.handled ∧
        ∀ c ∈ S, (clausesStart G.clauses (bodyDone G.body G.start)).func.Has c := by
  have hbranch : (Build.branch "" .none (node · G.body) G.start).1 = G.bodyVisit.branch "" := by
    rw [branch_eq_visit]
    rfl
  cases hone : isSole G.clauses with
  | true =>
    rw [branches, sectionBranches, handled, handlersDone_sole hone, hbranch]
    exact ⟨rfl, ∅, .refl ∅ _, fun c hc => absurd hc (Set.notMem_empty c)⟩
  | false =>
    rw [branches, sectionBranches, handled, handlersDone_choosing hcs hone, hbranch]
    refine ⟨rfl, _, adds_chooseClause (Set.mem_singleton _) _ _ _, ?_⟩
    rintro c rfl
    simp only [clausesStart, hone]
    exact Func.newBlock_has_self _

theorem Plan.part_clause (P : G.Plan g C joins) {n : Nat} {c : Clause} {v : Visit}
    (hc : G.clauses[n]? = some c) (hv : G.clauseVisits[n]? = some (some v)) : G.Part g C v c.name := by
  have hcs : G.clauses ≠ [] := fun heq => by simp [heq] at hc
  obtain ⟨hbranches, S, hgrow, hS⟩ := grows_lowered hcs
  rw [clauseVisits_eq] at hv
  obtain ⟨u, rfl, hnames, hu, hlow, hmem⟩ := exists_visit_of_clauses hc hv
  have hbranch := branch_eq_visit c.name G.caught c.body u
  have hdone : (Build.branch c.name G.caught (node · c.body) u).2.func =
      (visitBranch c.name G.caught c.body u).stop.func := by rw [hbranch]
  have hbody : Builder.Grows ∅ G.start (bodyDone G.body G.start) :=
    adds_branch "" .none (fun c => adds_node c G.body) G.start
  obtain ⟨hstart, hnamesStart⟩ := clausesStart_fields G.clauses (bodyDone G.body G.start)
  have hnamesBody : (bodyDone G.body G.start).names = G.start.names := by rw [bodyDone, branch_eq_visit]
  have hhas := has_visitBranch c.name G.caught c.body u
  have hlowHas : G.lowered.2.func.Has (visitBranch c.name G.caught c.body u).block :=
    hlow.func.has (hdone ▸ hhas)
  refine ⟨P.sections.clauses _ (List.mem_of_getElem? hv), code_visitBranch _ _ _ _, ?_, ?_, ?_, ?_, ?_⟩
  · rw [hbranches]
    exact List.mem_cons_of_mem _ hmem
  · rw [hgrow.func.kept _ hlowHas fun hblock => ?_, ← hdone]
    · exact hlow.func.kept _ (hdone ▸ hhas) (by simp)
    · -- the block of a clause is made later than the one that chooses
      exact absurd (hu.func.has (hS _ hblock)).2 (by simp [visitBranch])
  · exact le_trans hbody.func.numRegs (le_trans (hstart ▸ Int.le_add_one (le_refl _)) hu.func.numRegs)
  · rw [← hdone]
    exact le_trans hlow.func.numRegs hgrow.func.numRegs
  · rw [← hnamesBody, ← hnamesStart, ← hnames]
    rfl

/-! ## Registers apart -/

/-- The registers of joined names are taken behind the clauses. -/
theorem Plan.handled_le_join (P : G.Plan g C joins) {j : Reg}
    (hj : joins.get? name = some j) : G.handled.func.numRegs ≤ j.index :=
  (P.join.fresh.bounds name j hj).1

/-- A register that was settled before is not that of a joined name. -/
theorem Plan.ne_join (P : G.Plan g C joins) {n : Int} {r : Reg} (hr : Settled C ∅ n r)
    (hn : n ≤ G.handled.func.numRegs) {j : Reg} (hj : joins.get? name = some j) : r ≠ j := by
  rintro rfl
  rcases hr with hC | ⟨hlt, -⟩
  · exact (P.joins_mem _ (Names.mem_of_get? hj)).1 hC
  · have := P.handled_le_join hj
    omega

theorem start_le_handled : G.start.func.numRegs ≤ G.handled.func.numRegs :=
  le_trans (adds_branch "" .none (fun c => adds_node c G.body) G.start).func.numRegs
    (makes_handlers G.clauses (fun r => gatherer_clauses G.pos r G.clauses {}) []
      (bodyDone G.body G.start)).1.func.numRegs

theorem handled_le_joined : G.handled.func.numRegs ≤ G.joined.func.numRegs := grows_joined.func.numRegs

theorem joined_le_stop : G.joined.func.numRegs ≤ G.visit.stop.func.numRegs :=
  le_trans grows_cleaned.func.numRegs grows_stop.func.numRegs

/-- A register that stands for a name in front of the guarded section, or was captured, is not taken for
it. -/
theorem not_mem_taken {r : Reg} (h : Settled C ∅ G.start.func.numRegs r) : r ∉ G.taken C := by
  rintro ⟨hC, hle, -⟩
  rcases h with hmem | ⟨hlt, -⟩
  · exact hC hmem
  · omega

theorem Plan.not_mem_taken_of_outside (P : G.Plan g C joins) {r : Reg}
    (h : G.outside.get? name = some r) : r ∉ G.taken C := by
  refine not_mem_taken (.inl ?_)
  have hgrow : Builder.Grows {G.block} G.joined G.visit.stop :=
    (grows_cleaned.mono (Set.empty_subset _)).trans grows_stop fun _ hc _ => hc
  rcases List.mem_append.mp (Names.mem_of_get? h) with hmem | hmem
  · exact mem_captures_of_outside P.sections.joined (P.whole.captures.left hgrow) hmem
  · exact mem_captures_of_outside P.whole.kept_stop P.whole.captures (List.mem_of_mem_filter hmem)

/-! ## The code of the parts -/

namespace Part

variable {v : Visit} {own : String}

section
variable (h : G.Part g C v own)
include h

theorem has : g.Has v.block := h.inside.agrees.has h.inside.has_stop

theorem index_eq : v.index = 0 := by rw [Visit.index, h.empty]; rfl

/-- A part writes registers that were taken for the guarded section. -/
theorem takenRegs_subset : takenRegs C v.start v.stop ⊆ G.taken C := by
  rintro r ⟨hC, hle, hlt⟩
  exact ⟨hC, le_trans h.first hle,
    lt_of_lt_of_le hlt (le_trans h.last (le_trans handled_le_joined joined_le_stop))⟩

/-- The registers of joined names are not written before the end of a part. -/
theorem join_not_mem (P : G.Plan g C joins) {name : String} {j : Reg}
    (hj : joins.get? name = some j) : j ∉ takenRegs C v.start v.stop := by
  rintro ⟨-, -, hlt⟩
  have hle := P.handled_le_join hj
  have := h.last
  omega

/-- The code of a part: it ends its block, or it sets the registers of joined names behind it. -/
theorem code_cases (P : G.Plan g C joins) : g.code v.block = v.stop.func.code v.block ∨
      g.code v.block = v.stop.func.code v.block ++ (v.branch own).ending G.start.names joins ∧
        v.branch own ∈ G.branches.filter fun br => !endsBlock (G.handled.func.code br.block) := by
  have hclosed := P.join.closed (v.branch own) h.mem
  have hfinal : g.code v.block = G.joined.func.code v.block := P.sections.finished (v.branch own) h.mem
  have hnames : G.handled.names = G.start.names := P.sections.names
  have hblock : (v.branch own).block = v.block := rfl
  rw [hblock, hnames, ← hfinal, h.code] at hclosed
  cases hend : endsBlock (v.stop.func.code v.block) with
  | true =>
    rw [hend, if_pos rfl, List.append_nil] at hclosed
    exact .inl hclosed
  | false =>
    rw [hend, if_neg Bool.false_ne_true] at hclosed
    refine .inr ⟨hclosed, List.mem_filter.mpr ⟨h.mem, ?_⟩⟩
    rw [hblock, h.code, hend]
    rfl

theorem sectionCode (P : G.Plan g C joins) :
    Machine.SectionCode g (takenRegs C v.start v.stop) v.block ((v.branch own).moves G.start.names joins)
      v.last (v.stop.func.code v.block) where
  confined := by
    have hconf := confined_node h.inside
    rwa [h.empty] at hconf
  noYield l hl w := not_yield_node h.inside (by rw [h.empty]; exact Nat.zero_le l) hl w
  code := by
    rcases h.code_cases P with hcode | ⟨hcode, -⟩
    · exact .inl hcode
    · rw [Branch.ending_eq_moves] at hcode
      exact .inr hcode
  movable := Branch.movable_moves P.join.fresh fun name r hr other j hj =>
    P.ne_join (h.inside.kept_stop.names _ (Names.mem_of_get? hr)) h.last hj

end

end Part

/-! ## The code of the cleanup -/

theorem cleaned_of_absent (h : G.cleanup.isAbsent = true) : G.cleaned = (.none, G.joined) := by
  simp [cleaned, optionalNode, h, Lowering.ending]

theorem cleaned_of_present (h : G.cleanup.isAbsent = false) : G.cleaned =
    (G.cleanupVisit.block, (sealNested G.cleanupVisit.block G.cleanupVisit.last G.cleanupVisit.stop).2) := by
  simp only [cleaned, optionalNode, h, Bool.false_eq_true, if_false]
  rfl

theorem sealNested_apply (b : BlockId) (last : Option Reg) (s : Builder) :
    (sealNested b last s).2 = if endsBlock (s.func.code b) then s
      else { s with func := s.func.append b (.leave .yield (operand last)) } := by
  simp only [sealNested, bind_apply, terminated_apply]
  cases endsBlock (s.func.code b) <;> rfl

theorem newBlock_names (s : Builder) : (newBlock s).2.names = s.names := rfl

theorem names_cleanup : G.cleanupVisit.start.names = G.joined.names := newBlock_names G.joined

theorem empty_cleanup : G.cleanupVisit.start.func.code G.cleanupVisit.block = [] :=
  (Func.newBlock_code _ _).trans G.joined.func.code_size

section
variable (P : G.Plan g C joins) (hpresent : G.cleanup.isAbsent = false)
include P hpresent

theorem Plan.inside_cleanup : Inside g C G.cleanupVisit.block G.cleanupVisit.start G.cleanupVisit.stop := by
  have hend : Inside g C G.block G.start G.cleaned.2 := P.whole.left grows_stop
  have hopt : optionalNode G.cleanup = some (node · G.cleanup) := by simp [optionalNode, hpresent]
  unfold cleaned at hend
  rw [hopt] at hend
  exact inside_ending P.sections.joined hend.captures (hend.agrees.right grows_start_joined)

theorem Plan.has_cleanup : g.Has G.cleanupVisit.block :=
  (P.inside_cleanup hpresent).agrees.has (P.inside_cleanup hpresent).has_stop

theorem Plan.code_cleanup : g.code G.cleanupVisit.block = G.cleaned.2.func.code G.cleanupVisit.block := by
  have hnew : ¬ G.joined.func.Has G.cleanupVisit.block := fun hold =>
    absurd hold.2 (by simp [cleanupVisit, visitCleanup, joined])
  have hstart : ¬ G.start.func.Has G.cleanupVisit.block := fun hold =>
    hnew (grows_start_joined.func.has hold)
  have hhas : G.cleaned.2.func.Has G.cleanupVisit.block := by
    rw [cleaned_of_present hpresent]
    exact (adds_sealNested (Set.mem_singleton _) _ _).func.has (P.inside_cleanup hpresent).has_stop
  rw [P.whole.agrees.finished _ hstart (grows_stop.func.has hhas) id]
  refine grows_stop.func.kept _ hhas ?_
  rintro heq
  exact hstart (heq ▸ P.whole.has)

/-- The cleanup is a section that sets no registers at its end. -/
theorem Plan.sectionCode_cleanup : Machine.SectionCode g
    (takenRegs C G.cleanupVisit.start G.cleanupVisit.stop) G.cleanupVisit.block [] G.cleanupVisit.last
    (G.cleanupVisit.stop.func.code G.cleanupVisit.block) where
  confined := by
    have hconf := confined_node (P.inside_cleanup hpresent)
    rwa [empty_cleanup] at hconf
  noYield l hl w := not_yield_node (P.inside_cleanup hpresent)
    (by rw [empty_cleanup]; exact Nat.zero_le l) hl w
  code := by
    have hcode := P.code_cleanup hpresent
    rw [cleaned_of_present hpresent, sealNested_apply] at hcode
    cases hend : endsBlock (G.cleanupVisit.stop.func.code G.cleanupVisit.block) with
    | true =>
      rw [hend, if_pos rfl] at hcode
      exact .inl hcode
    | false =>
      rw [hend, if_neg Bool.false_ne_true] at hcode
      exact .inr (hcode.trans (Func.append_code_self (P.inside_cleanup hpresent).has_stop _))
  movable := ⟨(fun m hm => by cases hm), fun m hm => by cases hm⟩

end

end GuardedSection

end ScriptMachine
