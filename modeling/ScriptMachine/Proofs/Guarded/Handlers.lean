import ScriptMachine.Proofs.Guarded.Branches

/-!
# The code of handlers

What the clauses of a guarded section are lowered into, in the finished function.

1. Each clause that is lowered is a branch, made in a state that has the names in front of the section
   (`exists_visit_of_clauses`).
2. The arms and the default of the clauses lead to the branch of the clause that takes a value
   (`chooseArm_clauses`, `default_clauses`): the first whose pattern equals the value, else the first
   that has no pattern (`chosen`).
3. The handler is that of a single clause, or it dispatches over the clauses, and what no clause takes
   is thrown again (`HandlerCode`).
-/

namespace ScriptMachine

/-! ## The clause that takes a value -/

namespace Clause

/-- The name that stands for what was caught, empty if there is none. -/
def name : Clause → String
  | mk name _ _ => name

def body : Clause → Node
  | mk _ _ x => x

/-- Whether the pattern of a clause equals a value. -/
def takes (v : Value) : Clause → Bool
  | mk _ p _ => !p.isAbsent && equal v (Lowering.patternValue p)

/-- Whether a clause has no pattern. -/
def takesAll : Clause → Bool
  | mk _ p _ => p.isAbsent

end Clause

/-- The index of the clause that takes a value: of the first whose pattern equals it, else of the first
that has no pattern. -/
def chosen (cs : List Clause) (v : Value) : Option Nat :=
  (cs.findIdx? (Clause.takes v)).or (cs.findIdx? Clause.takesAll)

/-- A node as a branch, with a name that it keeps to itself. -/
def Visit.branch (v : Visit) (own : String) : Branch := ⟨v.block, v.last, v.stop.names, own⟩

namespace Machine

/-- An arm behind others decides where none of them does. -/
theorem chooseArm_append {fr : Frame} {v : Value} {d e : BlockId} {xs : List Arm} (ys : List Arm)
    (h : chooseArm fr v d ys = .ok e) : chooseArm fr v d (xs ++ ys) = chooseArm fr v e xs := by
  induction xs with
  | nil => exact h
  | cons x xs ih => simp only [List.cons_append, chooseArm, ih]

theorem chooseArm_constant (fr : Frame) (v : Value) (d b : BlockId) {c : Value} (hc : c.isReg = false) :
    chooseArm fr v d [⟨c, b⟩] = .ok (if equal v c then b else d) := by
  have hread : fr.read c = .ok c := Frame.read_eq_ok_iff.mpr (.inr ⟨hc, rfl⟩)
  simp only [chooseArm, hread, bind, Except.bind]
  cases equal v c <;> rfl

end Machine

namespace Lowering

open Build

variable {pos : Position} {caught : Reg} {a : Arms} {s : Builder}

/-- A clause is lowered, as an arm or as the default, unless it has no pattern and there is a default
already. -/
theorem addClause_cases (pos : Position) (caught : Reg) (a : Arms) (s : Builder) (name : String)
    (p x : Node) :
    ((Clause.mk name p x).takesAll = true ∧ a.default ≠ .none ∧
      visitClause caught a name p x s = none ∧
      ∃ ds, addClause pos caught a name p (node · x) s = (a, { s with diags := s.diags ++ ds })) ∨
    (((Clause.mk name p x).takesAll = true → a.default = .none) ∧
      visitClause caught a name p x s = some (visitBranch name caught x s) ∧
      ∃ ds, addClause pos caught a name p (node · x) s =
        (if p.isAbsent then a.addDefault ((visitBranch name caught x s).branch name)
          else a.addArm (patternValue p) ((visitBranch name caught x s).branch name),
          { (visitBranch name caught x s).stop with
            names := s.names, diags := (visitBranch name caught x s).stop.diags ++ ds })) := by
  have hbranch := branch_eq_visit name caught x s
  cases hp : p.isAbsent with
  | true =>
    simp only [visitClause, hp, if_true, addClause, visitDefault, Clause.takesAll]
    by_cases hd : a.default = .none
    · refine .inr ⟨fun _ => hd, if_pos hd, [], ?_⟩
      rw [addDefault_apply pos _ hd, hbranch, List.append_nil]
      rfl
    · exact .inl ⟨trivial, hd, if_neg hd, _, addDefault_apply_of_ne pos _ hd⟩
  | false =>
    obtain ⟨v, ds, -, hv, happ⟩ := @addClause_apply a (node · x) caught s pos name p hp
    refine .inr ⟨fun h => ?_, by simp [visitClause, hp], ds, ?_⟩
    · rw [Clause.takesAll, hp] at h
      cases h
    · have hval : v = patternValue p := by
        rw [← Setting.pattern_value p (Build.branch name caught (node · x) s).2, hv]
      rw [happ, hval, hbranch]
      simp only [Bool.false_eq_true, if_false]
      rfl

theorem has_of_mem_clauses (cs : List Clause) (br : Branch)
    (hbr : br ∈ (clauses pos caught a cs s).1.branches) :
    br ∈ a.branches ∨ (clauses pos caught a cs s).2.func.Has br.block := by
  induction cs generalizing a s with
  | nil => exact .inl hbr
  | cons c cs ih =>
    obtain ⟨name, p, x⟩ := c
    rw [clauses, bind_apply] at hbr ⊢
    rcases ih hbr with hmem | hhas
    · have hrest := (gatherer_clauses pos caught cs
        (addClause pos caught a name p (node · x) s).1 (addClause pos caught a name p (node · x) s).2).1
      rcases addClause_cases pos caught a s name p x with
        ⟨-, -, -, ds, happ⟩ | ⟨-, -, ds, happ⟩
      · rw [happ] at hmem
        exact .inl hmem
      · have hnew : (addClause pos caught a name p (node · x) s).2.func.Has
            (visitBranch name caught x s).block := by
          rw [happ]
          exact (adds_node _ x _).func.has s.func.newBlock_has_self
        have hsplit : br ∈ a.branches ∨ br = (visitBranch name caught x s).branch name := by
          rw [happ] at hmem
          cases hp : p.isAbsent <;> rw [hp] at hmem <;> simpa using List.mem_append.mp hmem
        refine hsplit.imp id fun heq => ?_
        rw [heq]
        exact hrest.func.has hnew
    · exact .inr hhas

theorem branches_subset_clauses (cs : List Clause) :
    a.branches ⊆ (clauses pos caught a cs s).1.branches := by
  induction cs generalizing a s with
  | nil => exact List.Subset.refl _
  | cons c cs ih =>
    obtain ⟨name, p, x⟩ := c
    rw [clauses, bind_apply]
    refine List.Subset.trans ?_ ih
    rcases addClause_cases pos caught a s name p x with
      ⟨-, -, -, ds, happ⟩ | ⟨-, -, ds, happ⟩
    · rw [happ]
      exact List.Subset.refl _
    · rw [happ]
      cases p.isAbsent <;> exact List.subset_append_left _ _

/-- A clause that is lowered is a branch, and what is lowered behind it leaves its code alone. -/
theorem exists_visit_of_clauses {cs : List Clause} {n : Nat} {c : Clause} {v : Visit}
    (hc : cs[n]? = some c) (hv : (visitClauses pos caught a cs s)[n]? = some (some v)) :
    ∃ u, v = visitBranch c.name caught c.body u ∧ u.names = s.names ∧ Builder.Grows ∅ s u ∧
      Builder.Grows ∅ (branch c.name caught (node · c.body) u).2 (clauses pos caught a cs s).2 ∧
      v.branch c.name ∈ (clauses pos caught a cs s).1.branches := by
  induction cs generalizing a s n with
  | nil => cases hc
  | cons c' cs ih =>
    obtain ⟨name, p, x⟩ := c'
    rw [visitClauses] at hv
    rw [clauses, bind_apply]
    have hcases := addClause_cases pos caught a s name p x
    cases n with
    | zero =>
      obtain rfl : Clause.mk name p x = c := Option.some.inj hc
      have hv : visitClause caught a name p x s = some v := Option.some.inj hv
      rcases hcases with ⟨-, -, hnone, -⟩ | ⟨-, hsome, ds, happ⟩
      · rw [hnone] at hv
        cases hv
      · obtain rfl := Option.some.inj (hsome.symm.trans hv)
        have hrest := (gatherer_clauses pos caught cs
          (addClause pos caught a name p (node · x) s).1 (addClause pos caught a name p (node · x) s).2).1
        have hmem : (visitBranch name caught x s).branch name ∈
            (addClause pos caught a name p (node · x) s).1.branches := by
          rw [happ]
          cases p.isAbsent <;> exact List.mem_append_right _ (List.mem_singleton_self _)
        refine ⟨s, rfl, rfl, .refl ∅ s, ?_, branches_subset_clauses cs hmem⟩
        refine Builder.Grows.trans ?_ hrest (by simp)
        rw [happ, Clause.name, Clause.body, branch_eq_visit]
        exact ⟨.refl ∅ _, .refl _ _, List.prefix_append _ _⟩
    | succ n =>
      obtain ⟨u, hvis, hnames, hgrow, hrest⟩ := ih hc hv
      have hs : Builder.Grows ∅ s (addClause pos caught a name p (node · x) s).2 :=
        (makes_addClause pos caught a name p (by grind)).adds s
      refine ⟨u, hvis, hnames.trans ?_, hs.trans hgrow (by simp), hrest⟩
      rcases hcases with ⟨-, -, -, ds, happ⟩ | ⟨-, -, ds, happ⟩ <;> rw [happ]

/-! ## The choice of a clause -/

theorem chooseArm_addClause (fr : Frame) (v : Value) (d : BlockId) (name : String) (p x : Node) :
    Machine.chooseArm fr v d (addClause pos caught a name p (node · x) s).1.arms =
      Machine.chooseArm fr v
        (if (Clause.mk name p x).takes v then (visitBranch name caught x s).block else d) a.arms := by
  cases hp : p.isAbsent with
  | true =>
    have htakes : (Clause.mk name p x).takes v = false := by simp [Clause.takes, hp]
    rw [htakes, if_neg Bool.false_ne_true]
    rcases addClause_cases pos caught a s name p x with
      ⟨-, -, -, ds, happ⟩ | ⟨-, -, ds, happ⟩
    · rw [happ]
    · rw [happ, hp]
      rfl
  | false =>
    have htakes : (Clause.mk name p x).takes v = equal v (patternValue p) := by
      simp [Clause.takes, hp]
    rcases addClause_cases pos caught a s name p x with
      ⟨hall, -⟩ | ⟨-, -, ds, happ⟩
    · rw [Clause.takesAll, hp] at hall
      cases hall
    · rw [happ, hp, htakes]
      exact Machine.chooseArm_append _
        (Machine.chooseArm_constant fr v d _ (Setting.isConstant_patternValue p).1)

theorem default_addClause (name : String) (p x : Node) :
    (addClause pos caught a name p (node · x) s).1.default =
      if a.default ≠ .none then a.default
      else if p.isAbsent then (visitBranch name caught x s).block else .none := by
  rcases addClause_cases pos caught a s name p x with
    ⟨-, hd, -, ds, happ⟩ | ⟨hall, -, ds, happ⟩
  · rw [happ, if_pos hd]
  · rw [happ]
    cases hp : p.isAbsent with
    | true => rw [if_neg (not_not_intro (hall hp))]; rfl
    | false =>
      by_cases hd : a.default = .none
      · simp [hd, Arms.addArm]
      · simp [hd, Arms.addArm]

theorem visitClause_of_takes {name : String} {p x : Node} {v : Value}
    (h : (Clause.mk name p x).takes v = true) :
    visitClause caught a name p x s = some (visitBranch name caught x s) := by
  have hp : p.isAbsent = false := by
    simp only [Clause.takes, Bool.and_eq_true, Bool.not_eq_true'] at h
    exact h.1
  simp [visitClause, hp]

/-- The arms of clauses lead to the first clause whose pattern equals the value. -/
theorem chooseArm_clauses (pos : Position) (caught : Reg) (a : Arms) (cs : List Clause) (s : Builder)
    (fr : Frame) (v : Value) (d : BlockId) :
    (∀ n, cs.findIdx? (Clause.takes v) = some n → ∃ w,
      (visitClauses pos caught a cs s)[n]? = some (some w) ∧
        Machine.chooseArm fr v d (clauses pos caught a cs s).1.arms =
          Machine.chooseArm fr v w.block a.arms) ∧
    (cs.findIdx? (Clause.takes v) = none →
      Machine.chooseArm fr v d (clauses pos caught a cs s).1.arms = Machine.chooseArm fr v d a.arms) := by
  induction cs generalizing a s with
  | nil => exact ⟨(fun n hn => by cases hn), fun _ => rfl⟩
  | cons c cs ih =>
    obtain ⟨name, p, x⟩ := c
    obtain ⟨ihsome, ihnone⟩ := ih (addClause pos caught a name p (node · x) s).1
      (addClause pos caught a name p (node · x) s).2
    simp only [clauses, bind_apply, visitClauses, List.findIdx?_cons]
    simp only [chooseArm_addClause] at ihsome ihnone
    cases htakes : (Clause.mk name p x).takes v with
    | true =>
      rw [htakes] at ihsome ihnone
      refine ⟨fun n hn => ?_, fun hn => by cases hn⟩
      obtain rfl : 0 = n := Option.some.inj hn
      refine ⟨visitBranch name caught x s, congrArg some (visitClause_of_takes htakes), ?_⟩
      -- whatever comes behind this clause, its own arm decides first
      cases hrest : cs.findIdx? (Clause.takes v) with
      | none => exact ihnone hrest
      | some m =>
        obtain ⟨w, -, hw⟩ := ihsome m hrest
        exact hw
    | false =>
      rw [htakes] at ihsome ihnone
      refine ⟨fun n hn => ?_, fun hn => ?_⟩
      · obtain ⟨m, hm, rfl⟩ := Option.map_eq_some_iff.mp hn
        exact ihsome m hm
      · exact ihnone (Option.map_eq_none_iff.mp hn)

/-- The default of clauses is the first that has no pattern. -/
theorem default_clauses (pos : Position) (caught : Reg) (a : Arms) (cs : List Clause) (s : Builder) :
    (a.default ≠ .none → (clauses pos caught a cs s).1.default = a.default) ∧
    (a.default = .none →
      (∀ n, cs.findIdx? Clause.takesAll = some n → ∃ w,
        (visitClauses pos caught a cs s)[n]? = some (some w) ∧
          (clauses pos caught a cs s).1.default = w.block ∧ w.block ≠ .none) ∧
      (cs.findIdx? Clause.takesAll = none → (clauses pos caught a cs s).1.default = .none)) := by
  induction cs generalizing a s with
  | nil => exact ⟨fun _ => rfl, fun h => ⟨(fun n hn => by cases hn), fun _ => h⟩⟩
  | cons c cs ih =>
    obtain ⟨name, p, x⟩ := c
    obtain ⟨ihset, ihnone⟩ := ih (addClause pos caught a name p (node · x) s).1
      (addClause pos caught a name p (node · x) s).2
    simp only [clauses, bind_apply, visitClauses, List.findIdx?_cons]
    rw [default_addClause] at ihset ihnone
    refine ⟨fun hd => ?_, fun hd => ?_⟩
    · rw [if_pos hd] at ihset
      exact ihset hd
    · rw [if_neg (not_not_intro hd)] at ihset ihnone
      have hall : (Clause.mk name p x).takesAll = p.isAbsent := rfl
      cases hp : p.isAbsent with
      | true =>
        rw [hp] at ihset
        rw [hall, hp]
        refine ⟨fun n hn => ?_, fun hn => by cases hn⟩
        obtain rfl : 0 = n := Option.some.inj hn
        have hblock : (visitBranch name caught x s).block ≠ .none := fun h => by cases h
        exact ⟨visitBranch name caught x s, by simp [visitClause, hp, visitDefault, hd], ihset hblock,
          hblock⟩
      | false =>
        rw [hp] at ihnone
        rw [hall, hp]
        obtain ⟨ihsome, ihnone⟩ := ihnone rfl
        refine ⟨fun n hn => ?_, fun hn => ?_⟩
        · obtain ⟨m, hm, rfl⟩ := Option.map_eq_some_iff.mp hn
          exact ihsome m hm
        · exact ihnone (Option.map_eq_none_iff.mp hn)

end Lowering

/-! ## Guarded sections -/

open Build Lowering

/-- A guarded section as lowering comes to it. -/
structure GuardedSection where
  block : BlockId
  pos : Position
  body : Node
  clauses : List Clause
  cleanup : Node
  start : Builder

namespace GuardedSection

variable (G : GuardedSection)

def visit : Visit := ⟨G.block, .guarded G.pos G.body G.clauses G.cleanup, G.start⟩

def bodyVisit : Visit := visitBranch "" .none G.body G.start

/-- The visits of the clauses, one by one; a clause that is not lowered has none. -/
def clauseVisits : List (Option Visit) := visitHandlers G.pos G.body G.clauses G.start

def cleanupVisit : Visit := visitCleanup G.block G.pos G.body G.clauses G.cleanup G.start

/-- The branches of the body and of the clauses. -/
def branches : List Branch := sectionBranches G.pos G.body G.clauses G.start

/-- The state behind the body and the clauses. -/
def handled : Builder := (handlersDone G.pos G.body G.clauses G.start).2

/-- The state in which the body and the clauses are joined. -/
def joined : Builder := sectionsDone G.block G.pos G.body G.clauses G.start

/-- The register of what is caught. -/
def caught : Reg := ⟨(bodyDone G.body G.start).func.numRegs⟩

/-- The branches of the clauses and the state behind them. -/
def lowered : Arms × Builder :=
  Lowering.clauses G.pos G.caught {} G.clauses (clausesStart G.clauses (bodyDone G.body G.start))

/-- The block that handles faults of the body, and the register that the machine sets for it. -/
def handler : BlockId × Reg :=
  ((handlersDone G.pos G.body G.clauses G.start).1.1, (handlersDone G.pos G.body G.clauses G.start).1.2.1)

/-- How faults of the body are handled in the code of a function. -/
inductive HandlerCode (g : Func) : Prop
  | none (hcs : G.clauses = []) (h : G.handler.1 = .none)
  | sole {c : Clause} {v : Visit} (hcs : G.clauses = [c]) (hall : c.takesAll = true)
      (hv : G.clauseVisits = [some v]) (h : G.handler = (v.block, G.caught))
  | choosing {c : BlockId} {d : Reg} {arms : List Arm} {default : BlockId} (hne : G.clauses ≠ [])
      (h : G.handler = (c, G.caught)) (hhas : g.Has c)
      (hcode : g.code c = [.dispatch d (.reg G.caught) arms default, .leave .yield (.reg d)])
      (hd : d.index < G.handled.func.numRegs)
      (htaken : ∀ fr v n, chosen G.clauses v = some n → ∃ w,
        G.clauseVisits[n]? = some (some w) ∧ Machine.chooseArm fr v default arms = .ok w.block)
      (hagain : ∀ fr v, chosen G.clauses v = .none → ∃ e,
        Machine.chooseArm fr v default arms = .ok e ∧ g.Has e ∧
          g.code e = [.leave .throw (.reg G.caught)])

variable {G} {g : Func} {C : Set Reg}

theorem grows_joined : Builder.Grows ({G.block} ∪ blocksOf G.branches) G.handled G.joined :=
  adds_join (.inl rfl) G.start.names Set.subset_union_right _

/-- A block that is made for the handlers and is no branch is finished with them. -/
theorem code_of_handled (h : Inside g C G.block G.start G.joined) {c : BlockId}
    (hnew : ¬ G.start.func.Has c) (hhas : G.handled.func.Has c) (hbr : c ∉ blocksOf G.branches) :
    g.code c = G.handled.func.code c ∧ g.Has c := by
  have hjoined : G.joined.func.Has c := grows_joined.func.has hhas
  have hne : c ∉ ({G.block} ∪ blocksOf G.branches : Set BlockId) := by
    rintro (rfl | hmem)
    · exact hnew h.has
    · exact hbr hmem
  exact ⟨(h.agrees.finished c hnew hjoined id).trans (grows_joined.func.kept c hhas hne),
    h.agrees.has hjoined⟩

theorem exists_of_isSole {cs : List Clause} (h : isSole cs = true) :
    ∃ c, cs = [c] ∧ c.takesAll = true := by
  match cs with
  | [] => cases h
  | [.mk name p x] => exact ⟨_, rfl, h⟩
  | .mk _ _ _ :: _ :: _ => simp [isSole] at h

theorem clauseVisits_eq : G.clauseVisits = visitClauses G.pos G.caught {} G.clauses
    (clausesStart G.clauses (bodyDone G.body G.start)) := rfl

theorem handlersDone_sole (hone : isSole G.clauses = true) :
    handlersDone G.pos G.body G.clauses G.start =
      ((G.lowered.1.default, G.caught, G.lowered.1.branches), G.lowered.2) := by
  obtain ⟨c, hcs, -⟩ := exists_of_isSole hone
  have hne : G.clauses.isEmpty = false := by rw [hcs]; rfl
  simp only [handlersDone, handlers, hne, hone, lowered, clausesStart, caught]
  rfl

theorem handlersDone_choosing (hcs : G.clauses ≠ []) (hone : isSole G.clauses = false) :
    handlersDone G.pos G.body G.clauses G.start =
      ((⟨(bodyDone G.body G.start).func.blocks.size⟩, G.caught, G.lowered.1.branches),
        (chooseClause ⟨(bodyDone G.body G.start).func.blocks.size⟩ G.caught G.lowered.1
          G.lowered.2).2) := by
  have hne : G.clauses.isEmpty = false := List.isEmpty_eq_false_iff.mpr hcs
  simp only [handlersDone, handlers, hne, hone, lowered, clausesStart, caught]
  rfl

/-- A single clause that takes everything handles all faults itself. -/
theorem handlerCode_sole (g : Func) (hone : isSole G.clauses = true) : G.HandlerCode g := by
  obtain ⟨c, hcs, hall⟩ := exists_of_isSole hone
  have hfirst : G.clauses.findIdx? Clause.takesAll = some 0 := by
    rw [hcs, List.findIdx?_cons, hall]
    rfl
  obtain ⟨v, hv, hdefault, -⟩ := ((default_clauses G.pos G.caught {} G.clauses
    (clausesStart G.clauses (bodyDone G.body G.start))).2 rfl).1 0 hfirst
  refine .sole hcs hall (v := v) ?_ ?_
  · rw [clauseVisits_eq]
    rw [hcs] at hv ⊢
    obtain ⟨name, p, x⟩ := c
    simpa [visitClauses] using hv
  · rw [handler, handlersDone_sole hone]
    exact Prod.ext hdefault rfl

/-- The state behind a block `c` that chooses among clauses: the block for what none of them takes is the
default, or it is new and throws again. -/
theorem chooseClause_cases {c : BlockId} {r : Reg} {a : Arms} {t : Builder} (hc : t.func.Has c)
    (hempty : t.func.code c = []) :
    ∃ e d, (chooseClause c r a t).2.func.code c =
        [.dispatch d (.reg r) a.arms e, .leave .yield (.reg d)] ∧
      (chooseClause c r a t).2.func.Has c ∧ d.index < (chooseClause c r a t).2.func.numRegs ∧
      (a.default ≠ .none → e = a.default) ∧
      (a.default = .none → ¬ t.func.Has e ∧ (chooseClause c r a t).2.func.Has e ∧
        (chooseClause c r a t).2.func.code e = [.leave .throw (.reg r)]) := by
  rw [chooseClause_apply]
  rcases orThrowAgain_apply r a.default t with ⟨hd, heq⟩ | ⟨hd, heq⟩
  · rw [heq]
    refine ⟨a.default, ⟨t.func.numRegs⟩, ?_, by simpa using hc, ?_, fun _ => rfl,
      fun h => absurd h hd⟩
    · rw [Func.append_code_self (by simpa using hc), Func.append_code_self (by simpa using hc),
        Func.newReg_code, hempty]
      rfl
    · simp only [Func.append_numRegs, Func.newReg_numRegs, Int.lt_add_one_iff, le_refl]
  · have hnew := t.func.not_has_size
    have hne : c ≠ ⟨t.func.blocks.size⟩ := fun h => hnew (h ▸ hc)
    have hc' : t.func.newBlock.1.Has c := (Func.newBlock_has_iff _ _).mpr (.inl hc)
    have he' : t.func.newBlock.1.Has ⟨t.func.blocks.size⟩ := Func.newBlock_has_self _
    rw [heq]
    refine ⟨⟨t.func.blocks.size⟩, ⟨(t.func.newBlock.1.append ⟨t.func.blocks.size⟩
      (.leave .throw (.reg r))).numRegs⟩, ?_, by simpa using hc', ?_, fun h => absurd hd h,
      fun _ => ⟨hnew, by simpa using he', ?_⟩⟩
    · rw [Func.append_code_self (by simpa using hc'), Func.append_code_self (by simpa using hc'),
        Func.newReg_code, Func.append_code_ne hne, Func.newBlock_code, hempty]
      rfl
    · simp only [Func.append_numRegs, Func.newReg_numRegs, Int.lt_add_one_iff, le_refl]
    · rw [Func.append_code_ne hne.symm, Func.append_code_ne hne.symm, Func.newReg_code,
        Func.append_code_self he', Func.newBlock_code, Func.code_size]
      rfl

/-- A block that dispatches over the clauses. -/
theorem handlerCode_choosing (h : Inside g C G.block G.start G.joined) (hcs : G.clauses ≠ [])
    (hone : isSole G.clauses = false) : G.HandlerCode g := by
  have hbody : Builder.Grows ∅ G.start (bodyDone G.body G.start) :=
    adds_branch "" .none (fun c => adds_node c G.body) G.start
  -- `s` is the state in which the block was made, and `t` the state behind the clauses
  obtain ⟨c, hc⟩ : ∃ c : BlockId, c = ⟨(bodyDone G.body G.start).func.blocks.size⟩ := ⟨_, rfl⟩
  have hs : clausesStart G.clauses (bodyDone G.body G.start) =
      (newBlock (newReg (bodyDone G.body G.start)).2).2 := by simp [clausesStart, hone]
  have hvisits := G.clauseVisits_eq
  have happ := handlersDone_choosing hcs hone
  unfold lowered at happ
  generalize clausesStart G.clauses (bodyDone G.body G.start) = s at hs hvisits happ
  have hchoice := chooseArm_clauses G.pos G.caught {} G.clauses s
  have hdefault := (default_clauses G.pos G.caught {} G.clauses s).2 rfl
  obtain ⟨hgrow, hnewBranch⟩ : Builder.Grows ∅ s (Lowering.clauses G.pos G.caught {} G.clauses s).2 ∧
      ∀ br ∈ (Lowering.clauses G.pos G.caught {} G.clauses s).1.branches, br ∈ [] ∨ ¬ s.func.Has br.block :=
    gatherer_clauses G.pos G.caught G.clauses {} s
  have hhas : ∀ br ∈ (Lowering.clauses G.pos G.caught {} G.clauses s).1.branches,
      br ∈ [] ∨ (Lowering.clauses G.pos G.caught {} G.clauses s).2.func.Has br.block :=
    has_of_mem_clauses G.clauses
  rw [← hc] at happ
  generalize Lowering.clauses G.pos G.caught {} G.clauses s = x at *
  obtain ⟨a, t⟩ := x
  dsimp only at hchoice hdefault hgrow hnewBranch hhas happ
  have hsc : s.func.Has c := by
    rw [hs, hc]
    exact Func.newBlock_has_self _
  have hbs : ∀ e, (bodyDone G.body G.start).func.Has e → s.func.Has e := fun e he => by
    rw [hs]
    exact (Func.newBlock_has_iff _ _).mpr (.inl he)
  have hcnew : ¬ (bodyDone G.body G.start).func.Has c := fun hmem => by
    rw [hc, Func.has_natCast_iff] at hmem
    omega
  have hempty : t.func.code c = [] := by
    rw [hgrow.func.kept c hsc (by simp), hs]
    exact (Func.newBlock_code _ _).trans (Func.code_eq_nil_of_not_has hcnew)
  obtain ⟨e, d, hcode, hhasc, hd, hgiven, hagain⟩ :=
    chooseClause_cases (r := G.caught) (a := a) (hgrow.func.has hsc) hempty
  have hhandled : G.handled = (chooseClause c G.caught a t).2 := by rw [handled, happ]
  have hbranches : G.branches = (Build.branch "" .none (node · G.body) G.start).1 :: a.branches := by
    rw [branches, sectionBranches, happ]
  rw [← hhandled] at hcode hhasc hd hagain
  -- no branch is made in the block, nor in one that is made behind the clauses
  have hbodyHas : (bodyDone G.body G.start).func.Has
      (Build.branch "" .none (node · G.body) G.start).1.block := by
    rw [bodyDone, branch_eq_visit]
    exact (adds_node _ G.body _).func.has (Func.newBlock_has_self _)
  have hapart : c ∉ blocksOf G.branches := by
    rintro ⟨br, hbr, heq⟩
    rw [hbranches] at hbr
    rcases List.mem_cons.mp hbr with rfl | hbr
    · exact hcnew (heq ▸ hbodyHas)
    · exact ((hnewBranch br hbr).resolve_left List.not_mem_nil) (heq ▸ hsc)
  have hall : ∀ br ∈ G.branches, t.func.Has br.block := by
    intro br hbr
    rw [hbranches] at hbr
    rcases List.mem_cons.mp hbr with rfl | hbr
    · exact hgrow.func.has (hbs _ hbodyHas)
    · exact (hhas br hbr).resolve_left List.not_mem_nil
  obtain ⟨hfinal, hgc⟩ := code_of_handled h (fun hmem => hcnew (hbody.func.has hmem)) hhasc hapart
  refine .choosing hcs (by rw [handler, happ]) hgc (hfinal.trans hcode) hd (fun fr v n hn => ?_)
    fun fr v hnone => ?_
  · rw [hvisits]
    unfold chosen at hn
    cases hfirst : G.clauses.findIdx? (Clause.takes v) with
    | some m =>
      rw [hfirst] at hn
      obtain rfl : m = n := Option.some.inj hn
      exact (hchoice fr v e).1 m hfirst
    | none =>
      rw [hfirst, Option.none_or] at hn
      obtain ⟨w, hw, heq, hblock⟩ := hdefault.1 n hn
      refine ⟨w, hw, ?_⟩
      rw [(hchoice fr v e).2 hfirst, hgiven (heq ▸ hblock), heq]
      rfl
  · obtain ⟨hfirst, hnoDefault⟩ := Option.or_eq_none_iff.mp hnone
    obtain ⟨henew, hehas, hecode⟩ := hagain (hdefault.2 hnoDefault)
    have heapart : e ∉ blocksOf G.branches := by
      rintro ⟨br, hbr, heq⟩
      exact henew (heq ▸ hall br hbr)
    obtain ⟨hfinal, hge⟩ := code_of_handled h
      (fun hmem => henew (hgrow.func.has (hbs _ (hbody.func.has hmem)))) hehas heapart
    exact ⟨e, (hchoice fr v e).2 hfirst, hge, hfinal.trans hecode⟩

theorem handlerCode (h : Inside g C G.block G.start G.joined) : G.HandlerCode g := by
  by_cases hcs : G.clauses = []
  · exact .none hcs (by simp [handler, handlersDone, handlers, hcs])
  · cases hone : isSole G.clauses with
    | true => exact handlerCode_sole g hone
    | false => exact handlerCode_choosing h hcs hone

end GuardedSection

end ScriptMachine
