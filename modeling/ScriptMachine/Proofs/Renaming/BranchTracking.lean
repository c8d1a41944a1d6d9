import ScriptMachine.Proofs.Renaming.Tracking

/-!
# Branches of two lowerings

The laws of two lowerings for the constructs that lower parts of a tree into blocks of their own: the
alternatives of a choice, and the parts of a guarded section. Behind them both sides join the same names,
since no register has two partners.
-/

namespace ScriptMachine

open Build Lowering

/-- Branches with the same block and the same names. -/
structure Branch.Alike (L : Link) (br br' : Branch) : Prop where
  block : br.block = br'.block
  last : Paired L br.last br'.last
  names : L.Names br.names br'.names
  own : br.own = br'.own

structure Lowering.Arms.Alike (L : Link) (a a' : Arms) : Prop where
  arms : List.Forall₂ (Arm.Alike L.Pairs) a.arms a'.arms
  default : a.default = a'.default
  branches : List.Forall₂ (Branch.Alike L) a.branches a'.branches

section
variable {L M : Link} {s s' : Builder} {b : BlockId} {S : List String} {br br' : Branch}
  {caught caught' : Reg}

theorem Branch.Alike.mono (h : br.Alike L br') (hLM : L.Le M) : br.Alike M br' :=
  ⟨h.block, h.last.mono hLM, h.names.mono hLM, h.own⟩

theorem Lowering.Arms.Alike.mono {a a' : Arms} (h : a.Alike L a') (hLM : L.Le M) : a.Alike M a' where
  arms := h.arms.imp fun _ _ ha => ⟨ha.pattern.mono fun _ _ hp => hp.mono hLM, ha.block⟩
  default := h.default
  branches := h.branches.imp fun _ _ hbr => hbr.mono hLM

theorem Lowering.Arms.Alike.addArm {a a' : Arms} (h : a.Alike L a') {v v' : Value}
    (hv : v.Alike L.Pairs v') (hbr : br.Alike L br') : (a.addArm v br).Alike L (a'.addArm v' br') where
  arms := List.rel_append h.arms (.cons ⟨hv, hbr.block⟩ .nil)
  default := h.default
  branches := List.rel_append h.branches (.cons hbr .nil)

theorem Lowering.Arms.Alike.addDefault {a a' : Arms} (h : a.Alike L a')
    (hbr : br.Alike L br') : (a.addDefault br).Alike L (a'.addDefault br') where
  arms := h.arms
  default := hbr.block
  branches := List.rel_append h.branches (.cons hbr .nil)

/-! ## A branch -/

theorem Knows.newBlock (h : Knows S s) : Knows S (Build.newBlock s).2 :=
  h.grow (grows_newBlock s) (.refl _)

theorem Knows.bind (h : Knows S s) (name : String) (r : Reg) :
    Knows (name :: S) (Build.bind name r s).2 := by
  intro other hother
  rcases List.mem_cons.mp hother with rfl | hother
  · refine sees_of_isSome ?_ _
    show ((s.names.bind other r).get? other).isSome
    rw [Names.get?_bind, if_pos rfl]
    rfl
  · exact (h other hother).mono (Names.within_bind _ _ _) (Enclosing.Grow.refl 0 _)

theorem tracks_owned (h : Linked L s s') (hs : s.OpenAt b) (hk : Knows S s) {own : String}
    (hcaught : own ≠ "" → L.Pairs caught caught') {m m' : Build (Option Reg)}
    (tm : TracksIn b (scopeWith own S) m m' Paired) :
    Tracks L s s' (owned own caught m) (owned own caught' m') Paired := by
  unfold owned
  unfold scopeWith at tm
  by_cases hown : own = ""
  · rw [if_neg (not_not.mpr hown), if_neg (not_not.mpr hown)]
    rw [if_pos hown] at tm
    exact tm h hs hk
  · rw [if_pos hown, if_pos hown]
    rw [if_neg hown] at tm
    exact tm (h.bind own (hcaught hown)) (hs.congr rfl) (hk.bind own caught)

theorem tracks_branch (h : Linked L s s') (hk : Knows S s) {own : String}
    (hcaught : own ≠ "" → L.Pairs caught caught') {body body' : BlockId → Build (Option Reg)}
    (tb : ∀ c, TracksIn c (scopeWith own S) (body c) (body' c) Paired) :
    Tracks L s s' (branch own caught body) (branch own caught' body') fun M br br' => br.Alike M br' := by
  obtain ⟨M₁, h₁, hM₁, hblock⟩ := tracks_newBlock h
  have hblock : (⟨s.func.blocks.size⟩ : BlockId) = ⟨s'.func.blocks.size⟩ := hblock
  obtain ⟨M, hLM, hM, hr⟩ := tracks_owned hM₁ (openAt_newBlock s) hk.newBlock
    (fun hown => (hcaught hown).mono h₁) (tb ⟨s.func.blocks.size⟩)
  rw [hblock] at hM hr
  refine ⟨M, h₁.trans hLM, ?_, ?_⟩
  · rw [branch_apply, branch_apply, hblock]
    exact { hM with names := h.names.mono (h₁.trans hLM) }
  · rw [branch_apply, branch_apply, hblock]
    exact ⟨rfl, hr, hM.names, rfl⟩

/-! ## Alternatives -/

theorem alike_of_ready {ρ : Reg → Reg → Prop} {v : Value} (h : Ready ∅ v) : v.Alike ρ v := by
  cases v with
  | reg r => exact absurd h (Set.notMem_empty r)
  | unset | closure c => exact h.elim
  | _ => exact .const rfl nofun

theorem pattern_bare (p : Node) (S : List String) : pattern (p.bare S) = pattern p := by
  cases p <;> rfl

theorem tracks_number (h : Linked L s s') (pos : Position) (text : String) :
    Tracks L s s' (number pos text) (number pos text) fun M v v' => v.Alike M.Pairs v' := by
  unfold number
  cases hv : numberValue? text with
  | some v => exact tracks_pure h (alike_of_ready (ready_of_numberValue? hv))
  | none => exact ⟨L, .refl L, h.complain pos pos _ _, Value.alike_null _⟩

theorem tracks_pattern (h : Linked L s s') (p : Node) :
    Tracks L s s' (pattern p) (pattern p) fun M v v' => v.Alike M.Pairs v' := by
  cases p with
  | number pos text => exact tracks_number h pos text
  | string _ str => exact tracks_pure h (Value.alike_string _ str)
  | word _ name => exact tracks_pure h (Value.alike_string _ name)
  | _ => exact ⟨L, .refl L, h.complain _ _ _ _, Value.alike_null _⟩

section
variable {a a' : Arms} {body body' : BlockId → Build (Option Reg)}

theorem tracks_addDefault (h : Linked L s s') (hk : Knows S s) (pos : Position) (c : Complaint)
    {own : String} {caught caught' : Reg} (hcaught : own ≠ "" → L.Pairs caught caught')
    (ha : a.Alike L a') (tb : ∀ c, TracksIn c (scopeWith own S) (body c) (body' c) Paired) :
    Tracks L s s' (addDefault pos c own caught a body) (addDefault pos c own caught' a' body')
      fun M a a' => a.Alike M a' := by
  unfold Lowering.addDefault
  rw [← ha.default]
  split
  · exact ⟨L, .refl L, h.complain pos pos c c, ha⟩
  · refine (tracks_branch h hk hcaught tb).bind fun M hLM hM hbr => ?_
    exact tracks_pure hM ((ha.mono hLM).addDefault hbr)

theorem tracks_addCase (h : Linked L s s') (hk : Knows S s) (pos : Position) (p : Node)
    (ha : a.Alike L a') (tb : ∀ c, TracksIn c S (body c) (body' c) Paired) :
    Tracks L s s' (addCase pos a p body) (addCase pos a' (p.bare S) body')
      fun M a a' => a.Alike M a' := by
  have hnone : ("" : String) ≠ "" → L.Pairs .none .none := absurd rfl
  unfold addCase
  rw [Node.isDefault_bare, pattern_bare]
  split
  · exact tracks_addDefault h hk pos _ hnone ha tb
  · refine (tracks_pattern h p).bind fun M hLM hM hv => ?_
    have hk' : Knows S (pattern p s).2 :=
      hk.grow (adds_pattern (S := ∅) p s) (by rw [names_pattern]; exact .refl _)
    refine (tracks_branch hM hk' (absurd rfl) tb).bind fun N hMN hN hbr => ?_
    exact tracks_pure hN ((ha.mono (hLM.trans hMN)).addArm (hv.mono fun _ _ hp => hp.mono hMN) hbr)

theorem tracks_addClause (h : Linked L s s') (hk : Knows S s) (pos : Position) {caught caught' : Reg}
    (hcaught : L.Pairs caught caught') (name : String) (p : Node) (ha : a.Alike L a')
    (tb : ∀ c, TracksIn c (scopeWith name S) (body c) (body' c) Paired) :
    Tracks L s s' (addClause pos caught a name p body) (addClause pos caught' a' name (p.bare S) body')
      fun M a a' => a.Alike M a' := by
  unfold addClause
  rw [Node.isAbsent_bare, pattern_bare]
  split
  · exact tracks_addDefault h hk pos _ (fun _ => hcaught) ha tb
  · refine (tracks_branch h hk (fun _ => hcaught) tb).bind fun M hLM hM hbr => ?_
    refine (tracks_pattern hM p).bind fun N hMN hN hv => ?_
    exact tracks_pure hN ((ha.mono (hLM.trans hMN)).addArm hv (hbr.mono hMN))

theorem tracks_addSeparate (h : Linked L s s') (hk : Knows S s) (pos : Position) (ha : a.Alike L a')
    (default : Node) (td : ∀ c, TracksIn c S (node c default) (node c (default.bare S)) Paired) :
    Tracks L s s' (addSeparate pos a (optionalNode default))
      (addSeparate pos a' (optionalNode (default.bare S))) fun M a a' => a.Alike M a' := by
  unfold optionalNode
  rw [Node.isAbsent_bare]
  split
  · exact tracks_pure h ha
  · exact tracks_addDefault h hk pos _ (absurd rfl) ha td

end

/-! ## Joins -/

variable {before before' : Names}

theorem Branch.Alike.rebound_eq {n n' : Int} (hL : L.Fits n n') (h : br.Alike L br')
    (hb : L.Names before before') : br.rebound before = br'.rebound before' := by
  rw [Branch.rebound, Branch.rebound, h.names.changed_eq hL hb, h.own]

variable {brs brs' : List Branch}

theorem joinedNames_eq {n n' : Int} (hL : L.Fits n n') (h : List.Forall₂ (Branch.Alike L) brs brs')
    (hb : L.Names before before') : joinedNames before brs = joinedNames before' brs' := by
  have hflat : brs.flatMap (·.rebound before) = brs'.flatMap (·.rebound before') := by
    induction h with
    | nil => rfl
    | cons hbr _ ih => rw [List.flatMap_cons, List.flatMap_cons, hbr.rebound_eq hL hb, ih]
  rw [joinedNames, joinedNames, hflat]

theorem tracks_lookupBefore (h : Linked L s s') (hb : L.Names before before') (name : String) :
    Tracks L s s' (lookupBefore before name) (lookupBefore before' name) Paired := by
  unfold lookupBefore
  have hget := hb.get? name
  generalize before.get? name = r at hget
  generalize before'.get? name = r' at hget
  cases hget with
  | some hr => exact tracks_pure h (.some hr)
  | none => exact tracks_lookup h name

theorem alike_joinStart {C : List (Capture Value) → List (Capture Value) → Prop} {j j' : Reg}
    (hj : L.Pairs j j') {r r' : Option Reg} (hr : Paired L r r') :
    (joinStart j r).Alike L.Pairs C (joinStart j' r') := by
  cases hr with
  | some hr => exact .move hj hr
  | none => exact .load hj (Value.alike_null _)

theorem tracks_startJoins (h : Linked L s s') (b : BlockId)
    (hb : L.Names before before') (ns : List String) :
    Tracks L s s' (startJoins b before ns) (startJoins b before' ns) fun M js js' => M.Names js js' := by
  induction ns generalizing L s s' with
  | nil => exact tracks_pure h .nil
  | cons n ns ih =>
    refine (tracks_newReg h).bind fun M₁ h₁ hM₁ hj => ?_
    refine (tracks_lookupBefore hM₁ (hb.mono h₁) n).bind fun M₂ h₂ hM₂ hr => ?_
    refine (tracks_emit hM₂ b (alike_joinStart (hj.mono h₂) hr)).bind fun M₃ h₃ hM₃ _ => ?_
    refine (ih hM₃ (hb.mono ((h₁.trans h₂).trans h₃))).bind fun M₄ h₄ hM₄ hjs => ?_
    exact tracks_pure hM₄ (.cons ⟨rfl, hj.mono ((h₂.trans h₃).trans h₄)⟩ hjs)

theorem alike_ending {n n' : Int} (hL : L.Fits n n') (h : br.Alike L br')
    {before before' joins joins' : Names} (hb : L.Names before before') (hj : L.Names joins joins') :
    List.Forall₂ (Instr.Alike L.Pairs L.Captures) (br.ending before joins)
      (br'.ending before' joins') := by
  refine List.rel_append ?_ (.cons (.leave h.last.alike_operand) .nil)
  rw [h.rebound_eq hL hb]
  generalize br'.rebound before' = ns
  induction ns with
  | nil => exact .nil
  | cons name ns ih =>
    have hget := hj.get? name
    have hget' := h.names.get? name
    rw [List.filterMap_cons, List.filterMap_cons]
    generalize joins.get? name = j at hget
    generalize joins'.get? name = j' at hget
    generalize br.names.get? name = r at hget'
    generalize br'.names.get? name = r' at hget'
    cases hget with
    | none => exact ih
    | some hj =>
      cases hget' with
      | none => exact ih
      | some hr => exact .cons (.move hj hr) ih

theorem Linked.closeBranches (h : Linked L s s') (hbrs : List.Forall₂ (Branch.Alike L) brs brs')
    {before before' joins joins' : Names} (hb : L.Names before before') (hj : L.Names joins joins') :
    Linked L (closeBranches before joins brs s).2 (closeBranches before' joins' brs' s').2 := by
  induction hbrs generalizing s s' with
  | nil => exact h
  | @cons br br' brs brs' hbr _ ih =>
    have hemit := h.emitAll br.block (alike_ending h.fits hbr hb hj)
    rw [closeBranches, closeBranches, bind_apply, bind_apply, ← hbr.block]
    exact ih hemit

theorem Linked.open_branches (h : Linked L s s') (hbrs : List.Forall₂ (Branch.Alike L) brs brs') :
    List.Forall₂ (Branch.Alike L) (brs.filter fun br => !endsBlock (s.func.code br.block))
      (brs'.filter fun br => !endsBlock (s'.func.code br.block)) := by
  induction hbrs with
  | nil => exact .nil
  | cons hbr _ ih =>
    rw [List.filter_cons, List.filter_cons, ← hbr.block, ← h.endsBlock_eq]
    split
    · exact .cons hbr ih
    · exact ih

theorem tracks_join (h : Linked L s s') (b : BlockId)
    (hb : L.Names before before') (hbrs : List.Forall₂ (Branch.Alike L) brs brs') :
    Tracks L s s' (join b before brs) (join b before' brs') fun _ _ _ => True := by
  have hopen := h.open_branches hbrs
  obtain ⟨M, hLM, hM, hjs⟩ := tracks_startJoins h b hb
    (joinedNames before (brs.filter fun br => !endsBlock (s.func.code br.block)))
  have hclosed := hM.closeBranches (hopen.imp fun _ _ hbr => hbr.mono hLM) (hb.mono hLM) hjs
  refine ⟨M, hLM, ?_, trivial⟩
  rw [join_apply, join_apply, ← joinedNames_eq h.fits hopen hb]
  dsimp only
  rw [← hjs.keys_eq]
  exact hclosed.bindAll _ hjs.regs

/-! ## Choices and guarded sections -/

theorem tracks_dispatch (h : Linked L s s') (b : BlockId) (hb : L.Names before before')
    {v v' : Value} (hv : v.Alike L.Pairs v') {a a' : Arms} (ha : a.Alike L a') :
    Tracks L s s' (dispatch b v before a) (dispatch b v' before' a') Paired := by
  refine (tracks_join h b hb ha.branches).bind fun M hLM hM _ => tracks_produce hM b ?_
  intro N d d' hMN hd
  have ha' := ha.mono (hLM.trans hMN)
  rw [← ha.default]
  exact .dispatch hd (hv.mono fun _ _ hp => hp.mono (hLM.trans hMN)) ha'.arms

/-- Steps that gather alternatives on both sides, in a scope. -/
abbrev GathersIn (S : List String) (m m' : Arms → Build Arms) : Prop :=
  ∀ {L s s' a a'}, Linked L s s' → Knows S s → a.Alike L a' →
    Tracks L s s' (m a) (m' a') fun M a a' => a.Alike M a'

theorem Lowering.Arms.Alike.empty (L : Link) : ({} : Arms).Alike L {} := ⟨.nil, rfl, .nil⟩

theorem tracks_choice {ns : List String} {v : Bool} (pos : Position)
    {scrutinee scrutinee' : Build (Option Reg)} (ax : Adds {b} scrutinee)
    (lx : ∀ s, s.OpenAt b → Leaves b .live ns v s (scrutinee s).1 (scrutinee s).2)
    (tx : TracksIn b S scrutinee scrutinee' Paired) {cases cases' : Arms → Build Arms}
    (ac : Adds ∅ (cases {})) (nc : ∀ s, (cases {} s).2.names = s.names)
    (tc : GathersIn (S ++ ns) cases cases') (default : Node)
    (td : ∀ c, TracksIn c (S ++ ns) (node c default) (node c (default.bare (S ++ ns))) Paired) :
    TracksIn b S (choice b pos scrutinee (cases {}) (optionalNode default))
      (choice b pos scrutinee' (cases' {}) (optionalNode (default.bare (S ++ ns)))) Paired := by
  intro L s s' h hs hk
  have hk₁ := hk.leave (lx s hs) (ax s)
  refine (tx h hs hk).bind fun M₁ _ hM₁ hv => ?_
  refine (tracks_names hM₁).bind fun M₂ h₂ hM₂ hb => ?_
  refine (tc hM₂ hk₁ (.empty M₂)).bind fun M₃ h₃ hM₃ ha => ?_
  have hk₃ : Knows (S ++ ns) (cases {} (scrutinee s).2).2 :=
    hk₁.grow (ac _) (by rw [nc]; exact .refl _)
  refine (tracks_addSeparate hM₃ hk₃ pos ha default td).bind fun M₄ h₄ hM₄ ha => ?_
  exact tracks_dispatch hM₄ b (hb.mono (h₃.trans h₄))
    ((hv.mono ((h₂.trans h₃).trans h₄)).alike_operand) ha

theorem tracks_orThrowAgain (h : Linked L s s') (hc : L.Pairs caught caught') (default : BlockId) :
    Tracks L s s' (orThrowAgain caught default) (orThrowAgain caught' default) fun _ c c' => c = c' := by
  unfold orThrowAgain
  split
  · exact tracks_pure h rfl
  · refine (tracks_newBlock h).bind fun M hLM hM hblock => ?_
    rw [hblock]
    refine (tracks_emit hM _ (.leave (.reg (hc.mono hLM)))).bind fun N _ hN _ => ?_
    exact tracks_pure hN rfl

theorem tracks_chooseClause (h : Linked L s s') (b : BlockId)
    (hc : L.Pairs caught caught') {a a' : Arms} (ha : a.Alike L a') :
    Tracks L s s' (chooseClause b caught a) (chooseClause b caught' a') fun _ _ _ => True := by
  unfold chooseClause
  rw [← ha.default]
  refine (tracks_orThrowAgain h hc a.default).bind fun M₁ h₁ hM₁ hd => ?_
  refine (tracks_newReg hM₁).bind fun M₂ h₂ hM₂ hr => ?_
  have hc₂ := hc.mono (h₁.trans h₂)
  rw [hd]
  refine (tracks_emit hM₂ b (.dispatch hr (.reg hc₂) (ha.mono (h₁.trans h₂)).arms)).bind
    fun M₃ h₃ hM₃ _ => ?_
  exact tracks_emit hM₃ b (.leave (.reg (hr.mono h₃)))

/-- What handles faults: the same block, with the caught value in paired registers, and the branches. -/
structure HandlersAlike (L : Link) (x x' : BlockId × Reg × List Branch) : Prop where
  block : x.1 = x'.1
  caught : x.1 ≠ .none → L.Pairs x.2.1 x'.2.1
  branches : List.Forall₂ (Branch.Alike L) x.2.2 x'.2.2

theorem isSole_bareClauses (cs : List Clause) (S : List String) :
    isSole (Node.bareClauses S cs) = isSole cs := by
  cases cs with
  | nil => rfl
  | cons c cs =>
    obtain ⟨name, p, body⟩ := c
    cases cs with
    | nil => exact Node.isAbsent_bare p S
    | cons c cs =>
      obtain ⟨name', p', body'⟩ := c
      rfl

theorem isEmpty_bareClauses (cs : List Clause) (S : List String) :
    (Node.bareClauses S cs).isEmpty = cs.isEmpty := by
  cases cs with
  | nil => rfl
  | cons c cs =>
    obtain ⟨name, p, body⟩ := c
    rfl

theorem tracks_handlers (h : Linked L s s') (hk : Knows S s) (cs : List Clause)
    {lowered lowered' : Reg → Arms → Build Arms}
    (tl : ∀ {L s s' r r' a a'}, Linked L s s' → Knows S s → L.Pairs r r' → a.Alike L a' →
      Tracks L s s' (lowered r a) (lowered' r' a') fun M a a' => a.Alike M a') :
    Tracks L s s' (handlers cs (lowered · {})) (handlers (Node.bareClauses S cs) (lowered' · {}))
      HandlersAlike := by
  unfold handlers
  rw [isEmpty_bareClauses, isSole_bareClauses]
  split
  · exact tracks_pure h ⟨rfl, fun hne => absurd rfl hne, .nil⟩
  · refine (tracks_newReg h).bind fun M₁ h₁ hM₁ hr => ?_
    have hk₁ : Knows S (newReg s).2 := hk.grow (adds_newReg (S := ∅) s) (.refl _)
    split
    · refine (tl hM₁ hk₁ hr (.empty M₁)).bind fun M₂ h₂ hM₂ ha => ?_
      exact tracks_pure hM₂ ⟨ha.default, fun _ => hr.mono h₂, ha.branches⟩
    · refine (tracks_newBlock hM₁).bind fun M₂ h₂ hM₂ hblock => ?_
      refine (tl hM₂ hk₁.newBlock (hr.mono h₂) (.empty M₂)).bind fun M₃ h₃ hM₃ ha => ?_
      have hr₃ := hr.mono (h₂.trans h₃)
      rw [hblock]
      refine (tracks_chooseClause hM₃ _ hr₃ ha).bind fun M₄ h₄ hM₄ _ => ?_
      exact tracks_pure hM₄ ⟨rfl, fun _ => hr₃.mono h₄, (ha.mono h₄).branches⟩

theorem tracks_ending (h : Linked L s s') (hk : Knows S s) (cleanup : Node)
    (tc : ∀ c, TracksIn c S (node c cleanup) (node c (cleanup.bare S)) Paired) :
    Tracks L s s' (ending (optionalNode cleanup)) (ending (optionalNode (cleanup.bare S)))
      fun _ c c' => c = c' := by
  unfold optionalNode
  rw [Node.isAbsent_bare]
  split
  · exact tracks_pure h rfl
  · refine (tracks_newBlock h).bind fun M₁ _ hM₁ hblock => ?_
    rw [hblock.symm]
    refine (tc _ hM₁ (openAt_newBlock s) hk.newBlock).bind fun M₂ _ hM₂ hr => ?_
    refine (tracks_sealNested hM₂ _ hr).bind fun M₃ _ hM₃ _ => ?_
    exact tracks_pure hM₃ rfl

theorem tracks_guardedSections (h : Linked L s s') (hk : Knows S s) (b : BlockId)
    {body body' : BlockId → Build (Option Reg)} (ab : ∀ c, Adds {c} (body c))
    (tb : ∀ c, TracksIn c S (body c) (body' c) Paired) (cs : List Clause)
    {lowered lowered' : Reg → Arms → Build Arms}
    (tl : ∀ {L s s' r r' a a'}, Linked L s s' → Knows S s → L.Pairs r r' → a.Alike L a' →
      Tracks L s s' (lowered r a) (lowered' r' a') fun M a a' => a.Alike M a') :
    Tracks L s s' (guardedSections b body cs (lowered · {}))
      (guardedSections b body' (Node.bareClauses S cs) (lowered' · {})) fun M x x' =>
        x.1 = x'.1 ∧ x.2.1 = x'.2.1 ∧ (x.2.1 ≠ .none → M.Pairs x.2.2 x'.2.2) := by
  refine (tracks_names h).bind fun M₁ h₁ hM₁ hb => ?_
  refine (tracks_branch hM₁ hk (absurd rfl) tb).bind fun M₂ h₂ hM₂ hbr => ?_
  have hk₂ : Knows S (branch "" .none body s).2 :=
    hk.grow (adds_branch "" .none ab s) (by rw [branch_apply]; exact .refl _)
  refine (tracks_handlers hM₂ hk₂ cs tl).bind fun M₃ h₃ hM₃ hx => ?_
  refine (tracks_join hM₃ b (hb.mono (h₂.trans h₃)) (.cons (hbr.mono h₃) hx.branches)).bind
    fun M₄ h₄ hM₄ _ => ?_
  exact tracks_pure hM₄ ⟨hbr.block, hx.block, fun hne => (hx.caught hne).mono h₄⟩

end

end ScriptMachine
