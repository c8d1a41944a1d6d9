import ScriptMachine.Proofs.Lowering.Growth
import ScriptMachine.Proofs.Lowering.StepLaws

/-!
# Lowering adds

Every node has the law `Adds {b}`: lowering it into `b` adds code to `b` and to blocks of its own.

A branch is made first and ended later, behind other branches. `Build.Makes old m brs` is the law of
a step that makes branches: it touches no block that is there, and the branches in its result are
those in `old` or have new blocks. A step that ends them may then add to their blocks.
-/

namespace ScriptMachine

namespace Build

variable {α β : Type}

/-- The blocks of branches. -/
def blocksOf (brs : List Branch) : Set BlockId := {c | ∃ br ∈ brs, br.block = c}

/-- A step that changes no block and whose branches are old or have new blocks. -/
def Makes (old : List Branch) (m : Build α) (brs : α → List Branch) : Prop :=
  ∀ s, Builder.Grows ∅ s (m s).2 ∧ ∀ br ∈ brs (m s).1, br ∈ old ∨ ¬ s.func.Has br.block

section
variable {old : List Branch} {m : Build α} {f : α → Build β} {brs : α → List Branch}
  {brs' : β → List Branch}

theorem Makes.adds (h : Makes old m brs) : Adds ∅ m := fun s => (h s).1

theorem Makes.bind (hm : Makes old m brs) (hf : ∀ a, Makes (brs a) (f a) brs') :
    Makes old (m >>= f) brs' := by
  intro s
  obtain ⟨hg₁, hb₁⟩ := hm s
  obtain ⟨hg₂, hb₂⟩ := hf (m s).1 (m s).2
  refine ⟨hg₁.trans hg₂ (by simp), fun br hbr => ?_⟩
  rcases hb₂ br hbr with h | h
  · exact hb₁ br h
  · exact .inr fun hs => h (hg₁.func.has hs)

theorem makes_of_adds (h : Adds ∅ m) (hbrs : ∀ s, brs (m s).1 ⊆ old) : Makes old m brs := fun s =>
  ⟨h s, fun _ hbr => .inl (hbrs s hbr)⟩

/-- A step behind one that makes branches may add to them. -/
theorem Makes.adds_bind {S : Set BlockId} (hm : Makes old m brs)
    (hf : ∀ a, Adds (S ∪ blocksOf (brs a)) (f a)) : Adds (S ∪ blocksOf old) (m >>= f) := by
  intro s
  obtain ⟨hg, hb⟩ := hm s
  refine (hg.mono (Set.empty_subset _)).trans (hf _ _) ?_
  rintro c (hc | ⟨br, hbr, rfl⟩) hs
  · exact .inl hc
  · rcases hb br hbr with h | h
    · exact .inr ⟨br, h, rfl⟩
    · exact absurd hs h

end

/-! ## Branches and joins -/

@[grind .] theorem adds_branch (own : String) (caught : Reg) {body : BlockId → Build (Option Reg)}
    (h : ∀ c, Adds {c} (body c)) : Adds ∅ (branch own caught body) := by
  refine adds_newBlock_bind fun c => ?_
  rw [insert_empty_eq]
  refine (adds_isolated ?_).bind fun _ => adds_pure _
  split
  · exact (adds_bind_name own caught).bind fun _ => h c
  · exact h c

theorem makes_branch (own : String) (caught : Reg) {body : BlockId → Build (Option Reg)}
    (h : ∀ c, Adds {c} (body c)) (old : List Branch) :
    Makes old (branch own caught body) fun br => old ++ [br] := by
  intro s
  refine ⟨adds_branch own caught h s, fun br hbr => ?_⟩
  rcases List.mem_append.mp hbr with hbr | hbr
  · exact .inl hbr
  · rw [List.mem_singleton.mp hbr]
    exact .inr fun hs => absurd hs.2 (by simp [branch])

theorem openBranches_apply (brs : List Branch) (s : Builder) :
    openBranches brs s = (brs.filter fun br => !endsBlock (s.func.code br.block), s) := by
  induction brs with
  | nil => rfl
  | cons br brs ih =>
    simp only [openBranches, bind_apply, ih, terminated_apply, pure_apply]
    cases h : endsBlock (s.func.code br.block) <;> simp [h]

@[grind .]
theorem adds_lookupBefore {S : Set BlockId} (before : Names) (name : String) :
    Adds S (lookupBefore before name) := by
  unfold lookupBefore
  split
  · exact adds_pure _
  · exact adds_lookup name

@[grind .]
theorem adds_startJoins {S : Set BlockId} {b : BlockId} (hb : b ∈ S) (before : Names)
    (ns : List String) : Adds S (startJoins b before ns) := by
  induction ns with
  | nil => exact adds_pure []
  | cons n ns ih =>
    exact adds_newReg.bind fun _ => (adds_lookupBefore before n).bind fun _ =>
      (adds_emit b _ hb).bind fun _ => ih.bind fun _ => adds_pure _

theorem adds_closeBranches {S : Set BlockId} (before joins : Names) {brs : List Branch}
    (hb : blocksOf brs ⊆ S) : Adds S (closeBranches before joins brs) := by
  induction brs with
  | nil => exact adds_pure ()
  | cons br brs ih =>
    have hbr : br.block ∈ S := hb ⟨br, List.mem_cons_self, rfl⟩
    refine (adds_emitAll _ _ hbr).bind fun _ => ih ?_
    rintro c ⟨br', hbr', rfl⟩
    exact hb ⟨br', List.mem_cons_of_mem _ hbr', rfl⟩

theorem adds_join {S : Set BlockId} {b : BlockId} (hb : b ∈ S) (before : Names)
    {brs : List Branch} (hbrs : blocksOf brs ⊆ S) : Adds S (join b before brs) := by
  intro s
  have hrest : Adds S (do
      let opened := brs.filter fun br => !endsBlock (s.func.code br.block)
      let joins ← startJoins b before
        ((opened.flatMap (·.rebound before)).eraseDups.mergeSort (· ≤ ·))
      closeBranches before joins opened
      bindAll (joins.map (·.1)) (joins.map (·.2))) := by
    refine (adds_startJoins hb before _).bind fun joins =>
      (adds_closeBranches before joins ?_).bind fun _ => adds_bindAll _ _
    rintro c ⟨br, hbr, rfl⟩
    exact hbrs ⟨br, List.mem_of_mem_filter hbr, rfl⟩
  have := hrest s
  rw [join, bind_apply, openBranches_apply]
  exact this

end Build

/-! ## Combinators -/

namespace Lowering

open Build

variable {b : BlockId} {S : Set BlockId} {body : BlockId → Build (Option Reg)}

@[grind .] theorem adds_number (pos : Position) (text : String) : Adds S (number pos text) := by
  unfold number
  split
  · exact adds_pure _
  · exact (adds_complain pos _).bind fun _ => adds_pure _

@[grind .] theorem adds_pattern (p : Node) : Adds S (pattern p) := by
  unfold pattern
  split
  · exact adds_number _ _
  · exact adds_pure _
  · exact adds_pure _
  · exact (adds_complain _ _).bind fun _ => adds_pure _

@[grind .] theorem adds_constant (hb : b ∈ S) (v : Value) : Adds S (constant b v) :=
  (adds_load hb v).bind fun _ => adds_pure _

@[grind .]
theorem adds_degrade (hb : b ∈ S) (pos : Position) (c : Complaint) : Adds S (degrade b pos c) :=
  (adds_complain pos c).bind fun _ => adds_constant hb .null

@[grind .] theorem adds_leave (hb : b ∈ S) (v : Value) : Adds S (leave b v) :=
  adds_inClosure.bind fun _ => adds_emit b _ hb

@[grind .] theorem adds_sealBody (hb : b ∈ S) (last : Option Reg) : Adds S (sealBody b last) :=
  (adds_terminated b).bind fun _ => adds_ite (adds_pure _) (adds_leave hb _)

@[grind .] theorem adds_sealNested (hb : b ∈ S) (last : Option Reg) : Adds S (sealNested b last) :=
  (adds_terminated b).bind fun _ => adds_ite (adds_pure _) (adds_emit b _ hb)

@[grind .]
theorem adds_callHeld (hb : b ∈ S) (callee : Reg) {args : Build (List Value)} (h : Adds S args) :
    Adds S (callHeld b callee args) :=
  h.bind fun _ => adds_produce hb _

@[grind .] theorem adds_callNamed (hb : b ∈ S) (name : String) {args : Build (List Value)}
    (h : Adds S args) : Adds S (callNamed b name args) :=
  h.bind fun _ => adds_produce hb _

/-- The state in which the right operand of a short circuit is lowered. -/
def circuitStart (b : BlockId) (kind : Circuit) (left : Option Reg) (s : Builder) : Builder :=
  { s with func := s.func.newReg.1.append b (.circuit kind ⟨s.func.numRegs⟩ (operand left) .null 0) }

/-- The state behind the right operand of a short circuit. -/
def circuitEnd (b : BlockId) (kind : Circuit) (left : Option Reg) (right : Build (Option Reg))
    (s : Builder) : Builder :=
  let t := (right (circuitStart b kind left s)).2
  (emitAll b (landing ⟨s.func.numRegs⟩ (right (circuitStart b kind left s)).1)
    { t with names := s.names }).2

/-- A short circuit in the words of the code: the instruction in front of the right operand is
replaced in the end. -/
theorem circuit_apply (b : BlockId) (kind : Circuit) (left : Option Reg)
    (right : Build (Option Reg)) (s : Builder) :
    circuit b kind left right s = (some ⟨s.func.numRegs⟩,
      { circuitEnd b kind left right s with
        func := (circuitEnd b kind left right s).func.replace b (s.func.code b).length
          (.circuit kind ⟨s.func.numRegs⟩ (operand left)
            (operand (right (circuitStart b kind left s)).1)
            (Int64.ofNat (((circuitEnd b kind left right s).func.code b).length -
              ((s.func.code b).length + 1)))) }) := by
  simp only [circuit, bind_apply, newReg_apply, length_apply, emit_apply, isolated_apply,
    replace_apply, pure_apply, Func.newReg_code]
  rfl

theorem grows_circuitStart (hb : b ∈ S) (kind : Circuit) (left : Option Reg) (s : Builder) :
    Builder.Grows S s (circuitStart b kind left s) :=
  (adds_newReg s).trans (adds_emit b _ hb _) fun _ hc _ => hc

theorem grows_landing (hb : b ∈ S) (kind : Circuit) (left : Option Reg)
    (right : Build (Option Reg)) (s : Builder) :
    Builder.Grows S (right (circuitStart b kind left s)).2 (circuitEnd b kind left right s) := by
  have h : Builder.Grows S (right (circuitStart b kind left s)).2
      { (right (circuitStart b kind left s)).2 with names := s.names } :=
    (Builder.Grows.refl S _).of_eq rfl rfl rfl
  exact h.trans (adds_emitAll b _ hb _) fun _ hc _ => hc

theorem grows_circuitEnd (hb : b ∈ S) (kind : Circuit) (left : Option Reg)
    {right : Build (Option Reg)} (hr : Adds S right) (s : Builder) :
    Builder.Grows S s (circuitEnd b kind left right s) := by
  have h := (grows_circuitStart hb kind left s).trans (hr _) fun _ hc _ => hc
  exact h.trans (grows_landing hb kind left right s) fun _ hc _ => hc

@[grind .] theorem adds_circuit (hb : b ∈ S) (kind : Circuit) (left : Option Reg)
    {right : Build (Option Reg)} (hr : Adds S right) : Adds S (circuit b kind left right) := by
  intro s
  have h := grows_circuitEnd hb kind left hr s
  rw [circuit_apply]
  exact { h with func := h.func.replace hb (le_refl _) _ }

@[grind .]
theorem adds_captureName (pos : Position) (name : String) : Adds S (captureName pos name) := by
  refine (adds_lookupOutside name).bind fun r => ?_
  split
  · exact adds_capture name _
  · exact (adds_complain pos _).bind fun _ => adds_capture name _

@[grind .]
theorem adds_captureListed (pos : Position) (ns : List String) : Adds S (captureListed pos ns) := by
  induction ns with
  | nil => exact adds_pure ()
  | cons n ns ih => exact (adds_captureName pos n).bind fun _ => ih

@[grind .]
theorem adds_closureBody {c : BlockId} (hc : c ∈ S) (pos : Position) (params captures : List String)
    {body : Build (Option Reg)} (h : Adds S body) :
    Adds S (closureBody c pos params captures body) :=
  (adds_newRegs params).bind fun regs => (adds_bindAll params regs).bind fun _ =>
    (adds_captureListed pos captures).bind fun _ => h.bind fun _ =>
      (adds_sealBody hc _).bind fun _ => adds_pure _

@[grind .] theorem adds_closure (hb : b ∈ S) (pos : Position) (params captures : List String)
    (h : ∀ c, Adds {c} (body c)) : Adds S (closure b pos params captures body) := by
  refine adds_newBlock_bind fun c => ?_
  have hc : Adds {c} (closureBody c pos params captures (body c)) :=
    adds_closureBody (Set.mem_singleton c) pos params captures (h c)
  refine (adds_enclosed (hc.mono ?_)).bind fun _ => adds_produce (Set.mem_insert_of_mem c hb) _
  exact Set.singleton_subset_iff.mpr (Set.mem_insert c S)

@[grind .] theorem adds_wholeBody (f : Func)
    (h : ∀ c, Adds {c} (body c)) : Adds {f.entry} (wholeBody f body) :=
  (adds_bindAll _ _).bind fun _ => (h _).bind fun _ => adds_sealBody (Set.mem_singleton _) _

@[grind .] theorem adds_function (pos : Position) (name : String) (params : List String)
    (h : ∀ c, Adds {c} (body c)) : Adds S (function pos name params body) :=
  adds_ite (adds_complain pos _) (Build.adds_function _ (adds_wholeBody _ h))

/-! ## Choices and guarded sections -/

theorem makes_addDefault (pos : Position) (c : Complaint) (own : String) (caught : Reg) (a : Arms)
    (h : ∀ c, Adds {c} (body c)) :
    Makes a.branches (addDefault pos c own caught a body) Arms.branches := by
  unfold addDefault
  split
  · exact makes_of_adds ((adds_complain pos c).bind fun _ => adds_pure a) fun _ => List.Subset.refl _
  · exact (makes_branch own caught h a.branches).bind fun br =>
      makes_of_adds (adds_pure _) fun _ => List.Subset.refl _

theorem makes_addSeparate (pos : Position) (a : Arms)
    {default : Option (BlockId → Build (Option Reg))} (h : ∀ body ∈ default, ∀ c, Adds {c} (body c)) :
    Makes a.branches (addSeparate pos a default) Arms.branches := by
  cases default with
  | none => exact makes_of_adds (adds_pure a) fun _ => List.Subset.refl _
  | some body => exact makes_addDefault pos _ _ _ a (h body rfl)

theorem makes_addCase (pos : Position) (a : Arms) (p : Node) (h : ∀ c, Adds {c} (body c)) :
    Makes a.branches (addCase pos a p body) Arms.branches := by
  unfold addCase
  split
  · exact makes_addDefault pos _ _ _ a h
  · exact (makes_of_adds (adds_pattern p) fun _ => List.Subset.refl _).bind fun v =>
      (makes_branch "" .none h a.branches).bind fun br =>
        makes_of_adds (adds_pure _) fun _ => List.Subset.refl _

theorem makes_addClause (pos : Position) (caught : Reg) (a : Arms) (name : String) (p : Node)
    (h : ∀ c, Adds {c} (body c)) :
    Makes a.branches (addClause pos caught a name p body) Arms.branches := by
  unfold addClause
  split
  · exact makes_addDefault pos _ _ _ a h
  · exact (makes_branch name caught h a.branches).bind fun br =>
      (makes_of_adds (adds_pattern p) fun _ => List.Subset.refl _).bind fun v =>
        makes_of_adds (adds_pure _) fun _ => List.Subset.refl _

theorem adds_dispatch (hb : b ∈ S) (v : Value) (before : Names) {a : Arms}
    (ha : blocksOf a.branches ⊆ S) : Adds S (dispatch b v before a) :=
  (adds_join hb before ha).bind fun _ => adds_produce hb _

theorem adds_chosen (hb : b ∈ S) (v : Value) (before : Names) {m : Build Arms}
    (hm : Makes [] m Arms.branches) : Adds S (m >>= dispatch b v before) := by
  have h : Adds (S ∪ blocksOf []) (m >>= dispatch b v before) :=
    hm.adds_bind fun _ => adds_dispatch (.inl hb) v before Set.subset_union_right
  exact h.mono (Set.union_subset subset_rfl (by simp [blocksOf]))

theorem adds_choice (hb : b ∈ S) (pos : Position) {scrutinee : Build (Option Reg)}
    (hx : Adds S scrutinee) {cases : Build Arms} (hc : Makes [] cases Arms.branches)
    {default : Option (BlockId → Build (Option Reg))}
    (hd : ∀ body ∈ default, ∀ c, Adds {c} (body c)) :
    Adds S (choice b pos scrutinee cases default) :=
  hx.bind fun _ => adds_names.bind fun before =>
    adds_chosen hb _ before (hc.bind fun a => makes_addSeparate pos a hd)

theorem adds_orThrowAgain (caught : Reg) (default : BlockId) :
    Adds S (orThrowAgain caught default) := by
  unfold orThrowAgain
  split
  · exact adds_pure _
  · exact adds_newBlock_bind fun c =>
      (adds_emit c _ (Set.mem_insert c S)).bind fun _ => adds_pure c

theorem adds_chooseClause (hb : b ∈ S) (caught : Reg) (a : Arms) :
    Adds S (chooseClause b caught a) :=
  (adds_orThrowAgain caught a.default).bind fun _ => adds_newReg.bind fun _ =>
    (adds_emit b _ hb).bind fun _ => adds_emit b _ hb

theorem makes_choosing (caught : Reg) {lowered : Build Arms} (h : Makes [] lowered Arms.branches)
    (old : List Branch) : Makes old (choosing caught lowered) fun x => old ++ x.2.2 := by
  intro s
  have hadds : Adds ∅ (choosing caught lowered) :=
    adds_newBlock_bind fun c => h.adds.of_empty.bind fun a =>
      (adds_chooseClause (Set.mem_insert c ∅) caught a).bind fun _ => adds_pure _
  refine ⟨hadds s, fun br hbr => ?_⟩
  rcases List.mem_append.mp hbr with hbr | hbr
  · exact .inl hbr
  · rcases (h (newBlock s).2).2 br hbr with hold | hnew
    · exact absurd hold List.not_mem_nil
    · exact .inr fun hs => hnew ((Func.extends_newBlock s.func).has hs)

theorem makes_soleHandler (caught : Reg) {lowered : Build Arms} (h : Makes [] lowered Arms.branches)
    (old : List Branch) : Makes old (soleHandler caught lowered) fun x => old ++ x.2.2 := by
  intro s
  refine ⟨(h.adds.bind fun _ => adds_pure _) s, fun br hbr => ?_⟩
  rcases List.mem_append.mp hbr with hbr | hbr
  · exact .inl hbr
  · exact .inr (((h s).2 br hbr).resolve_left List.not_mem_nil)

section
variable {cs : List Clause} {lowered : Reg → Build Arms} {s : Builder}

theorem handlers_empty (h : cs.isEmpty = true) :
    handlers cs lowered s = ((.none, .none, []), s) := by
  simp [handlers, h]

theorem handlers_sole (h : cs.isEmpty = false) (hone : isSole cs = true) :
    handlers cs lowered s = soleHandler ⟨s.func.numRegs⟩ (lowered ⟨s.func.numRegs⟩) (newReg s).2 := by
  simp [handlers, h, hone]

theorem handlers_choosing (h : cs.isEmpty = false) (hone : ¬ isSole cs = true) :
    handlers cs lowered s = choosing ⟨s.func.numRegs⟩ (lowered ⟨s.func.numRegs⟩) (newReg s).2 := by
  simp [handlers, h, hone]

end

theorem makes_handlers (cs : List Clause) {lowered : Reg → Build Arms}
    (h : ∀ r, Makes [] (lowered r) Arms.branches) (old : List Branch) :
    Makes old (handlers cs lowered) fun x => old ++ x.2.2 := by
  unfold handlers
  split
  · exact makes_of_adds (adds_pure _) fun _ => by simp
  · have hr : Makes old newReg fun _ => old :=
      makes_of_adds adds_newReg fun _ => List.Subset.refl _
    refine hr.bind fun caught => ?_
    split
    · exact makes_soleHandler caught (h caught) old
    · exact makes_choosing caught (h caught) old

@[grind .]
theorem adds_ending {cleanup : Option (BlockId → Build (Option Reg))}
    (h : ∀ body ∈ cleanup, ∀ c, Adds {c} (body c)) : Adds S (ending cleanup) := by
  cases cleanup with
  | none => exact adds_pure _
  | some body =>
    refine adds_newBlock_bind fun c => ?_
    have hc : Adds {c} (body c >>= fun r => sealNested c r >>= fun _ => pure c) :=
      (h body rfl c).bind fun r => (adds_sealNested (Set.mem_singleton c) r).bind fun _ => adds_pure c
    exact hc.mono (Set.singleton_subset_iff.mpr (Set.mem_insert c S))

/-- The sections of a guarded section, and what comes behind them. -/
theorem adds_sections {α : Type} (hb : b ∈ S) (h : ∀ c, Adds {c} (body c)) (cs : List Clause)
    {lowered : Reg → Build Arms} (hl : ∀ r, Makes [] (lowered r) Arms.branches)
    {f : BlockId → BlockId → Reg → Build α} (hf : ∀ c d r, Adds S (f c d r)) :
    Adds S (Build.names >>= fun before => branch "" .none body >>= fun br =>
      handlers cs lowered >>= fun x => join b before (br :: x.2.2) >>= fun _ =>
        f br.block x.1 x.2.1) := by
  refine adds_names.bind fun before => ?_
  refine Adds.mono (S := S ∪ blocksOf []) ?_ (Set.union_subset subset_rfl (by simp [blocksOf]))
  exact (makes_branch "" .none h []).adds_bind fun br => (makes_handlers cs hl [br]).adds_bind fun x =>
    (adds_join (.inl hb) before Set.subset_union_right).bind fun _ =>
      (hf _ _ _).mono Set.subset_union_left

theorem adds_guarded (hb : b ∈ S) (h : ∀ c, Adds {c} (body c)) (cs : List Clause)
    {lowered : Reg → Build Arms} (hl : ∀ r, Makes [] (lowered r) Arms.branches)
    {cleanup : Option (BlockId → Build (Option Reg))}
    (hc : ∀ body ∈ cleanup, ∀ c, Adds {c} (body c)) : Adds S (guarded b body cs lowered cleanup) :=
  adds_sections (f := fun c d r => ending cleanup >>= fun last =>
    produce b (.guarded · ⟨c, d, r, last⟩)) hb h cs hl
    fun _ _ _ => (adds_ending hc).bind fun _ => adds_produce hb _

/-! ## Nodes -/

theorem adds_law (ds : List Declaration) :
    TreeLaw ds (fun b {_} m => Adds {b} m) fun a m => Makes a.branches m Arms.branches where
  pure := adds_pure
  bind := Adds.bind
  complain := adds_complain
  terminated b := adds_terminated b
  lookup := adds_lookup
  bindName := adds_bind_name
  inClosure := adds_inClosure
  load _ v := adds_load (Set.mem_singleton _) v
  produce _ _ _ _ := adds_produce (Set.mem_singleton _) _
  leave b _ _ := adds_emit b _ rfl
  circuit kind left _ := adds_circuit (Set.mem_singleton _) kind left
  closure pos params captures _ := adds_closure (Set.mem_singleton _) pos params captures
  function _ _ _ _ h := Build.adds_function _ (adds_wholeBody _ h)
  done a := makes_of_adds (adds_pure a) fun _ => List.Subset.refl _
  addCase pos a p _ _ h hf := (makes_addCase pos a p h).bind hf
  addClause pos caught a name p _ _ h hf := (makes_addClause pos caught a name p h).bind hf
  choice pos _ _ _ hx hc hd := adds_choice (Set.mem_singleton _) pos hx hc hd
  guarded cs _ _ _ h hl hc := adds_guarded (Set.mem_singleton _) h cs hl hc

@[grind .] theorem adds_node (b : BlockId) (x : Node) : Adds {b} (node b x) :=
  (adds_law _).node b x (List.Subset.refl _)

@[grind .]
theorem adds_stmts (b : BlockId) (last : Option Reg) (xs : List Node) : Adds {b} (stmts b last xs) :=
  (adds_law _).stmts b last xs (List.Subset.refl _)

@[grind .] theorem adds_args (b : BlockId) (xs : List Node) : Adds {b} (args b xs) :=
  (adds_law _).args b xs (List.Subset.refl _)

theorem makes_cases (pos : Position) (a : Arms) (cs : List Case) :
    Makes a.branches (cases pos a cs) Arms.branches :=
  (adds_law _).cases pos a cs (List.Subset.refl _)

theorem makes_clauses (pos : Position) (caught : Reg) (a : Arms) (cs : List Clause) :
    Makes a.branches (clauses pos caught a cs) Arms.branches :=
  (adds_law _).clauses pos caught a cs (List.Subset.refl _)

end Lowering

end ScriptMachine
