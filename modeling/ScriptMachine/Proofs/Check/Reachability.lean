import ScriptMachine.Proofs.Check.Acceptance
import ScriptMachine.Proofs.FiniteSets
import ScriptMachine.Proofs.References

/-!
# The visit computes reachability

The checker visits the blocks of a function from a work list of references. `Visits` is the same loop
without a bound on the number of visits.

1. The loop comes to its end within the bound (`visits_visitAll`).
2. Each visit keeps a balance (`Balanced`): for each block, the reports that it was entered again, its
   first visit and the references to it that wait are as many as the references to it in the blocks
   visited so far, and one more for the entry.
3. When nothing waits any more, the blocks visited are those that can be reached
   (`Balanced.seen_iff`), and the balance counts the reports.
-/

namespace ScriptMachine.Check

open Instr (Entry BlockRef)

variable {f : Func} {written : BitSet} {v : Visit}

/-! ## The loop -/

/-- Visits from a list of waiting references on, until none waits. -/
inductive Visits (f : Func) (written : BitSet) : WorkList BlockRef → Visit → Visit → Prop
  | done {jobs : WorkList BlockRef} {v : Visit} (hpop : jobs.pop? waitKey = none) :
      Visits f written jobs v v
  | missing {jobs rest : WorkList BlockRef} {v t : Visit} {j : BlockRef}
      (hpop : jobs.pop? waitKey = some (j, rest)) (hb : f.block? j.block = none)
      (h : Visits f written rest v t) : Visits f written jobs v t
  | again {jobs rest : WorkList BlockRef} {v t : Visit} {j : BlockRef} {b : Block}
      (hpop : jobs.pop? waitKey = some (j, rest)) (hb : f.block? j.block = some b)
      (hold : v.seen.contains j.block.index = true)
      (h : Visits f written rest
        { v with problems := v.problems ++ [⟨f.name, j.block, -1, .enteredAgain⟩] } t) :
      Visits f written jobs v t
  | first {jobs rest : WorkList BlockRef} {v t : Visit} {j : BlockRef} {b : Block}
      (hpop : jobs.pop? waitKey = some (j, rest)) (hb : f.block? j.block = some b)
      (hnew : ¬ v.seen.contains j.block.index = true)
      (h : Visits f written
        (((blockRefs b).filter fun r => (f.block? r.block).isSome).foldl (WorkList.push waitKey) rest)
        { seen := v.seen.insertNat j.block.index.toNat,
          problems := v.problems ++ blockProblems f written j.entry b } t) :
      Visits f written jobs v t

/-- The loop ends before the bound is used up. -/
theorem visits_visitAll (fuel : Nat) (jobs : WorkList BlockRef) (v : Visit)
    (hfuel : jobs.items.toList.length + (pendingRefs v.seen 0 f.blocks.toList).length < fuel) :
    Visits f written jobs v (visitAll f written fuel jobs v) := by
  fun_induction visitAll f written fuel jobs v with
  | case1 => omega
  | case2 fuel jobs v hpop => exact .done hpop
  | case3 fuel jobs v j rest hpop hb ih =>
    have hlen := (WorkList.pop?_perm hpop).length_eq
    rw [List.length_cons] at hlen
    exact .missing hpop hb (ih (by omega))
  | case4 =>
    rename_i fuel jobs v j rest hpop b hb hold again ih
    have hlen := (WorkList.pop?_perm hpop).length_eq
    rw [List.length_cons] at hlen
    exact .again hpop hb hold (ih (by simp only; omega))
  | case5 =>
    rename_i fuel jobs v j rest hpop b hb hnew found refs ih
    have h₁ := (WorkList.pop?_perm hpop).length_eq
    have h₂ := (@WorkList.foldl_push_perm _ waitKey refs rest).length_eq
    have h₃ := (pendingRefs_visit hb hnew).length_eq
    have h₄ : refs.length ≤ (blockRefs b).length := List.length_filter_le _ _
    simp only [List.length_cons, List.length_append] at h₁ h₂ h₃
    exact .first hpop hb hnew (ih (by simp only; omega))

/-! ## Reports of further ways in -/

/-- How often a block is reported as entered from more than one place. -/
def againCount (ps : List Problem) (b : BlockId) : Nat :=
  ps.countP fun q => q.issue = .enteredAgain ∧ q.block = b

@[simp] theorem againCount_append (ps qs : List Problem) (b : BlockId) :
    againCount (ps ++ qs) b = againCount ps b + againCount qs b := by
  simp [againCount]

theorem againCount_again (name : String) (j b : BlockId) :
    againCount [⟨name, j, -1, .enteredAgain⟩] b = if j = b then 1 else 0 := by
  simp [againCount, List.countP_cons]

theorem againCount_eq_zero {ps : List Problem} (h : ∀ q ∈ ps, q.issue ≠ .enteredAgain)
    (b : BlockId) : againCount ps b = 0 :=
  List.countP_eq_zero.mpr fun q hq => by simp [h q hq]

theorem enteredAgain_notMem_instrIssues {e : Entry} {i len : Nat} {x : Instr} :
    Issue.enteredAgain ∉ instrIssues f written e i len x := by
  have hreg : ∀ r, Issue.enteredAgain ∉ regIssues f r := fun r => by
    unfold regIssues
    split <;> simp
  have href : ∀ r, Issue.enteredAgain ∉ refIssues f r := fun r => by
    unfold refIssues
    split
    · simp
    · split <;> simp
  have hoperand : ∀ v, Issue.enteredAgain ∉ operandIssues f written v := fun v => by
    unfold operandIssues
    split
    · split <;> simp [hreg]
    · simp
  have hend : Issue.enteredAgain ∉ endIssues (i + 1 == len) x := by
    unfold endIssues
    split <;> simp
  have hown : Issue.enteredAgain ∉ ownIssues f e i len x := by
    cases x with
    | circuit kind dest left right n =>
      simp only [ownIssues, skipIssues]
      split <;> simp
    | leave how v =>
      cases how <;> simp only [ownIssues]
      case yield => split <;> simp
      all_goals simp [Instr.refs]
    | closureCreate dest b captures params names =>
      simp only [ownIssues]
      split <;> simp [hreg, href]
    | guarded dest g =>
      simp only [ownIssues]
      split <;> simp [href]
    | dispatch dest v arms default => simp [ownIssues, href]
    | _ => simp [ownIssues, Instr.refs]
  simp only [instrIssues, List.mem_append, List.mem_flatMap, hend, hown, hoperand, and_false,
    exists_false, or_false, false_or]
  split <;> simp [hreg]

theorem againCount_blockProblems (e : Entry) (k : Block) (b : BlockId) :
    againCount (blockProblems f written e k) b = 0 := by
  refine againCount_eq_zero (fun q hq => ?_) b
  unfold blockProblems at hq
  by_cases hempty : k.code.isEmpty = true
  · rw [if_pos hempty] at hq
    rw [List.mem_singleton.mp hq]
    simp
  · rw [if_neg hempty] at hq
    obtain ⟨⟨x, i⟩, -, hq⟩ := List.mem_flatMap.mp hq
    obtain ⟨issue, hissue, rfl⟩ := List.mem_map.mp hq
    rintro rfl
    exact enteredAgain_notMem_instrIssues hissue

/-! ## The balance of a visit -/

/-- A block is among those seen. -/
def Saw (seen : BitSet) (b : BlockId) : Prop := seen.contains b.index = true

instance (seen : BitSet) (b : BlockId) : Decidable (Saw seen b) :=
  inferInstanceAs (Decidable (_ = true))

theorem not_saw_nil (b : BlockId) : ¬ Saw ⟨#[], true⟩ b := by simp [Saw]

theorem saw_insertNat {seen : BitSet} {a b : BlockId} (hb : 0 ≤ b.index) :
    Saw (seen.insertNat b.index.toNat) a ↔ a = b ∨ Saw seen a := by
  have hindex : a.index = (b.index.toNat : Int) ↔ a = b := by
    rw [Int.toNat_of_nonneg hb]
    exact ⟨congrArg BlockId.mk, congrArg BlockId.index⟩
  simp only [Saw, BitSet.contains_insertNat, Bool.or_eq_true, decide_eq_true_iff, hindex]

/-- What holds between visits, where `jobs` are the references that wait. -/
structure Balanced (f : Func) (jobs : List BlockRef) (v : Visit) : Prop where
  saw : ∀ b, Saw v.seen b → f.Has b ∧ f.Reachable b
  waits : ∀ r ∈ jobs, f.Has r.block ∧ f.Reachable r.block
  fresh : ∀ b, ¬ Saw v.seen b → againCount v.problems b = 0
  count : ∀ b, f.Has b →
    againCount v.problems b + (if Saw v.seen b then 1 else 0) + jobs.countP (·.block = b) =
      f.refsFrom (Saw v.seen) b + if b = f.entry then 1 else 0

theorem Balanced.perm {jobs jobs' : List BlockRef} (h : Balanced f jobs v)
    (hperm : jobs.Perm jobs') : Balanced f jobs' v where
  saw := h.saw
  waits r hr := h.waits r (hperm.mem_iff.mpr hr)
  fresh := h.fresh
  count b hb := by rw [← hperm.countP_eq]; exact h.count b hb

theorem balanced_start (hentry : f.Has f.entry) :
    Balanced f [⟨f.entry, .function⟩] { seen := ⟨#[], true⟩ } where
  saw b hb := absurd hb (not_saw_nil b)
  waits r hr := by
    obtain rfl := List.mem_singleton.mp hr
    exact ⟨hentry, Func.reachable_entry⟩
  fresh _ _ := rfl
  count b _ := by
    rw [Func.refsFrom_congr (fun b => iff_false_intro (not_saw_nil b)), Func.refsFrom_false,
      if_neg (not_saw_nil b)]
    simp [againCount, eq_comm]

/-- A block that was seen before is reported. -/
theorem Balanced.again {jobs : List BlockRef} {j : BlockRef}
    (h : Balanced f (j :: jobs) v) (hold : Saw v.seen j.block) :
    Balanced f jobs
      { v with problems := v.problems ++ [⟨f.name, j.block, -1, .enteredAgain⟩] } where
  saw := h.saw
  waits r hr := h.waits r (List.mem_cons_of_mem j hr)
  fresh b hb := by
    have hne : j.block ≠ b := by
      rintro rfl
      exact hb hold
    rw [againCount_append, h.fresh b hb, againCount_again, if_neg hne]
  count b hb := by
    have hcount := h.count b hb
    rw [List.countP_cons] at hcount
    rw [againCount_append, againCount_again, ← hcount]
    simp only [decide_eq_true_eq]
    omega

/-- A block that is seen for the first time has its references wait. -/
theorem Balanced.first {jobs : List BlockRef} {j : BlockRef} {b : Block}
    (h : Balanced f (j :: jobs) v) (hb : f.block? j.block = some b) (hnew : ¬ Saw v.seen j.block) :
    Balanced f (((blockRefs b).filter fun r => (f.block? r.block).isSome) ++ jobs)
      { seen := v.seen.insertNat j.block.index.toNat,
        problems := v.problems ++ blockProblems f written j.entry b } := by
  obtain ⟨hhas, hreach⟩ := h.waits j List.mem_cons_self
  have hcode := Func.code_of_block? hb
  have hsaw := fun a => @saw_insertNat v.seen a j.block hhas.1
  refine ⟨fun a ha => ?_, fun r hr => ?_, fun a ha => ?_, fun a ha => ?_⟩
  · rcases (hsaw a).mp ha with rfl | ha
    · exact ⟨hhas, hreach⟩
    · exact h.saw a ha
  · rcases List.mem_append.mp hr with hr | hr
    · obtain ⟨hr, hsome⟩ := List.mem_filter.mp hr
      have hr₀ := (Func.isSome_block?_iff f r.block).mp hsome
      obtain ⟨x, hx, hrx⟩ := List.mem_flatMap.mp hr
      exact ⟨hr₀, hreach.ref (by rwa [hcode]) hrx hr₀⟩
    · exact h.waits r (List.mem_cons_of_mem j hr)
  · rw [againCount_append, againCount_blockProblems, Nat.add_zero]
    exact h.fresh a fun ha' => ha ((hsaw a).mpr (.inr ha'))
  · -- the references of the block are counted in its code, and they wait
    have hcount := h.count a ha
    have hrefs : ((blockRefs b).filter fun r => (f.block? r.block).isSome).countP (·.block = a) =
        refCount a (f.code j.block) := by
      rw [hcode, refCount, List.countP_filter]
      refine List.countP_congr fun r _ => ?_
      have hsome := (Func.isSome_block?_iff f a).mpr ha
      simp only [Bool.and_eq_true, decide_eq_true_iff, and_iff_left_iff_imp]
      rintro rfl
      exact hsome
    rw [Func.refsFrom_congr hsaw, Func.refsFrom_insert hhas hnew, againCount_append,
      againCount_blockProblems, List.countP_append, hrefs]
    simp only [hsaw, List.countP_cons, decide_eq_true_eq] at hcount ⊢
    by_cases haj : a = j.block
    · subst haj
      simp only [hnew, if_true, true_or, if_false] at hcount ⊢
      omega
    · simp only [haj, Ne.symm haj, if_false, false_or] at hcount ⊢
      omega

/-- At its end a visit is in balance with nothing waiting. -/
theorem Visits.balanced {jobs : WorkList BlockRef} {v t : Visit} (h : Visits f written jobs v t)
    (hv : Balanced f jobs.items.toList v) : Balanced f [] t := by
  induction h with
  | done hpop => rwa [WorkList.pop?_eq_none hpop] at hv
  | missing hpop hb _ ih =>
    have hv := hv.perm (WorkList.pop?_perm hpop)
    have hj := (Func.isSome_block?_iff f _).mpr (hv.waits _ List.mem_cons_self).1
    simp [hb] at hj
  | again hpop hb hold _ ih => exact ih ((hv.perm (WorkList.pop?_perm hpop)).again hold)
  | first hpop hb hnew _ ih =>
    refine ih (Balanced.perm ?_ (WorkList.foldl_push_perm _ _).symm)
    exact (hv.perm (WorkList.pop?_perm hpop)).first hb hnew

/-- When nothing waits, the blocks seen are those that can be reached. -/
theorem Balanced.saw_iff (h : Balanced f [] v) (hentry : f.Has f.entry) (b : BlockId) :
    Saw v.seen b ↔ f.Reachable b := by
  -- a block that exists, was not seen and is referred to would upset the balance
  have hall : ∀ b, f.Has b → 0 < f.refsFrom (Saw v.seen) b + (if b = f.entry then 1 else 0) → Saw v.seen b := by
    intro b hb hpos
    by_contra hnew
    have hcount := h.count b hb
    rw [h.fresh b hnew, if_neg hnew, List.countP_nil] at hcount
    omega
  refine ⟨fun hb => (h.saw b hb).2, ?_⟩
  rintro ⟨rs, hrs⟩
  induction hrs with
  | entry => exact hall _ hentry (by simp)
  | ref _ hx hr hhas ih => exact hall _ hhas (Nat.add_pos_left (Func.refsFrom_pos ih hx hr) _)

/-! ## The check of a function -/

/-- The blocks that were not visited, whichever way they are found. -/
theorem unvisited_eq {seen : BitSet} (hnum : f.Numbered) (hseen : ∀ b, Saw seen b → f.Has b) :
    unvisited f seen = f.ids.filter fun b => !seen.contains b.index := by
  unfold unvisited
  rw [Func.numbered_iff.mp hnum]
  split
  · rename_i hsize
    refine (List.filter_eq_nil_iff.mpr fun b hb => ?_).symm
    obtain ⟨i, hi, rfl⟩ := (Func.mem_ids_iff.mp hb).exists_natCast
    have hlt : ∀ k, seen.containsNat k = true → k < f.blocks.size := fun k hk =>
      (Func.has_natCast_iff f k).mp (hseen ⟨k⟩ hk)
    have : seen.contains (i : Int) = true := BitSet.contains_of_size hlt hsize hi
    simp [this]
  · rfl

theorem visits_visit (f : Func) (written : BitSet) :
    Visits f written (({} : WorkList BlockRef).push waitKey ⟨f.entry, .function⟩)
      { seen := ⟨#[], true⟩ } (visit f written) := by
  refine visits_visitAll _ _ _ ?_
  rw [(WorkList.push_perm {} _).length_eq, pendingRefs_nil, visitBound_eq]
  simp only [List.length_cons, List.length_nil]
  omega

theorem balanced_visit (hentry : f.Has f.entry) : Balanced f [] (visit f written) :=
  (visits_visit f written).balanced ((balanced_start hentry).perm (WorkList.push_perm {} _).symm)

theorem function_eq (hentry : f.Has f.entry) (hw : writtenRegs f = .ok written) :
    ∃ ps, (∀ b, againCount ps b = 0) ∧
      function f = .ok (ps ++ (visit f written).problems, unvisited f (visit f written).seen) := by
  have hsome : (f.block? f.entry).isNone = false := by
    rw [Option.isNone_eq_false_iff]
    exact (Func.isSome_block?_iff f f.entry).mpr hentry
  refine ⟨if f.paramRegs.length = f.params.length then []
    else [⟨f.name, .none, -1, .paramCount f.params.length f.paramRegs.length⟩], fun b => ?_, ?_⟩
  · refine againCount_eq_zero (fun q hq => ?_) b
    split at hq
    · cases hq
    · rw [List.mem_singleton.mp hq]
      simp
  · simp only [function, hw, bind, Except.bind, hsome]
    rfl

/-! ## The report of a program -/

/-- A program is checked to its end if each function of its order is. -/
theorem program_eq_ok_iff {p : Program} : (∃ r, program p = .ok r) ↔
    ∀ name ∈ p.order, ∀ f, p.func? name = some f → ∃ found, function f = .ok found := by
  have hnamed : ∀ r name, (∃ t, named p r name = .ok t ∧ True) ↔
      True ∧ ∀ f, p.func? name = some f → ∃ found, function f = .ok found := by
    intro r name
    unfold named
    cases p.func? name with
    | none => simp
    | some f =>
      cases hfun : function f with
      | error c => simp [hfun, bind, Except.bind]
      | ok found =>
        obtain ⟨ps, bs⟩ := found
        simp [hfun, bind, Except.bind, pure, Except.pure]
  have hfold := foldlM_eq_ok_iff hnamed p.order
    { problems := if p.main?.isSome then [] else [⟨"", .none, -1, .noMain⟩] }
  simpa [program] using hfold

/-- What the report lists: the functions of the order with blocks that were not visited, and these
blocks. -/
def Reported (p : Program) (name : String) (bs : List BlockId) : Prop :=
  ∃ f ps, p.func? name = some f ∧ function f = .ok (ps, bs) ∧ bs ≠ []

theorem mem_addUnreachable_iff {r : Report} {n name : String} {bs cs : List BlockId} :
    (n, cs) ∈ (r.addUnreachable name bs).unreachable ↔
      if bs = [] then (n, cs) ∈ r.unreachable
      else n = name ∧ cs = bs ∨ n ≠ name ∧ (n, cs) ∈ r.unreachable := by
  unfold Report.addUnreachable
  cases bs with
  | nil => simp
  | cons b bs =>
    simp only [List.isEmpty_cons, Bool.false_eq_true, if_false, List.mem_append, List.mem_filter,
      List.mem_singleton, Prod.mk.injEq, bne_iff_ne, reduceCtorEq]
    tauto

theorem mem_unreachable_named {p : Program} {r t : Report} {seen : List String} {name : String}
    (hr : ∀ n cs, (n, cs) ∈ r.unreachable ↔ n ∈ seen ∧ Reported p n cs)
    (ht : named p r name = .ok t) (n : String) (cs : List BlockId) :
    (n, cs) ∈ t.unreachable ↔ n ∈ seen ++ [name] ∧ Reported p n cs := by
  unfold named at ht
  cases hf : p.func? name with
  | none =>
    rw [hf] at ht
    obtain rfl := Except.ok.inj ht
    have hno : ¬ Reported p name cs := by
      rintro ⟨f, _, hsome, _⟩
      simp [hf] at hsome
    simp only [hr, List.mem_append, List.mem_singleton]
    constructor
    · rintro ⟨hn, h⟩
      exact ⟨.inl hn, h⟩
    · rintro ⟨hn | rfl, h⟩
      · exact ⟨hn, h⟩
      · exact absurd h hno
  | some f =>
    rw [hf] at ht
    obtain ⟨⟨ps, bs⟩, hfun, ht⟩ := bind_eq_ok_iff.mp ht
    obtain rfl := Except.ok.inj ht
    have hname : Reported p name cs ↔ cs = bs ∧ bs ≠ [] := by
      constructor
      · rintro ⟨g, qs, hg, hg', hne⟩
        obtain rfl : f = g := Option.some.inj (hf.symm.trans hg)
        obtain ⟨-, rfl⟩ := Prod.mk.inj (Except.ok.inj (hfun.symm.trans hg'))
        exact ⟨rfl, hne⟩
      · rintro ⟨rfl, hne⟩
        exact ⟨f, ps, hf, hfun, hne⟩
    simp only [mem_addUnreachable_iff, hr, List.mem_append, List.mem_singleton]
    by_cases hn : n = name
    · subst hn
      rw [hname]
      split <;> simp_all
    · split <;> simp [hn]

/-- The unreachable blocks that a program's report lists. -/
theorem mem_unreachable_iff {p : Program} {r : Report} (h : program p = .ok r) (name : String)
    (bs : List BlockId) : (name, bs) ∈ r.unreachable ↔ name ∈ p.order ∧ Reported p name bs := by
  have hfold : ∀ (names seen : List String) (r t : Report),
      (∀ n cs, (n, cs) ∈ r.unreachable ↔ n ∈ seen ∧ Reported p n cs) →
      names.foldlM (named p) r = .ok t →
      ∀ n cs, (n, cs) ∈ t.unreachable ↔ n ∈ seen ++ names ∧ Reported p n cs := by
    intro names
    induction names with
    | nil =>
      intro seen r t hr ht
      obtain rfl := Except.ok.inj ht
      simpa using hr
    | cons name names ih =>
      intro seen r t hr ht
      rw [List.foldlM_cons] at ht
      obtain ⟨u, hu, ht⟩ := bind_eq_ok_iff.mp ht
      simpa using ih (seen ++ [name]) u t (mem_unreachable_named hr hu) ht
  simpa using hfold p.order [] _ r (by simp) h name bs

/-! ## Reachability -/

/-- The check of a function whose blocks are numbered in order finds out what can be reached. It fails
only where the set of its registers cannot be made or cannot grow to one that is written. Otherwise its
loop comes to an end, it lists just the blocks that cannot be reached, in order, and it reports each block
that can be reached once for each way into it but the first. -/
theorem function_reachability (hnum : f.Numbered) (hentry : f.Has f.entry)
    (hparams : ∀ r ∈ f.paramRegs, 0 ≤ r.index) :
    (∀ c, BitSet.withRoom f.numRegs = .error c → function f = .error c) ∧
    ∀ room, BitSet.withRoom f.numRegs = .ok room →
      (∀ r, f.Writes r → 64 * BitSet.maxWords ≤ r.index → function f = .error .growthOutside) ∧
      ((∀ r, f.Writes r → r.index < 64 * BitSet.maxWords) → ∃ written v ps bs,
      writtenRegs f = .ok written ∧
      Visits f written (({} : WorkList BlockRef).push waitKey ⟨f.entry, .function⟩)
        { seen := ⟨#[], true⟩ } v ∧
      function f = .ok (ps ++ v.problems, bs) ∧
      bs.Pairwise (fun a b => a.index < b.index) ∧
      (∀ b, b ∈ bs ↔ f.Has b ∧ ¬ f.Reachable b) ∧
      (∀ b, f.Reachable b → againCount (ps ++ v.problems) b + 1 =
        f.refsFrom f.Reachable b + if b = f.entry then 1 else 0) ∧
      (∀ b, ¬ f.Reachable b → againCount (ps ++ v.problems) b = 0) ∧
      ∀ p r, f.name ∈ p.order → p.func? f.name = some f → program p = .ok r →
        ∀ cs, (f.name, cs) ∈ r.unreachable ↔ cs = bs ∧ bs ≠ []) := by
  refine ⟨fun c hc => ?_, fun room hroom => ⟨fun r hr hlarge => ?_, fun hgrowth => ?_⟩⟩
  · rw [function_eq_error_iff, crash?, hc]
  · rw [function_eq_error_iff]
    exact crash?_of_large hroom hparams hr hlarge
  obtain ⟨written, hw⟩ := (Checkable.mk ⟨room, hroom⟩ hparams hgrowth).exists_writtenRegs
  have hbalanced := @balanced_visit f written hentry
  have hsaw := hbalanced.saw_iff hentry
  obtain ⟨ps, hps, hfun⟩ := function_eq hentry hw
  rw [unvisited_eq hnum fun b hb => (hbalanced.saw b hb).1] at hfun
  refine ⟨written, visit f written, ps, _, hw, visits_visit f written, hfun,
    Func.ids_pairwise.filter _, fun b => ?_, fun b hb => ?_, fun b hb => ?_,
    fun p r hname hf hr cs => ?_⟩
  · rw [List.mem_filter, Func.mem_ids_iff, ← hsaw b, Saw]
    simp
  · have hb' := (hsaw b).mpr hb
    have hcount := hbalanced.count b (hbalanced.saw b hb').1
    rw [if_pos hb', List.countP_nil, Func.refsFrom_congr hsaw] at hcount
    rw [againCount_append, hps b]
    omega
  · rw [againCount_append, hps b, hbalanced.fresh b ((hsaw b).not.mpr hb)]
  · rw [mem_unreachable_iff hr, Reported]
    constructor
    · rintro ⟨-, g, qs, hg, hg', hne⟩
      obtain rfl : f = g := Option.some.inj (hf.symm.trans hg)
      obtain ⟨-, rfl⟩ := Prod.mk.inj (Except.ok.inj (hfun.symm.trans hg'))
      exact ⟨rfl, hne⟩
    · rintro ⟨rfl, hne⟩
      exact ⟨hname, f, _, hf, hfun, hne⟩

/-- Two arms lead to one block, the default to another, and nothing to the last. -/
def forked : Func where
  name := mainName
  blocks := #[
    ⟨⟨0⟩, #[.dispatch ⟨0⟩ .null [⟨.null, ⟨1⟩⟩, ⟨.bool true, ⟨1⟩⟩] ⟨2⟩, .leave .ret (.reg ⟨0⟩)]⟩,
    ⟨⟨1⟩, #[.leave .yield .null]⟩, ⟨⟨2⟩, #[.leave .yield .null]⟩, ⟨⟨3⟩, #[.leave .yield .null]⟩]
  numRegs := 1

theorem forked_reachability : forked.Numbered ∧ forked.Has forked.entry ∧
    (∀ r ∈ forked.paramRegs, 0 ≤ r.index) ∧ BitSet.withRoom forked.numRegs = .ok ⟨#[], true⟩ ∧
    (∀ r, forked.Writes r → r.index < 64 * BitSet.maxWords) ∧ ∃ ps bs, function forked = .ok (ps, bs) ∧
      (∀ b, b ∈ bs ↔ forked.Has b ∧ ¬ forked.Reachable b) ∧
      ∀ b, forked.Reachable b → againCount ps b + 1 =
        forked.refsFrom forked.Reachable b + if b = forked.entry then 1 else 0 := by
  have hnum : forked.Numbered := by decide
  have hentry : forked.Has forked.entry := ⟨by decide, by decide⟩
  have hparams : ∀ r ∈ forked.paramRegs, 0 ≤ r.index := by decide
  have hroom : BitSet.withRoom forked.numRegs = .ok ⟨#[], true⟩ :=
    BitSet.withRoom_of_le (by decide) (by decide)
  have hgrowth := (crash?_eq_none_iff.mp (by decide : crash? forked = none)).growth
  obtain ⟨-, v, ps, bs, -, -, hfun, -, hbs, hcount, -⟩ :=
    ((function_reachability hnum hentry hparams).2 _ hroom).2 hgrowth
  exact ⟨hnum, hentry, hparams, hroom, hgrowth, ps ++ v.problems, bs, hfun, hbs, hcount⟩

/-- A function with one block that cannot be given a set of its registers. -/
def crowded : Func where
  name := mainName
  blocks := #[⟨⟨0⟩, #[.leave .ret .null]⟩]
  numRegs := 9007199254740992

theorem crowded_not_checked : crowded.Numbered ∧ crowded.Has crowded.entry ∧
    (∀ r ∈ crowded.paramRegs, 0 ≤ r.index) ∧ function crowded = .error .sizeOutside :=
  ⟨by decide, ⟨by decide, by decide⟩, by decide, rfl⟩

end ScriptMachine.Check
