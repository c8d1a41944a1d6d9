import ScriptMachine.Proofs.Lowering.BranchOrder
import ScriptMachine.Proofs.Lowering.GuardShape

/-!
# The order of choices and guarded sections

A dispatch leads to branches that all start and end with the same outlook, so each of them can be the one
that runs. In a guarded section, what was caught is taken behind the body, and the result behind the
cleanup: the handler starts where the body ends, and the cleanup where the handler does.
-/

namespace ScriptMachine.Lowering

open Build

variable {g : Func} {C H : Set Reg} {b : BlockId} {n : Int}

/-! ## Choices -/

/-- A block that starts where the registers below `n` are settled may be entered from there. -/
theorem enters_horizon {m n' : Int} {c : BlockId} (hm : m ≤ c.index) (hn : n ≤ n') :
    (horizon C H m n).Enters c (horizon C H (c.index + 1) n') :=
  ⟨hm, horizon_le (le_trans hm (Int.le_of_lt (Int.lt_succ _))) hn, Int.lt_succ _⟩

/-- The branches of a dispatch, their joins, and the dispatch. -/
theorem settles_dispatch {v : Value} (hv : SettledValue C H n v) {m : Arms → Build Arms}
    (hm : ∀ n, Collects g C H n m) (mm : Gatherer m) :
    Settles g C H b n (names >>= fun before => m {} >>= dispatch b v before) := by
  intro s hn hs hb hc ha
  obtain ⟨hg₁, -⟩ := mm {} s
  have hgather := hm s.func.numRegs {} s s (le_refl _) (collected_empty hs)
  rw [gathered_dispatch_apply] at hc ha ⊢
  generalize m {} s = at' at *
  obtain ⟨a, t⟩ := at'
  simp only at hc ha hg₁ hgather ⊢
  have hg₂ : Builder.Grows ({b} ∪ blocksOf a.branches) t (join b s.names a.branches t).2 :=
    adds_join (.inl rfl) s.names Set.subset_union_right t
  have hmerge := @merged_join g C H b s.func.numRegs a.branches t ∅ s.names
  generalize (join b s.names a.branches t).2 = w at *
  have hg₃ := adds_produce (Set.mem_singleton b) (.dispatch · v a.arms a.default) w
  have hg₂₃ := hg₂.trans hg₃ (by rintro c rfl -; exact .inl rfl)
  have hG := hgather (hc.left hg₂₃) ((ha.mono (Set.empty_subset _)).left hg₂₃ (by
    rintro c (rfl | h)
    exacts [.inl hb, .inr h]))
  have htb : t.func.code b = s.func.code b := hg₁.func.kept b hb (by simp)
  have hnew : ∀ br ∈ a.branches, ¬ s.func.Has br.block := fun br hbr hold =>
    absurd hold.2 (not_lt.mpr (hG.loose br hbr).2)
  have hhas : ∀ br ∈ a.branches, t.func.Has br.block := fun br hbr => (hG.loose br hbr).1.has
  have hne : ∀ br ∈ a.branches, br.block ≠ b := fun br hbr heq => hnew br hbr (heq ▸ hb)
  have hM := hmerge hG.kept (hG.names ▸ hs.names) hg₁.func.numRegs hs.names (hg₁.func.has hb) hG.nodup
    hhas hne (hc.left hg₃) ((ha.right hg₁).left hg₃ (by rintro c rfl; exact .inl (hg₁.func.has hb)))
  have hbw : w.func.Has b := hg₂.func.has (hg₁.func.has hb)
  have hend : outlook C H w ≤ outlook C H s :=
    Outlook.le_trans hg₂.outlook_le hg₁.outlook_le
  -- each branch, up to where the dispatch is left
  have hsub : ∀ br ∈ a.branches, Onward g (outlook C H w) br.block 0
      (horizon C H (br.block.index + 1) s.func.numRegs) := by
    intro br hbr
    have hw := hg₂.func.has (hhas br hbr)
    refine hM.closed br hbr ?_ _ t (hG.loose br hbr).1 rfl (le_refl _) _ hg₂.outlook_le
    rw [ha.finished br.block (hnew br hbr) (hg₃.func.has hw) id,
      hg₃.func.kept br.block hw (hne br hbr)]
  have hx := getElem?_of_produce hbw ((ha.right hg₁).right hg₂)
  have hdest := hM.kept.open_fresh (adds_emit b (.dispatch ⟨w.func.numRegs⟩ v a.arms a.default)
    (Set.mem_singleton b) (newReg w).2) hc (le_refl _)
  refine ⟨⟨fun z hz => ?_, fun c hcs hcu => ?_, kept_produce hM.kept⟩, ?_⟩
  · rw [Lowering.produce_code hbw, List.length_append, List.length_singleton] at hz
    rw [← htb]
    refine hM.onward z _ (.dispatch (fun c => horizon C H (c.index + 1) s.func.numRegs) hx
      (fun r hr => not_not_intro ?_) (fun c hmem hnone => ?_) (fun c hmem hnone => ?_) hend hdest
      (.narrow hg₃.outlook_le hz))
    · rcases List.mem_cons.mp hr with heq | hr
      · exact (hv.mono hn) r heq.symm
      · obtain ⟨arm, harm, heq⟩ := List.mem_map.mp hr
        exact (hG.patterns arm harm).settledValue r heq
    · obtain ⟨br, hbr, rfl⟩ := hG.refs c hmem hnone
      exact enters_horizon (hG.loose br hbr).2 (le_refl _)
    · obtain ⟨br, hbr, rfl⟩ := hG.refs c hmem hnone
      exact hsub br hbr
  · have hct : t.func.Has c := by
      have := hM.size
      simpa [Func.Has, Lowering.produce_apply, this] using hcu
    rcases hG.planned c hcs hct with h | ⟨br, hbr, rfl⟩
    · exact h
    · exact ⟨_, _, Int.lt_succ _, hsub br hbr⟩
  · have hnum : (produce b (.dispatch · v a.arms a.default) w).2.func.numRegs =
        w.func.numRegs + 1 := by
      simp [Lowering.produce_apply]
    rw [hnum]
    exact settledValue_reg.mpr (hM.kept.settled_fresh (Int.lt_succ _))

theorem settles_choice {scrutinee : Build (Option Reg)} (ax : Adds {b} scrutinee) (pos : Position)
    (hx : Settles g C H b n scrutinee) {cases : Arms → Build Arms} (mc : Gatherer cases)
    (hc : ∀ n, Collects g C H n cases) {default : Option (BlockId → Build (Option Reg))}
    (ad : ∀ body ∈ default, ∀ c, Adds {c} (body c))
    (hd : ∀ body ∈ default, ∀ c n, Settles g C H c n (body c)) :
    Settles g C H b n (choice b pos scrutinee (cases {}) default) := by
  have md : Gatherer (addSeparate pos · default) := fun a => makes_addSeparate pos a ad
  rw [choice_eq]
  have hrest := fun v before => adds_chosen (Set.mem_singleton b) v before (mc.bind md {})
  refine Orders.bind (by grind) hx fun v n' _ hv => ?_
  have hgather := fun n => (hc n).bind mc (collects_addSeparate pos ad hd) md
  have hdispatch := settles_dispatch (b := b) hv hgather (mc.bind md)
  exact hdispatch

/-! ## Handlers -/

/-- The result of lowering handlers between `s` and `t`: the branches of the clauses, where the registers
below `n` were taken at the start, are loose in `u`, and once they can be followed, so can the block that
handles faults. -/
structure Secured (g : Func) (C H : Set Reg) (s : Builder) (x : BlockId × Reg × List Branch) (n : Int)
    (u t : Builder) : Prop where
  kept : Kept C H t
  names : t.names = s.names
  regs : u.func.numRegs ≤ t.func.numRegs
  loose : ∀ br ∈ x.2.2, Loose g C H n u br
  code : ∀ br ∈ x.2.2, t.func.Has br.block ∧ u.func.code br.block = t.func.code br.block
  nodup : (x.2.2.map (·.block)).Nodup
  enters : x.1 ≠ .none → ¬ Settled C H s.func.numRegs x.2.1 ∧ s.func.blocks.size ≤ x.1.index
  closes : (∀ br ∈ x.2.2, ∀ z, z ≤ outlook C H u →
      Onward g z br.block 0 (horizon C H (br.block.index + 1) n)) →
    x.1 ≠ .none → Onward g (outlook C H t) x.1 0 (horizon C H (x.1.index + 1) s.func.numRegs)
  planned : ∀ c, ¬ s.func.Has c → t.func.Has c → g.Planned c ∨ c ∈ blocksOf x.2.2 ∨ c = x.1

theorem secured_none {s : Builder} (hs : Kept C H s) :
    Secured g C H s (.none, .none, []) s.func.numRegs s s where
  kept := hs
  names := rfl
  regs := le_refl _
  loose := by simp
  code := by simp
  nodup := List.nodup_nil
  enters h := absurd rfl h
  closes _ h := absurd rfl h
  planned _ hc ht := absurd ht hc

section
variable {lowered : Arms → Build Arms} {s : Builder}

theorem secured_soleHandler (hl : Collects g C H (newReg s).2.func.numRegs lowered)
    (ml : Gatherer lowered) (hs : Kept C H s)
    (hc : Captures C (soleHandler ⟨s.func.numRegs⟩ (lowered {}) (newReg s).2).2)
    (ha : Agrees g (blocksOf (soleHandler ⟨s.func.numRegs⟩ (lowered {}) (newReg s).2).1.2.2)
      (newReg s).2 (soleHandler ⟨s.func.numRegs⟩ (lowered {}) (newReg s).2).2) :
    ∃ n u, Secured g C H s (soleHandler ⟨s.func.numRegs⟩ (lowered {}) (newReg s).2).1 n u
      (soleHandler ⟨s.func.numRegs⟩ (lowered {}) (newReg s).2).2 := by
  have happ : soleHandler ⟨s.func.numRegs⟩ (lowered {}) (newReg s).2 = (fun x : Arms × Builder =>
      ((x.1.default, ⟨s.func.numRegs⟩, x.1.branches), x.2)) (lowered {} (newReg s).2) := rfl
  have hgather := hl {} (newReg s).2 (newReg s).2 (le_refl _) (collected_empty hs.newReg)
  obtain ⟨hg, -⟩ := ml {} (newReg s).2
  rw [happ] at hc ha ⊢
  generalize lowered {} (newReg s).2 = at' at *
  obtain ⟨a, t⟩ := at'
  simp only at hc ha hgather hg ⊢
  have hG := hgather hc ha
  have hle : s.func.numRegs ≤ (newReg s).2.func.numRegs := (Func.extends_newReg s.func).numRegs
  have hblock : a.default ≠ .none → ∃ br ∈ a.branches, br.block = a.default :=
    fun hne => hG.refs _ List.mem_cons_self hne
  refine ⟨_, t, hG.kept, hG.names, le_refl _, fun br hbr => (hG.loose br hbr).1, fun br hbr =>
    ⟨(hG.loose br hbr).1.has, rfl⟩, hG.nodup, fun hne => ?_, fun hclosed hne => ?_,
    fun c hcs hct => (hG.planned c hcs hct).imp id .inl⟩
  · obtain ⟨br, hbr, heq⟩ := hblock hne
    exact ⟨hs.open_fresh hg hc (le_refl _), heq ▸ (hG.loose br hbr).2⟩
  · obtain ⟨br, hbr, heq⟩ := hblock hne
    rw [← heq]
    exact .narrow (horizon_le (le_refl _) hle) (hclosed br hbr _ (Outlook.le_refl _))

/-- The code of a block that chooses among clauses. -/
theorem onward_choosing {c d : BlockId} {dest caught : Reg} {arms : List Arm} {y z : Outlook}
    (hcode : g.code c = [.dispatch dest (.reg caught) arms d, .leave .yield (.reg dest)])
    (hcaught : Settled C H n caught) (hpat : ∀ arm ∈ arms, Ready ∅ arm.pattern)
    (hsub : ∀ e ∈ d :: arms.map (·.block), e ≠ .none →
      c.index < e.index ∧ Onward g y e 0 (horizon C H (e.index + 1) n))
    (hy : y ≤ horizon C H (c.index + 1) n) (hdest : dest ∈ y.regs) (hz : z ≤ y)
    (hend : dest ∉ z.regs) : Onward g z c 0 (horizon C H (c.index + 1) n) := by
  have hx₀ : (g.code c)[0]? = some (.dispatch dest (.reg caught) arms d) := by rw [hcode]; rfl
  have hx₁ : (g.code c)[1]? = some (.leave .yield (.reg dest)) := by rw [hcode]; rfl
  refine .dispatch (fun e => horizon C H (e.index + 1) n) hx₀ (fun r hr => not_not_intro ?_)
    (fun e he hne => enters_horizon (hsub e he hne).1 (le_refl _)) (fun e he hne => (hsub e he hne).2)
    hy hdest (.narrow hz (.leave hx₁ (fun r hr => ?_) (Outlook.le_refl z)))
  · rcases List.mem_cons.mp hr with heq | hr
    · cases heq
      exact hcaught
    · obtain ⟨arm, harm, heq⟩ := List.mem_map.mp hr
      exact (hpat arm harm).settledValue r heq
  · cases hr
    exact hend

/-- The block for what no clause takes can be followed; if it is a new one, it just throws. -/
theorem onward_orThrowAgain {caught : Reg} (hcaught : Settled C H n caught) (d : BlockId)
    {t : Builder} (hn : n ≤ t.func.numRegs)
    (hfin : ∀ c, ¬ t.func.Has c → (orThrowAgain caught d t).2.func.Has c →
      g.code c = (orThrowAgain caught d t).2.func.code c) :
    (orThrowAgain caught d t).2.func.numRegs = t.func.numRegs ∧
      (orThrowAgain caught d t).2.names = t.names ∧
      (orThrowAgain caught d t).2.enclosing = t.enclosing ∧
      ((orThrowAgain caught d t).1 = d ∧ d ≠ .none ∨
        (orThrowAgain caught d t).1 = ⟨t.func.blocks.size⟩ ∧
        Onward g (outlook C H (orThrowAgain caught d t).2) ⟨t.func.blocks.size⟩ 0
          (horizon C H (t.func.blocks.size + 1) n)) ∧
      ∀ c, ¬ t.func.Has c → (orThrowAgain caught d t).2.func.Has c → g.Planned c := by
  rcases orThrowAgain_apply caught d t with ⟨hd, happ⟩ | ⟨hd, happ⟩
  · rw [happ]
    exact ⟨rfl, rfl, rfl, .inl ⟨rfl, hd⟩, fun c hc ht => absurd ht hc⟩
  · rw [happ] at hfin ⊢
    have hnew := t.func.not_has_size
    have hhas : t.func.newBlock.1.Has ⟨t.func.blocks.size⟩ := t.func.newBlock_has_self
    have hcode := code_throwAgain (hfin _ hnew (by simpa using hhas))
    have hon : Onward g (outlook C H
        { t with
          func := t.func.newBlock.1.append ⟨t.func.blocks.size⟩ (.leave .throw (.reg caught)) })
        ⟨t.func.blocks.size⟩ 0 (horizon C H (t.func.blocks.size + 1) n) := by
      refine .leave (congrArg (·[0]?) hcode) (fun r hr => ?_) (horizon_le (by simp) (by simpa using hn))
      cases hr
      exact not_not_intro hcaught
    refine ⟨by simp, rfl, rfl, .inr ⟨rfl, hon⟩, fun c hc ht => ?_⟩
    obtain rfl := ((Func.newBlock_has_iff t.func c).mp (by simpa using ht)).resolve_left hc
    exact ⟨_, _, Int.lt_succ _, hon⟩

/-- The block that chooses is filled when the clauses are known. It starts with what was caught. -/
theorem onward_chooseClause {c : BlockId} {caught : Reg} {a : Arms} {t : Builder}
    (hG : Collected g C H s a t) (hcaught : Settled C H s.func.numRegs caught)
    (hsize : s.func.blocks.size = c.index + 1) (hhas : t.func.Has c) (hempty : t.func.code c = [])
    (hc : Captures C (chooseClause c caught a t).2)
    (hfin : ∀ e, ¬ t.func.Has e ∨ e = c → (chooseClause c caught a t).2.func.Has e →
      g.code e = (chooseClause c caught a t).2.func.code e) :
    Kept C H (chooseClause c caught a t).2 ∧ (chooseClause c caught a t).2.names = t.names ∧
      (∀ e, ¬ t.func.Has e → (chooseClause c caught a t).2.func.Has e → g.Planned e) ∧
      ∃ u, Builder.Grows ∅ t u ∧ Builder.Grows {c} u (chooseClause c caught a t).2 ∧
        ((∀ br ∈ a.branches, ∀ z, z ≤ outlook C H u →
          Onward g z br.block 0 (horizon C H (br.block.index + 1) s.func.numRegs)) →
        Onward g (outlook C H (chooseClause c caught a t).2) c 0
          (horizon C H (c.index + 1) s.func.numRegs)) := by
  have hle := hG.grows.func.numRegs
  have hagain := onward_orThrowAgain (g := g) hcaught a.default hle
  have hg₁ := adds_orThrowAgain (S := ∅) caught a.default t
  rw [chooseClause_apply] at hc hfin ⊢
  generalize orThrowAgain caught a.default t = du at *
  obtain ⟨d, u⟩ := du
  simp only at hc hfin hagain hg₁ ⊢
  have hcs := Set.mem_singleton c
  have hg₂ : Builder.Grows {c} (newReg u).2 _ :=
    (adds_emit c (.dispatch ⟨u.func.numRegs⟩ (.reg caught) a.arms d) hcs (newReg u).2).trans
      (adds_emit c (.leave .yield (.reg ⟨u.func.numRegs⟩)) hcs _) fun _ h _ => h
  have hg₃ := (adds_newReg (S := {c}) u).trans hg₂ fun _ h _ => h
  have huc : u.func.newReg.1.Has c := hg₁.func.has hhas
  have hwhas : ∀ e, ((u.func.newReg.1.append c
      (.dispatch ⟨u.func.numRegs⟩ (.reg caught) a.arms d)).append c
        (.leave .yield (.reg ⟨u.func.numRegs⟩))).Has e ↔ u.func.Has e := by simp
  have hcode : g.code c = [.dispatch ⟨u.func.numRegs⟩ (.reg caught) a.arms d,
      .leave .yield (.reg ⟨u.func.numRegs⟩)] := by
    rw [hfin c (.inr rfl) ((hwhas c).mpr huc), Func.append_code_self (by simpa using huc),
      Func.append_code_self huc, Func.newReg_code, hg₁.func.kept c hhas (by simp), hempty]
    rfl
  obtain ⟨hnum, hnames, henc, hd, hnew⟩ := hagain fun e he hu => by
    have hne : e ≠ c := fun h => he (h ▸ hhas)
    rw [hfin e (.inl he) ((hwhas e).mpr hu), Func.append_code_ne hne, Func.append_code_ne hne,
      Func.newReg_code]
  have hu : Kept C H u := hG.kept.congr hnum hnames henc
  refine ⟨hu.newReg.congr (by simp) rfl rfl, hnames, fun e he hw => hnew e he ((hwhas e).mp hw), u, hg₁,
    hg₃, fun hclosed => ?_⟩
  have hsub : ∀ e ∈ blocksOf a.branches, c.index < e.index ∧
      Onward g (outlook C H u) e 0 (horizon C H (e.index + 1) s.func.numRegs) := by
    rintro e ⟨br, hbr, rfl⟩
    have := (hG.loose br hbr).2
    exact ⟨by omega, hclosed br hbr _ (Outlook.le_refl _)⟩
  have hts := Int.ofNat_le.mpr hG.grows.func.size
  refine onward_choosing (y := outlook C H u) hcode hcaught hG.patterns (fun e he hne => ?_) ?_ ?_
    hg₃.outlook_le ?_
  · rcases List.mem_cons.mp he with rfl | he
    · rcases hd with ⟨rfl, -⟩ | ⟨rfl, hon⟩
      · exact hsub _ (hG.refs _ List.mem_cons_self hne)
      · exact ⟨by simp only; omega, hon⟩
    · exact hsub e (hG.refs e (List.mem_cons_of_mem _ he) hne)
  · have := Int.ofNat_le.mpr hg₁.func.size
    exact horizon_le (by omega) (hnum ▸ hle)
  · exact hu.open_fresh hg₂ hc (le_refl _)
  · refine not_not_intro (hu.settled_fresh ?_)
    simp only [Func.append_numRegs, Func.newReg_numRegs]
    omega

theorem secured_choosing (hl : Collects g C H (newReg s).2.func.numRegs lowered)
    (ml : Gatherer lowered) (hs : Kept C H s)
    (hc : Captures C (choosing ⟨s.func.numRegs⟩ (lowered {}) (newReg s).2).2)
    (ha : Agrees g (blocksOf (choosing ⟨s.func.numRegs⟩ (lowered {}) (newReg s).2).1.2.2)
      (newReg s).2 (choosing ⟨s.func.numRegs⟩ (lowered {}) (newReg s).2).2) :
    ∃ n u, Secured g C H s (choosing ⟨s.func.numRegs⟩ (lowered {}) (newReg s).2).1 n u
      (choosing ⟨s.func.numRegs⟩ (lowered {}) (newReg s).2).2 := by
  have happ : choosing ⟨s.func.numRegs⟩ (lowered {}) (newReg s).2 = (fun x : Arms × Builder =>
      ((⟨s.func.blocks.size⟩, ⟨s.func.numRegs⟩, x.1.branches),
        (chooseClause ⟨s.func.blocks.size⟩ ⟨s.func.numRegs⟩ x.1 x.2).2))
      (lowered {} (newBlock (newReg s).2).2) := rfl
  -- the block that chooses is made first
  have hs₀ : Kept C H (newBlock (newReg s).2).2 := hs.newReg.congr rfl rfl rfl
  have hnew := s.func.not_has_size
  have hhas₀ : (newBlock (newReg s).2).2.func.Has ⟨s.func.blocks.size⟩ := Func.newBlock_has_self _
  have hempty : (newBlock (newReg s).2).2.func.code ⟨s.func.blocks.size⟩ = [] := by
    rw [newBlock_apply, Func.newBlock_code]
    exact s.func.code_size
  have hnum₀ : (newBlock (newReg s).2).2.func.numRegs = s.func.numRegs + 1 := rfl
  have hnames₀ : (newBlock (newReg s).2).2.names = s.names := rfl
  have hsize₀ : ((newBlock (newReg s).2).2.func.blocks.size : Int) = s.func.blocks.size + 1 := by
    simp
  have hg₀ : Builder.Grows ∅ (newReg s).2 (newBlock (newReg s).2).2 := grows_newBlock _
  have hold₀ : ∀ c, (newBlock (newReg s).2).2.func.Has c →
      s.func.Has c ∨ c = ⟨s.func.blocks.size⟩ := fun c => (Func.newBlock_has_iff _ c).mp
  have hgather := fun h => hl {} (newBlock (newReg s).2).2 _ h (collected_empty hs₀)
  obtain ⟨hg₁, -⟩ := ml {} (newBlock (newReg s).2).2
  rw [happ] at hc ha ⊢
  generalize (newBlock (newReg s).2).2 = s₀ at *
  generalize lowered {} s₀ = at' at *
  obtain ⟨a, t⟩ := at'
  simp only at hc ha hgather hg₁ ⊢
  have hg₂ := adds_chooseClause (Set.mem_singleton ⟨s.func.blocks.size⟩) ⟨s.func.numRegs⟩ a t
  have hg₀₂ := ((hg₀.trans hg₁ (by simp)).mono (Set.empty_subset _)).trans hg₂ fun _ h _ => h
  have hG := hgather (le_of_eq hnum₀.symm) (hc.left hg₂) ((ha.right hg₀).left hg₂
    (by rintro c rfl; exact .inl hhas₀))
  have hne : ∀ br ∈ a.branches, br.block ≠ ⟨s.func.blocks.size⟩ := by
    intro br hbr heq
    have := (hG.loose br hbr).2
    rw [heq] at this
    simp only at this
    omega
  obtain ⟨hkept, hnames, hplanned, u, hgu, hgw, hon⟩ := onward_chooseClause hG
    (hs.settled_fresh (by omega)) hsize₀ (hg₁.func.has hhas₀)
    (by rw [hg₁.func.kept _ hhas₀ (by simp), hempty]) hc fun e he hw => by
      refine ha.finished e (fun hold => ?_) hw ?_
      · rcases he with he | rfl
        · exact he (hg₁.func.has (hg₀.func.has hold))
        · exact hnew hold
      · rintro ⟨br, hbr, rfl⟩
        rcases he with he | he
        · exact he (hG.loose br hbr).1.has
        · exact hne br hbr he
  generalize (chooseClause ⟨s.func.blocks.size⟩ ⟨s.func.numRegs⟩ a t).2 = w at *
  have hloose : ∀ br ∈ a.branches, Loose g C H s₀.func.numRegs u br := fun br hbr =>
    (hG.loose br hbr).1.grows hgu id
  refine ⟨s₀.func.numRegs, u, hkept, hnames.trans (hG.names.trans hnames₀), hgw.func.numRegs, hloose,
    fun br hbr => ⟨hgw.func.has (hloose br hbr).has, ?_⟩, hG.nodup, fun _ => ⟨?_, le_refl _⟩,
    fun hclosed _ => .narrow (horizon_le (le_refl _) (by omega)) (hon hclosed), fun c hcs hcw => ?_⟩
  · exact (hgw.func.kept br.block (hloose br hbr).has (hne br hbr)).symm
  · exact hs.open_fresh hg₀₂ hc (le_refl _)
  · by_cases hct : t.func.Has c
    · by_cases hc₀ : s₀.func.Has c
      · exact .inr (.inr ((hold₀ c hc₀).resolve_left hcs))
      · exact (hG.planned c hc₀ hct).imp id .inl
    · exact .inl (hplanned c hct hcw)

end

theorem secured_handlers (cs : List Clause) {lowered : Reg → Arms → Build Arms}
    (ml : ∀ r, Gatherer (lowered r))
    (hl : ∀ r n, Settled C H n r → Collects g C H n (lowered r)) {s : Builder} (hs : Kept C H s)
    (hc : Captures C (handlers cs (lowered · {}) s).2)
    (ha : Agrees g (blocksOf (handlers cs (lowered · {}) s).1.2.2) s
      (handlers cs (lowered · {}) s).2) :
    ∃ n u, Secured g C H s (handlers cs (lowered · {}) s).1 n u
      (handlers cs (lowered · {}) s).2 := by
  cases he : cs.isEmpty with
  | true =>
    rw [handlers_empty he]
    exact ⟨_, _, secured_none hs⟩
  | false =>
    have hgrow := adds_newReg (S := ∅) s
    have hl' := hl ⟨s.func.numRegs⟩ (newReg s).2.func.numRegs (hs.settled_fresh (Int.lt_succ _))
    by_cases hone : isSole cs
    · rw [handlers_sole he hone] at hc ha ⊢
      exact secured_soleHandler hl' (ml _) hs hc (ha.right hgrow)
    · rw [handlers_choosing he hone] at hc ha ⊢
      exact secured_choosing hl' (ml _) hs hc (ha.right hgrow)

/-! ## Guarded sections -/

/-- The cleanup, a block of its own that starts where the branches were joined. -/
theorem laid_ending {cleanup : Option (BlockId → Build (Option Reg))}
    (ac : ∀ body ∈ cleanup, ∀ c, Adds {c} (body c))
    (hl : ∀ body ∈ cleanup, ∀ c n, Settles g C H c n (body c)) {s : Builder} (hs : Kept C H s)
    (hc : Captures C (Lowering.ending cleanup s).2)
    (ha : Agrees g ∅ s (Lowering.ending cleanup s).2) :
    Kept C H (Lowering.ending cleanup s).2 ∧
      (∀ c, ¬ s.func.Has c → (Lowering.ending cleanup s).2.func.Has c → g.Planned c) ∧
      ((Lowering.ending cleanup s).1 ≠ .none →
        (outlook C H s).Enters (Lowering.ending cleanup s).1
          (horizon C H ((Lowering.ending cleanup s).1.index + 1) s.func.numRegs) ∧
        Onward g (outlook C H (Lowering.ending cleanup s).2) (Lowering.ending cleanup s).1 0
          (horizon C H ((Lowering.ending cleanup s).1.index + 1) s.func.numRegs)) := by
  cases cleanup with
  | none => exact ⟨hs, fun c hcs hct => absurd hct hcs, absurd rfl⟩
  | some body =>
    have hbs := Set.mem_singleton (⟨s.func.blocks.size⟩ : BlockId)
    have hlaw : Orders g C H ⟨s.func.blocks.size⟩ s.func.numRegs
        (body ⟨s.func.blocks.size⟩ >>= sealNested ⟨s.func.blocks.size⟩) fun _ _ => True :=
      Orders.bind ⟨ac body rfl _, by grind⟩ (hl body rfl _ _) fun r n' _ hr => orders_sealNested hr
    have hg := ((ac body rfl ⟨s.func.blocks.size⟩).bind fun r => adds_sealNested hbs r) (newBlock s).2
    have hlaw := hlaw (newBlock s).2 (le_refl _) (hs.congr rfl rfl rfl)
    rw [ending_some_apply] at hc ha ⊢
    generalize (body ⟨s.func.blocks.size⟩ >>= sealNested ⟨s.func.blocks.size⟩) (newBlock s).2 = rt at *
    obtain ⟨r, t⟩ := rt
    simp only at hc ha hlaw hg ⊢
    have hnew := s.func.not_has_size
    have hhas : (newBlock s).2.func.Has ⟨s.func.blocks.size⟩ := s.func.newBlock_has_self
    obtain ⟨hlaid, -⟩ := hlaw hhas hc (ha.right (grows_newBlock s))
    have hfin := ha.finished _ hnew (hg.func.has hhas) id
    obtain ⟨hon, hplanned⟩ := laid_newBlock hlaid
    have hon := hon _ (.stop (by rw [hfin]) (Outlook.le_refl _))
    refine ⟨hlaid.kept, fun c hcs hct => ?_, fun _ => ⟨enters_horizon (le_refl _) (le_refl _), hon⟩⟩
    rcases hplanned c hcs hct with h | rfl
    · exact h
    · exact ⟨_, _, Int.lt_succ _, hon⟩

theorem settles_guarded {body : BlockId → Build (Option Reg)} (ab : ∀ c, Adds {c} (body c))
    (hbody : ∀ c n, Settles g C H c n (body c)) (cs : List Clause)
    {lowered : Reg → Arms → Build Arms} (ml : ∀ r, Gatherer (lowered r))
    (hl : ∀ r n, Settled C H n r → Collects g C H n (lowered r))
    {cleanup : Option (BlockId → Build (Option Reg))}
    (ac : ∀ body ∈ cleanup, ∀ c, Adds {c} (body c))
    (hcl : ∀ body ∈ cleanup, ∀ c n, Settles g C H c n (body c)) :
    Settles g C H b n (guarded b body cs (lowered · {}) cleanup) := by
  intro s hn hs hb hc ha
  have hbranch := loose_branch "" .none ab hbody (absurd rfl) hs
  have hsteps := sectionSteps_guarded b ab cs (fun r => ml r {}) s
  have hnames₁ : (branch "" .none body s).2.names = s.names := rfl
  rw [guarded_apply] at hc ha ⊢
  generalize branch "" .none body s = brs at *
  obtain ⟨br, s₁⟩ := brs
  simp only at hc ha hbranch hsteps hnames₁ ⊢
  have hhandlers := secured_handlers (s := s₁) cs ml hl
  generalize handlers cs (lowered · {}) s₁ = hs₂ at *
  obtain ⟨⟨handler, caught, brs⟩, s₂⟩ := hs₂
  simp only at hc ha hhandlers hsteps ⊢
  -- the states behind the join and behind the cleanup
  have hmerge := @merged_join g C H b s.func.numRegs (br :: brs) s₂ ∅ s.names
  generalize (join b s.names (br :: brs) s₂).2 = w at *
  have hg₄ := adds_ending (S := ∅) ac w
  have hclean := @laid_ending g C H cleanup ac hcl w
  generalize Lowering.ending cleanup w = lw at *
  obtain ⟨last, w₂⟩ := lw
  simp only at hc ha hmerge hg₄ hclean ⊢
  have hg₅ := adds_produce (Set.mem_singleton b) (.guarded · ⟨br.block, handler, caught, last⟩) w₂
  have hg₄₅ : Builder.Grows {b} w _ :=
    (hg₄.mono (Set.empty_subset _)).trans hg₅ fun c hc _ => hc
  obtain ⟨hloose, hs₁, hplanned₁⟩ := hbranch (hc.left (hsteps.behindBody hg₄₅))
    (hsteps.block ▸ hsteps.agrees_body hb hg₄₅ ha)
  obtain ⟨n', u, hS⟩ := hhandlers hs₁ (hc.left (hsteps.behindHandlers hg₄₅))
    (hsteps.agrees_handlers hb hloose.has hg₄₅ ha)
  have hhas₂ := hsteps.has hloose.has fun q hq => (hS.code q hq).1
  have hb₂ : s₂.func.Has b := hsteps.handlers.func.has (hsteps.body.func.has hb)
  have hM := hmerge hS.kept (by rw [hS.names, hnames₁]; exact hs.names)
    (le_trans hsteps.body.func.numRegs hsteps.handlers.func.numRegs) hs.names hb₂
    (hsteps.nodup hloose.has hS.nodup) hhas₂ (hsteps.ne hb) (hc.left hg₄₅)
    (hsteps.agrees_join hb hg₄₅ ha)
  have ha₃ := ((ha.right hsteps.body).right hsteps.handlers).right hsteps.join
  have hbw : w.func.Has b := hsteps.join.func.has hb₂
  obtain ⟨hkept, hplanned₂, hlast⟩ := hclean hM.kept (hc.left hg₅)
    (ha₃.left hg₅ (by rintro c rfl; exact .inl hbw))
  have hfin : ∀ q ∈ br :: brs, g.code q.block = w.func.code q.block := fun q hq =>
    hsteps.finished hb hg₄₅ ha hq (hhas₂ q hq)
  -- each section can be followed from where the one before it ends
  have hsub : Onward g (outlook C H s₁) br.block 0
      (horizon C H (br.block.index + 1) s.func.numRegs) :=
    hM.closed br List.mem_cons_self (hfin br List.mem_cons_self) _ s₁ hloose
      (hsteps.handlers.func.kept br.block hloose.has id).symm hsteps.handlers.func.numRegs _
      (Outlook.le_refl _)
  have hclauses : ∀ q ∈ brs, ∀ z, z ≤ outlook C H u →
      Onward g z q.block 0 (horizon C H (q.block.index + 1) n') := fun q hq =>
    hM.closed q (List.mem_cons_of_mem br hq) (hfin q (List.mem_cons_of_mem br hq)) n' u (hS.loose q hq)
      (hS.code q hq).2 hS.regs
  have hhandler := hS.closes hclauses
  have hdest := hkept.open_fresh (adds_emit b
    (.guarded ⟨w₂.func.numRegs⟩ ⟨br.block, handler, caught, last⟩) (Set.mem_singleton b) (newReg w₂).2)
    hc (le_refl _)
  have hbw₂ : w₂.func.Has b := hg₄.func.has hbw
  have hx := getElem?_of_produce hbw₂ (ha₃.right hg₄)
  refine ⟨⟨fun z hz => ?_, fun c hcs hcu => ?_, kept_produce hkept⟩, ?_⟩
  · rw [Lowering.produce_code hbw₂, List.length_append, List.length_singleton] at hz
    rw [← hsteps.code hb]
    refine hM.onward z _ ?_
    rw [← hg₄.func.kept b hbw (by simp)]
    refine .guarded hx (enters_horizon (by rw [hsteps.block]) (le_refl _)) hsub hsteps.handlers.outlook_le
      (fun hne => ⟨(hS.enters hne).1, enters_horizon (hS.enters hne).2 (le_refl _)⟩) hhandler
      (Outlook.le_trans hg₄.outlook_le hsteps.join.outlook_le) (fun hne => ?_) (fun hne => (hlast hne).2) hdest
      (.narrow hg₅.outlook_le hz)
    obtain ⟨⟨h₁, h₂, h₃⟩, -⟩ := hlast hne
    refine ⟨?_, Outlook.le_trans h₂ hsteps.join.outlook_le, h₃⟩
    show (s₂.func.blocks.size : Int) ≤ last.index
    rw [← hM.size]
    exact h₁
  · have hcw₂ : w₂.func.Has c := by simpa [Lowering.produce_apply] using hcu
    by_cases hcw : w.func.Has c
    · have hc₂ : s₂.func.Has c := ⟨hcw.1, hM.size ▸ hcw.2⟩
      by_cases hc₁ : s₁.func.Has c
      · rcases hplanned₁ c hcs hc₁ with h | rfl
        · exact h
        · exact ⟨_, _, Int.lt_succ _, hsteps.block ▸ hsub⟩
      · rcases hS.planned c hc₁ hc₂ with h | ⟨q, hq, rfl⟩ | rfl
        · exact h
        · exact ⟨_, _, Int.lt_succ _, hclauses q hq _ (Outlook.le_refl _)⟩
        · have hne : c ≠ .none := by rintro rfl; exact absurd hcw.1 (by decide)
          exact ⟨_, _, Int.lt_succ _, hhandler hne⟩
    · exact hplanned₂ c hcw hcw₂
  · have hnum : (produce b (.guarded · ⟨br.block, handler, caught, last⟩) w₂).2.func.numRegs =
        w₂.func.numRegs + 1 := by
      simp [Lowering.produce_apply]
    rw [hnum]
    exact settledValue_reg.mpr (hkept.settled_fresh (Int.lt_succ _))

end ScriptMachine.Lowering
