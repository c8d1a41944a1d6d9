import ScriptMachine.Proofs.Lowering.CodeOrder
import ScriptMachine.Proofs.Lowering.JoinShape

/-!
# The order of branches

A branch starts with what is settled in front of the branching instruction. It gets its end when all
branches are known: the registers that it moves its values to are taken then, so nothing in it has read
them. `Loose` says of a branch what can be followed before it has its end, `Merged` what a join makes of
branches, and `Collects` is the law of a step that makes branches.
-/

namespace ScriptMachine.Lowering

open Build

variable {g : Func} {C H : Set Reg} {b : BlockId} {n : Int}

/-! ## One branch -/

/-- A branch as it stands in state `t`, where the registers below `n` were taken at its start: it can be
followed from its start if it can be from the end of its code so far. -/
structure Loose (g : Func) (C H : Set Reg) (n : Int) (t : Builder) (br : Branch) : Prop where
  has : t.func.Has br.block
  onward : ∀ z, Onward g z br.block (t.func.code br.block).length (outlook C H t) →
    Onward g z br.block 0 (horizon C H (br.block.index + 1) n)
  last : SettledValue C H t.func.numRegs (operand br.last)
  names : ∀ p ∈ br.names, Settled C H t.func.numRegs p.2

section
variable {t : Builder} {br : Branch}

/-- A branch stays as it is while other blocks grow. -/
theorem Loose.grows {S : Set BlockId} {u : Builder} (h : Loose g C H n t br)
    (hg : Builder.Grows S t u) (hS : br.block ∉ S) : Loose g C H n u br where
  has := hg.func.has h.has
  onward z hz := h.onward z (.narrow hg.outlook_le (hg.func.kept br.block h.has hS ▸ hz))
  last := h.last.mono hg.func.numRegs
  names p hp := (h.names p hp).mono hg.func.numRegs

/-- More may be settled at its start than is asked for. -/
theorem Loose.mono {n' : Int} (h : Loose g C H n t br) (hn : n' ≤ n) : Loose g C H n' t br :=
  { h with onward := fun z hz => .narrow (horizon_le (le_refl _) hn) (h.onward z hz) }

/-- Instructions one after the other that write registers which are not settled. -/
theorem onward_straights {c : BlockId} {j : Nat} (xs : List Instr) {z o : Outlook}
    (hx : ∀ x ∈ xs, x.Straight ∧ (∀ r, .reg r ∈ x.ins → r ∉ o.regs) ∧ x.out ∈ o.regs)
    (hcode : CodeAt (g.code c) j xs) (hz : Onward g z c (j + xs.length) o) : Onward g z c j o := by
  induction xs generalizing j with
  | nil => exact hz
  | cons x xs ih =>
    obtain ⟨hs, hin, hout⟩ := hx x List.mem_cons_self
    refine .straight hcode.head hs hin hout ?_
    refine ih (fun y hy => hx y (List.mem_cons_of_mem x hy)) hcode.tail ?_
    rwa [show j + 1 + xs.length = j + (x :: xs).length by rw [List.length_cons]; omega]

/-- A branch that reaches its end, with that end. -/
theorem Loose.close (h : Loose g C H n t br) (before joins : Names)
    (hcode : g.code br.block = t.func.code br.block ++ br.ending before joins)
    (hjoins : ∀ p ∈ joins, ¬ Settled C H t.func.numRegs p.2) {z : Outlook} (hz : z ≤ outlook C H t) :
    Onward g z br.block 0 (horizon C H (br.block.index + 1) n) := by
  obtain ⟨moves, hmoves, hend⟩ := br.exists_moves before joins
  rw [hend] at hcode
  have hat := CodeAt.of_append hcode
  refine h.onward z (onward_straights moves (fun x hx => ?_) hat.left ?_)
  · obtain ⟨p, hp, q, hq, rfl⟩ := hmoves x hx
    refine ⟨trivial, fun r hr => ?_, hjoins p hp⟩
    have heq : r = q.2 := by simpa [Instr.ins] using hr
    exact not_not_intro (heq ▸ h.names q hq)
  · exact .leave hat.last (fun r hr => not_not_intro (h.last r hr)) hz

theorem Loose.closed (h : Loose g C H n t br) (hcode : g.code br.block = t.func.code br.block)
    {z : Outlook} (hz : z ≤ outlook C H t) :
    Onward g z br.block 0 (horizon C H (br.block.index + 1) n) :=
  h.onward z (.stop (by rw [hcode]) hz)

end

theorem settles_owned {m : Build (Option Reg)} (am : Adds {b} m) (own : String) {caught : Reg}
    (hown : own ≠ "" → Settled C H n caught) (hm : ∀ n, Settles g C H b n m) :
    Settles g C H b n (owned own caught m) := by
  unfold owned
  split
  · rename_i h
    exact Orders.bind (by grind) (orders_bind_name own (hown h)) fun _ n' _ _ => hm n'
  · exact hm n

/-- Code in a block of its own can be followed from the start of the block. -/
theorem laid_newBlock {s t : Builder} (h : Laid g C H ⟨s.func.blocks.size⟩ (newBlock s).2 t) :
    (∀ z, Onward g z ⟨s.func.blocks.size⟩ (t.func.code ⟨s.func.blocks.size⟩).length (outlook C H t) →
      Onward g z ⟨s.func.blocks.size⟩ 0 (horizon C H (s.func.blocks.size + 1) s.func.numRegs)) ∧
      ∀ c, ¬ s.func.Has c → t.func.Has c → g.Planned c ∨ c = ⟨s.func.blocks.size⟩ := by
  refine ⟨fun z hz => ?_, fun c hcs hct => ?_⟩
  · have hon := h.onward z hz
    rw [newBlock_apply, Func.newBlock_code, Func.code_size] at hon
    exact .narrow (horizon_le (by simp) (le_refl _)) hon
  · by_cases h' : (newBlock s).2.func.Has c
    · exact .inr (((Func.newBlock_has_iff s.func c).mp h').resolve_left hcs)
    · exact .inl (h.planned c h' hct)

/-- A branch behind its code. Of the blocks made with it, only its own is not finished. -/
theorem loose_branch (own : String) (caught : Reg) {body : BlockId → Build (Option Reg)}
    (ab : ∀ c, Adds {c} (body c)) (hbody : ∀ c n, Settles g C H c n (body c)) {s : Builder}
    (hown : own ≠ "" → Settled C H s.func.numRegs caught) (hs : Kept C H s)
    (hc : Captures C (branch own caught body s).2)
    (ha : Agrees g {⟨s.func.blocks.size⟩} s (branch own caught body s).2) :
    Loose g C H s.func.numRegs (branch own caught body s).2 (branch own caught body s).1 ∧
      Kept C H (branch own caught body s).2 ∧
      ∀ c, ¬ s.func.Has c → (branch own caught body s).2.func.Has c →
        g.Planned c ∨ c = ⟨s.func.blocks.size⟩ := by
  have hlaw := settles_owned (ab _) (n := s.func.numRegs) own hown
    (hbody ⟨s.func.blocks.size⟩) (newBlock s).2 (le_refl _)
  have hgrow := adds_owned own caught (ab ⟨s.func.blocks.size⟩) (newBlock s).2
  rw [branch_apply] at hc ha ⊢
  generalize owned own caught (body ⟨s.func.blocks.size⟩) (newBlock s).2 = rt at *
  obtain ⟨r, t⟩ := rt
  simp only at hc ha hlaw hgrow ⊢
  have hhas : (newBlock s).2.func.Has ⟨s.func.blocks.size⟩ := s.func.newBlock_has_self
  obtain ⟨hlaid, hlast⟩ := hlaw (hs.congr rfl rfl rfl) hhas (hc.congr rfl rfl)
    ((agrees_newBlock ha).congr rfl rfl)
  obtain ⟨hon, hplanned⟩ := laid_newBlock hlaid
  refine ⟨⟨hgrow.func.has hhas, hon, hlast, hlaid.kept.names⟩, ?_, hplanned⟩
  exact { hlaid.kept with names := fun p hp => (hs.names p hp).mono hgrow.func.numRegs }

/-! ## In front of the branching instruction -/

section
variable {before : Names} (hbefore : ∀ p ∈ before, Settled C H n p.2)
include hbefore

theorem kept_lookupBefore (name : String) {s : Builder} (hs : Kept C H s)
    (hnames : ∀ p ∈ s.names, Settled C H n p.2) (hc : Captures C (lookupBefore before name s).2) :
    Kept C H (lookupBefore before name s).2 ∧
      SettledValue C H n (operand (lookupBefore before name s).1) := by
  unfold lookupBefore at *
  cases hr : before.get? name with
  | some r => exact ⟨hs, settledValue_reg.mpr (hbefore _ (Names.mem_of_get? hr))⟩
  | none =>
    simp only [hr] at hc
    obtain ⟨hs', hlook⟩ := hs.lookup name hc
    refine ⟨hs', fun r h => ?_⟩
    change operand (Build.lookup name s).1 = .reg r at h
    cases ho : (Build.lookup name s).1 with
    | none =>
      rw [ho] at h
      cases h
    | some q =>
      rw [ho] at h
      cases h
      exact hlook r ho n hnames

/-- The registers of joined names are set first, and only the registers taken for them are written. -/
theorem onward_startJoins (ns : List String) {s : Builder} (hs : Kept C H s)
    (hnames : ∀ p ∈ s.names, Settled C H n p.2) (hb : s.func.Has b) (hn : n ≤ s.func.numRegs)
    (hc : Captures C (startJoins b before ns s).2)
    (hcode : ∀ i x, (s.func.code b).length ≤ i →
      ((startJoins b before ns s).2.func.code b)[i]? = some x → (g.code b)[i]? = some x) :
    Kept C H (startJoins b before ns s).2 ∧
      (∀ p ∈ (startJoins b before ns s).1, ¬ Settled C H s.func.numRegs p.2 ∧
        Settled C H (startJoins b before ns s).2.func.numRegs p.2) ∧
      ∀ z m, Onward g z b ((startJoins b before ns s).2.func.code b).length (horizon C H m n) →
        Onward g z b (s.func.code b).length (horizon C H m n) := by
  induction ns generalizing s with
  | nil => exact ⟨hs, by simp [startJoins], fun _ _ h => h⟩
  | cons name ns ih =>
    -- the states behind the look-up, the instruction and the rest
    have hbs := Set.mem_singleton b
    have hlook := kept_lookupBefore hbefore name hs.newReg hnames
    have hfields := lookupBefore_fields before name (newReg s).2
    have hg₂ := adds_lookupBefore (S := {b}) before name (newReg s).2
    rw [startJoins_cons_apply] at hc hcode ⊢
    generalize lookupBefore before name (newReg s).2 = ou at *
    obtain ⟨old, u⟩ := ou
    simp only at hc hcode hlook hfields hg₂ ⊢
    have hb₂ : u.func.Has b := hg₂.func.has hb
    have hcode₃ : (emit b (joinStart ⟨s.func.numRegs⟩ old) u).2.func.code b =
        s.func.code b ++ [joinStart ⟨s.func.numRegs⟩ old] := by
      rw [emit_apply, Func.append_code_self hb₂, Func.code_congr hfields.1]
      rfl
    have hnum₃ : (emit b (joinStart ⟨s.func.numRegs⟩ old) u).2.func.numRegs = u.func.numRegs := by
      simp
    have hg₃ := adds_emit b (joinStart ⟨s.func.numRegs⟩ old) hbs u
    have hstill : (emit b (joinStart ⟨s.func.numRegs⟩ old) u).2.names = u.names ∧
        (emit b (joinStart ⟨s.func.numRegs⟩ old) u).2.enclosing = u.enclosing := ⟨rfl, rfl⟩
    generalize (emit b (joinStart ⟨s.func.numRegs⟩ old) u).2 = v at *
    have hg₄ := adds_startJoins hbs before ns v
    have hg₃₄ := hg₃.trans hg₄ fun _ h _ => h
    have hlen : (v.func.code b).length = (s.func.code b).length + 1 := by simp [hcode₃]
    obtain ⟨hu, hold⟩ := hlook (hc.left hg₃₄)
    have hnames₃ : ∀ p ∈ v.names, Settled C H n p.2 := by
      rw [hstill.1, hfields.2]
      exact hnames
    have hle : s.func.numRegs < v.func.numRegs := by
      have h := hg₂.func.numRegs
      rw [newReg_apply, Func.newReg_numRegs] at h
      omega
    obtain ⟨hkept, hjoins, hon⟩ := ih (hu.congr hnum₃ hstill.1 hstill.2) hnames₃ (hg₃.func.has hb₂)
      (by omega) hc fun i x hi hx => hcode i x (by omega) hx
    have hlt : s.func.numRegs < (startJoins b before ns v).2.func.numRegs :=
      lt_of_lt_of_le hle hg₄.func.numRegs
    refine ⟨hkept, fun p hp => ?_, fun z m hz => ?_⟩
    · rcases List.mem_cons.mp hp with rfl | hp
      · exact ⟨hs.open_fresh (hg₂.trans hg₃₄ fun _ h _ => h) hc (le_refl _), hs.settled_fresh hlt⟩
      · exact ⟨fun h => (hjoins p hp).1 (h.mono (le_of_lt hle)), (hjoins p hp).2⟩
    · have hx : (g.code b)[(s.func.code b).length]? = some (joinStart ⟨s.func.numRegs⟩ old) := by
        refine hcode _ _ (le_refl _) (hg₄.func.getElem? ?_)
        rw [hcode₃]
        exact List.getElem?_concat_length
      have hnext := hon z m hz
      rw [hlen] at hnext
      have hopen := hs.open_fresh (hg₂.trans hg₃₄ fun _ h _ => h) hc hn
      cases old with
      | none => exact .straight hx trivial (by simp [joinStart, Instr.ins]) hopen hnext
      | some r =>
        refine .straight hx trivial (fun q hq => not_not_intro (hold q ?_)) hopen hnext
        simpa [joinStart, Instr.ins, operand, eq_comm] using hq

end

/-! ## Joins -/

/-- A join: in front of the branching instruction nothing is written that was settled at `n`, and the
branches can be followed to their ends. A branch may be taken as it stood at any time, its end being the
only code that was added to it since. -/
structure Merged (g : Func) (C H : Set Reg) (b : BlockId) (n : Int) (brs : List Branch)
    (t w : Builder) : Prop where
  onward : ∀ z m, Onward g z b (w.func.code b).length (horizon C H m n) →
    Onward g z b (t.func.code b).length (horizon C H m n)
  kept : Kept C H w
  size : w.func.blocks.size = t.func.blocks.size
  closed : ∀ br ∈ brs, g.code br.block = w.func.code br.block → ∀ n' u, Loose g C H n' u br →
    u.func.code br.block = t.func.code br.block → u.func.numRegs ≤ t.func.numRegs →
    ∀ z, z ≤ outlook C H u → Onward g z br.block 0 (horizon C H (br.block.index + 1) n')

theorem merged_join {brs : List Branch} {t : Builder} {O : Set BlockId} {before : Names}
    (ht : Kept C H t) (hnames : ∀ p ∈ t.names, Settled C H n p.2) (hn : n ≤ t.func.numRegs)
    (hbefore : ∀ p ∈ before, Settled C H n p.2) (hb : t.func.Has b)
    (hnd : (brs.map (·.block)).Nodup) (hhas : ∀ br ∈ brs, t.func.Has br.block)
    (hne : ∀ br ∈ brs, br.block ≠ b) (hc : Captures C (join b before brs t).2)
    (ha : Agrees g O t (join b before brs t).2) :
    Merged g C H b n brs t (join b before brs t).2 := by
  obtain ⟨u, joins, h⟩ := joinSteps_join before hb hnd hhas hne
  have hlaw := onward_startJoins (g := g) hbefore
    (joinedNames before (brs.filter fun br => !endsBlock (t.func.code br.block))) ht hnames hb hn
  rw [h.started] at hlaw
  generalize (join b before brs t).2 = w at *
  obtain ⟨hu, hjoins, hon⟩ := hlaw (hc.congr h.numRegs.symm h.enclosing.symm)
    fun i x hi hx => ha.code b i x hi (h.later.getElem? hx)
  refine ⟨fun z m hz => hon z m (h.front ▸ hz), ?_, h.size, ?_⟩
  · have hw := hu.congr (t := { w with names := u.names }) h.numRegs rfl h.enclosing
    refine { hw with names := fun p hp => ?_ }
    rcases h.mem_names hp with hp | ⟨q, hq, heq⟩
    · exact hw.names p (h.startNames ▸ hp)
    · exact heq ▸ h.numRegs.symm ▸ (hjoins q hq).2
  · intro br hbr hcode n' s hloose hst hnum z hz
    rw [h.closed br hbr, ← hst] at hcode
    cases hend : endsBlock (s.func.code br.block) with
    | true => exact hloose.closed (by simpa [hend] using hcode) hz
    | false =>
      exact hloose.close before joins (by simpa [hend] using hcode)
        (fun p hp h => (hjoins p hp).1 (h.mono hnum)) hz

/-! ## Gathering branches -/

/-- The branches gathered in `a` from the state `s` on: each of them is loose, and the blocks made since
then are finished or theirs. -/
structure Collected (g : Func) (C H : Set Reg) (s : Builder) (a : Arms) (t : Builder) : Prop where
  grows : Builder.Grows ∅ s t
  kept : Kept C H t
  names : t.names = s.names
  loose : ∀ br ∈ a.branches, Loose g C H s.func.numRegs t br ∧ s.func.blocks.size ≤ br.block.index
  nodup : (a.branches.map (·.block)).Nodup
  refs : ∀ c ∈ a.default :: a.arms.map (·.block), c ≠ .none → c ∈ blocksOf a.branches
  patterns : ∀ arm ∈ a.arms, Ready ∅ arm.pattern
  planned : ∀ c, ¬ s.func.Has c → t.func.Has c → g.Planned c ∨ c ∈ blocksOf a.branches

/-- The law of a step that makes branches. -/
def Collects (g : Func) (C H : Set Reg) (n : Int) (m : Arms → Build Arms) : Prop :=
  ∀ a s t, n ≤ s.func.numRegs → Collected g C H s a t → Captures C (m a t).2 →
    Agrees g (blocksOf (m a t).1.branches) t (m a t).2 → Collected g C H s (m a t).1 (m a t).2

section
variable {m m' : Arms → Build Arms}

theorem collected_empty {s : Builder} (hs : Kept C H s) : Collected g C H s {} s :=
  ⟨.refl ∅ s, hs, rfl, by simp, List.nodup_nil, by simp, by simp, fun _ hc ht => absurd ht hc⟩

theorem Collected.congr {s t t' : Builder} {a : Arms} (h : Collected g C H s a t)
    (hg : Builder.Grows ∅ s t') (hf : t'.func = t.func) (hn : t'.names = t.names)
    (he : t'.enclosing = t.enclosing) : Collected g C H s a t' := by
  refine { h with
    grows := hg
    kept := h.kept.congr (by rw [hf]) hn he
    names := hn.trans h.names
    loose := fun br hbr => ⟨?_, (h.loose br hbr).2⟩
    planned := fun c hc ht => h.planned c hc (hf ▸ ht) }
  obtain ⟨h₁, h₂, h₃, h₄⟩ := (h.loose br hbr).1
  exact ⟨hf ▸ h₁, by simpa only [outlook, hf] using h₂, hf ▸ h₃, hf ▸ h₄⟩

theorem collects_pure : Collects g C H n pure := fun _ _ _ _ h _ _ => h

theorem Collects.bind (hm : Collects g C H n m) (mm : Gatherer m) (hm' : Collects g C H n m')
    (mm' : Gatherer m') : Collects g C H n fun a => m a >>= m' := by
  intro a s t hn h hc ha
  obtain ⟨hg₂, hb₂⟩ := mm' (m a t).1 (m a t).2
  simp only [bind_apply] at hc ha ⊢
  have h₁ := hm a s t hn h (hc.left hg₂) (agrees_left_of_makes ha hg₂ hb₂)
  exact hm' _ s _ hn h₁ hc (ha.right (mm a t).1)

end

theorem Arms.blocks_addArm (a : Arms) (v : Value) (br : Branch) :
    ∀ c ∈ (a.addArm v br).default :: (a.addArm v br).arms.map (·.block),
      c ∈ a.default :: a.arms.map (·.block) ∨ c = br.block := by
  simp only [addArm, List.map_append, List.map_cons, List.map_nil, List.mem_cons, List.mem_append,
    List.not_mem_nil, or_false]
  tauto

section
variable {s t : Builder} {a : Arms} {body : BlockId → Build (Option Reg)}
  (ab : ∀ c, Adds {c} (body c)) (hbody : ∀ c n, Settles g C H c n (body c))
include ab hbody

theorem collected_branch (h : Collected g C H s a t) (own : String) {caught : Reg}
    (hown : own ≠ "" → Settled C H s.func.numRegs caught)
    (hc : Captures C (branch own caught body t).2) (a' : Arms)
    (hbrs : a'.branches = a.branches ++ [(branch own caught body t).1])
    (hrefs : ∀ c ∈ a'.default :: a'.arms.map (·.block),
      c ∈ a.default :: a.arms.map (·.block) ∨ c = ⟨t.func.blocks.size⟩)
    (hpat : ∀ arm ∈ a'.arms, Ready ∅ arm.pattern)
    (ha : Agrees g (blocksOf a'.branches) t (branch own caught body t).2) :
    Collected g C H s a' (branch own caught body t).2 := by
  have hle := h.grows.func.numRegs
  have hold : ∀ br ∈ a.branches, t.func.Has br.block := fun br hbr => (h.loose br hbr).1.has
  obtain ⟨hloose, hkept, hplanned⟩ := loose_branch own caught ab hbody
    (fun hne => (hown hne).mono hle) h.kept hc (agrees_branch hold hbrs ha)
  have hg : Builder.Grows ∅ t (branch own caught body t).2 := adds_branch own caught ab t
  have hblock : (branch own caught body t).1.block = ⟨t.func.blocks.size⟩ := rfl
  have hblocks : ∀ c, c ∈ blocksOf a'.branches ↔
      c ∈ blocksOf a.branches ∨ c = ⟨t.func.blocks.size⟩ := by
    intro c
    rw [hbrs, ← hblock]
    simp [blocksOf, or_and_right, exists_or, eq_comm]
  refine ⟨h.grows.trans hg (by simp), hkept, h.names, fun br hbr => ?_, ?_, fun c hmem hne => ?_, hpat,
    fun c hcs hct => ?_⟩
  · rw [hbrs] at hbr
    rcases List.mem_append.mp hbr with hbr | hbr
    · exact ⟨(h.loose br hbr).1.grows hg id, (h.loose br hbr).2⟩
    · rw [List.mem_singleton.mp hbr, hblock]
      exact ⟨hloose.mono hle, Int.ofNat_le.mpr h.grows.func.size⟩
  · rw [hbrs, List.map_append, List.nodup_append]
    refine ⟨h.nodup, List.nodup_singleton _, fun c hc d hd heq => ?_⟩
    obtain ⟨br, hbr, rfl⟩ := List.mem_map.mp hc
    rw [List.map_singleton, List.mem_singleton, hblock] at hd
    exact absurd (hd ▸ heq ▸ hold br hbr).2 (by simp)
  · rw [hblocks]
    exact (hrefs c hmem).imp (fun hold => h.refs c hold hne) id
  · rw [hblocks]
    by_cases ht : t.func.Has c
    · exact (h.planned c hcs ht).imp id .inl
    · exact (hplanned c ht hct).imp id .inr

theorem collects_addDefault (pos : Position) (c : Complaint) (own : String) (caught : Reg)
    (hown : own ≠ "" → Settled C H n caught) :
    Collects g C H n (addDefault pos c own caught · body) := by
  intro a s t hn h hc ha
  simp only at hc ha ⊢
  by_cases hnone : a.default = .none
  · rw [addDefault_apply pos c hnone] at hc ha ⊢
    refine collected_branch ab hbody h own (fun hne => (hown hne).mono hn) hc _ rfl
      (fun c hmem => ?_) h.patterns ha
    rcases List.mem_cons.mp hmem with rfl | hmem
    · exact .inr rfl
    · exact .inl (List.mem_cons_of_mem _ hmem)
  · rw [addDefault_apply_of_ne pos c hnone]
    exact h.congr (h.grows.trans (adds_complain (S := ∅) pos c t) (by simp)) rfl rfl rfl

theorem collects_addCase (pos : Position) (p : Node) : Collects g C H n (addCase pos · p body) := by
  by_cases hp : isDefault p
  · have := collects_addDefault (n := n) ab hbody pos .unreachableDefault "" .none
      (absurd rfl)
    simpa [addCase, hp] using this
  · intro a s t hn h hc ha
    simp only at hc ha ⊢
    obtain ⟨v, ds, hready, hv, happ⟩ := @addCase_apply a body t pos p (by simpa using hp)
    rw [happ] at hc ha ⊢
    have hg := hv ▸ adds_pattern (S := ∅) p t
    exact collected_branch ab hbody (h.congr (h.grows.trans hg (by simp)) rfl rfl rfl) ""
      (absurd rfl) hc (a.addArm v _) rfl (Arms.blocks_addArm a v _)
      (forall_arms_addArm h.patterns hready) (ha.congr rfl rfl)

theorem collects_addClause (pos : Position) {caught : Reg} (hcaught : Settled C H n caught)
    (name : String) (p : Node) : Collects g C H n (addClause pos caught · name p body) := by
  by_cases hp : p.isAbsent
  · have := collects_addDefault ab hbody pos .unreachableClause name caught (fun _ => hcaught)
    simpa [addClause, hp] using this
  · intro a s t hn h hc ha
    simp only at hc ha ⊢
    obtain ⟨v, ds, hready, hv, happ⟩ :=
      @addClause_apply a body caught t pos name p (by simpa using hp)
    rw [happ] at hc ha ⊢
    have hg := hv ▸ adds_pattern (S := ∅) p (branch name caught body t).2
    have h' := collected_branch ab hbody h name (fun _ => hcaught.mono hn) (hc.congr rfl rfl)
      (a.addArm v _) rfl (Arms.blocks_addArm a v _) (forall_arms_addArm h.patterns hready)
      (ha.congr rfl rfl)
    exact h'.congr (h'.grows.trans hg (by simp)) rfl rfl rfl

end

theorem collects_addSeparate (pos : Position) {default : Option (BlockId → Build (Option Reg))}
    (ab : ∀ body ∈ default, ∀ c, Adds {c} (body c))
    (hbody : ∀ body ∈ default, ∀ c n, Settles g C H c n (body c)) :
    Collects g C H n (addSeparate pos · default) := by
  cases default with
  | none => exact collects_pure
  | some body =>
    exact collects_addDefault (ab body rfl) (hbody body rfl) pos _ "" .none (absurd rfl)

end ScriptMachine.Lowering
