import ScriptMachine.Proofs.Check.Visit
import ScriptMachine.Proofs.Programs
import ScriptMachine.Proofs.Results

/-!
# Programs without problems

What it means that the checker has nothing to report: of an instruction, of a block (`fine_iff`), of
a function (`closed_of_accepts` and `accepts_of_fine`), and of a program (`accepts_iff`).
-/

namespace ScriptMachine

/-- The registers that a function writes somewhere. -/
def Func.Writes (f : Func) (r : Reg) : Prop :=
  r ∈ f.paramRegs ∨ ∃ b, ∃ x ∈ f.code b, r ∈ x.writes

namespace Check

open Instr (Entry BlockRef)

variable {f : Func} {written : BitSet}

/-! ## Instructions and blocks -/

theorem regIssues_eq_nil_iff {r : Reg} : regIssues f r = [] ↔ f.InRange r := by
  unfold regIssues Func.InRange
  split <;> simp <;> omega

theorem refIssues_eq_nil_iff {r : BlockRef} :
    refIssues f r = [] ↔ f.Has r.block ∧ r.block ≠ f.entry := by
  rw [← Func.isSome_block?_iff, Option.isSome_iff_ne_none]
  unfold refIssues
  split
  · simp_all
  · split <;> simp_all

theorem refs_of_ownIssues {e : Entry} {i len : Nat} {x : Instr} (h : ownIssues f e i len x = []) :
    ∀ r ∈ x.refs, f.Has r.block ∧ r.block ≠ f.entry := by
  have hall : x.refs.flatMap (refIssues f) = [] := by
    cases x with
    | guarded dest g =>
      simp only [ownIssues, List.append_eq_nil_iff] at h
      obtain ⟨⟨⟨h₁, -⟩, h₂⟩, h₃⟩ := h
      rw [Instr.refs, List.flatMap_cons, List.flatMap_append, h₁, h₂, h₃]
      rfl
    | closureCreate dest b captures params names =>
      exact (List.append_eq_nil_iff.mp h).2
    | dispatch dest v arms default => exact h
    | _ => simp [Instr.refs]
  intro r hr
  exact refIssues_eq_nil_iff.mp (List.flatMap_eq_nil_iff.mp hall r hr)

theorem blockProblems_eq_nil_iff {e : Entry} {k : Block} : blockProblems f written e k = [] ↔
    k.code.toList ≠ [] ∧ ∀ i x, k.code.toList[i]? = some x →
      instrIssues f written e i k.code.toList.length x = [] := by
  unfold blockProblems
  split
  · simp_all
  · rename_i hne
    have hne : k.code.toList ≠ [] := by simpa using hne
    simp only [List.flatMap_eq_nil_iff, List.map_eq_nil_iff, Prod.forall,
      List.mem_zipIdx_iff_getElem?, ne_eq, hne, not_false_eq_true, true_and, Array.length_toList]
    exact ⟨fun h i x hx => h x i hx, fun h x i hx => h i x hx⟩

theorem fine_iff {r : BlockRef} : Fine f written r ↔ f.Has r.block ∧ f.code r.block ≠ [] ∧
    ∀ i x, (f.code r.block)[i]? = some x →
      instrIssues f written r.entry i (f.code r.block).length x = [] := by
  constructor
  · rintro ⟨k, hk, h⟩
    rw [Func.code_of_block? hk]
    exact ⟨has_of_block? hk, blockProblems_eq_nil_iff.mp h⟩
  · rintro ⟨hhas, h⟩
    obtain ⟨k, hk⟩ := Func.block?_eq_some_of_has hhas
    rw [Func.code_of_block? hk] at h
    exact ⟨k, hk, blockProblems_eq_nil_iff.mpr h⟩

theorem instrIssues_eq_nil_iff {e : Entry} {i len : Nat} {x : Instr} :
    instrIssues f written e i len x = [] ↔ endIssues (i + 1 == len) x = [] ∧
      (x.out ≠ .none → f.InRange x.out) ∧ (∀ v ∈ x.ins, operandIssues f written v = []) ∧
      ownIssues f e i len x = [] := by
  have hout : (if x.out = .none then [] else regIssues f x.out) = [] ↔
      (x.out ≠ .none → f.InRange x.out) := by
    split <;> simp_all [regIssues_eq_nil_iff]
  simp only [instrIssues, List.append_eq_nil_iff, List.flatMap_eq_nil_iff, hout, and_assoc]

/-- Blocks that a fine block refers to exist, and none of them is the entry. -/
theorem Fine.targets {r q : BlockRef} (h : Fine f written r) (hq : q ∈ targets f r) :
    f.Has q.block ∧ q.block ≠ f.entry := by
  obtain ⟨x, hx, hqx⟩ := List.mem_flatMap.mp hq
  obtain ⟨i, hi⟩ := List.mem_iff_getElem?.mp hx
  exact refs_of_ownIssues (instrIssues_eq_nil_iff.mp ((fine_iff.mp h).2.2 i x hi)).2.2.2 q hqx

/-! ## Registers -/

theorem mem_code_iff {x : Instr} :
    (∃ k ∈ f.blocks.toList, x ∈ k.code.toList) ↔ ∃ b, x ∈ f.code b := by
  constructor
  · rintro ⟨k, hk, hx⟩
    obtain ⟨i, hi⟩ := List.mem_iff_getElem?.mp hk
    have hb : f.block? ⟨i⟩ = some k := by rw [Func.block?_natCast]; simpa using hi
    exact ⟨⟨i⟩, by rwa [Func.code_of_block? hb]⟩
  · rintro ⟨b, hx⟩
    have hhas := Func.has_of_code_ne_nil (List.ne_nil_of_mem hx)
    obtain ⟨k, hk⟩ := Func.block?_eq_some_of_has hhas
    rw [Func.code_of_block? hk] at hx
    obtain ⟨i, -, hi⟩ := hhas.exists_natCast
    rw [hi, Func.block?_natCast] at hk
    exact ⟨k, by simpa using Array.mem_of_getElem? hk, hx⟩

/-- The registers that get into the set of those written. -/
theorem mem_writtenKeys {r : Reg} : r.index ∈ writtenKeys f ↔
    r ∈ f.paramRegs ∨ 0 ≤ r.index ∧ ∃ b, ∃ x ∈ f.code b, r ∈ x.writes := by
  have hmem : ∀ rs : List Reg, r.index ∈ rs.map (·.index) ↔ r ∈ rs := fun rs => by
    refine ⟨fun hr => ?_, List.mem_map_of_mem⟩
    obtain ⟨q, hq, heq⟩ := List.mem_map.mp hr
    obtain rfl : q = r := congrArg Reg.mk heq
    exact hq
  have hcode : (∃ q ∈ f.blocks.toList, r ∈ q.code.toList.flatMap Instr.writes) ↔
      ∃ b, ∃ x ∈ f.code b, r ∈ x.writes := by
    constructor
    · rintro ⟨q, hq, hr⟩
      obtain ⟨x, hx, hr⟩ := List.mem_flatMap.mp hr
      obtain ⟨b, hb⟩ := mem_code_iff.mp ⟨q, hq, hx⟩
      exact ⟨b, x, hb, hr⟩
    · rintro ⟨b, x, hx, hr⟩
      obtain ⟨q, hq, hx⟩ := mem_code_iff.mpr ⟨b, hx⟩
      exact ⟨q, hq, List.mem_flatMap.mpr ⟨x, hx, hr⟩⟩
  rw [writtenKeys, List.mem_append, List.mem_filter, hmem, hmem, List.mem_flatMap, hcode,
    decide_eq_true_iff, and_comm]

/-- The registers that the checker takes for written. -/
theorem writtenRegs_spec (h : writtenRegs f = .ok written) (r : Reg) :
    written.contains r.index = true ↔ 0 ≤ r.index ∧ f.Writes r := by
  unfold writtenRegs at h
  obtain ⟨room, hroom, h⟩ := bind_eq_ok_iff.mp h
  obtain rfl := BitSet.withRoom_eq_ok hroom
  split at h
  · rename_i s hs
    obtain rfl := Except.ok.inj h
    have hkeys := BitSet.insertAll_spec hs r.index
    rw [BitSet.contains_nil, Bool.or_false] at hkeys
    have hnonneg : r ∈ f.paramRegs → 0 ≤ r.index := fun hr =>
      BitSet.nonneg_of_contains (hkeys.trans (decide_eq_true (mem_writtenKeys.mpr (.inl hr))))
    rw [hkeys, decide_eq_true_iff, mem_writtenKeys, Func.Writes]
    constructor
    · rintro (hr | ⟨h₀, hr⟩)
      · exact ⟨hnonneg hr, .inl hr⟩
      · exact ⟨h₀, .inr hr⟩
    · rintro ⟨h₀, hr | hr⟩
      · exact .inl hr
      · exact .inr ⟨h₀, hr⟩
  · cases h

/-- What the check of a function crashes with: the lack of room for its registers, or else the first of the
keys for the set of written ones (`writtenKeys`) that the set does not take. -/
def crash? (f : Func) : Option Crash :=
  match BitSet.withRoom f.numRegs with
  | .error c => some c
  | .ok _ => (writtenKeys f).findSome? BitSet.keyCrash?

/-- There is room for the registers of a function, none of its parameters has a negative one, and a set
can grow to all that are written somewhere. -/
structure Checkable (f : Func) : Prop where
  room : ∃ room, BitSet.withRoom f.numRegs = .ok room
  params : ∀ r ∈ f.paramRegs, 0 ≤ r.index
  growth : ∀ r, f.Writes r → r.index < 64 * BitSet.maxWords

theorem writtenRegs_eq_error_iff {c : Crash} : writtenRegs f = .error c ↔ crash? f = some c := by
  unfold writtenRegs crash?
  cases BitSet.withRoom f.numRegs with
  | error c' => simp [bind, Except.bind]
  | ok room =>
    rw [← room.insertAll_crash]
    simp only [bind, Except.bind]
    rcases room.insertAll (writtenKeys f) with ⟨t, _ | c'⟩ <;> simp

theorem function_eq_error_iff {c : Crash} : function f = .error c ↔ crash? f = some c := by
  rw [← writtenRegs_eq_error_iff]
  unfold function
  cases writtenRegs f with
  | error c' => simp [bind, Except.bind]
  | ok written =>
    simp only [bind, Except.bind]
    split <;> simp [pure, Except.pure]

theorem crash?_eq_none_iff : crash? f = none ↔ Checkable f := by
  have hfits : (writtenKeys f).findSome? BitSet.keyCrash? = none ↔
      (∀ r ∈ f.paramRegs, 0 ≤ r.index) ∧ ∀ r, f.Writes r → r.index < 64 * BitSet.maxWords := by
    rw [List.findSome?_eq_none_iff]
    simp only [BitSet.keyCrash?_eq_none_iff]
    constructor
    · intro h
      refine ⟨fun r hr => (h _ (mem_writtenKeys.mpr (.inl hr))).1, fun r hr => ?_⟩
      by_cases h₀ : 0 ≤ r.index
      · exact (h _ (mem_writtenKeys.mpr (hr.imp id fun hr => ⟨h₀, hr⟩))).2
      · omega
    · rintro ⟨hparams, hgrowth⟩ k hk
      rcases (mem_writtenKeys (r := ⟨k⟩)).mp hk with hr | ⟨h₀, hr⟩
      · exact ⟨hparams _ hr, hgrowth ⟨k⟩ (.inl hr)⟩
      · exact ⟨h₀, hgrowth ⟨k⟩ (.inr hr)⟩
  unfold crash?
  cases hroom : BitSet.withRoom f.numRegs with
  | error c =>
    refine ⟨fun h => (by cases h), fun h => ?_⟩
    obtain ⟨room, h⟩ := h.room
    cases hroom.symm.trans h
  | ok room => exact hfits.trans ⟨fun h => ⟨⟨room, hroom⟩, h.1, h.2⟩, fun h => ⟨h.params, h.growth⟩⟩

/-- A written register that is too large crashes as such, unless something else is wrong. -/
theorem crash?_of_large {room : BitSet} (hroom : BitSet.withRoom f.numRegs = .ok room)
    (hparams : ∀ r ∈ f.paramRegs, 0 ≤ r.index) {r : Reg} (hr : f.Writes r)
    (hlarge : 64 * BitSet.maxWords ≤ r.index) : crash? f = some .growthOutside := by
  cases h : crash? f with
  | none =>
    have := (crash?_eq_none_iff.mp h).growth r hr
    omega
  | some c =>
    rw [crash?, hroom] at h
    obtain ⟨k, hk, hc⟩ := List.exists_of_findSome?_eq_some h
    have h₀ : 0 ≤ k := (mem_writtenKeys (r := ⟨k⟩)).mp hk |>.elim (hparams _) And.left
    rw [BitSet.eq_growthOutside_of_crash h₀ hc]

theorem Checkable.exists_writtenRegs (h : Checkable f) : ∃ s, writtenRegs f = .ok s := by
  cases hw : writtenRegs f with
  | ok s => exact ⟨s, rfl⟩
  | error c =>
    rw [writtenRegs_eq_error_iff, crash?_eq_none_iff.mpr h] at hw
    cases hw

/-- A function with not too many registers can be checked if it writes no other ones. -/
theorem checkable_of_le (h₀ : 0 ≤ f.numRegs) (h : f.numRegs ≤ 64 * BitSet.maxWords)
    (hparams : ∀ r ∈ f.paramRegs, 0 ≤ r.index) (hwrites : ∀ r, f.Writes r → r.index < f.numRegs) :
    Checkable f :=
  ⟨⟨_, BitSet.withRoom_of_le h₀ h⟩, hparams, fun r hr => (hwrites r hr).trans_le h⟩

theorem operandIssues_of_reg (h : writtenRegs f = .ok written) {r : Reg} :
    operandIssues f written (.reg r) = [] ↔ f.InRange r ∧ f.Writes r := by
  have hw := writtenRegs_spec h r
  simp only [operandIssues, Value.reg?, List.append_eq_nil_iff, regIssues_eq_nil_iff]
  split
  · rename_i hc
    simp [(hw.mp hc).2]
  · rename_i hc
    simp only [List.cons_ne_nil, and_false, false_iff, not_and]
    exact fun hr hwr => hc (hw.mpr ⟨hr.1, hwr⟩)

/-! ## Functions -/

/-- The checker has nothing to report of a function. -/
def Passes (f : Func) : Prop := ∃ bs, function f = .ok ([], bs)

/-- All references of a function: to its entry, and those in its blocks. -/
def allRefs (f : Func) : List BlockRef :=
  ⟨f.entry, .function⟩ :: f.blocks.toList.flatMap blockRefs

/-- A visit of a function starts at its entry. -/
def visit (f : Func) (written : BitSet) : Visit :=
  visitAll f written (visitBound f) (({} : WorkList BlockRef).push waitKey ⟨f.entry, .function⟩)
    { seen := ⟨#[], true⟩ }

theorem passes_iff : Passes f ↔ f.paramRegs.length = f.params.length ∧ f.Has f.entry ∧
    ∃ written, writtenRegs f = .ok written ∧ (visit f written).problems = [] := by
  have hentry := Func.isSome_block?_iff f f.entry
  unfold Passes function
  cases hw : writtenRegs f with
  | error c => simp [bind, Except.bind]
  | ok written =>
    simp only [bind, Except.bind, Except.ok.injEq, exists_eq_left', pure, Except.pure]
    split
    · rename_i hnone
      have hno : ¬ f.Has f.entry := fun h => by simp [← hentry] at h; simp_all
      simp [hno]
    · rename_i hsome
      have hhas : f.Has f.entry := hentry.mp (Option.isSome_iff_ne_none.mpr (by simpa using hsome))
      simp only [Except.ok.injEq, Prod.mk.injEq, exists_eq_right', List.append_eq_nil_iff, hhas,
        true_and, visit, ite_eq_left_iff, List.cons_ne_nil, imp_false, not_not]

/-- A function that passes has a set of references that contains its entry and all that its blocks
refer to, and only blocks that are fine. -/
theorem closed_of_passes (h : Passes f) : f.paramRegs.length = f.params.length ∧
    ∃ written, writtenRegs f = .ok written ∧ ∃ W : Set BlockRef, ⟨f.entry, .function⟩ ∈ W ∧
      (∀ r ∈ W, Fine f written r) ∧ ∀ r ∈ W, ∀ q ∈ targets f r, q ∈ W := by
  obtain ⟨hparams, hhas, written, hw, hvisit⟩ := passes_iff.mp h
  have hpush := @WorkList.push_perm _ waitKey {} (⟨f.entry, .function⟩ : BlockRef)
  have hfuel : (({} : WorkList BlockRef).push waitKey ⟨f.entry, .function⟩).items.toList.length +
      (pendingRefs ⟨#[], true⟩ 0 f.blocks.toList).length < visitBound f := by
    rw [hpush.length_eq, pendingRefs_nil, visitBound_eq]
    simp only [List.length_cons, List.length_nil]
    omega
  obtain ⟨W, -, hjobs, hfine, hclosed⟩ := visitAll_closed (V := ∅) _ _ _ hfuel
    (fun k => by simp) (by simp) (by simp) hvisit
  refine ⟨hparams, written, hw, W, hjobs _ (hpush.mem_iff.mpr List.mem_cons_self) hhas, hfine,
    fun r hr q hq => hclosed r hr q hq ((hfine r hr).targets hq).1⟩

/-- A function passes if all its references are to different blocks and these are fine. -/
theorem passes_of_fine (hparams : f.paramRegs.length = f.params.length)
    (hw : writtenRegs f = .ok written) (hnd : ((allRefs f).map (·.block)).Nodup)
    (hfine : ∀ r ∈ allRefs f, Fine f written r) : Passes f := by
  have hpush := @WorkList.push_perm _ waitKey {} (⟨f.entry, .function⟩ : BlockRef)
  have hall : ((({} : WorkList BlockRef).push waitKey ⟨f.entry, .function⟩).items.toList ++
      pendingRefs ⟨#[], true⟩ 0 f.blocks.toList).Perm (allRefs f) := by
    rw [pendingRefs_nil]
    exact hpush.append_right _
  have hentry := (fine_iff.mp (hfine ⟨f.entry, .function⟩ List.mem_cons_self)).1
  refine passes_iff.mpr ⟨hparams, hentry, written, hw, ?_⟩
  refine visitAll_fine (V := []) _ _ _ (fun k => by simp) ?_ fun r hr => ?_
  · exact (hall.map (·.block)).nodup_iff.mpr hnd
  · exact hfine r (hall.mem_iff.mp hr)

/-! ## Programs -/

/-- The checker has nothing to report of a program. -/
def Accepts (p : Program) : Prop := ∃ r, program p = .ok r ∧ r.problems = []

instance (p : Program) : Decidable (Accepts p) :=
  match h : program p with
  | .ok r => decidable_of_iff (r.problems = []) (by simp [Accepts, h])
  | .error c => .isFalse (by simp [Accepts, h])

theorem addUnreachable_problems (r : Report) (name : String) (bs : List BlockId) :
    (r.addUnreachable name bs).problems = r.problems := by
  unfold Report.addUnreachable
  split <;> rfl

/-- The check of one function after others without problems. -/
theorem named_iff {p : Program} (r : Report) (name : String) :
    (∃ t, named p r name = .ok t ∧ t.problems = []) ↔
      r.problems = [] ∧ ∃ f, p.func? name = some f ∧ Passes f := by
  unfold named
  cases hf : p.func? name with
  | none => simp
  | some f =>
    simp only [Option.some.injEq, exists_eq_left', Passes]
    cases hfun : function f with
    | error c => simp [bind, Except.bind]
    | ok found =>
      obtain ⟨problems, bs⟩ := found
      simp [bind, Except.bind, pure, Except.pure, addUnreachable_problems]

theorem accepts_iff {p : Program} : Accepts p ↔
    p.main?.isSome ∧ ∀ name ∈ p.order, ∃ f, p.func? name = some f ∧ Passes f := by
  unfold Accepts program
  rw [foldlM_eq_ok_iff named_iff]
  simp [Option.isSome_iff_ne_none]

/-- Of a program that was built function by function, every function is checked. -/
theorem accepts_iff_forall {p : Program} (hp : p.WellNamed) :
    Accepts p ↔ p.main?.isSome ∧ ∀ f ∈ p.funcs, Passes f := by
  rw [accepts_iff, hp.order]
  refine and_congr_right fun _ => ⟨fun h f hf => ?_, fun h name hname => ?_⟩
  · obtain ⟨g, hg, hpass⟩ := h f.name (List.mem_map_of_mem hf)
    rw [hp.func? hf] at hg
    exact Option.some.inj hg ▸ hpass
  · obtain ⟨f, hf, rfl⟩ := List.mem_map.mp hname
    exact ⟨f, hp.func? hf, h f hf⟩

end Check

end ScriptMachine
