import Mathlib.Data.Set.Insert
import ScriptMachine.Check
import ScriptMachine.Proofs.BitSet
import ScriptMachine.Proofs.Blocks
import ScriptMachine.Proofs.WorkList

/-!
# What a visit of blocks finds

The references that wait, together with the references in blocks that were not visited yet, lose at
least one element with each visit, so the visits come to an end within the bound. Two laws follow:

1. A visit without problems has seen a set of references that contains the entry and everything that
   its blocks refer to, and all these blocks are fine (`visitAll_closed`).
2. If all blocks are fine and no two references are to the same block, there are no problems
   (`visitAll_fine`).
-/

namespace ScriptMachine.Check

open Instr (BlockRef)

variable {f : Func} {written seen : BitSet}

/-- A reference to a block that exists and has no problems. -/
def Fine (f : Func) (written : BitSet) (r : BlockRef) : Prop :=
  ∃ k, f.block? r.block = some k ∧ blockProblems f written r.entry k = []

/-- The references in the block that a reference leads to. -/
def targets (f : Func) (r : BlockRef) : List BlockRef := (f.code r.block).flatMap Instr.refs

theorem targets_of_block? {r : BlockRef} {k : Block} (h : f.block? r.block = some k) :
    targets f r = blockRefs k := by
  rw [targets, Func.code_of_block? h, blockRefs]

/-! ## References to come -/

/-- The references in blocks that were not seen, where `bs` are the blocks from the number `n` on. -/
def pendingRefs (seen : BitSet) (n : Nat) : List Block → List BlockRef
  | [] => []
  | b :: bs => (if seen.containsNat n then [] else blockRefs b) ++ pendingRefs seen (n + 1) bs

/-- Numbers below those of the blocks at hand do not matter. -/
theorem pendingRefs_insertNat_of_lt (seen : BitSet) {j n : Nat} (h : j < n) (bs : List Block) :
    pendingRefs (seen.insertNat j) n bs = pendingRefs seen n bs := by
  induction bs generalizing n with
  | nil => rfl
  | cons b bs ih =>
    have hne : decide (n = j) = false := decide_eq_false (by omega)
    rw [pendingRefs, pendingRefs, ih (by omega), BitSet.containsNat_insertNat, hne, Bool.false_or]

/-- The references of a block that is seen now are not to come any more. -/
theorem pendingRefs_insertNat {j n : Nat} {b : Block} {bs : List Block}
    (hb : bs[j - n]? = some b) (hn : n ≤ j) (hseen : seen.containsNat j = false) :
    (pendingRefs seen n bs).Perm (blockRefs b ++ pendingRefs (seen.insertNat j) n bs) := by
  induction bs generalizing n with
  | nil => simp at hb
  | cons c bs ih =>
    rw [pendingRefs, pendingRefs, BitSet.containsNat_insertNat]
    rcases Nat.eq_or_lt_of_le hn with rfl | hlt
    · obtain rfl : c = b := by simpa using hb
      simp [hseen, pendingRefs_insertNat_of_lt]
    · have hne : decide (n = j) = false := decide_eq_false (by omega)
      have hb' : bs[j - (n + 1)]? = some b := by
        rwa [show j - n = j - (n + 1) + 1 by omega, List.getElem?_cons_succ] at hb
      rw [hne, Bool.false_or]
      exact ((ih hb' (by omega)).append_left _).trans (List.perm_append_comm_assoc _ _ _)

theorem pendingRefs_nil (allocated : Bool) (n : Nat) (bs : List Block) :
    pendingRefs ⟨#[], allocated⟩ n bs = bs.flatMap blockRefs := by
  induction bs generalizing n with
  | nil => rfl
  | cons b bs ih =>
    rw [pendingRefs, ih]
    simp [BitSet.containsNat]

theorem visitBound_eq (f : Func) : visitBound f = 2 + (f.blocks.toList.flatMap blockRefs).length := by
  have : ∀ (bs : List Block) (n : Nat), bs.foldl (fun n b => n + (blockRefs b).length) n =
      n + (bs.flatMap blockRefs).length := by
    intro bs
    induction bs with
    | nil => simp
    | cons b bs ih =>
      intro n
      rw [List.foldl_cons, ih, List.flatMap_cons, List.length_append]
      omega
  rw [visitBound, ← Array.foldl_toList, this]

/-! ## Visits -/

/-- The blocks seen are those of the references `V`. -/
def SeenBy (seen : BitSet) (V : Set BlockRef) : Prop :=
  ∀ k : Int, seen.contains k = true ↔ ∃ r ∈ V, r.block.index = k

theorem SeenBy.insert {V : Set BlockRef} (h : SeenBy seen V) {j : BlockRef}
    (hj : 0 ≤ j.block.index) : SeenBy (seen.insertNat j.block.index.toNat) (insert j V) := by
  intro k
  have hk : (k = (j.block.index.toNat : Int)) ↔ j.block.index = k := by
    rw [Int.toNat_of_nonneg hj, eq_comm]
  rw [BitSet.contains_insertNat, Bool.or_eq_true, decide_eq_true_iff, h k, hk]
  simp

/-- The problems found so far stay. -/
theorem problems_extend (fuel : Nat) (jobs : WorkList BlockRef) (v : Visit) :
    v.problems <+: (visitAll f written fuel jobs v).problems := by
  fun_induction visitAll f written fuel jobs v with
  | case1 => exact List.prefix_rfl
  | case2 => exact List.prefix_rfl
  | case3 _ _ _ _ _ _ _ ih => exact ih
  | case4 _ _ _ _ _ _ _ _ _ _ ih => exact (List.prefix_append _ _).trans ih
  | case5 _ _ _ _ _ _ _ _ _ _ _ ih => exact (List.prefix_append _ _).trans ih

theorem has_of_block? {b : BlockId} {k : Block} (h : f.block? b = some k) : f.Has b :=
  (Func.isSome_block?_iff f b).mp (by simp [h])

/-- What is to come when a block is visited: its references wait, and they do not stand in a block
that was not seen any more. -/
theorem pendingRefs_visit {j : BlockRef} {b : Block} (hb : f.block? j.block = some b)
    (hseen : ¬ seen.contains j.block.index = true) :
    (pendingRefs seen 0 f.blocks.toList).Perm
      (blockRefs b ++ pendingRefs (seen.insertNat j.block.index.toNat) 0 f.blocks.toList) := by
  obtain ⟨i, -, hi⟩ := (has_of_block? hb).exists_natCast
  rw [hi] at hb hseen ⊢
  rw [Func.block?_natCast] at hb
  refine pendingRefs_insertNat (by simpa using hb) (Nat.zero_le _) ?_
  simpa [BitSet.contains] using hseen

/-- A visit without problems sees everything that can be reached, and all of it is fine. -/
theorem visitAll_closed (fuel : Nat) (jobs : WorkList BlockRef) (v : Visit) {V : Set BlockRef}
    (hfuel : jobs.items.toList.length + (pendingRefs v.seen 0 f.blocks.toList).length < fuel)
    (hseen : SeenBy v.seen V) (hfine : ∀ r ∈ V, Fine f written r)
    (hclosed : ∀ r ∈ V, ∀ q ∈ targets f r, f.Has q.block → q ∈ V ∨ q ∈ jobs.items.toList)
    (h : (visitAll f written fuel jobs v).problems = []) :
    ∃ W : Set BlockRef, V ⊆ W ∧ (∀ r ∈ jobs.items.toList, f.Has r.block → r ∈ W) ∧
      (∀ r ∈ W, Fine f written r) ∧ ∀ r ∈ W, ∀ q ∈ targets f r, f.Has q.block → q ∈ W := by
  fun_induction visitAll f written fuel jobs v generalizing V with
  | case1 => omega
  | case2 fuel jobs v hpop =>
    have hnil := WorkList.pop?_eq_none hpop
    refine ⟨V, subset_rfl, by simp [hnil], hfine, fun r hr q hq hhas => ?_⟩
    simpa [hnil] using hclosed r hr q hq hhas
  | case3 fuel jobs v j rest hpop hb ih =>
    have hperm := WorkList.pop?_perm hpop
    have hno : ¬ f.Has j.block := fun hj => by
      simpa [hb] using (Func.isSome_block?_iff f j.block).mpr hj
    have hmem : ∀ q, f.Has q.block → q ∈ jobs.items.toList → q ∈ rest.items.toList := fun q hq hmem => by
      rcases List.mem_cons.mp (hperm.mem_iff.mp hmem) with rfl | h
      · exact absurd hq hno
      · exact h
    obtain ⟨W, hV, hjobs, hW⟩ := ih (by have := hperm.length_eq; rw [List.length_cons] at this; omega) hseen hfine
      (fun r hr q hq hhas => (hclosed r hr q hq hhas).imp id (hmem q hhas)) h
    exact ⟨W, hV, fun r hr hhas => hjobs r (hmem r hhas hr) hhas, hW⟩
  | case4 =>
    rename_i fuel jobs v j rest hpop b hb hold again ih
    have hprefix := @problems_extend f written fuel rest { v with problems := v.problems ++ [again] }
    rw [h] at hprefix
    simp at hprefix
  | case5 =>
    rename_i fuel jobs v j rest hpop b hb hnew found refs ih
    have hfound : found = [] := by
      have hprefix := @problems_extend f written fuel (refs.foldl (WorkList.push waitKey) rest)
        { seen := v.seen.insertNat j.block.index.toNat, problems := v.problems ++ found }
      rw [h] at hprefix
      simp_all
    have hperm := WorkList.pop?_perm hpop
    have hpush := @WorkList.foldl_push_perm _ waitKey refs rest
    have hrefs : ∀ q, q ∈ refs ↔ q ∈ targets f j ∧ f.Has q.block := fun q => by
      rw [targets_of_block? hb, ← Func.isSome_block?_iff]
      exact List.mem_filter
    have hmem : ∀ q ∈ jobs.items.toList, q = j ∨
        q ∈ (refs.foldl (WorkList.push waitKey) rest).items.toList := fun q hq =>
      (List.mem_cons.mp (hperm.mem_iff.mp hq)).imp id fun h =>
        hpush.mem_iff.mpr (List.mem_append_right _ h)
    have hfuel' : (refs.foldl (WorkList.push waitKey) rest).items.toList.length +
        (pendingRefs (v.seen.insertNat j.block.index.toNat) 0 f.blocks.toList).length < fuel := by
      have h₁ := hperm.length_eq
      have h₂ := hpush.length_eq
      have h₃ := (pendingRefs_visit hb hnew).length_eq
      have h₄ : refs.length ≤ (blockRefs b).length := List.length_filter_le _ _
      simp only [List.length_cons, List.length_append] at h₁ h₂ h₃
      omega
    have hfine' : ∀ r ∈ insert j V, Fine f written r := by
      rintro r (rfl | hr)
      · exact ⟨b, hb, hfound⟩
      · exact hfine r hr
    have hclosed' : ∀ r ∈ insert j V, ∀ q ∈ targets f r, f.Has q.block → q ∈ insert j V ∨
        q ∈ (refs.foldl (WorkList.push waitKey) rest).items.toList := by
      rintro r (rfl | hr) q hq hhas
      · exact .inr (hpush.mem_iff.mpr (List.mem_append_left _ ((hrefs q).mpr ⟨hq, hhas⟩)))
      · rcases hclosed r hr q hq hhas with h | h
        · exact .inl (Set.mem_insert_of_mem j h)
        · exact (hmem q h).imp (fun h : q = j => h ▸ Set.mem_insert q V) id
    obtain ⟨W, hV, hjobs, hW⟩ := ih hfuel' (hseen.insert (has_of_block? hb).1) hfine' hclosed' h
    refine ⟨W, (Set.subset_insert j V).trans hV, fun r hr hhas => ?_, hW⟩
    rcases hmem r hr with rfl | hr
    · exact hV (Set.mem_insert r V)
    · exact hjobs r hr hhas

/-- Where all blocks are fine and each is referred to once, there is nothing to find. The references
visited, waiting and to come are the same at all times, but for their order. -/
theorem visitAll_fine (fuel : Nat) (jobs : WorkList BlockRef) (v : Visit) {V : List BlockRef}
    (hseen : SeenBy v.seen {r | r ∈ V})
    (hnd : ((V ++ (jobs.items.toList ++ pendingRefs v.seen 0 f.blocks.toList)).map (·.block)).Nodup)
    (hfine : ∀ r ∈ jobs.items.toList ++ pendingRefs v.seen 0 f.blocks.toList, Fine f written r) :
    (visitAll f written fuel jobs v).problems = v.problems := by
  fun_induction visitAll f written fuel jobs v generalizing V with
  | case1 => rfl
  | case2 => rfl
  | case3 =>
    rename_i fuel jobs v j rest hpop hb ih
    have hj := (WorkList.pop?_perm hpop).mem_iff.mpr List.mem_cons_self
    obtain ⟨k, hk, -⟩ := hfine j (List.mem_append_left _ hj)
    simp [hb] at hk
  | case4 =>
    rename_i fuel jobs v j rest hpop b hb hold again ih
    have hj := (WorkList.pop?_perm hpop).mem_iff.mpr List.mem_cons_self
    obtain ⟨r, hr, hindex⟩ := (hseen j.block.index).mp hold
    have hblock : r.block = j.block := congrArg BlockId.mk hindex
    rw [List.map_append, List.nodup_append] at hnd
    exact absurd hblock (hnd.2.2 _ (List.mem_map_of_mem hr) _
      (List.mem_map_of_mem (List.mem_append_left _ hj)))
  | case5 =>
    rename_i fuel jobs v j rest hpop b hb hnew found refs ih
    have hperm := WorkList.pop?_perm hpop
    have hpush := @WorkList.foldl_push_perm _ waitKey refs rest
    have hpending := pendingRefs_visit hb hnew
    have hrefs : refs = blockRefs b := List.filter_eq_self.mpr fun r hr => by
      obtain ⟨k, hk, -⟩ := hfine r (List.mem_append_right _
        (hpending.mem_iff.mpr (List.mem_append_left _ hr)))
      simp [hk]
    have hfound : found = [] := by
      obtain ⟨k, hk, hnone⟩ := hfine j (List.mem_append_left _ (hperm.mem_iff.mpr List.mem_cons_self))
      obtain rfl : b = k := Option.some.inj (hb.symm.trans hk)
      exact hnone
    have htotal : (jobs.items.toList ++ pendingRefs v.seen 0 f.blocks.toList).Perm
        (j :: ((refs.foldl (WorkList.push waitKey) rest).items.toList ++
          pendingRefs (v.seen.insertNat j.block.index.toNat) 0 f.blocks.toList)) := by
      refine (hperm.append hpending).trans (List.Perm.cons j ?_)
      refine (List.perm_append_comm_assoc _ _ _).trans ?_
      rw [← List.append_assoc, ← hrefs]
      exact hpush.symm.append_right _
    refine (ih (V := j :: V) ?_ ?_ ?_).trans ?_
    · have := hseen.insert (has_of_block? hb).1
      simpa [Set.insert_def] using this
    · have hmiddle := (htotal.append_left V).trans List.perm_middle
      exact (hmiddle.map (·.block)).nodup_iff.mp hnd
    · intro r hr
      exact hfine r (htotal.mem_iff.mpr (List.mem_cons_of_mem j hr))
    · simp [hfound]

end ScriptMachine.Check
