import ScriptMachine.Proofs.Blocks

/-!
# References between blocks

A block is reachable if a chain of references leads to it from the entry of its function
(`Func.Leads`). The references of a chain say how the block is entered: by a call, as the body of a
closure, or from within another block.
-/

namespace ScriptMachine

open Instr (BlockRef)

/-! ## Counting references -/

/-- The number of references to block `c` in code. -/
def refCount (c : BlockId) (xs : List Instr) : Nat := (xs.flatMap Instr.refs).countP (·.block = c)

@[simp] theorem refCount_nil (c : BlockId) : refCount c [] = 0 := rfl

@[simp] theorem refCount_append (c : BlockId) (xs ys : List Instr) :
    refCount c (xs ++ ys) = refCount c xs + refCount c ys := by
  simp [refCount]

theorem refCount_cons (c : BlockId) (x : Instr) (xs : List Instr) :
    refCount c (x :: xs) = x.refs.countP (·.block = c) + refCount c xs := by
  simp [refCount]

theorem refCount_cons_of_refs {x : Instr} (h : x.refs = []) (c : BlockId) (xs : List Instr) :
    refCount c (x :: xs) = refCount c xs := by
  simp [refCount_cons, h]

theorem refCount_pos_of_mem {x : Instr} {r : BlockRef} {xs : List Instr} (hx : x ∈ xs)
    (hr : r ∈ x.refs) : 0 < refCount r.block xs :=
  List.countP_pos_iff.mpr ⟨r, List.mem_flatMap.mpr ⟨x, hx, hr⟩, by simp⟩

namespace Func

variable {f : Func} {P : BlockId → Prop} {b : BlockId}

/-- The blocks of a function, by their places. -/
def ids (f : Func) : List BlockId := (List.range f.blocks.size).map fun i : Nat => ⟨i⟩

theorem mem_ids_iff : b ∈ f.ids ↔ f.Has b := by
  simp only [ids, List.mem_map, List.mem_range]
  constructor
  · rintro ⟨i, hi, rfl⟩
    exact (has_natCast_iff f i).mpr hi
  · intro h
    obtain ⟨i, hi, rfl⟩ := h.exists_natCast
    exact ⟨i, hi, rfl⟩

theorem ids_pairwise : f.ids.Pairwise fun a b => a.index < b.index := by
  rw [ids, List.pairwise_map]
  exact List.pairwise_lt_range.imp fun h => by simpa using h

theorem nodup_ids : f.ids.Nodup :=
  ids_pairwise.imp fun h => by rintro rfl; exact absurd h (by omega)

/-- The number of references to block `c` in the blocks with a property. -/
noncomputable def refsFrom (f : Func) (P : BlockId → Prop) (c : BlockId) : Nat :=
  open Classical in refCount c ((f.ids.filter fun b => decide (P b)).flatMap f.code)

theorem refsFrom_eq {p : BlockId → Bool} (hp : ∀ b, p b = true ↔ P b)
    (c : BlockId) : f.refsFrom P c = refCount c ((f.ids.filter p).flatMap f.code) := by
  have h : (fun b => @decide (P b) (Classical.propDecidable _)) = p := funext fun b =>
    Bool.eq_iff_iff.mpr ((@decide_eq_true_iff _ (Classical.propDecidable _)).trans (hp b).symm)
  rw [refsFrom, h]

theorem refsFrom_congr {P Q : BlockId → Prop} (h : ∀ b, P b ↔ Q b) (c : BlockId) :
    f.refsFrom P c = f.refsFrom Q c := by
  obtain rfl : P = Q := funext fun b => propext (h b)
  rfl

theorem refsFrom_false (c : BlockId) : f.refsFrom (fun _ => False) c = 0 := by
  simp [refsFrom]

theorem refsFrom_insert (hb : f.Has b) (hP : ¬ P b) (c : BlockId) :
    f.refsFrom (fun a => a = b ∨ P a) c = refCount c (f.code b) + f.refsFrom P c := by
  classical
  have hperm : (f.ids.filter fun a => decide (a = b ∨ P a)).Perm
      (b :: f.ids.filter fun a => decide (P a)) := by
    refine (List.perm_ext_iff_of_nodup (nodup_ids.filter _) ?_).mpr fun a => ?_
    · exact List.nodup_cons.mpr ⟨by simp [hP], nodup_ids.filter _⟩
    · simp only [List.mem_filter, List.mem_cons, decide_eq_true_eq]
      constructor
      · rintro ⟨ha, rfl | hPa⟩
        · exact .inl rfl
        · exact .inr ⟨ha, hPa⟩
      · rintro (rfl | ⟨ha, hPa⟩)
        · exact ⟨mem_ids_iff.mpr hb, .inl rfl⟩
        · exact ⟨ha, .inr hPa⟩
  have hrefs := ((hperm.flatMap_right f.code).flatMap_right Instr.refs).countP_eq
    fun r : BlockRef => decide (r.block = c)
  rw [List.flatMap_cons, List.flatMap_append, List.countP_append] at hrefs
  rw [refsFrom_eq (P := P) (p := fun a => decide (P a)) (by simp),
    refsFrom_eq (p := fun a => decide (a = b ∨ P a)) (by simp)]
  exact hrefs

theorem refsFrom_pos {x : Instr} {r : BlockRef} (hP : P b)
    (hx : x ∈ f.code b) (hr : r ∈ x.refs) : 0 < f.refsFrom P r.block := by
  classical
  have hb := mem_ids_iff.mpr (has_of_code_ne_nil (List.ne_nil_of_mem hx))
  refine refCount_pos_of_mem (x := x) (List.mem_flatMap.mpr ⟨b, ?_, hx⟩) hr
  simpa [hb] using hP

/-! ## Numbers and chains -/

/-- Each block bears the number of its place. -/
def Numbered (f : Func) : Prop := ∀ (i : Nat) (b : Block), f.blocks[i]? = some b → b.id = ⟨i⟩

theorem numbered_iff : f.Numbered ↔ f.blocks.toList.map (·.id) = f.ids := by
  constructor
  · intro h
    refine List.ext_getElem? fun i => ?_
    by_cases hi : i < f.blocks.size
    · simp [ids, hi, h i f.blocks[i] (Array.getElem?_eq_getElem hi)]
    · simp [ids, hi]
  · intro h i b hb
    obtain ⟨hi, rfl⟩ := Array.getElem?_eq_some_iff.mp hb
    have heq := congrArg (·[i]?) h
    simpa [ids, hi] using heq

instance : Decidable f.Numbered := decidable_of_iff _ numbered_iff.symm

/-- A chain of references that leads from the entry to a block, each of them to a block that
exists. -/
inductive Leads (f : Func) : List BlockRef → BlockId → Prop
  | entry : Leads f [] f.entry
  | ref {rs : List BlockRef} {b : BlockId} {x : Instr} {r : BlockRef} (h : Leads f rs b)
      (hx : x ∈ f.code b) (hr : r ∈ x.refs) (hhas : f.Has r.block) : Leads f (rs ++ [r]) r.block

/-- A block to which references lead from the entry. -/
def Reachable (f : Func) (b : BlockId) : Prop := ∃ rs, f.Leads rs b

theorem reachable_entry : f.Reachable f.entry := ⟨[], .entry⟩

theorem Reachable.ref {x : Instr} {r : BlockRef} (h : f.Reachable b)
    (hx : x ∈ f.code b) (hr : r ∈ x.refs) (hhas : f.Has r.block) : f.Reachable r.block :=
  h.elim fun _ hrs => ⟨_, hrs.ref hx hr hhas⟩

end Func

end ScriptMachine
