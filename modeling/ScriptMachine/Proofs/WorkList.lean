import Mathlib.Data.List.Perm.Basic
import ScriptMachine.WorkList

/-!
# What a work list holds

Sifting only rearranges: `push` adds an element to those that wait, and `pop?` takes one of them.
-/

namespace ScriptMachine.WorkList

variable {α : Type} {key : α → Int}

theorem swapIfInBounds_perm (d : Array α) (i j : Nat) : (d.swapIfInBounds i j).Perm d := by
  rw [Array.swapIfInBounds_def]
  split
  · split
    · exact Array.swap_perm _ _
    · exact .refl d
  · exact .refl d

theorem siftUp_perm (d : Array α) (i : Nat) : (siftUp key d i).Perm d := by
  fun_induction siftUp key d i with
  | case1 d i _ parent _ ih => exact ih.trans (swapIfInBounds_perm d i parent)
  | case2 => exact .refl _
  | case3 => exact .refl _

theorem siftDown_perm (d : Array α) (i : Nat) : (siftDown key d i).Perm d := by
  fun_induction siftDown key d i with
  | case1 d i _ j _ ih => exact ih.trans (swapIfInBounds_perm d i j)
  | case2 => exact .refl _
  | case3 => exact .refl _

theorem push_perm (w : WorkList α) (a : α) :
    (w.push key a).items.toList.Perm (a :: w.items.toList) := by
  have h := Array.perm_iff_toList_perm.mp (@siftUp_perm α key (w.items.push a) w.items.size)
  rw [Array.toList_push] at h
  exact h.trans (List.perm_append_singleton a _)

theorem foldl_push_perm (as : List α) (w : WorkList α) :
    (as.foldl (push key) w).items.toList.Perm (as ++ w.items.toList) := by
  induction as generalizing w with
  | nil => exact .refl _
  | cons a as ih =>
    refine (ih (w.push key a)).trans ?_
    exact ((push_perm w a).append_left as).trans List.perm_middle

theorem pop?_eq_none {w : WorkList α} (h : w.pop? key = none) : w.items.toList = [] := by
  unfold pop? at h
  split at h
  · cases h
  · rename_i hne
    by_contra hitems
    obtain ⟨a, as, heq⟩ := List.exists_cons_of_ne_nil hitems
    have hfirst : w.items[0]? = some a := by simp [← Array.getElem?_toList, heq]
    have hsome : w.items.back?.isSome := by
      simp [Array.back?, ← Array.length_toList, heq]
    obtain ⟨b, hb⟩ := Option.isSome_iff_exists.mp hsome
    exact hne a b hfirst hb

theorem pop?_perm {w w' : WorkList α} {a : α} (h : w.pop? key = some (a, w')) :
    w.items.toList.Perm (a :: w'.items.toList) := by
  unfold pop? at h
  split at h
  · rename_i first last hfirst hlast
    obtain ⟨rfl, rfl⟩ := Prod.mk.inj (Option.some.inj h)
    -- the first element, those in the middle, and the last one
    obtain ⟨tail, htail⟩ : ∃ tail, w.items.toList = first :: tail := by
      rw [← Array.getElem?_toList] at hfirst
      cases hitems : w.items.toList with
      | nil => simp [hitems] at hfirst
      | cons b tail => exact ⟨tail, by simpa [hitems] using hfirst⟩
    have hpop : w.items.pop.toList = (first :: tail).dropLast := by rw [Array.toList_pop, htail]
    rw [htail]
    rcases List.eq_nil_or_concat' tail with rfl | ⟨middle, b, rfl⟩
    · have hempty : w.items.pop = #[] := by
        rw [← Array.toList_inj, hpop]
        rfl
      simp [hempty]
    · obtain rfl : b = last := by
        rw [Array.back?_eq_getElem?, ← Array.getElem?_toList, ← Array.length_toList, htail] at hlast
        simpa using hlast
      have hset : (w.items.pop.set! 0 b).toList = b :: middle := by
        rw [Array.set!_eq_setIfInBounds, Array.toList_setIfInBounds, hpop, ← List.cons_append,
          List.dropLast_concat, List.set_cons_zero]
      have hne : w.items.pop.isEmpty = false := by
        rw [← Array.isEmpty_toList, hpop, ← List.cons_append, List.dropLast_concat]
        rfl
      have hsift := Array.perm_iff_toList_perm.mp
        (@siftDown_perm α key (w.items.pop.set! 0 b) 0)
      rw [hset] at hsift
      simp only [hne, Bool.false_eq_true, if_false]
      exact ((List.perm_append_singleton b middle).trans hsift.symm).cons first
  · cases h

end ScriptMachine.WorkList
