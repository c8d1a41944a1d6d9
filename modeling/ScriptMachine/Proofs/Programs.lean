import Mathlib.Data.List.Nodup
import ScriptMachine.Code.Program

/-!
# Programs that are built function by function

A program that starts empty and gets its functions by `Program.add` has one function for each name,
and its order names exactly these.
-/

namespace ScriptMachine.Program

/-- One function for each name, and the names in order. -/
structure WellNamed (p : Program) : Prop where
  order : p.order = p.funcs.map (·.name)
  nodup : (p.funcs.map (·.name)).Nodup

variable {p : Program} {f g : Func} {name : String}

theorem func?_eq_some (h : p.func? name = some f) : f ∈ p.funcs ∧ f.name = name :=
  ⟨List.mem_of_find?_eq_some h, by simpa using List.find?_some h⟩

/-- A function that a program finds under its own name. -/
def Defines (p : Program) (f : Func) : Prop := p.func? f.name = some f

theorem defines_of_func? (h : p.func? name = some f) : p.Defines f := by
  rw [Defines, (func?_eq_some h).2, h]

theorem func?_eq_none_iff : p.func? name = none ↔ ∀ f ∈ p.funcs, f.name ≠ name := by
  simp [func?]

theorem WellNamed.func? (hp : p.WellNamed) (hf : f ∈ p.funcs) : p.func? f.name = some f := by
  cases h : p.func? f.name with
  | none => exact absurd rfl (func?_eq_none_iff.mp h f hf)
  | some g =>
    obtain ⟨hg, hname⟩ := func?_eq_some h
    rw [List.inj_on_of_nodup_map hp.nodup hg hf hname]

/-! ## Adding functions -/

theorem mem_add (h : g ∈ (p.add f).funcs) : g ∈ p.funcs ∧ g.name ≠ f.name ∨ g = f := by
  unfold add at h
  split at h
  · obtain ⟨g', hg', heq⟩ := List.mem_map.mp h
    split at heq
    · exact .inr heq.symm
    · rename_i hne
      exact .inl (heq ▸ ⟨hg', by simpa using hne⟩)
  · rename_i hnone
    rcases List.mem_append.mp h with h | h
    · exact .inl ⟨h, func?_eq_none_iff.mp hnone g h⟩
    · exact .inr (List.mem_singleton.mp h)

theorem wellNamed_empty : ({} : Program).WellNamed := ⟨rfl, List.nodup_nil⟩

theorem WellNamed.add (hp : p.WellNamed) (f : Func) : (p.add f).WellNamed := by
  unfold Program.add
  split
  · have hmap : (p.funcs.map fun g => if g.name == f.name then f else g).map (·.name) =
        p.funcs.map (·.name) := by
      rw [List.map_map]
      refine List.map_congr_left fun g _ => ?_
      simp only [Function.comp_apply]
      split
      · rename_i h
        exact (beq_iff_eq.mp h).symm
      · rfl
    exact ⟨by rw [hmap]; exact hp.order, by rw [hmap]; exact hp.nodup⟩
  · rename_i h
    refine ⟨by simp [hp.order], ?_⟩
    rw [List.map_append, List.map_singleton, List.nodup_append]
    refine ⟨hp.nodup, List.nodup_singleton _, fun n hn m hm heq => ?_⟩
    obtain ⟨g, hg, rfl⟩ := List.mem_map.mp hn
    exact func?_eq_none_iff.mp h g hg (heq.trans (List.mem_singleton.mp hm))

theorem mem_add_self (p : Program) (f : Func) : f ∈ (p.add f).funcs := by
  unfold add
  split
  · rename_i g h
    obtain ⟨hg, hname⟩ := func?_eq_some h
    exact List.mem_map.mpr ⟨g, hg, by simp [hname]⟩
  · simp

theorem wellNamed_foldl (fs : List Func) : (fs.foldl add {}).WellNamed := by
  have : ∀ p : Program, p.WellNamed → (fs.foldl add p).WellNamed := by
    induction fs with
    | nil => exact fun p hp => hp
    | cons f fs ih => exact fun p hp => ih (p.add f) (hp.add f)
  exact this {} wellNamed_empty

end ScriptMachine.Program
