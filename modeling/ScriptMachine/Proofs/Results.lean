/-!
# Results that may be errors

How a computation that can fail comes to its end: a sequence ends well if both of its parts do, and
fails with the error of the first part that fails. `SameResult` compares two computations and
`AllGive` says what is true of a value that one of them ends with.
-/

namespace ScriptMachine

variable {ε α β σ : Type} {m : Except ε α} {f : α → Except ε β}

theorem bind_eq_ok_iff {b : β} : m >>= f = .ok b ↔ ∃ a, m = .ok a ∧ f a = .ok b := by
  cases m with
  | error e => simp [bind, Except.bind]
  | ok a => simp [bind, Except.bind]

theorem bind_eq_error_iff {e : ε} :
    m >>= f = .error e ↔ m = .error e ∨ ∃ a, m = .ok a ∧ f a = .error e := by
  cases m with
  | error e => simp [bind, Except.bind]
  | ok a => simp [bind, Except.bind]

/-- A result that is not an error. -/
def Succeeds (m : Except ε α) : Prop := ∃ a, m = .ok a

theorem exists_eq_ok : (∃ a, m = .ok a) ↔ Succeeds m := Iff.rfl

@[simp] theorem succeeds_ok {a : α} : Succeeds (.ok a : Except ε α) := ⟨a, rfl⟩

@[simp] theorem succeeds_pure {a : α} : Succeeds (pure a : Except ε α) := ⟨a, rfl⟩

@[simp] theorem not_succeeds_error {e : ε} : ¬ Succeeds (.error e : Except ε α) := by
  rintro ⟨a, h⟩
  cases h

@[simp] theorem succeeds_map {g : α → β} : Succeeds (m.map g) ↔ Succeeds m := by
  cases m with
  | error e => simp [Except.map]
  | ok a => simp [Except.map]

@[simp] theorem succeeds_fmap {g : α → β} : Succeeds (g <$> m) ↔ Succeeds m := succeeds_map

theorem succeeds_bind : Succeeds (m >>= f) ↔ ∃ a, m = .ok a ∧ Succeeds (f a) := by
  cases m with
  | error e => simp [bind, Except.bind]
  | ok a => simp [bind, Except.bind]

/-- A sequence whose second part succeeds or fails whatever the first one gives. -/
theorem succeeds_bind_and {Q : Prop} (h : ∀ a, Succeeds (f a) ↔ Q) :
    Succeeds (m >>= f) ↔ Succeeds m ∧ Q := by
  simp [succeeds_bind, h, exists_eq_ok]

theorem succeeds_mapM {as : List α} : Succeeds (as.mapM f) ↔ ∀ a ∈ as, Succeeds (f a) := by
  induction as with
  | nil => simp
  | cons a as ih => simp [succeeds_bind, ih, exists_eq_ok]

/-- A fold that ends well in a state with `P`, where a step does so just if its start has `P` and
its element has `Q`. -/
theorem foldlM_eq_ok_iff {step : σ → α → Except ε σ} {P : σ → Prop} {Q : α → Prop}
    (h : ∀ s a, (∃ t, step s a = .ok t ∧ P t) ↔ P s ∧ Q a) (as : List α) (s : σ) :
    (∃ t, as.foldlM step s = .ok t ∧ P t) ↔ P s ∧ ∀ a ∈ as, Q a := by
  induction as generalizing s with
  | nil => exact ⟨fun ⟨t, ht, hP⟩ => ⟨Except.ok.inj ht ▸ hP, by simp⟩, fun h => ⟨s, rfl, h.1⟩⟩
  | cons a as ih =>
    simp only [List.foldlM_cons, bind_eq_ok_iff, List.mem_cons, forall_eq_or_imp]
    constructor
    · rintro ⟨t, ⟨u, hu, hfold⟩, hP⟩
      obtain ⟨hPu, hQ⟩ := (ih u).mp ⟨t, hfold, hP⟩
      obtain ⟨hPs, hQa⟩ := (h s a).mp ⟨u, hu, hPu⟩
      exact ⟨hPs, hQa, hQ⟩
    · rintro ⟨hPs, hQa, hQ⟩
      obtain ⟨u, hu, hPu⟩ := (h s a).mpr ⟨hPs, hQa⟩
      obtain ⟨t, hfold, hP⟩ := (ih u).mpr ⟨hPu, hQ⟩
      exact ⟨t, ⟨u, hu, hfold⟩, hP⟩

/-- A fold whose steps fail by their element alone fails as the first of them does. -/
theorem foldlM_eq_error_iff {step : σ → α → Except ε σ} {fails : α → Option ε}
    (h : ∀ s a e, step s a = .error e ↔ fails a = some e) (as : List α) (s : σ) (e : ε) :
    as.foldlM step s = .error e ↔ as.findSome? fails = some e := by
  induction as generalizing s with
  | nil => simp [pure, Except.pure]
  | cons a as ih =>
    rw [List.foldlM_cons, bind_eq_error_iff, h, List.findSome?_cons]
    cases hstep : step s a with
    | error e' =>
      rw [(h s a e').mp hstep]
      simp
    | ok t =>
      have hfails : fails a = none := Option.eq_none_iff_forall_ne_some.mpr fun e' he' => by
        rw [(h s a e').mpr he'] at hstep
        cases hstep
      simp [hfails, ih]

/-! ## Two results -/

/-- Two results with the same value, or two errors. -/
inductive SameResult : Except ε α → Except ε α → Prop
  | ok (a : α) : SameResult (.ok a) (.ok a)
  | error (e e' : ε) : SameResult (.error e) (.error e')

theorem sameResult_iff {r r' : Except ε α} : SameResult r r' ↔ ∀ a, r = .ok a ↔ r' = .ok a := by
  constructor
  · intro h a
    cases h with
    | ok b => rfl
    | error e e' => simp
  · intro h
    cases r with
    | ok a =>
      rw [(h a).mp rfl]
      exact .ok a
    | error e =>
      cases r' with
      | ok a => simpa using (h a).mpr rfl
      | error e' => exact .error e e'

theorem sameResult_of_not_succeeds {r r' : Except ε α} (h : ¬ Succeeds r) (h' : ¬ Succeeds r') :
    SameResult r r' :=
  sameResult_iff.mpr fun a => iff_of_false (fun ha => h ⟨a, ha⟩) fun ha => h' ⟨a, ha⟩

namespace SameResult

variable {r r' : Except ε α}

protected theorem refl (r : Except ε α) : SameResult r r := by
  cases r with
  | error e => exact .error e e
  | ok a => exact .ok a

theorem bind {k k' : α → Except ε β} (h : SameResult r r') (hk : ∀ a, SameResult (k a) (k' a)) :
    SameResult (r >>= k) (r' >>= k') := by
  cases h with
  | ok a => exact hk a
  | error e e' => exact .error e e'

theorem map (g : α → β) (h : SameResult r r') : SameResult (r.map g) (r'.map g) := by
  cases h with
  | ok a => exact .ok (g a)
  | error e e' => exact .error e e'

end SameResult

/-! ## The value of a result -/

/-- All that a computation may give has `Q`. -/
def AllGive {ε α : Type} (m : Except ε α) (Q : α → Prop) : Prop := ∀ a, m = .ok a → Q a

section

variable {P Q : α → Prop} {R : β → Prop}

theorem allGive_ok {a : α} (h : Q a) : AllGive (.ok a : Except ε α) Q :=
  fun _ hb => Except.ok.inj hb ▸ h

theorem allGive_error {e : ε} : AllGive (.error e : Except ε α) Q := fun _ h => by cases h

theorem allGive_bind (h : ∀ a, m = .ok a → AllGive (f a) R) : AllGive (m >>= f) R := by
  intro b hb
  obtain ⟨a, ha, hf⟩ := bind_eq_ok_iff.mp hb
  exact h a ha b hf

theorem allGive_map {g : α → β} (h : AllGive m fun a => R (g a)) : AllGive (m.map g) R := by
  cases m with
  | error e => exact allGive_error
  | ok a => exact allGive_ok (h a rfl)

theorem AllGive.mono (h : AllGive m P) (hPQ : ∀ a, P a → Q a) : AllGive m Q :=
  fun a ha => hPQ a (h a ha)

theorem AllGive.bind (h : AllGive m P) (hf : ∀ a, P a → AllGive (f a) R) : AllGive (m >>= f) R :=
  allGive_bind fun a ha => hf a (h a ha)

end

end ScriptMachine
