import ScriptMachine.Proofs.Lowering.Shape
import ScriptMachine.Tree

/-!
# The flow of a tree

`Node.flow` says of a tree, without lowering it, how a block stands behind its code: control reaches
the end, the block has ended, or it is broken. A return or a throw ends the block; the statements
behind it are dropped. Wherever a value is used, more code follows, so there a return or a throw
breaks the block. The bodies of closures, cases and guarded sections are blocks of their own.
-/

namespace ScriptMachine

/-- A block behind code whose parts all have to be live. -/
def Flow.ofLive (p : Prop) [Decidable p] : Flow := if p then .live else .broken

mutual

/-- How a block stands behind the code of a node. -/
def Node.flow : Node → Flow
  | .absent | .number .. | .string .. | .word .. | .other .. | .func .. => .live
  | .program _ xs | .list _ xs => Node.flowOfStmts xs
  | .assign _ _ value => value.flow.next
  | .ret _ value | .throw _ value => value.flow.finish
  | .call _ callee xs => .ofLive (callee.flow = .live ∧ Node.allLive xs = true)
  | .command _ _ xs _ | .invoke _ _ xs => .ofLive (Node.allLive xs = true)
  | .binary _ left _ right => .ofLive (left.flow = .live ∧ right.flow = .live)
  | .closure _ _ _ body => .ofLive (body.flow ≠ .broken)
  | .choice _ scrutinee cs default =>
    .ofLive (scrutinee.flow = .live ∧ Node.casesSound cs = true ∧ default.flow ≠ .broken)
  | .guarded _ body cs cleanup =>
    .ofLive (body.flow ≠ .broken ∧ Node.clausesSound cs = true ∧ cleanup.flow ≠ .broken)

/-- The first statement that is not live decides. -/
def Node.flowOfStmts : List Node → Flow
  | [] => .live
  | x :: xs => if x.flow = .live then Node.flowOfStmts xs else x.flow

/-- Control gets through all arguments. -/
def Node.allLive : List Node → Bool
  | [] => true
  | x :: xs => x.flow = .live && Node.allLive xs

/-- No body of a case is broken. -/
def Node.casesSound : List Case → Bool
  | [] => true
  | .mk _ body :: cs => body.flow ≠ .broken && Node.casesSound cs

/-- No body of a clause is broken. -/
def Node.clausesSound : List Clause → Bool
  | [] => true
  | .mk _ _ body :: cs => body.flow ≠ .broken && Node.clausesSound cs

end

/-! ## Following the flow of a tree -/

/-- The flow `e'` behind code that started at `e` and whose value is in `r`, if the tree says `f`. If
the tree is broken, parts of the code may be missing, with a diagnostic, so that the block is not. -/
structure Flow.Follows (quiet : Prop) (f e : Flow) (r : Option Reg) (e' : Flow) : Prop
    extends Flow.Persists e e' where
  exact : e = .live → f ≠ .broken ∨ quiet → e' = f
  silent : e = .live → e' = .ended → r = none

/-- The flow behind code that is used for its values, if the tree says with `p` that control gets
through. -/
structure Flow.Lives (quiet p : Prop) (e e' : Flow) : Prop extends Flow.Persists e e' where
  iff : p ∨ quiet → (e' = .live ↔ e = .live ∧ p)

namespace Flow

variable {quiet p q : Prop} {e e₁ e₂ f : Flow} {r : Option Reg}

theorem ofLive_ne_broken_iff [Decidable p] : ofLive p ≠ .broken ↔ p := by
  unfold ofLive; split <;> simp_all

theorem Lives.refl (quiet : Prop) (e : Flow) : Lives quiet True e e :=
  { Persists.refl e with iff := fun _ => by simp }

theorem Lives.trans (h₁ : Lives quiet p e e₁) (h₂ : Lives quiet q e₁ e₂) :
    Lives quiet (p ∧ q) e e₂ where
  toPersists := h₁.toPersists.trans h₂.toPersists
  iff h := by
    rw [h₂.iff (h.imp And.right id), h₁.iff (h.imp And.left id), and_assoc]

theorem Lives.congr (h : Lives quiet p e e₁) (hpq : p ↔ q) : Lives quiet q e e₁ :=
  { h with iff := fun hq => by rw [h.iff (hq.imp hpq.mpr id), hpq] }

/-- What is used has to be live. -/
theorem Follows.lives (h : Follows quiet f e r e₁) : Lives quiet (f = .live) e e₁ where
  toPersists := h.toPersists
  iff hf := by
    constructor
    · intro he₁
      have he : e = .live := by
        by_contra he
        exact h.dead he he₁
      exact ⟨he, by rw [← h.exact he (hf.imp (by rintro rfl; decide) id), he₁]⟩
    · rintro ⟨he, hl⟩
      rw [h.exact he (.inl (by simp [hl])), hl]

/-- Behind an instruction that goes on, if it uses all that came before. -/
theorem Lives.follows_next [Decidable p] (h : Lives quiet p e e₁) (r : Option Reg) :
    Follows quiet (ofLive p) e r e₁.next where
  toPersists := h.toPersists.trans (persists_next e₁)
  exact he hf := by
    have hpq : p ∨ quiet := hf.imp ofLive_ne_broken_iff.mp id
    by_cases hp : p
    · have : e₁ = .live := (h.iff hpq).mpr ⟨he, hp⟩
      simp [this, ofLive, hp]
    · have : e₁ ≠ .live := fun hl => hp ((h.iff hpq).mp hl).2
      simp [next_eq_broken this, ofLive, hp]
  silent _ h' := absurd h' (next_ne_ended e₁)

/-- Behind a short circuit, whose right operand starts with a live block. -/
theorem Lives.follows_around [Decidable p] [Decidable q] (h₁ : Lives quiet p e e₁)
    (h₂ : Lives quiet q .live e₂) (r : Option Reg) :
    Follows quiet (ofLive (p ∧ q)) e r (e₁.around e₂) := by
  have h : Lives quiet (p ∧ q) e (if e₂ = .live then e₁ else .broken) := by
    refine ⟨⟨fun he => ?_, fun he => ?_⟩, fun hpq => ?_⟩
    · split
      · exact h₁.dead he
      · decide
    · split
      · exact h₁.broken he
      · rfl
    · have h₁' := h₁.iff (hpq.imp And.left id)
      have h₂' := h₂.iff (hpq.imp And.right id)
      split <;> simp_all
  have := h.follows_next r
  unfold around
  split at this <;> simp_all

/-- Behind an instruction that enters blocks with the flows `fs` at their ends. -/
theorem Lives.follows_enter [Decidable p] [Decidable q] (h : Lives quiet p e e₁) {fs : List Flow}
    (hfs : q ∨ quiet → ((∀ f ∈ fs, f = .ended) ↔ q)) (r : Option Reg) :
    Follows quiet (ofLive (p ∧ q)) e r (e₁.enter fs) := by
  have h : Lives quiet (p ∧ q) e (if ∀ f ∈ fs, f = .ended then e₁ else .broken) := by
    refine ⟨⟨fun he => ?_, fun he => ?_⟩, fun hpq => ?_⟩
    · split
      · exact h.dead he
      · decide
    · split
      · exact h.broken he
      · rfl
    · have h' := h.iff (hpq.imp And.left id)
      have hfs' := hfs (hpq.imp And.right id)
      split
      · rename_i hall
        rw [h', and_iff_left (hfs'.mp hall)]
      · rename_i hall
        have hq : ¬ q := fun hq => hall (hfs'.mpr hq)
        simp [hq]
  have := h.follows_next r
  unfold enter
  split at this
  · rename_i hall
    rwa [if_pos hall]
  · rename_i hall
    rwa [if_neg hall]

theorem Follows.sealed (h : Follows quiet f .live r e₁) :
    f ≠ .broken ∨ quiet → (e₁.sealed = .ended ↔ f ≠ .broken) := fun hf => by
  rw [sealed_eq_ended_iff, h.exact rfl hf]

theorem ofLive_congr [Decidable p] [Decidable q] (h : p ↔ q) : ofLive p = ofLive q := by
  simp [ofLive, h]

theorem Lives.of_not_quiet (h : Lives quiet p e e₁) (hn : ¬ quiet) (hqp : q → p) :
    Lives quiet q e e₁ where
  toPersists := h.toPersists
  iff hq := by
    have hq := hq.resolve_right hn
    simp [h.iff (.inl (hqp hq)), hq, hqp hq]

theorem follows_next (quiet : Prop) (e : Flow) (r : Option Reg) : Follows quiet .live e r e.next := by
  have := (Lives.refl quiet e).follows_next r
  simpa [ofLive] using this

/-- Behind an assignment of the value in `r`, which is loaded if there is none. -/
theorem Follows.assigned (h : Follows quiet f e r e₁) (q : Option Reg) :
    Follows quiet f.next e q (if r.isSome then e₁ else e₁.next) where
  toPersists := by
    split
    · exact h.toPersists
    · exact h.toPersists.trans (persists_next e₁)
  exact he hf := by
    have hf' : f ≠ .broken ∨ quiet := hf.imp (by rintro h rfl; exact h rfl) id
    obtain rfl := h.exact he hf'
    split
    · rename_i hr
      have : e₁ ≠ .ended := by
        intro h'
        simp [h.silent he h'] at hr
      cases e₁ <;> simp_all [next]
    · rfl
  silent he h' := by
    split at h'
    · rename_i hr
      simp [h.silent he h'] at hr
    · exact absurd h' (next_ne_ended e₁)

theorem Follows.finished (h : Follows quiet f e r e₁) : Follows quiet f.finish e none e₁.finish where
  toPersists := h.toPersists.trans (persists_finish e₁)
  exact he hf := by
    rw [h.exact he (hf.imp (by rintro h rfl; exact h rfl) id)]
  silent _ _ := rfl

theorem Follows.then_stmts {xs : List Node} {x : Node} (h₁ : Follows quiet x.flow e r e₁)
    (hne : e₁ ≠ .ended) {q : Option Reg} (h₂ : Follows quiet (Node.flowOfStmts xs) e₁ q e₂) :
    Follows quiet (Node.flowOfStmts (x :: xs)) e q e₂ where
  toPersists := h₁.toPersists.trans h₂.toPersists
  exact he hf := by
    rw [Node.flowOfStmts] at hf ⊢
    have hx : x.flow ≠ .broken ∨ quiet := hf.imp (fun h hb => by simp [hb] at h) id
    have he₁ := h₁.exact he hx
    split
    · rename_i hl
      rw [if_pos hl] at hf
      exact h₂.exact (he₁.trans hl) hf
    · rename_i hl
      have hb : e₁ = .broken := by cases e₁ <;> simp_all
      rw [← he₁, hb, h₂.broken hb]
  silent he h' := by
    refine h₂.silent ?_ h'
    have : e₁ ≠ .broken := fun hb => by simp [h₂.broken hb] at h'
    cases e₁ <;> simp_all

/-- Behind a statement that ended the block: the others are dropped. -/
theorem Follows.drop_stmts {xs : List Node} {x : Node} (h : Follows quiet x.flow e r e₁)
    (hne : e₁ ≠ .live) : Follows quiet (Node.flowOfStmts (x :: xs)) e r e₁ where
  toPersists := h.toPersists
  exact he hf := by
    rw [Node.flowOfStmts] at hf ⊢
    have he₁ := h.exact he (hf.imp (fun h hb => by simp [hb] at h) id)
    rw [if_neg (he₁ ▸ hne), he₁]
  silent := h.silent

end Flow

end ScriptMachine
