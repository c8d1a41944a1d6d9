import Mathlib.Data.List.Nodup
import ScriptMachine.Proofs.Lowering.Growth
import ScriptMachine.Proofs.Renaming.Alike

/-!
# Links between two functions under construction

A tree is lowered twice, in one function with what closures list as captures and in the other one
without. The first one is ahead: at any time it has captured all that the second one has, and maybe more.
A link says which registers of the first function the registers of the second one stand for.

1. A register that only the first function has captured a name into has no partner, until the second one
   captures the name as well. If that does not happen before its closure is done, the register is spare:
   no code looks at it.
2. `Link.Around` relates the closures around the code at hand, level by level.
3. Looking a name up in both functions gives registers that are paired (`scopes_resolve`). Looking it up
   in the first one alone keeps what is linked (`scopes_resolve_ahead`).
-/

namespace ScriptMachine

/-- The registers of two functions: `pairs` are the partners of the registers of the second one, in order,
and `spare` are registers of the first one that never get a partner. -/
structure Link where
  pairs : List Reg := []
  spare : Set Reg := ∅

namespace Link

/-! ## Pairs -/

def Pairs (L : Link) (r r' : Reg) : Prop := 0 ≤ r'.index ∧ L.pairs[r'.index.toNat]? = some r

/-- A link of functions with `n` and `n'` registers. -/
structure Fits (L : Link) (n n' : Int) : Prop where
  length : (L.pairs.length : Int) = n'
  nodup : L.pairs.Nodup
  range : ∀ r ∈ L.pairs, r.index < n
  spare : ∀ r ∈ L.spare, r.index < n ∧ r ∉ L.pairs

/-- Pairs stay pairs, and what is spare stays spare. -/
structure Le (L M : Link) : Prop where
  pairs : L.pairs <+: M.pairs
  spare : L.spare ⊆ M.spare

/-- The next register of the second function gets a partner. -/
def push (L : Link) (r : Reg) : Link := { L with pairs := L.pairs ++ [r] }

variable {L M N : Link} {n n' m : Int} {r r' : Reg}

theorem Le.refl (L : Link) : L.Le L := ⟨List.prefix_rfl, subset_rfl⟩

theorem Le.trans (h₁ : L.Le M) (h₂ : M.Le N) : L.Le N :=
  ⟨h₁.pairs.trans h₂.pairs, h₁.spare.trans h₂.spare⟩

theorem le_push (L : Link) (r : Reg) : L.Le (L.push r) := ⟨List.prefix_append _ _, subset_rfl⟩

theorem Pairs.mem (h : L.Pairs r r') : r ∈ L.pairs := List.mem_of_getElem? h.2

theorem Pairs.mono (hLM : L.Le M) (h : L.Pairs r r') : M.Pairs r r' := by
  obtain ⟨rest, hrest⟩ := hLM.pairs
  refine ⟨h.1, ?_⟩
  rw [← hrest]
  exact List.getElem?_append_left (List.getElem?_eq_some_iff.mp h.2).1 ▸ h.2

section
variable (h : L.Fits n n')
include h

theorem Fits.biUnique : Relator.BiUnique L.Pairs := by
  constructor
  · intro r q r' hr hq
    exact Option.some.inj (hr.2.symm.trans hq.2)
  · rintro r ⟨i⟩ ⟨j⟩ hi hj
    have hlen := (List.getElem?_eq_some_iff.mp hi.2).1
    have heq := (List.getElem?_inj hlen h.nodup).mp (hi.2.trans hj.2.symm)
    have h₀ := hi.1
    have h₁ := hj.1
    simp only [Reg.mk.injEq] at *
    omega

theorem Fits.mono (hnm : n ≤ m) : L.Fits m n' :=
  { h with
    range := fun r hr => lt_of_lt_of_le (h.range r hr) hnm
    spare := fun r hr => ⟨lt_of_lt_of_le (h.spare r hr).1 hnm, (h.spare r hr).2⟩ }

/-- A new register has no partner, and is not spare. -/
theorem Fits.not_mem_pairs : (⟨n⟩ : Reg) ∉ L.pairs := fun hr =>
  absurd (h.range _ hr) (lt_irrefl n)

theorem Fits.not_mem_spare : (⟨n⟩ : Reg) ∉ L.spare := fun hr =>
  absurd (h.spare _ hr).1 (lt_irrefl n)

theorem Fits.push (hr : r ∉ L.pairs) (hspare : r ∉ L.spare) (hm : r.index < m)
    (hnm : n ≤ m) : (L.push r).Fits m (n' + 1) where
  length := by
    have := h.length
    simp only [Link.push, List.length_append, List.length_singleton]
    omega
  nodup := by
    rw [Link.push, List.nodup_append]
    exact ⟨h.nodup, List.nodup_singleton r, fun q hq p hp => by
      rw [List.mem_singleton.mp hp]
      rintro rfl
      exact hr hq⟩
  range q hq := by
    rcases List.mem_append.mp hq with hq | hq
    · exact lt_of_lt_of_le (h.range q hq) hnm
    · rwa [List.mem_singleton.mp hq]
  spare q hq := by
    refine ⟨lt_of_lt_of_le (h.spare q hq).1 hnm, fun hmem => ?_⟩
    rcases List.mem_append.mp hmem with hmem | hmem
    · exact (h.spare q hq).2 hmem
    · rw [List.mem_singleton.mp hmem] at hq
      exact hspare hq

theorem Fits.pairs_push (r : Reg) : (L.push r).Pairs r ⟨n'⟩ := by
  have hlen := h.length
  refine ⟨by simp only; omega, ?_⟩
  have : n'.toNat = L.pairs.length := by omega
  simp [Link.push, this]

end

/-! ## Captures -/

/-- What two closures captured when they are done: what the second one has, the first one has too, and
all else is spare. -/
structure Captures (L : Link) (cs cs' : List (Capture Value)) : Prop where
  nodup : (cs.map (·.reg)).Nodup
  left : ∀ c ∈ cs, c.reg ∈ L.spare ∨ ∃ c' ∈ cs', L.Pairs c.reg c'.reg
  right : ∀ c' ∈ cs', ∃ c ∈ cs, L.Pairs c.reg c'.reg ∧ c.value.Alike L.Pairs c'.value

theorem Captures.mono {cs cs' : List (Capture Value)} (hLM : L.Le M) (h : L.Captures cs cs') :
    M.Captures cs cs' where
  nodup := h.nodup
  left c hc := (h.left c hc).imp (fun hs => hLM.spare hs) fun ⟨c', hc', hp⟩ => ⟨c', hc', hp.mono hLM⟩
  right c' hc' := by
    obtain ⟨c, hc, hp, hv⟩ := h.right c' hc'
    exact ⟨c, hc, hp.mono hLM, hv.mono fun _ _ hp => hp.mono hLM⟩

theorem Captures.same {cs cs' : List (Capture Value)} (h : L.Captures cs cs') (hL : L.Fits n n') :
    SameCaptures L.Pairs cs cs' where
  regs r r' hp := by
    constructor
    · intro hr
      obtain ⟨c, hc, rfl⟩ := List.mem_map.mp hr
      rcases h.left c hc with hspare | ⟨c', hc', hp'⟩
      · exact absurd hp.mem (hL.spare _ hspare).2
      · exact List.mem_map.mpr ⟨c', hc', hL.biUnique.2 hp' hp⟩
    · intro hr'
      obtain ⟨c', hc', rfl⟩ := List.mem_map.mp hr'
      obtain ⟨c, hc, hp', -⟩ := h.right c' hc'
      exact List.mem_map.mpr ⟨c, hc, hL.biUnique.1 hp' hp⟩
  values c hc c' hc' hp := by
    obtain ⟨d, hd, hp', hv⟩ := h.right c' hc'
    have hreg : d.reg = c.reg := hL.biUnique.1 hp' hp
    rwa [List.inj_on_of_nodup_map h.nodup hd hc hreg] at hv

/-! ## Names -/

/-- The same names, for paired registers. -/
def Names (L : Link) : ScriptMachine.Names → ScriptMachine.Names → Prop :=
  List.Forall₂ fun p p' => p.1 = p'.1 ∧ L.Pairs p.2 p'.2

section
variable {ns ns' before before' : ScriptMachine.Names}

theorem Names.mono (hLM : L.Le M) (h : L.Names ns ns') : M.Names ns ns' :=
  List.Forall₂.imp (fun _ _ hp => ⟨hp.1, hp.2.mono hLM⟩) h

theorem Names.get? (h : L.Names ns ns') (name : String) :
    Option.Rel L.Pairs (ns.get? name) (ns'.get? name) := by
  induction h with
  | nil => exact .none
  | @cons p p' ns ns' hp _ ih =>
    obtain ⟨x, r⟩ := p
    obtain ⟨x', r'⟩ := p'
    obtain ⟨rfl, hp⟩ := hp
    rw [ScriptMachine.Names.get?_cons, ScriptMachine.Names.get?_cons]
    split
    · exact .some hp
    · exact ih

theorem Names.bind (h : L.Names ns ns') (name : String) (hr : L.Pairs r r') :
    L.Names (ns.bind name r) (ns'.bind name r') := by
  refine .cons ⟨rfl, hr⟩ ?_
  induction h with
  | nil => exact .nil
  | @cons p p' ns ns' hp _ ih =>
    rw [List.filter_cons, List.filter_cons, ← hp.1]
    split
    · exact .cons hp ih
    · exact ih

theorem Names.keys_eq (h : L.Names ns ns') : ns.map (·.1) = ns'.map (·.1) := by
  induction h with
  | nil => rfl
  | cons hp _ ih => rw [List.map_cons, List.map_cons, hp.1, ih]

theorem Names.regs (h : L.Names ns ns') : List.Forall₂ L.Pairs (ns.map (·.2)) (ns'.map (·.2)) := by
  rw [List.forall₂_map_left_iff, List.forall₂_map_right_iff]
  exact List.Forall₂.imp (fun _ _ hp => hp.2) h

/-- The same names have changed, since no register has two partners. -/
theorem Names.changed_eq (hL : L.Fits n n') (h : L.Names ns ns') (hb : L.Names before before') :
    ns.changed before = ns'.changed before' := by
  unfold ScriptMachine.Names.changed
  congr 1
  induction h with
  | nil => rfl
  | @cons p p' ns ns' hp _ ih =>
    obtain ⟨x, r⟩ := p
    obtain ⟨x', r'⟩ := p'
    obtain ⟨rfl, hp⟩ := hp
    have hsame : (before.get? x != some r) = (before'.get? x != some r') := by
      have hget := hb.get? x
      generalize before.get? x = o at hget
      generalize before'.get? x = o' at hget
      cases hget with
      | none => rfl
      | @some q q' hq =>
        have hiff : q = r ↔ q' = r' := by
          constructor
          · rintro rfl
            exact hL.biUnique.2 hq hp
          · rintro rfl
            exact hL.biUnique.1 hq hp
        rw [Bool.eq_iff_iff]
        simp [hiff]
    simp only [List.filter_cons, hsame]
    split
    · rw [List.map_cons, List.map_cons, ih]
    · exact ih

end

end Link

/-! ## Looking names up -/

/-- The register that a name stands for without capturing it. -/
def visible (name : String) (names : Names) : List Enclosure → Option Reg
  | [] => names.get? name
  | e :: _ => (names.get? name).or (e.bound.get? name)

section
variable {name other : String} {names names' : Names} {es : List Enclosure} {r : Reg}

theorem resolve_of_visible (h : visible name names es = some r) (f : Func) :
    resolve name f names es = (some r, f, es) := by
  cases es with
  | nil =>
    rw [visible] at h
    rw [resolve, h]
  | cons e es =>
    rw [visible] at h
    rw [resolve, h]

theorem visible_resolve {f : Func} (h : (resolve name f names es).1 = some r) :
    visible name names (resolve name f names es).2.2 = some r := by
  cases es with
  | nil => exact h
  | cons e es =>
    unfold resolve at h ⊢
    cases hhere : (names.get? name).or (e.bound.get? name) with
    | some q =>
      rw [hhere] at h
      simp only [visible, hhere]
      exact h
    | none =>
      rw [hhere] at h
      rcases hr : resolve name f e.outer es with ⟨_ | o, f', es'⟩
      · rw [hr] at h
        cases h
      · rw [hr] at h
        rw [Option.or_eq_none_iff] at hhere
        simp only [visible, hhere.1, Option.none_or, Enclosure.capture, Names.get?_bind, if_true]
        exact h

/-- What can be seen stays as it is when other names are looked up. -/
theorem visible_of_visible (h : visible other names es = some r) (f : Func) :
    visible other names (resolve name f names' es).2.2 = some r := by
  cases es with
  | nil => exact h
  | cons e es =>
    unfold resolve
    cases hhere : (names'.get? name).or (e.bound.get? name) with
    | some q => exact h
    | none =>
      rcases hr : resolve name f e.outer es with ⟨_ | o, f', es'⟩
      · exact h
      · rw [Option.or_eq_none_iff] at hhere
        simp only [visible, Enclosure.capture, Names.get?_bind] at h ⊢
        split
        · rename_i heq
          rw [heq, hhere.2, Option.or_none] at h
          rw [heq, h]
          rfl
        · exact h

end

/-- The registers that closures captured into. -/
def capturedIn (es : List Enclosure) : List Reg := es.flatMap fun e => e.captures.map (·.reg)

@[simp] theorem capturedIn_cons (e : Enclosure) (es : List Enclosure) :
    capturedIn (e :: es) = e.captures.map (·.reg) ++ capturedIn es := rfl

/-- Closures with more captures have them in new registers. -/
theorem mem_capturedIn_of_grow {n : Int} {es es' : List Enclosure} (h : Enclosing.Grow n es es') {r : Reg}
    (hr : r ∈ capturedIn es') : r ∈ capturedIn es ∨ n ≤ r.index := by
  induction h with
  | nil => cases hr
  | cons he _ ih =>
    rw [capturedIn_cons, List.mem_append] at hr ⊢
    rcases hr with hr | hr
    · obtain ⟨c, hc, rfl⟩ := List.mem_map.mp hr
      rcases he.fresh c hc with hold | hnew
      · exact .inl (.inl (List.mem_map.mpr ⟨c, hold, rfl⟩))
      · exact .inr hnew
    · exact (ih hr).imp .inr id

/-! ## Levels -/

namespace Link

/-- A closure on both sides, in closures `es` on the first. What the second one captured, the first one
captured too. A name that only the first one captured has a register without a partner, and can be seen
outside. -/
structure Level (L : Link) (es : List Enclosure) (e e' : Enclosure) : Prop where
  outer : L.Names e.outer e'.outer
  mem : ∀ name r, e.bound.get? name = some r → r ∈ e.captures.map (·.reg)
  inj : ∀ name other r, e.bound.get? name = some r → e.bound.get? other = some r → name = other
  found : ∀ name r', e'.bound.get? name = some r' → ∃ r, e.bound.get? name = some r ∧ L.Pairs r r'
  ahead : ∀ name r, e.bound.get? name = some r → e'.bound.get? name = none →
    r ∉ L.pairs ∧ ∃ o, visible name e.outer es = some o ∧ ⟨.reg o, r⟩ ∈ e.captures
  left : ∀ c ∈ e.captures, c.reg ∈ L.pairs → ∃ c' ∈ e'.captures, L.Pairs c.reg c'.reg
  right : ∀ c' ∈ e'.captures, ∃ c ∈ e.captures, L.Pairs c.reg c'.reg ∧ c.value.Alike L.Pairs c'.value

/-- The closures around the code at hand, on both sides. -/
inductive Around (L : Link) : List Enclosure → List Enclosure → Prop
  | nil : L.Around [] []
  | cons {e e' es es'} (he : L.Level es e e') (hes : L.Around es es') : L.Around (e :: es) (e' :: es')

/-- The closures around the code at hand, where the first function has `n` registers. No register is
captured into twice. -/
structure Scopes (L : Link) (n : Int) (es es' : List Enclosure) : Prop where
  around : L.Around es es'
  nodup : (capturedIn es).Nodup
  range : ∀ r ∈ capturedIn es, r.index < n ∧ r ∉ L.spare

/-- From `L` to `M` only registers from `n` on, and such as closures in `es` captured into, got
partners. -/
structure Settles (L M : Link) (n : Int) (es : List Enclosure) : Prop where
  le : L.Le M
  spare : M.spare = L.spare
  new : ∀ r ∈ M.pairs, r ∈ L.pairs ∨ n ≤ r.index ∨ r ∈ capturedIn es

variable {L M : Link} {n n' m : Int} {e e' : Enclosure} {es es' es₁ es₁' : List Enclosure}
  {name : String} {r : Reg} {v v' : Value}

theorem Settles.refl (L : Link) (n : Int) (es : List Enclosure) : L.Settles L n es :=
  ⟨.refl L, rfl, fun _ => .inl⟩

namespace Level

/-- A level stays a level if none of its registers without a partner gets one. -/
theorem mono (h : L.Level es e e') (hLM : L.Le M)
    (hback : ∀ r ∈ e.captures.map (·.reg), r ∈ M.pairs → r ∈ L.pairs)
    (hvis : ∀ name r, visible name e.outer es = some r → visible name e.outer es₁ = some r) :
    M.Level es₁ e e' where
  outer := h.outer.mono hLM
  mem := h.mem
  inj := h.inj
  found name r' hr' := by
    obtain ⟨r, hr, hp⟩ := h.found name r' hr'
    exact ⟨r, hr, hp.mono hLM⟩
  ahead name r hr hnone := by
    obtain ⟨hfree, o, ho, hc⟩ := h.ahead name r hr hnone
    exact ⟨fun hmem => hfree (hback r (h.mem name r hr) hmem), o, hvis name o ho, hc⟩
  left c hc hmem := by
    obtain ⟨c', hc', hp⟩ := h.left c hc (hback _ (List.mem_map.mpr ⟨c, hc, rfl⟩) hmem)
    exact ⟨c', hc', hp.mono hLM⟩
  right c' hc' := by
    obtain ⟨c, hc, hp, hv⟩ := h.right c' hc'
    exact ⟨c, hc, hp.mono hLM, hv.mono fun _ _ hp => hp.mono hLM⟩

theorem mem_capture (h : L.Level es e e') (name : String) (v : Value) (other : String) (q : Reg)
    (hq : (e.capture name v r).bound.get? other = some q) :
    q ∈ (e.capture name v r).captures.map (·.reg) := by
  simp only [Enclosure.capture, Names.get?_bind, List.map_append, List.mem_append] at hq ⊢
  split at hq
  · cases hq
    exact .inr (by simp)
  · exact .inl (h.mem other q hq)

section
variable (h : L.Level es e e') (hr : r ∉ e.captures.map (·.reg))
include h hr

theorem inj_capture (name : String) (v : Value) (x y : String) (q : Reg)
    (hx : (e.capture name v r).bound.get? x = some q)
    (hy : (e.capture name v r).bound.get? y = some q) : x = y := by
  simp only [Enclosure.capture, Names.get?_bind] at hx hy
  split at hx
  · split at hy
    · simp_all
    · cases hx
      exact absurd (h.mem y r hy) hr
  · split at hy
    · cases hy
      exact absurd (h.mem x r hx) hr
    · exact h.inj x y q hx hy

/-- Only the first side captures a name, which can be seen outside. -/
theorem capture_ahead (hpair : r ∉ L.pairs) (hnone : e'.bound.get? name = none) {o : Reg}
    (ho : visible name e.outer es = some o) : L.Level es (e.capture name (.reg o) r) e' where
  outer := h.outer
  mem := h.mem_capture name _
  inj := h.inj_capture hr name _
  found other r' hr' := by
    obtain ⟨q, hq, hp⟩ := h.found other r' hr'
    have hne : other ≠ name := by
      rintro rfl
      rw [hnone] at hr'
      cases hr'
    refine ⟨q, ?_, hp⟩
    simp only [Enclosure.capture, Names.get?_bind, if_neg hne]
    exact hq
  ahead other q hq hnone' := by
    simp only [Enclosure.capture, Names.get?_bind] at hq ⊢
    split at hq
    · rename_i heq
      cases hq
      exact ⟨hpair, o, heq ▸ ho, List.mem_append_right _ (List.mem_singleton_self _)⟩
    · obtain ⟨hfree, o', ho', hc⟩ := h.ahead other q hq hnone'
      exact ⟨hfree, o', ho', List.mem_append_left _ hc⟩
  left c hc hmem := by
    rcases List.mem_append.mp hc with hc | hc
    · exact h.left c hc hmem
    · rw [List.mem_singleton.mp hc] at hmem
      exact absurd hmem hpair
  right c' hc' := by
    obtain ⟨c, hc, hcc⟩ := h.right c' hc'
    exact ⟨c, List.mem_append_left _ hc, hcc⟩

end

/-- The second side captures a name that the first side, now `e₁`, has captured, only now or before. -/
theorem capture_pair {e₁ : Enclosure} (h : L.Level es e e') (hL : L.Fits n n')
    (houter : e₁.outer = e.outer)
    (hmem : ∀ x q, e₁.bound.get? x = some q → q ∈ e₁.captures.map (·.reg))
    (hinj : ∀ x y q, e₁.bound.get? x = some q → e₁.bound.get? y = some q → x = y)
    (hr : e₁.bound.get? name = some r) (hothers : ∀ x ≠ name, e₁.bound.get? x = e.bound.get? x)
    (hc : ⟨v, r⟩ ∈ e₁.captures) (hold : e.captures ⊆ e₁.captures)
    (hnew : ∀ c ∈ e₁.captures, c ∈ e.captures ∨ c.reg = r) (hv : v.Alike (L.push r).Pairs v') :
    (L.push r).Level es e₁ (e'.capture name v' ⟨n'⟩) where
  outer := houter ▸ h.outer.mono (L.le_push r)
  mem := hmem
  inj := hinj
  found other r' hr' := by
    simp only [Enclosure.capture, Names.get?_bind] at hr'
    split at hr'
    · rename_i heq
      cases hr'
      exact ⟨r, heq ▸ hr, hL.pairs_push r⟩
    · rename_i hne
      obtain ⟨q, hq, hp⟩ := h.found other r' hr'
      exact ⟨q, (hothers other hne).trans hq, hp.mono (L.le_push r)⟩
  ahead other q hq hnone' := by
    simp only [Enclosure.capture, Names.get?_bind] at hnone'
    split at hnone'
    · cases hnone'
    · rename_i hne
      obtain ⟨hfree, o, ho, hco⟩ := h.ahead other q ((hothers other hne).symm.trans hq) hnone'
      refine ⟨fun hpair => ?_, o, houter ▸ ho, hold hco⟩
      rcases List.mem_append.mp hpair with hpair | hpair
      · exact hfree hpair
      · exact hne (hinj other name r (List.mem_singleton.mp hpair ▸ hq) hr)
  left c hc' hpair := by
    have hlast : c.reg = r → ∃ c' ∈ (e'.capture name v' ⟨n'⟩).captures, (L.push r).Pairs c.reg c'.reg :=
      fun heq => ⟨⟨v', ⟨n'⟩⟩, List.mem_append_right _ (List.mem_singleton_self _),
        heq ▸ hL.pairs_push r⟩
    rcases List.mem_append.mp hpair with hpair | hpair
    · rcases hnew c hc' with hc' | heq
      · obtain ⟨c', hc', hp⟩ := h.left c hc' hpair
        exact ⟨c', List.mem_append_left _ hc', hp.mono (L.le_push r)⟩
      · exact hlast heq
    · exact hlast (List.mem_singleton.mp hpair)
  right c' hc' := by
    rcases List.mem_append.mp hc' with hc' | hc'
    · obtain ⟨c, hc, hp, hv⟩ := h.right c' hc'
      exact ⟨c, hold hc, hp.mono (L.le_push r), hv.mono fun _ _ hp => hp.mono (L.le_push r)⟩
    · rw [List.mem_singleton.mp hc']
      exact ⟨⟨v, r⟩, hc, hL.pairs_push r, hv⟩

theorem capture_both (h : L.Level es e e') (hr : r ∉ e.captures.map (·.reg)) (hL : L.Fits n n')
    (name : String) (hv : v.Alike (L.push r).Pairs v') :
    (L.push r).Level es (e.capture name v r) (e'.capture name v' ⟨n'⟩) := by
  refine h.capture_pair hL rfl (h.mem_capture name v) (h.inj_capture hr name v) ?_ (fun x hx => ?_)
    (List.mem_append_right _ (List.mem_singleton_self _)) (List.subset_append_left _ _) (fun c hc => ?_) hv
  · simp only [Enclosure.capture, Names.get?_bind, if_pos]
  · simp only [Enclosure.capture, Names.get?_bind, if_neg hx]
  · rcases List.mem_append.mp hc with hc | hc
    · exact .inl hc
    · rw [List.mem_singleton.mp hc]
      exact .inr rfl

/-- The second side captures a name that the first one has captured already. -/
theorem capture_behind (h : L.Level es e e') (hL : L.Fits n n') (hr : e.bound.get? name = some r)
    {o o' : Reg} (hc : ⟨.reg o, r⟩ ∈ e.captures) (ho : L.Pairs o o') :
    (L.push r).Level es e (e'.capture name (.reg o') ⟨n'⟩) :=
  h.capture_pair hL rfl h.mem h.inj hr (fun _ _ => rfl) hc (List.Subset.refl _) (fun _ => .inl)
    (.reg (ho.mono (L.le_push r)))

end Level

/-! ## Scopes -/

theorem Around.mono (h : L.Around es es') (hLM : L.Le M)
    (hback : ∀ r ∈ capturedIn es, r ∈ M.pairs → r ∈ L.pairs) : M.Around es es' := by
  induction h with
  | nil => exact .nil
  | cons he _ ih =>
    rw [capturedIn_cons] at hback
    exact .cons (he.mono hLM (fun r hr => hback r (List.mem_append_left _ hr)) fun _ _ => id)
      (ih fun r hr => hback r (List.mem_append_right _ hr))

namespace Scopes

theorem mono (h : L.Scopes n es es') (hLM : L.Le M) (hnm : n ≤ m)
    (hback : ∀ r ∈ capturedIn es, r ∈ M.pairs → r ∈ L.pairs)
    (hspare : ∀ r ∈ capturedIn es, r ∉ M.spare) : M.Scopes m es es' where
  around := h.around.mono hLM hback
  nodup := h.nodup
  range r hr := ⟨lt_of_lt_of_le (h.range r hr).1 hnm, hspare r hr⟩

/-- A register that no closure captured into gets a partner. -/
theorem push (h : L.Scopes n es es') (hnm : n ≤ m) (hr : r ∉ capturedIn es) :
    (L.push r).Scopes m es es' := by
  refine h.mono (L.le_push r) hnm (fun q hq hmem => ?_) fun q hq => (h.range q hq).2
  rcases List.mem_append.mp hmem with hmem | hmem
  · exact hmem
  · exact absurd (List.mem_singleton.mp hmem ▸ hq) hr

theorem cons (he : L.Level es e e') (hes : L.Scopes n es es') (hnd : (e.captures.map (·.reg)).Nodup)
    (hregs : ∀ r ∈ e.captures.map (·.reg), (r.index < n ∧ r ∉ L.spare) ∧ r ∉ capturedIn es) :
    L.Scopes n (e :: es) (e' :: es') where
  around := .cons he hes.around
  nodup := by
    rw [capturedIn_cons, List.nodup_append]
    refine ⟨hnd, hes.nodup, ?_⟩
    rintro r hr q hq rfl
    exact (hregs r hr).2 hq
  range r hr := by
    rw [capturedIn_cons, List.mem_append] at hr
    rcases hr with hr | hr
    · exact (hregs r hr).1
    · exact hes.range r hr

theorem uncons (h : L.Scopes n (e :: es) (e' :: es')) :
    L.Level es e e' ∧ L.Scopes n es es' ∧ (e.captures.map (·.reg)).Nodup ∧
      ∀ r ∈ e.captures.map (·.reg), (r.index < n ∧ r ∉ L.spare) ∧ r ∉ capturedIn es := by
  obtain ⟨hnd, hnd', hdisj⟩ := List.nodup_append.mp (capturedIn_cons e es ▸ h.nodup)
  cases h.around with
  | cons he hes =>
    refine ⟨he, ⟨hes, hnd', fun r hr => h.range r (List.mem_append_right _ hr)⟩, hnd, fun r hr => ?_⟩
    exact ⟨h.range r (List.mem_append_left _ hr), fun hr' => hdisj r hr r hr' rfl⟩

theorem cons_capture (hs : L.Scopes n (e :: es) (e' :: es')) {e₁' : Enclosure}
    (he : M.Level es (e.capture name v ⟨n⟩) e₁') (hes : M.Scopes (n + 1) es es')
    (hspare : M.spare = L.spare) (hnew : ⟨n⟩ ∉ L.spare) :
    M.Scopes (n + 1) (e.capture name v ⟨n⟩ :: es) (e₁' :: es') := by
  obtain ⟨-, hes', hnd, hregs⟩ := hs.uncons
  refine .cons he hes ?_ fun q hq => ?_
  · simp only [Enclosure.capture, List.map_append, List.map_cons, List.map_nil]
    rw [List.nodup_append]
    refine ⟨hnd, List.nodup_singleton _, ?_⟩
    rintro q hq p hp rfl
    rw [List.mem_singleton.mp hp] at hq
    exact absurd (hregs _ hq).1.1 (lt_irrefl n)
  · simp only [Enclosure.capture, List.map_append, List.map_cons, List.map_nil, List.mem_append,
      List.mem_singleton] at hq
    rw [hspare]
    rcases hq with hq | rfl
    · exact ⟨⟨lt_trans (hregs q hq).1.1 (Int.lt_succ n), (hregs q hq).1.2⟩, (hregs q hq).2⟩
    · exact ⟨⟨Int.lt_succ n, hnew⟩, fun hq => absurd (hes'.range _ hq).1 (lt_irrefl n)⟩

theorem not_mem_captures (hs : L.Scopes n (e :: es) (e' :: es')) :
    (⟨n⟩ : Reg) ∉ e.captures.map (·.reg) := fun h =>
  absurd (hs.range _ (List.mem_append_left _ h)).1 (lt_irrefl n)

section
variable (hs : L.Scopes n (e :: es) (e' :: es')) (hL : L.Fits n n')
include hs hL

/-- Only the first side captures a name, which can be seen outside. -/
theorem capture_ahead (hnone : e'.bound.get? name = none) {o : Reg}
    (ho : visible name e.outer es = some o) :
    L.Scopes (n + 1) (e.capture name (.reg o) ⟨n⟩ :: es) (e' :: es') := by
  obtain ⟨he, hes, -, -⟩ := hs.uncons
  refine hs.cons_capture (he.capture_ahead hs.not_mem_captures ?_ hnone ho) ?_ rfl ?_
  · exact hL.not_mem_pairs
  · exact hes.mono (.refl L) (le_of_lt (Int.lt_succ n)) (fun _ _ => id) fun q hq => (hes.range q hq).2
  · exact hL.not_mem_spare

theorem capture_both (name : String) (hv : v.Alike L.Pairs v') :
    (L.push ⟨n⟩).Scopes (n + 1) (e.capture name v ⟨n⟩ :: es) (e'.capture name v' ⟨n'⟩ :: es') := by
  obtain ⟨he, hes, -, -⟩ := hs.uncons
  have hv' : v.Alike (L.push ⟨n⟩).Pairs v' := hv.mono fun _ _ hp => hp.mono (L.le_push _)
  refine hs.cons_capture (he.capture_both hs.not_mem_captures hL name hv') ?_ rfl ?_
  · exact hes.push (le_of_lt (Int.lt_succ n)) fun hq => absurd (hes.range _ hq).1 (lt_irrefl n)
  · exact hL.not_mem_spare

/-- The second side captures a name that the first one has captured already. -/
theorem capture_behind (hr : e.bound.get? name = some r) {o o' : Reg}
    (hc : ⟨.reg o, r⟩ ∈ e.captures) (ho : L.Pairs o o') :
    (L.push r).Scopes n (e :: es) (e'.capture name (.reg o') ⟨n'⟩ :: es') := by
  obtain ⟨he, hes, hnd, hregs⟩ := hs.uncons
  have hmem := he.mem name r hr
  exact .cons (he.capture_behind hL hr hc ho) (hes.push (le_refl n) (hregs r hmem).2) hnd hregs

end

end Scopes

/-! ## Names on both sides -/

section
variable {f f' : Func} {names names' : ScriptMachine.Names}

/-- A closure after names were looked up further outside. -/
theorem Scopes.resolved (hs : L.Scopes f.numRegs (e :: es) (e' :: es'))
    (hLM : L.Settles M f.numRegs es)
    (hM : M.Scopes (resolve name f e.outer es).2.1.numRegs (resolve name f e.outer es).2.2 es₁') :
    M.Scopes (resolve name f e.outer es).2.1.numRegs (e :: (resolve name f e.outer es).2.2)
      (e' :: es₁') := by
  obtain ⟨he, -, hnd, hregs⟩ := hs.uncons
  obtain ⟨hext, -, hgrow⟩ := resolve_grows name f e.outer es
  refine .cons (he.mono hLM.le (fun r hr hmem => ?_) fun other r h => visible_of_visible h f) hM hnd
    fun r hr => ⟨⟨lt_of_lt_of_le (hregs r hr).1.1 hext.numRegs, hLM.spare ▸ (hregs r hr).1.2⟩, ?_⟩
  · rcases hLM.new r hmem with hold | hnew | hin
    · exact hold
    · exact absurd (hregs r hr).1.1 (not_lt.mpr hnew)
    · exact absurd hin (hregs r hr).2
  · intro hmem
    rcases mem_capturedIn_of_grow hgrow hmem with hold | hnew
    · exact (hregs r hr).2 hold
    · exact absurd (hregs r hr).1.1 (not_lt.mpr hnew)

theorem scopes_resolve_ahead (name : String) (hL : L.Fits f.numRegs n')
    (hs : L.Scopes f.numRegs es es') :
    L.Scopes (resolve name f names es).2.1.numRegs (resolve name f names es).2.2 es' := by
  induction es generalizing names es' with
  | nil => exact hs
  | cons e es ih =>
    cases hs.around with
    | @cons _ e' _ es' =>
    obtain ⟨he, hes, -, -⟩ := hs.uncons
    have hrest : L.Scopes (resolve name f e.outer es).2.1.numRegs (resolve name f e.outer es).2.2 es' :=
      ih hes
    have hs₁ := hs.resolved (.refl L f.numRegs es) hrest
    have hL₁ := hL.mono (resolve_grows name f e.outer es).1.numRegs
    have hseen (o : Reg) (h : (resolve name f e.outer es).1 = some o) :
        visible name e.outer (resolve name f e.outer es).2.2 = some o := visible_resolve h
    unfold resolve
    cases hhere : (names.get? name).or (e.bound.get? name) with
    | some q => exact hs
    | none =>
      rcases hr : resolve name f e.outer es with ⟨_ | o, f₁, es₁⟩
      · rw [hr] at hs₁
        exact hs₁
      · rw [hr] at hs₁ hL₁ hseen
        have hnone : e'.bound.get? name = none := by
          cases hb : e'.bound.get? name with
          | none => rfl
          | some r' =>
            obtain ⟨q, hq, -⟩ := he.found name r' hb
            rw [hq, Option.or_eq_none_iff] at hhere
            cases hhere.2
        exact hs₁.capture_ahead hL₁ hnone (hseen o rfl)

/-- Looking a name up on both sides gives registers that are paired. -/
theorem scopes_resolve (name : String) (hL : L.Fits f.numRegs f'.numRegs)
    (hnames : L.Names names names') (hs : L.Scopes f.numRegs es es') :
    ∃ M : Link, L.Settles M f.numRegs es ∧
      M.Fits (resolve name f names es).2.1.numRegs (resolve name f' names' es').2.1.numRegs ∧
      M.Scopes (resolve name f names es).2.1.numRegs (resolve name f names es).2.2
        (resolve name f' names' es').2.2 ∧
      Option.Rel M.Pairs (resolve name f names es).1 (resolve name f' names' es').1 := by
  induction es generalizing names names' es' with
  | nil =>
    cases hs.around
    exact ⟨L, .refl L _ _, hL, hs, hnames.get? name⟩
  | cons e es ih =>
    cases hs.around with
    | @cons _ e' _ es' =>
    obtain ⟨he, hes, -, hregs⟩ := hs.uncons
    obtain ⟨M, hLM, hM, hMs, hrel⟩ := ih he.outer hes
    have hs₁ := hs.resolved hLM hMs
    have hnum := (resolve_grows name f e.outer es).1.numRegs
    have hsettle : L.Settles M f.numRegs (e :: es) := { hLM with
      new := fun r hr => (hLM.new r hr).imp id (Or.imp id (List.mem_append_right _)) }
    have hget := hnames.get? name
    have hpush : ∀ r, f.numRegs ≤ r.index ∨ r ∈ e.captures.map (·.reg) →
        L.Settles (M.push r) f.numRegs (e :: es) := by
      refine fun r hr => ⟨hLM.le.trans (M.le_push r), hLM.spare, fun q hq => ?_⟩
      rcases List.mem_append.mp hq with hq | hq
      · exact hsettle.new q hq
      · rw [List.mem_singleton.mp hq]
        exact .inr (hr.imp id (List.mem_append_left _))
    unfold resolve
    generalize names.get? name = here at hget
    generalize names'.get? name = here' at hget
    cases hget with
    | some hp => exact ⟨L, .refl L _ _, hL, hs, .some hp⟩
    | none =>
    simp only [Option.none_or]
    cases hb' : e'.bound.get? name with
    | some r' =>
      obtain ⟨r, hr, hp⟩ := he.found name r' hb'
      rw [hr]
      exact ⟨L, .refl L _ _, hL, hs, .some hp⟩
    | none =>
    cases hb : e.bound.get? name with
    | some r =>
      -- the first side has captured the name already, so its closures stay as they are
      obtain ⟨-, o, ho, hc⟩ := he.ahead name r hb hb'
      rw [resolve_of_visible ho f] at hM hs₁ hrel
      obtain ⟨he₁, -, -, hregs₁⟩ := hs₁.uncons
      have hown := he.mem name r hb
      rcases hr' : resolve name f' e'.outer es' with ⟨_ | o', f₁', es₁'⟩
      · rw [hr'] at hrel
        cases hrel
      · rw [hr'] at hM hs₁ hrel
        cases hrel with
        | some hp =>
          exact ⟨M.push r, hpush r (.inr hown), hM.push (he₁.ahead name r hb hb').1
            (hregs₁ r hown).1.2 (hregs₁ r hown).1.1 (le_refl _), hs₁.capture_behind hM hb hc hp,
            .some (hM.pairs_push r)⟩
    | none =>
      rcases hr : resolve name f e.outer es with ⟨_ | o, f₁, es₁⟩ <;>
        rcases hr' : resolve name f' e'.outer es' with ⟨_ | o', f₁', es₁'⟩ <;>
        rw [hr, hr'] at hrel
      · rw [hr, hr'] at hM hs₁
        exact ⟨M, hsettle, hM, hs₁, .none⟩
      · cases hrel
      · cases hrel
      · rw [hr, hr'] at hM hs₁
        rw [hr] at hnum
        cases hrel with
        | some hp =>
          exact ⟨M.push ⟨f₁.numRegs⟩, hpush _ (.inl hnum), hM.push (hM.not_mem_pairs) hM.not_mem_spare
            (Int.lt_succ _) (le_of_lt (Int.lt_succ _)), hs₁.capture_both hM name (.reg hp),
            .some (hM.pairs_push _)⟩

end

/-! ## Closures that are done -/

/-- What a closure that is done captured without the other side is spare. -/
def retire (L : Link) (cs : List (Capture Value)) : Link :=
  { L with spare := L.spare ∪ {r | r ∈ cs.map (·.reg) ∧ r ∉ L.pairs} }

theorem le_retire (L : Link) (cs : List (Capture Value)) : L.Le (L.retire cs) :=
  ⟨List.prefix_rfl, Set.subset_union_left⟩

section
variable (hs : L.Scopes n (e :: es) (e' :: es'))
include hs

theorem Scopes.fits_retire (hL : L.Fits n n') : (L.retire e.captures).Fits n n' :=
  { hL with
    spare := fun r hr => by
      rcases hr with hr | hr
      · exact hL.spare r hr
      · exact ⟨(hs.range r (List.mem_append_left _ hr.1)).1, hr.2⟩ }

theorem Scopes.retire : (L.retire e.captures).Scopes n es es' := by
  obtain ⟨-, hes, -, hregs⟩ := hs.uncons
  refine hes.mono (L.le_retire _) (le_refl n) (fun _ _ => id) fun r hr hspare => ?_
  rcases hspare with hspare | hspare
  · exact (hes.range r hr).2 hspare
  · exact (hregs r hspare.1).2 hr

theorem Scopes.captures_retire : (L.retire e.captures).Captures e.captures e'.captures := by
  obtain ⟨he, -, hnd, -⟩ := hs.uncons
  refine ⟨hnd, fun c hc => ?_, he.right⟩
  by_cases hmem : c.reg ∈ L.pairs
  · exact .inr (he.left c hc hmem)
  · exact .inl (.inr ⟨List.mem_map.mpr ⟨c, hc, rfl⟩, hmem⟩)

end

end Link

end ScriptMachine
