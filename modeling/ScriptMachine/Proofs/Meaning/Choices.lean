import ScriptMachine.Proofs.Lowering.ChoiceShape
import ScriptMachine.Proofs.Meaning.Expressions

/-!
# The meaning of choices

The law of a choice, given the laws of the steps that lower its alternatives.

1. In front of the dispatch each joined name has a register with its old value (`Frame.Carries`).
2. An alternative runs in its own block. At its end the registers of the joined names hold the values
   that its evaluation gave to them (`runs_branch`).
3. Behind the dispatch the names stand for these registers, and for what they stood for before
   (`mirrors_joined`).
-/

namespace ScriptMachine

open Lowering Build

/-- A condition that holds in front of code that does not touch its registers holds behind it. -/
theorem Setting.Evaluates.frame {S : Setting} {n : Nat} {b : BlockId} {p q : Mark} {P R : Condition}
    {β : Type} {ev : Eval β} {Q : β → Condition} (h : S.Evaluates n b p q P ev Q)
    (hpq : p.regs ≤ q.regs) (hR : Lasting R) :
    S.Evaluates n b p q (fun l fr => P l fr ∧ R l fr) ev fun v l fr => Q v l fr ∧ R l fr := by
  intro fr k made μ hk hfr hm hp
  refine (h fr k made μ hk hfr hm hp.1).mono fun t ht => ?_
  unfold Arrives at ht ⊢
  generalize ev μ = out at ht ⊢
  obtain ⟨c | v, ν⟩ := out
  · exact ht
  · obtain ⟨fr', ht, hkeep, hm', hq⟩ := ht
    exact ⟨fr', ht, hkeep, hm', hq, hR hpq hkeep hp.2⟩

/-! ## Joined names -/

theorem Names.mem_changed_iff {ns before : Names} (h : ns.Proper) {name : String} :
    name ∈ ns.changed before ↔ ∃ r, ns.get? name = some r ∧ before.get? name ≠ some r := by
  simp only [changed, List.mem_mergeSort, List.mem_map, List.mem_filter, bne_iff_ne]
  constructor
  · rintro ⟨p, ⟨hp, hne⟩, rfl⟩
    exact ⟨p.2, h p hp, hne⟩
  · rintro ⟨r, hr, hne⟩
    exact ⟨(name, r), ⟨Names.mem_of_get? hr, hne⟩, rfl⟩

/-- Registers for the names `ns`, from `lo` on and below `hi`. -/
structure Names.Fresh (joins : Names) (ns : List String) (lo hi : Int) : Prop where
  keys : joins.map (·.1) = ns
  bounds : ∀ name j, joins.get? name = some j → lo ≤ j.index ∧ j.index < hi
  inj : ∀ name other j, joins.get? name = some j → joins.get? other = some j → name = other

theorem Names.Fresh.mem_iff {joins : Names} {ns : List String} {lo hi : Int}
    (h : joins.Fresh ns lo hi) {name : String} : name ∈ ns ↔ (joins.get? name).isSome = true := by
  rw [← h.keys, isSome_get?_iff]

theorem Branch.movable_moves {br : Branch} {before joins : Names} {ns : List String} {lo hi : Int}
    (hjoins : joins.Fresh ns lo hi)
    (hapart : ∀ name r, br.names.get? name = some r → ∀ other j, joins.get? other = some j → r ≠ j) :
    Movable (br.moves before joins) where
  one m hm m' hm' heq := by
    obtain ⟨name, -, r, hj, hr, hm⟩ := mem_moves.mp hm
    obtain ⟨name', -, r', hj', hr', hm'⟩ := mem_moves.mp hm'
    obtain rfl : name = name' := hjoins.inj _ _ _ hj (heq ▸ hj')
    rw [hm, hm', ← hr, ← hr']
  apart m hm m' hm' heq := by
    obtain ⟨name, -, r, hj, hr, hm⟩ := mem_moves.mp hm
    obtain ⟨name', -, r', hj', hr', hm'⟩ := mem_moves.mp hm'
    rw [hm] at heq
    exact hapart name r hr name' m'.1 hj' (Option.some.inj heq)

theorem bindAll_joins {joins : Names} (hnd : (joins.map (·.1)).Nodup) (s : Builder) :
    ∃ names, bindAll (joins.map (·.1)) (joins.map (·.2)) s = ((), { s with names }) ∧
      (∀ name, names.get? name = (joins.get? name).or (s.names.get? name)) ∧
      (s.names.Proper → names.Proper) := by
  induction joins generalizing s with
  | nil => exact ⟨s.names, rfl, fun _ => rfl, id⟩
  | cons p joins ih =>
    obtain ⟨hp, hnd⟩ := List.nodup_cons.mp hnd
    obtain ⟨names, heq, hget, hproper⟩ := ih hnd { s with names := s.names.bind p.1 p.2 }
    refine ⟨names, heq, fun name => ?_, fun h => hproper (h.bind p.1 p.2)⟩
    rw [hget, Names.get?_bind, Names.get?_cons]
    by_cases hname : name = p.1
    · have hnone : Names.get? joins name = none := by
        rw [← Option.not_isSome_iff_eq_none, Names.isSome_get?_iff, hname]
        exact hp
      rw [if_pos hname, if_pos hname, hnone, Option.none_or, Option.some_or]
    · rw [if_neg hname, if_neg hname]

theorem Names.Fresh.cons {joins : Names} {ns : List String} {lo hi : Int} (name : String)
    (h : joins.Fresh ns (lo + 1) hi) (hlo : lo < hi) :
    Names.Fresh ((name, ⟨lo⟩) :: joins) (name :: ns) lo hi := by
  refine ⟨by rw [List.map_cons, h.keys], fun other j hj => ?_, fun other other' j hj hj' => ?_⟩
  · rw [get?_cons] at hj
    split at hj
    · cases hj
      exact ⟨le_refl _, hlo⟩
    · have := h.bounds other j hj
      omega
  · rw [get?_cons] at hj hj'
    split at hj
    · cases hj
      split at hj'
      · simp_all
      · have := h.bounds other' _ hj'
        simp only at this
        omega
    · split at hj'
      · cases hj'
        have := h.bounds other _ hj
        simp only at this
        omega
      · exact h.inj other other' j hj hj'

/-- The registers of joined names hold their values, where a name without a value is null. -/
def Frame.Carries (fr : Frame) (l : Int) (joins : Names) (env : Bindings) : Prop :=
  ∀ name j, joins.get? name = some j → fr.Shows l (.reg j) ((env name).getD .null)

namespace Menu

/-- All alternatives. -/
def meanings (m : Menu) : List Meaning := m.arms.map (·.2) ++ m.default.toList

theorem mem_binds {m : Menu} {name : String} :
    name ∈ m.binds ↔ ∃ x ∈ m.meanings, name ∈ x.binds := by
  have heq : m.binds = m.meanings.flatMap (·.binds) := by
    cases h : m.default <;> simp [binds, meanings, h, List.flatMap_map]
  rw [heq, List.mem_flatMap]

theorem mem_meanings_addArm {m : Menu} {v : Value} {x y : Meaning} :
    y ∈ (m.addArm v x).meanings ↔ y ∈ m.meanings ∨ y = x := by
  simp only [meanings, addArm, List.map_append, List.map_cons, List.map_nil, List.mem_append,
    List.mem_singleton]
  tauto

theorem meanings_addDefault (m : Menu) (x : Meaning) : (m.addDefault x).meanings =
    m.meanings ++ if m.default.isNone then [x] else [] := by
  cases h : m.default <;> simp [meanings, addDefault, h]

end Menu

namespace Setting

variable {S : Setting} {n : Nat} {b : BlockId} {s : Builder} {env : Bindings}

theorem startJoins_cons (h : s.enclosing = []) (name : String) (ns : List String) :
    startJoins b s.names (name :: ns) s =
      (fun x : Names × Builder => ((name, ⟨s.func.numRegs⟩) :: x.1, x.2))
        (startJoins b s.names ns (produce b (joinStart · (s.names.get? name)) s).2) := by
  have hlook : lookupBefore s.names name { s with func := s.func.newReg.1 } =
      (s.names.get? name, { s with func := s.func.newReg.1 }) := by
    unfold lookupBefore
    cases hname : s.names.get? name with
    | some r => rfl
    | none =>
      show lookup name { s with func := s.func.newReg.1 } = _
      rw [lookup_outside (s := { s with func := s.func.newReg.1 }) h]
      simp only [hname]
  simp only [startJoins, bind_apply, newReg_apply, hlook, pure_apply]
  rfl

theorem lasting_mirrors (names : Names) (env : Bindings) :
    Lasting fun l fr => fr.Mirrors l names env :=
  fun _ _ _ _ hnm hk h => h.keeps hk (le_refl _) hnm

theorem acts_joinStart (names : Names) (env : Bindings) (name : String) :
    S.Acts (fun l fr => fr.Mirrors l names env) (joinStart · (names.get? name))
      (pure ((env name).getD .null)) where
  performs l fr made μ dest hm := by
    cases hname : names.get? name with
    | some r =>
      obtain ⟨v, hv, hshow⟩ := hm.of_some hname
      simp only [joinStart, Machine.perform, hshow.read, hv]
      rfl
    | none =>
      rw [hm.of_none hname]
      rfl
  env _ := rfl
  isSet l fr μ v hm h := by
    cases h
    cases hname : names.get? name with
    | some r =>
      obtain ⟨v, hv, hshow⟩ := hm.of_some hname
      rw [hv]
      exact hshow.isSet
    | none =>
      rw [hm.of_none hname]
      rfl

/-- The code in front of a dispatch. -/
structure Starts (S : Setting) (n : Nat) (b : BlockId) (s : Builder) (ns : List String) (joins : Names)
    (t : Builder) : Prop where
  stands : t.Stands b
  names : t.names = s.names
  regs : s.func.numRegs ≤ t.func.numRegs
  fresh : joins.Fresh ns s.func.numRegs t.func.numRegs
  evaluates : ∀ env, S.Evaluates n b (s.mark b) (t.mark b) (fun l fr => fr.Mirrors l s.names env)
    (pure ()) fun _ l fr => fr.Carries l joins env

theorem starts_joins (ns : List String) (hs : s.Stands b)
    (ha : Agrees S.func ∅ s (startJoins b s.names ns s).2) :
    S.Starts n b s ns (startJoins b s.names ns s).1 (startJoins b s.names ns s).2 := by
  induction ns generalizing s with
  | nil =>
    refine ⟨hs, rfl, le_refl _, ⟨rfl, ?_, ?_⟩, fun env => evaluates_pure fun fr _ => ?_⟩
    · intro name j h
      cases h
    · intro name other j h
      cases h
    · intro name j h
      cases h
  | cons name ns ih =>
    rw [startJoins_cons hs.outside] at ha ⊢
    have hb := Set.mem_singleton b
    have hgrow := adds_produce hb (joinStart · (s.names.get? name)) s
    have hrest := adds_startJoins hb s.names ns (produce b (joinStart · (s.names.get? name)) s).2
    have hlaw := fun env => simulates_produce (n := n) (acts_joinStart (S := S) s.names env name)
      (fun r => by cases s.names.get? name <;> rfl) s hs
      (ha.left hrest (by rintro c rfl; exact .inl hs.has))
    have hev := fun env => (hlaw env).evaluates
    have h := ih (hlaw fun _ => none).stands (ha.right hgrow)
    have hnum : (produce b (joinStart · (s.names.get? name)) s).2.func.numRegs = s.func.numRegs + 1 := by
      simp [produce_apply]
    change S.Starts n b _ ns (startJoins b s.names ns _).1 (startJoins b s.names ns _).2 at h
    have hreg : (produce b (joinStart · (s.names.get? name)) s).1 = some ⟨s.func.numRegs⟩ := rfl
    have hnames : (produce b (joinStart · (s.names.get? name)) s).2.names = s.names := rfl
    generalize produce b (joinStart · (s.names.get? name)) s = ru at *
    obtain ⟨r, u⟩ := ru
    obtain rfl : r = _ := hreg
    simp only at h hev hnum hrest hgrow hnames ⊢
    generalize startJoins b s.names ns u = jt at *
    obtain ⟨joins, t⟩ := jt
    simp only at h hrest ⊢
    have hregs := h.regs
    have hle : s.func.numRegs ≤ u.func.numRegs := by omega
    refine ⟨h.stands, h.names.trans hnames, le_trans hle hregs,
      .cons name (hnum ▸ h.fresh) (by omega), fun env => ?_⟩
    have h₁ : S.Evaluates n b (s.mark b) (u.mark b) (fun l fr => fr.Mirrors l s.names env) (pure ())
        fun _ l fr => fr.Shows l (.reg ⟨s.func.numRegs⟩) ((env name).getD .null) :=
      fun fr k made μ hk hfr hm hp => hev env fr k made μ hk hfr hm hp
    have h₂ := (h.evaluates env).frame hregs
      (lasting_shows (.reg ⟨s.func.numRegs⟩) ((env name).getD .null))
    rw [hnames] at h₂
    have h₃ := h₁.bind (r := t.mark b) (lasting_mirrors s.names env) hle hregs fun _ => h₂
    refine Evaluates.post h₃ fun _ fr hq other j hj => ?_
    rw [Names.get?_cons] at hj
    split at hj
    · rename_i hother
      cases hj
      rw [hother]
      exact hq.2
    · exact hq.1 other j hj

/-! ## Alternatives -/

section
variable {c : BlockId} {lo hi : Int} {k : Stack} {w : World}

/-- The machine sets registers from `lo` to `hi` from others below `lo`. -/
theorem runs_moves (hlo : 0 ≤ lo) (hhi : hi ≤ S.func.numRegs) {ms : List (Reg × Option Reg)}
    (hms : Movable ms) {i : Nat} {fr : Frame} (hfr : fr.Of S.func)
    (hregs : ∀ m ∈ ms, (lo ≤ m.1.index ∧ m.1.index < hi) ∧
      ∃ r v, m.2 = some r ∧ fr.Shows lo (.reg r) v)
    (hcode : CodeAt (S.func.code c) i (ms.map fun m => joinStart m.1 m.2)) :
    Machine.RunsTo S.cfg S.prog (fun u => ∃ fr', u = .inCode S.func c (i + ms.length) fr' k w ∧
      fr.Keeps lo hi fr' ∧ fr.Moved ms fr') (.inCode S.func c i fr k w) := by
  induction ms generalizing i fr with
  | nil => exact .here ⟨fr, rfl, .refl _ _ fr, rfl, nofun, fun _ _ => rfl⟩
  | cons m ms ih =>
    obtain ⟨j, old⟩ := m
    obtain ⟨⟨hb, r, v, rfl, hv⟩, hrest⟩ := List.forall_mem_cons.mp hregs
    dsimp only at hb
    have hx : (S.func.code c)[i]? = some (.move j r) := hcode.head
    have hgiven : fr.given (some r) = v := by simp [Frame.given, hv.2]
    obtain ⟨fr₁, hwrite, hkeep₁, -⟩ := hfr.write (r := j) ⟨by omega, by omega⟩ hv.isSet
    refine .step (Machine.step_next hx (S.lt_of_getElem? hx) (perform_move hv.read hwrite)) ?_
    refine (ih hms.tail (hfr.keeps hkeep₁) (fun m hm => ?_) hcode.tail).mono ?_
    · obtain ⟨hb', r', v', hr', hv'⟩ := hrest m hm
      exact ⟨hb', r', v', hr', hv'.keeps hkeep₁ hb.1 (le_refl _)⟩
    · rintro u ⟨fr', rfl, hkeep, hmoved⟩
      refine ⟨fr', ?_, (hkeep₁.mono hb.1 hb.2).comp hkeep,
        .cons hms (hgiven ▸ hwrite) (hgiven ▸ hv.isSet) hmoved⟩
      rw [List.length_cons, show ∀ a, i + 0 + 1 + a = i + (a + 1) by omega]

end

/-- A branch whose code so far does what `x` means, where the names `before` are at hand and the
registers from `lo` on are free. -/
structure Drafted (S : Setting) (n : Nat) (before : Names) (lo : Int) (t : Builder) (br : Branch)
    (x : Meaning) : Prop where
  has : t.func.Has br.block
  live : endsBlock (t.func.code br.block) = false
  own : br.own = ""
  proper : br.names.Proper
  rebinds : Names.Rebinds x.binds before br.names
  evaluates : ∃ start stop, lo ≤ start ∧ start ≤ stop ∧ stop ≤ t.func.numRegs ∧
    S.Evaluates n br.block ⟨0, start, before⟩ ⟨(t.func.code br.block).length, stop, br.names⟩
      (fun _ _ => True) x.eval fun v l fr => fr.Shows l (operand br.last) v

section
variable {before joins : Names} {lo hi : Int} {t u : Builder} {br : Branch} {x : Meaning}

/-- A branch stays as it is while other blocks grow. -/
theorem Drafted.grows {B : Set BlockId} (h : S.Drafted n before lo t br x) (hg : Builder.Grows B t u)
    (hB : br.block ∉ B) : S.Drafted n before lo u br x := by
  have hcode := hg.func.kept br.block h.has hB
  obtain ⟨start, stop, h₁, h₂, h₃, hev⟩ := h.evaluates
  exact { h with
    has := hg.func.has h.has
    live := hcode ▸ h.live
    evaluates := ⟨start, stop, h₁, h₂, le_trans h₃ hg.func.numRegs, hcode ▸ hev⟩ }

theorem Drafted.mem_rebound_iff (h : S.Drafted n before lo t br x) {name : String} :
    name ∈ br.rebound before ↔
      name ≠ "" ∧ ∃ r, br.names.get? name = some r ∧ before.get? name ≠ some r := by
  rw [Branch.rebound, List.mem_filter, Names.mem_changed_iff h.proper, h.own, bne_iff_ne, and_comm]

theorem Drafted.get?_of_not_mem (h : S.Drafted n before lo t br x) {name : String} (hne : name ≠ "")
    (hname : name ∉ br.rebound before) : br.names.get? name = before.get? name := by
  rw [h.mem_rebound_iff, not_and, not_exists] at hname
  cases hr : br.names.get? name with
  | some r =>
    by_contra heq
    exact hname hne r ⟨hr, Ne.symm heq⟩
  | none =>
    have hmem : name ∉ x.binds := fun hb => by simpa [hr] using h.rebinds.bound name hb
    rw [← h.rebinds.others name hmem, hr]

/-- Where an alternative leaves the machine: its block has ended with a value that is handed on, or
with a fault. -/
def Ends (S : Setting) (c : BlockId) (joins : Names) (lo hi : Int) (fr : Frame) (k : Stack)
    (made : Nat) (μ : Memory) (out : Except Cause Value × Memory) (u : State) : Prop :=
  match out.1 with
  | .ok v => ∃ fr' i,
      u = (State.inCode S.func c i fr' k ⟨out.2.issued, made⟩).finish (.value v .yield) ∧
      v.isSet = true ∧ fr.Keeps lo hi fr' ∧ fr'.Carries hi joins out.2.env ∧
      ∀ name, name ≠ "" → joins.get? name = none → out.2.env name = μ.env name
  | .error e => u.Faulted k ⟨out.2.issued, made⟩ e

theorem perform_yield {fr : Frame} {w : World} {o v : Value} (h : fr.read o = .ok v) :
    Machine.perform S.cfg.runner S.prog fr w (.leave .yield o) = (w, .ok (.leave v .yield)) := by
  simp only [Machine.perform, Machine.leave, h]
  rfl

/-- An alternative runs to its end. -/
theorem runs_branch (hd : S.Drafted n before lo t br x) {ns : List String}
    (hcode : S.func.code br.block = t.func.code br.block ++ br.ending before joins)
    (hjoins : joins.Fresh ns t.func.numRegs hi) (hne : ∀ name ∈ ns, name ≠ "")
    (hns : ∀ name ∈ br.rebound before, name ∈ ns)
    (hnum : 0 ≤ t.func.numRegs) (hle : t.func.numRegs ≤ hi) (hhi : hi ≤ S.func.numRegs)
    {fr : Frame} {k : Stack} {made : Nat} {μ : Memory} (hk : k.height + n < S.cfg.maxDepth)
    (hfr : fr.Of S.func) (hm : fr.Mirrors lo before μ.env) (hc : fr.Carries hi joins μ.env) :
    Machine.RunsTo S.cfg S.prog (S.Ends br.block joins lo hi fr k made μ (x.eval μ))
      (.inCode S.func br.block 0 fr k ⟨μ.issued, made⟩) := by
  obtain ⟨start, stop, hstart, hss, hstop, hev⟩ := hd.evaluates
  refine (hev fr k made μ hk hfr (hm.mono hstart) trivial).trans fun u hu => ?_
  rcases hx : x.eval μ with ⟨e | v, ν⟩
  · rw [hx] at hu
    exact .here hu
  · rw [hx] at hu
    obtain ⟨fr₁, rfl, hkeep₁, hm₁, hlast⟩ := hu
    simp only at hkeep₁ hm₁ hlast
    rw [Branch.ending_eq_moves] at hcode
    have hat := CodeAt.of_append hcode
    have hnames : ∀ name r, br.names.get? name = some r →
        ∃ v, fr₁.Shows t.func.numRegs (.reg r) v := fun name r hr => by
      obtain ⟨v, -, hv⟩ := hm₁.of_some hr
      exact ⟨v, hv.mono hstop⟩
    have hmovable : Movable (br.moves before joins) :=
      Branch.movable_moves hjoins fun name r hr other j hj heq => by
        obtain ⟨v, hlt, -⟩ := hnames name r hr
        exact absurd (heq ▸ hlt) (not_lt.mpr (hjoins.bounds other j hj).1)
    refine (runs_moves hnum hhi hmovable (hfr.keeps hkeep₁) (fun m hm => ?_) hat.left).trans ?_
    · obtain ⟨name, -, r, hj, hr, hold⟩ := Branch.mem_moves.mp hm
      obtain ⟨v, hv⟩ := hnames name r hr
      exact ⟨hjoins.bounds name m.1 hj, r, v, hold, hv⟩
    rintro u ⟨fr₂, rfl, hkeep₂, hmoved⟩
    have hend : (S.func.code br.block)[(t.func.code br.block).length +
        (br.moves before joins).length]? = some (.leave .yield (operand br.last)) := by
      simpa using hat.last
    have hread := (hlast.keeps hkeep₂ hstop (le_refl _)).read
    refine .step (Machine.step_leave hend (S.lt_of_getElem? hend) (perform_yield hread)) (.here ?_)
    have hkeep : fr.Keeps lo hi fr₂ :=
      (hkeep₁.mono hstart (le_trans hstop hle)).comp (hkeep₂.mono (by omega) (le_refl _))
    have hsame : ∀ name, name ≠ "" → name ∉ br.rebound before → ν.env name = μ.env name :=
      fun name hne hmem => hm.same hm₁ hkeep₁ hstart (hd.get?_of_not_mem hne hmem)
    refine ⟨fr₂, _, rfl, hlast.isSet, hkeep, fun name j hj => ⟨(hjoins.bounds name j hj).2, ?_⟩, ?_⟩
    · by_cases hmem : name ∈ br.rebound before
      · obtain ⟨-, r, hr, -⟩ := hd.mem_rebound_iff.mp hmem
        obtain ⟨v, hv, -, hget⟩ := hm₁.of_some hr
        rw [hmoved.moved (j, some r) (Branch.mem_moves.mpr ⟨name, hmem, r, hj, hr, rfl⟩)]
        simp [Frame.given, hget, hv]
      · show _ = some ((ν.env name).getD .null)
        have hkept : fr₂.get? j = fr₁.get? j := hmoved.kept j fun m hm heq => by
          obtain ⟨other, ho, r, hj', -, -⟩ := Branch.mem_moves.mp hm
          exact hmem (hjoins.inj _ _ j hj (heq ▸ hj') ▸ ho)
        rw [hkept, hkeep₁.get? j (.inr (le_trans hstop (hjoins.bounds name j hj).1)),
          hsame name (hne name (hjoins.mem_iff.mpr (by rw [hj]; rfl))) hmem]
        exact (hc name j hj).2
    · intro name hne hnone
      refine hsame name hne fun hmem => ?_
      simpa [hnone] using hjoins.mem_iff.mp (hns name hmem)

end

/-! ## Gathering alternatives -/

section
variable {lo : Int} {body : BlockId → Build (Option Reg)} {x : Meaning}

theorem drafted_branch (ab : ∀ c, Adds {c} (body c)) (hbody : ∀ c, S.Yields n c (body c) x)
    (hs : s.enclosing = []) (hnum : 0 ≤ s.func.numRegs) (hproper : s.names.Proper)
    (hlo : lo ≤ s.func.numRegs)
    (ha : Agrees S.func {⟨s.func.blocks.size⟩} s (branch "" .none body s).2) :
    S.Drafted n s.names lo (branch "" .none body s).2 (branch "" .none body s).1 x ∧
      (branch "" .none body s).2.enclosing = [] := by
  have hstands : (newBlock s).2.Stands ⟨s.func.blocks.size⟩ := {
    has := s.func.newBlock_has_self
    live := by simp
    outside := hs
    numRegs := hnum
    proper := hproper }
  have hmark : (newBlock s).2.mark ⟨s.func.blocks.size⟩ = ⟨0, s.func.numRegs, s.names⟩ := by
    simp [Builder.mark]
  have hgrow := ab ⟨s.func.blocks.size⟩ (newBlock s).2
  have hlaw := hbody ⟨s.func.blocks.size⟩ (newBlock s).2 hstands
  have hown : owned "" .none (body ⟨s.func.blocks.size⟩) = body ⟨s.func.blocks.size⟩ := by
    simp [owned]
  rw [branch_apply, hown] at ha ⊢
  obtain ⟨h₁, h₂, h₃⟩ := hlaw ((agrees_newBlock ha).congr rfl rfl)
  rw [hmark] at h₃
  exact ⟨⟨h₁.has, h₁.live, rfl, h₁.proper, h₂, _, _, hlo, hgrow.func.numRegs, le_refl _, h₃⟩,
    h₁.outside⟩

end

/-- The alternatives gathered in `a` are those of the menu `m`. -/
structure Collected (S : Setting) (n : Nat) (before : Names) (lo : Int) (a : Arms) (m : Menu)
    (t : Builder) : Prop where
  outside : t.enclosing = []
  names : t.names = before
  proper : before.Proper
  nonneg : 0 ≤ lo
  regs : lo ≤ t.func.numRegs
  nodup : (a.branches.map (·.block)).Nodup
  branches : ∀ br ∈ a.branches, ∃ x ∈ m.meanings, S.Drafted n before lo t br x
  arms : List.Forall₂ (fun arm alt => arm.pattern = alt.1 ∧ alt.1.IsConstant ∧
    ∃ br ∈ a.branches, br.block = arm.block ∧ S.Drafted n before lo t br alt.2) a.arms m.arms
  noDefault : m.default = none → a.default = .none
  default : ∀ x, m.default = some x →
    ∃ br ∈ a.branches, br.block = a.default ∧ S.Drafted n before lo t br x

/-- The law of a step that gathers further alternatives. -/
def Offers (S : Setting) (n : Nat) (f : Arms → Build Arms) (g : Menu → Menu) : Prop :=
  ∀ a m before lo s, S.Collected n before lo a m s →
    Agrees S.func (blocksOf (f a s).1.branches) s (f a s).2 →
    S.Collected n before lo (f a s).1 (g m) (f a s).2

section
variable {lo : Int} {before : Names} {a : Arms} {m : Menu} {t : Builder}
  {f f' : Arms → Build Arms} {g g' : Menu → Menu} {body : BlockId → Build (Option Reg)} {x : Meaning}

theorem offers_pure : S.Offers n pure id := fun _ _ _ _ _ h _ => h

theorem Offers.bind (hf : S.Offers n f g) (mf : Gatherer f) (hf' : S.Offers n f' g')
    (mf' : Gatherer f') : S.Offers n (fun a => f a >>= f') (g' ∘ g) := by
  intro a m before lo s h ha
  obtain ⟨hg₁, -⟩ := mf a s
  obtain ⟨hg₂, hb₂⟩ := mf' (f a s).1 (f a s).2
  simp only [bind_apply] at ha ⊢
  have h₁ := hf a m before lo s h (agrees_left_of_makes ha hg₂ hb₂)
  exact hf' _ _ before lo _ h₁ (ha.right hg₁)

/-- Alternatives stay as they are while other blocks are made. -/
theorem Collected.grows (h : S.Collected n before lo a m s) (hg : Builder.Grows ∅ s t)
    (hout : t.enclosing = []) (hnames : t.names = s.names) : S.Collected n before lo a m t where
  outside := hout
  names := hnames.trans h.names
  proper := h.proper
  nonneg := h.nonneg
  regs := le_trans h.regs hg.func.numRegs
  nodup := h.nodup
  branches br hbr := by
    obtain ⟨x, hx, hd⟩ := h.branches br hbr
    exact ⟨x, hx, hd.grows hg (by simp)⟩
  arms := by
    refine h.arms.imp ?_
    rintro arm alt ⟨h₁, h₂, br, hbr, h₃, hd⟩
    exact ⟨h₁, h₂, br, hbr, h₃, hd.grows hg (by simp)⟩
  noDefault := h.noDefault
  default x hx := by
    obtain ⟨br, hbr, h₁, hd⟩ := h.default x hx
    exact ⟨br, hbr, h₁, hd.grows hg (by simp)⟩

theorem Collected.arms_of_subset (h : S.Collected n before lo a m t) {brs : List Branch}
    (hbrs : a.branches ⊆ brs) : List.Forall₂ (fun arm alt => arm.pattern = alt.1 ∧
      alt.1.IsConstant ∧ ∃ br ∈ brs, br.block = arm.block ∧ S.Drafted n before lo t br alt.2)
      a.arms m.arms := by
  refine h.arms.imp ?_
  rintro arm alt ⟨h₁, h₂, br, hbr, h₃⟩
  exact ⟨h₁, h₂, br, hbrs hbr, h₃⟩

/-- One more branch, for an alternative of a menu with more in it. -/
theorem Collected.branch (h : S.Collected n before lo a m s) (ab : ∀ c, Adds {c} (body c))
    (hbody : ∀ c, S.Yields n c (body c) x) {a' : Arms}
    (hbrs : a'.branches = a.branches ++ [(branch "" .none body s).1])
    (ha : Agrees S.func (blocksOf a'.branches) s (branch "" .none body s).2) :
    S.Collected n before lo a m (branch "" .none body s).2 ∧
      S.Drafted n before lo (branch "" .none body s).2 (branch "" .none body s).1 x ∧
      (a'.branches.map (·.block)).Nodup := by
  have hhas : ∀ br ∈ a.branches, s.func.Has br.block := fun br hbr => by
    obtain ⟨x, -, hd⟩ := h.branches br hbr
    exact hd.has
  obtain ⟨hd, hout⟩ := drafted_branch (n := n) ab hbody h.outside (le_trans h.nonneg h.regs)
    (h.names ▸ h.proper) h.regs (agrees_branch hhas hbrs ha)
  refine ⟨h.grows (adds_branch "" .none ab s) hout rfl, h.names ▸ hd, ?_⟩
  rw [hbrs, List.map_append, List.nodup_append]
  refine ⟨h.nodup, by simp, fun c hc c' hc' heq => ?_⟩
  obtain ⟨br, hbr, rfl⟩ := List.mem_map.mp hc
  obtain rfl : c' = ⟨s.func.blocks.size⟩ := List.mem_singleton.mp hc'
  exact absurd (heq ▸ hhas br hbr).2 (by simp)

theorem offers_addDefault (pos : Position) (c : Complaint) (ab : ∀ c, Adds {c} (body c))
    (hbody : ∀ c, S.Yields n c (body c) x) :
    S.Offers n (addDefault pos c "" .none · body) (·.addDefault x) := by
  intro a m before lo s h ha
  simp only at ha ⊢
  cases hm : m.default with
  | none =>
    have hnone := h.noDefault hm
    rw [addDefault_apply pos c hnone] at ha ⊢
    obtain ⟨h', hd, hnd⟩ := h.branch ab hbody rfl ha
    have hadd : m.addDefault x = { m with default := some x } := by simp [Menu.addDefault, hm]
    rw [hadd]
    refine { h' with nodup := hnd, branches := fun br hbr => ?_, arms := ?_, noDefault := ?_,
                     default := ?_ }
    · rcases List.mem_append.mp hbr with hbr | hbr
      · obtain ⟨y, hy, hd⟩ := h'.branches br hbr
        exact ⟨y, by rw [← hadd, Menu.meanings_addDefault]; exact List.mem_append_left _ hy, hd⟩
      · obtain rfl := List.mem_singleton.mp hbr
        exact ⟨x, by rw [← hadd, Menu.meanings_addDefault, hm]; simp, hd⟩
    · exact h'.arms_of_subset (List.subset_append_left _ _)
    · intro hx
      cases hx
    · intro y hy
      cases hy
      exact ⟨_, List.mem_append_right _ (List.mem_singleton_self _), rfl, hd⟩
  | some y =>
    have hne : a.default ≠ .none := by
      obtain ⟨br, -, heq, hd⟩ := h.default y hm
      rw [← heq]
      intro hnone
      exact absurd (hnone ▸ hd.has).1 (by decide)
    have hadd : m.addDefault x = m := by
      unfold Menu.addDefault
      rw [hm, Option.some_or, ← hm]
    rw [addDefault_apply_of_ne pos c hne, hadd]
    exact h.grows (adds_complain pos c s) h.outside rfl

theorem pattern_value (p : Node) (s : Builder) : (pattern p s).1 = patternValue p := by
  cases p with
  | number pos text =>
    show (number pos text s).1 = numberValue text
    unfold number numberValue
    cases numberValue? text <;> rfl
  | _ => rfl

theorem isConstant_patternValue (p : Node) : (patternValue p).IsConstant := by
  unfold patternValue
  split
  · exact isConstant_numberValue _
  · exact ⟨rfl, rfl⟩
  · exact ⟨rfl, rfl⟩
  · exact ⟨rfl, rfl⟩

theorem offers_addCase (ab : ∀ c, Adds {c} (body c)) (pos : Position) (p : Node)
    (hbody : ∀ c, S.Yields n c (body c) x) : S.Offers n (addCase pos · p body) fun m =>
      if isDefault p then m.addDefault x else m.addArm (patternValue p) x := by
  by_cases hp : isDefault p
  · have h := offers_addDefault pos .unreachableDefault ab hbody
    simpa [addCase, hp] using h
  · intro a m before lo s h ha
    obtain ⟨v, ds, -, hv, happ⟩ := @addCase_apply a body s pos p (by simpa using hp)
    obtain rfl : patternValue p = v := by rw [← pattern_value p s, hv]
    simp only [happ] at ha ⊢
    rw [if_neg hp]
    have hgrow : Builder.Grows ∅ s { s with diags := s.diags ++ ds } := by
      have := adds_pattern (S := ∅) p s
      rwa [hv] at this
    obtain ⟨h', hd, hnd⟩ := (h.grows hgrow h.outside rfl).branch ab hbody rfl (ha.congr rfl rfl)
    refine { h' with nodup := hnd, branches := fun br hbr => ?_, arms := ?_, default := ?_ }
    · rcases List.mem_append.mp hbr with hbr | hbr
      · obtain ⟨y, hy, hd⟩ := h'.branches br hbr
        exact ⟨y, Menu.mem_meanings_addArm.mpr (.inl hy), hd⟩
      · obtain rfl := List.mem_singleton.mp hbr
        exact ⟨x, Menu.mem_meanings_addArm.mpr (.inr rfl), hd⟩
    · exact List.rel_append (h'.arms_of_subset (List.subset_append_left _ _))
        (.cons ⟨rfl, isConstant_patternValue p, _,
          List.mem_append_right _ (List.mem_singleton_self _), rfl, hd⟩ .nil)
    · intro y hy
      obtain ⟨br, hbr, h₁⟩ := h'.default y hy
      exact ⟨br, List.mem_append_left _ hbr, h₁⟩

theorem offers_addSeparate (pos : Position) (default : Option (BlockId → Build (Option Reg)))
    (ab : ∀ body ∈ default, ∀ c, Adds {c} (body c))
    (hbody : ∀ body ∈ default, ∀ c, S.Yields n c (body c) x) :
    S.Offers n (addSeparate pos · default) fun m => if default.isSome then m.addDefault x else m := by
  cases default with
  | none => exact offers_pure
  | some body => exact offers_addDefault pos .unreachableDefault (ab body rfl) (hbody body rfl)

end

/-! ## Dispatch -/

/-- The arm that the machine takes is that of the first alternative for the value. -/
theorem chooseArm_of_forall₂ (Good : BlockId → Meaning → Prop) {arms : List Arm}
    {alts : List (Value × Meaning)} (h : List.Forall₂ (fun arm alt => arm.pattern = alt.1 ∧
      alt.1.IsConstant ∧ Good arm.block alt.2) arms alts) (fr : Frame) (v : Value) (d : BlockId) :
    match alts.find? (equal v ·.1) with
    | none => Machine.chooseArm fr v d arms = .ok d
    | some alt => ∃ c, Machine.chooseArm fr v d arms = .ok c ∧ Good c alt.2 := by
  induction h with
  | nil => rfl
  | @cons arm alt arms alts harm _ ih =>
    obtain ⟨hpat, hconst, hgood⟩ := harm
    have hread : fr.read arm.pattern = .ok alt.1 := by rw [hpat, hconst.read]
    have happ : Machine.chooseArm fr v d (arm :: arms) =
        if equal v alt.1 then .ok arm.block else Machine.chooseArm fr v d arms := by
      simp only [Machine.chooseArm, hread]
      rfl
    rw [happ]
    by_cases heq : equal v alt.1
    · simp only [List.find?_cons, heq, if_true]
      exact ⟨arm.block, rfl, hgood⟩
    · simp only [List.find?_cons, heq]
      exact ih

section
variable {lo : Int} {before : Names} {a : Arms} {m : Menu} {t : Builder}

/-- The machine enters the block of the alternative that is evaluated, or none. -/
theorem Collected.chooseArm (h : S.Collected n before lo a m t) (fr : Frame) (v : Value) :
    ∃ c, Machine.chooseArm fr v a.default a.arms = .ok c ∧
      (c = .none ∧ m.choose v = pure .null ∨
        ∃ br ∈ a.branches, br.block = c ∧ ∃ x, S.Drafted n before lo t br x ∧ m.choose v = x.eval) := by
  have hc := chooseArm_of_forall₂ (fun c x => ∃ br ∈ a.branches, br.block = c ∧
    S.Drafted n before lo t br x) h.arms fr v a.default
  unfold Menu.choose
  cases hf : m.arms.find? (equal v ·.1) with
  | some alt =>
    rw [hf] at hc
    obtain ⟨c, hc, br, hbr, heq, hd⟩ := hc
    exact ⟨c, hc, .inr ⟨br, hbr, heq, alt.2, hd, rfl⟩⟩
  | none =>
    rw [hf] at hc
    refine ⟨_, hc, ?_⟩
    cases hm : m.default with
    | none => exact .inl ⟨h.noDefault hm, rfl⟩
    | some x =>
      obtain ⟨br, hbr, heq, hd⟩ := h.default x hm
      exact .inr ⟨br, hbr, heq, x, hd, rfl⟩

end

section
variable {before after joins : Names} {env' : Bindings} {lo hi : Int} {fr fr' : Frame}
  {bs : List String}

theorem mirrors_joined (hm : fr.Mirrors lo before env) (hk : fr.Keeps lo hi fr') (hlo : lo ≤ hi)
    (hc : fr'.Carries hi joins env')
    (hsame : ∀ name, name ≠ "" → joins.get? name = none → env' name = env name)
    (hafter : ∀ name, after.get? name = (joins.get? name).or (before.get? name))
    (hjoined : ∀ name, (joins.get? name).isSome = true → name ∈ bs)
    (hbound : ∀ name ∈ bs, joins.get? name = none → (before.get? name).isSome = true)
    (hne : ∀ name ∈ bs, name ≠ "") :
    fr'.Mirrors hi after fun name =>
      if name ∈ bs then some ((env' name).getD .null) else env name := by
  intro name
  show Option.Rel _ (after.get? name) (if name ∈ bs then _ else _)
  rw [hafter]
  cases hj : joins.get? name with
  | some j =>
    rw [if_pos (hjoined name (by rw [hj]; rfl))]
    exact .some (hc name j hj)
  | none =>
    have hold := hm.keeps hk (le_refl _) hlo name
    rw [Option.none_or]
    by_cases hmem : name ∈ bs
    · -- every alternative leaves the name as it was, and it was bound
      obtain ⟨r, hr⟩ := Option.isSome_iff_exists.mp (hbound name hmem hj)
      obtain ⟨v, hv, -⟩ := hm.of_some hr
      rw [if_pos hmem, hsame name (hne name hmem) hj, hv]
      rwa [hv] at hold
    · rwa [if_neg hmem]

end

section
variable {before joins : Names} {lo : Int} {a : Arms} {m : Menu} {t : Builder}

theorem Collected.mem_joined (h : S.Collected n before lo a m t) {name : String}
    (hname : name ∈ joinedNames before a.branches) : name ∈ m.binds.filter (· ∉ [""]) := by
  obtain ⟨br, hbr, hmem⟩ := mem_joinedNames.mp hname
  obtain ⟨x, hx, hd⟩ := h.branches br hbr
  obtain ⟨hne, r, hr, hold⟩ := hd.mem_rebound_iff.mp hmem
  have hbind : name ∈ x.binds := by
    by_contra hnot
    exact hold (by rw [← hd.rebinds.others name hnot, hr])
  simp only [List.mem_filter, Menu.mem_binds]
  exact ⟨⟨x, hx, hbind⟩, by simpa using hne⟩

theorem Collected.exists_branch (h : S.Collected n before lo a m t) {x : Meaning}
    (hx : x ∈ m.meanings) : ∃ br ∈ a.branches, S.Drafted n before lo t br x := by
  rcases List.mem_append.mp hx with hx | hx
  · obtain ⟨alt, halt, rfl⟩ := List.mem_map.mp hx
    obtain ⟨arm, -, -, -, br, hbr, -, hd⟩ := exists_of_forall₂ h.arms.flip halt
    exact ⟨br, hbr, hd⟩
  · obtain ⟨br, hbr, -, hd⟩ := h.default x (by simpa using hx)
    exact ⟨br, hbr, hd⟩

/-- A name that is bound and not joined was bound before. -/
theorem Collected.isSome_get? (h : S.Collected n before lo a m t) {name : String}
    (hname : name ∈ m.binds.filter (· ∉ [""])) (hnot : name ∉ joinedNames before a.branches) :
    (before.get? name).isSome = true := by
  obtain ⟨hbind, hne⟩ := List.mem_filter.mp hname
  obtain ⟨x, hx, hmem⟩ := Menu.mem_binds.mp hbind
  obtain ⟨br, hbr, hd⟩ := h.exists_branch hx
  rw [← hd.get?_of_not_mem (by simpa using hne) fun hr => hnot (mem_joinedNames.mpr ⟨br, hbr, hr⟩)]
  exact hd.rebinds.bound name hmem

section
variable {after : Names} {i : Nat} {hi : Int} {o v : Value}

theorem Collected.arrives (h : S.Collected n before lo a m t)
    (hjoins : joins.Fresh (joinedNames before a.branches) t.func.numRegs hi)
    (hhi : t.func.numRegs ≤ hi) (hdest : S.func.InRange ⟨hi⟩)
    (hafter : ∀ name, after.get? name = (joins.get? name).or (before.get? name)) {fr fr₁ : Frame}
    (hfr : fr.Of S.func) {k : Stack} {made : Nat} {μ ν : Memory} {w : Value}
    (hm : fr.Mirrors lo before μ.env) (hkeep : fr.Keeps lo hi fr₁) (hc : fr₁.Carries hi joins ν.env)
    (hsame : ∀ name, name ≠ "" → joins.get? name = none → ν.env name = μ.env name)
    (hw : w.isSet = true) (hv : m.choose v μ = (.ok w, ν)) (l : Nat) :
    ∃ fr₂, fr₁.write ⟨hi⟩ w = .ok fr₂ ∧
      S.Arrives b ⟨l, lo, before⟩ ⟨i, hi + 1, after⟩ fr k made
        (fun w l fr => fr.Shows l (.reg ⟨hi⟩) w)
        (Eval.keeping (m.binds.filter (· ∉ [""])) (m.choose v) μ)
        (.inCode S.func b i fr₂ k ⟨ν.issued, made⟩) := by
  have hlo : lo ≤ hi := le_trans h.regs hhi
  have hhi' : hi ≤ hi + 1 := by omega
  obtain ⟨fr₂, hwrite, hkeep₂, hshow⟩ := (hfr.keeps hkeep).write hdest hw
  have hkeep' : fr.Keeps lo (hi + 1) fr₂ := hkeep.trans hkeep₂ hlo hhi'
  refine ⟨fr₂, hwrite, ?_⟩
  rw [Eval.keeping_of_ok hv]
  refine ⟨fr₂, rfl, hkeep', ?_, hshow⟩
  refine mirrors_joined hm hkeep' (le_trans hlo hhi') (fun name j hj => ?_) hsame hafter ?_ ?_ ?_
  · exact (hc name j hj).keeps hkeep₂ (le_refl _) hhi'
  · intro name hname
    exact h.mem_joined (hjoins.mem_iff.mpr hname)
  · intro name hname hnone
    refine h.isSome_get? hname fun hmem => ?_
    simpa [hnone] using hjoins.mem_iff.mp hmem
  · intro name hname
    simpa using (List.mem_filter.mp hname).2

theorem perform_dispatch {fr : Frame} {w : World} {dest : Reg} {arms : List Arm} {d c : BlockId}
    (ho : fr.read o = .ok v) (hc : Machine.chooseArm fr v d arms = .ok c) :
    Machine.perform S.cfg.runner S.prog fr w (.dispatch dest o arms d) =
      (w, if c = .none then Machine.finish fr dest .null else .ok (.enter c (.arm dest))) := by
  simp only [Machine.perform, ho]
  show (w, Machine.chooseArm fr v d arms >>= _) = _
  rw [hc]
  rfl

/-- The code of a choice: the joins, the dispatch, and the blocks of the alternatives. -/
theorem evaluates_choice {u : Builder} (h : S.Collected n before lo a m t)
    (hstart : S.Starts (n + 1) b t (joinedNames before a.branches) joins u)
    (hends : ∀ br ∈ a.branches, S.func.Has br.block ∧
      S.func.code br.block = t.func.code br.block ++ br.ending before joins)
    (hx : (S.func.code b)[(u.func.code b).length]? =
      some (.dispatch ⟨u.func.numRegs⟩ o a.arms a.default))
    (hdest : S.func.InRange ⟨u.func.numRegs⟩)
    (hafter : ∀ name, after.get? name = (joins.get? name).or (before.get? name)) :
    S.Evaluates (n + 1) b ⟨(t.func.code b).length, lo, before⟩
      ⟨(u.func.code b).length + 1, u.func.numRegs + 1, after⟩ (fun l fr => fr.Shows l o v)
      (Eval.keeping (m.binds.filter (· ∉ [""])) (m.choose v))
      fun w l fr => fr.Shows l (.reg ⟨u.func.numRegs⟩) w := by
  intro fr k made μ hk hfr hm hp
  have hm' : fr.Mirrors t.func.numRegs t.names μ.env := h.names ▸ hm.mono h.regs
  refine (hstart.evaluates μ.env fr k made μ hk hfr hm' hm').trans ?_
  rintro _ ⟨fr₁, rfl, hkeep₁, -, hcarry⟩
  simp only [Builder.mark] at hkeep₁ hcarry ⊢
  have hkeep : fr.Keeps lo u.func.numRegs fr₁ := hkeep₁.mono h.regs (le_refl _)
  have hread : fr₁.read o = .ok v := (hp.keeps hkeep₁ h.regs (le_refl _)).read
  obtain ⟨c, hc, hcases⟩ := h.chooseArm fr₁ v
  have hperf : Machine.perform S.cfg.runner S.prog fr₁ ⟨μ.issued, made⟩
      (.dispatch ⟨u.func.numRegs⟩ o a.arms a.default) = _ := perform_dispatch hread hc
  have hlen := S.lt_of_getElem? hx
  have harrive := fun fr₂ ν w => @Collected.arrives S n b before joins lo a m t after
    ((u.func.code b).length + 1) u.func.numRegs v h hstart.fresh hstart.regs hdest hafter fr fr₂ hfr k
    made μ ν w hm
  rcases hcases with ⟨rfl, hchoose⟩ | ⟨br, hbr, rfl, x, hd, hchoose⟩
  · -- no alternative: the result is null
    obtain ⟨fr₂, hwrite, harr⟩ := harrive fr₁ μ .null hkeep hcarry (fun _ _ _ => rfl) rfl
      (by rw [hchoose]; rfl) (t.func.code b).length
    have hnext : Machine.perform S.cfg.runner S.prog fr₁ ⟨μ.issued, made⟩
        (.dispatch ⟨u.func.numRegs⟩ o a.arms a.default) =
          (⟨μ.issued, made⟩, .ok (.next fr₂ (Int64.ofNat 0))) := by
      rw [hperf, if_pos rfl, Machine.finish, hwrite]
      rfl
    exact .step (Machine.step_next hx hlen hnext) (.here harr)
  · obtain ⟨hhas, hcode⟩ := hends br hbr
    have hnone : br.block ≠ .none := fun heq => absurd (heq ▸ hhas).1 (by decide)
    rw [if_neg hnone] at hperf
    refine .step (Machine.step_enter hx hlen hperf (by omega) (hfr.keeps hkeep).func hhas) ?_
    have hheight : (Machine.armOf S.func b (u.func.code b).length ⟨u.func.numRegs⟩ k).height =
        k.height + 1 := rfl
    refine (runs_branch hd hcode hstart.fresh
      (fun name hname => by simpa using (List.mem_filter.mp (h.mem_joined hname)).2)
      (fun name hname => mem_joinedNames.mpr ⟨br, hbr, hname⟩) (le_trans h.nonneg h.regs)
      hstart.regs (le_of_lt hdest.2) (by omega) (hfr.keeps hkeep)
      (hm.keeps hkeep (le_refl _) (le_refl _)) hcarry).trans fun u' hu' => ?_
    rcases hev : x.eval μ with ⟨e | w, ν⟩
    · rw [hev] at hu'
      obtain ⟨u'', hstep, hfault⟩ := Machine.step_faulted hu'
      refine .step hstep (.here ?_)
      rw [Eval.keeping_of_error (by rw [hchoose, hev])]
      exact hfault
    · rw [hev] at hu'
      obtain ⟨fr₂, j, rfl, hset, hkeep₂, hcarry₂, hsame⟩ := hu'
      obtain ⟨fr₃, hwrite, harr⟩ := harrive fr₂ ν w (hkeep.comp hkeep₂) hcarry₂ hsame hset
        (by rw [hchoose, hev]) (t.func.code b).length
      exact .step (Machine.step_yield hwrite) (.here harr)

end

theorem collected_empty (hs : s.Stands b) : S.Collected n s.names s.func.numRegs {} {} s where
  outside := hs.outside
  names := rfl
  proper := hs.proper
  nonneg := hs.numRegs
  regs := le_refl _
  nodup := .nil
  branches := by simp
  arms := .nil
  noDefault _ := rfl
  default x h := by cases h

/-- The joins and the dispatch of a choice whose alternatives are gathered. -/
theorem Collected.dispatch (hs : s.Stands b) (h : S.Collected n s.names s.func.numRegs a m t)
    (hg : Builder.Grows ∅ s t) (hnew : ∀ br ∈ a.branches, ¬ s.func.Has br.block) (o v : Value)
    (ha : Agrees S.func ∅ s (Lowering.dispatch b o s.names a t).2) :
    S.SimulatesAt (n + 1) b (fun _ => Lowering.dispatch b o s.names a t)
      (m.binds.filter (· ∉ [""])) (fun l fr => fr.Shows l o v)
      (Eval.keeping (m.binds.filter (· ∉ [""])) (m.choose v))
      (fun r w l fr => fr.Shows l (operand r) w) s := by
  have hb := Set.mem_singleton b
  have happ : Lowering.dispatch b o s.names a t = produce b (.dispatch · o a.arms a.default)
      (join b s.names a.branches t).2 := rfl
  have hdrafted : ∀ br ∈ a.branches, t.func.Has br.block ∧
      endsBlock (t.func.code br.block) = false := fun br hbr => by
    obtain ⟨x, -, hd⟩ := h.branches br hbr
    exact ⟨hd.has, hd.live⟩
  have hne : ∀ br ∈ a.branches, br.block ≠ b := fun br hbr heq => hnew br hbr (heq ▸ hs.has)
  have htb : t.func.code b = s.func.code b := hg.func.kept b hs.has (by simp)
  have hstands : t.Stands b := ⟨hg.func.has hs.has, htb ▸ hs.live, h.outside,
    le_trans h.nonneg h.regs, h.names ▸ h.proper⟩
  have hprod := adds_produce hb (.dispatch · o a.arms a.default) (join b s.names a.branches t).2
  rw [happ] at ha
  have ha' := (ha.right hg).left hprod (by rintro c rfl; exact .inl hstands.has)
  obtain ⟨u, joins, hj⟩ := joinSteps_join s.names hstands.has h.nodup (fun br hbr => (hdrafted br hbr).1)
    hne
  have hopened : (a.branches.filter fun br => !endsBlock (t.func.code br.block)) = a.branches :=
    List.filter_eq_self.mpr fun br hbr => by rw [(hdrafted br hbr).2]; rfl
  have hstarted := hj.started
  rw [hopened] at hstarted
  have hstart := starts_joins (S := S) (n := n + 1) (joinedNames s.names a.branches) hstands
  rw [h.names, hstarted] at hstart
  generalize (join b s.names a.branches t).2 = y at *
  replace hstart := hstart (hj.agrees ha')
  obtain ⟨v', hv', hbind⟩ := hj.bound
  obtain ⟨after, hbind', hafter, hproper⟩ := bindAll_joins
    (hstart.fresh.keys.symm ▸ nodup_joinedNames s.names a.branches) v'
  have hynames : y.names = after := by rw [(Prod.mk.inj (hbind.symm.trans hbind')).2]
  have hyhas : y.func.Has b := hj.later.has hstart.stands.has
  have hcode : (produce b (.dispatch · o a.arms a.default) y).2.func.code b =
      u.func.code b ++ [.dispatch ⟨u.func.numRegs⟩ o a.arms a.default] := by
    have hprod := produce_code (x := (.dispatch · o a.arms a.default)) hyhas
    simpa only [hj.front, hj.numRegs] using hprod
  have hbranch : ∀ br ∈ a.branches, S.func.Has br.block ∧
      S.func.code br.block = t.func.code br.block ++ br.ending s.names joins := by
    intro br hbr
    have hyhas' : y.func.Has br.block := hj.later.has (hj.start.func.has (hdrafted br hbr).1)
    refine ⟨ha.has (hprod.func.has hyhas'), ?_⟩
    rw [ha.finished br.block (hnew br hbr) (hprod.func.has hyhas') id,
      hprod.func.kept br.block hyhas' (hne br hbr), hj.closed br hbr, (hdrafted br hbr).2]
    rfl
  have hafter' : ∀ name, after.get? name = (joins.get? name).or (s.names.get? name) := by
    rw [← h.names, ← hv']
    exact hafter
  have hx := ha.code b (u.func.code b).length (.dispatch ⟨u.func.numRegs⟩ o a.arms a.default)
    (htb ▸ hj.start.func.length_le b) (by rw [hcode, List.getElem?_concat_length])
  have hregs : (produce b (.dispatch · o a.arms a.default) y).2.func.numRegs =
      u.func.numRegs + 1 := by
    simp [produce_apply, hj.numRegs]
  have hunum : 0 ≤ u.func.numRegs := hstart.stands.numRegs
  have hdest : S.func.InRange ⟨u.func.numRegs⟩ :=
    ha.inRange ⟨hunum, by rw [hregs]; exact Int.lt_succ _⟩
  have hev := evaluates_choice (v := v) h hstart hbranch hx hdest hafter'
  have hjoined : ∀ name, (joins.get? name).isSome = true ↔ name ∈ joinedNames s.names a.branches :=
    fun _ => hstart.fresh.mem_iff.symm
  refine ⟨?_, ⟨fun name hname => ?_, fun name hname => ?_⟩, ?_⟩ <;> simp only [happ]
  · refine ⟨hprod.func.has hyhas, ?_, hj.enclosing.trans hstart.stands.outside, by rw [hregs]; omega, ?_⟩
    · rw [hcode, endsBlock_append]
      rfl
    · show y.names.Proper
      exact hynames ▸ hproper (hv' ▸ hstands.proper)
  · show (y.names.get? name).isSome = true
    rw [hynames, hafter']
    by_cases hmem : name ∈ joinedNames s.names a.branches
    · rw [Option.isSome_or, (hjoined name).mpr hmem, Bool.true_or]
    · rw [Option.isSome_or, h.isSome_get? hname hmem, Bool.or_true]
  · show y.names.get? name = _
    rw [hynames, hafter', Option.not_isSome_iff_eq_none.mp fun hj => hname (h.mem_joined ((hjoined name).mp hj)),
      Option.none_or]
  · have hmark : (produce b (.dispatch · o a.arms a.default) y).2.mark b =
        ⟨(u.func.code b).length + 1, u.func.numRegs + 1, after⟩ := by
      simp only [Builder.mark, hcode, hregs, List.length_append, List.length_singleton, ← hynames]
      rfl
    rw [hmark]
    rw [htb] at hev
    simp only [produce_apply, hj.numRegs]
    exact hev

/-- The alternatives of a choice, their joins, and the dispatch. -/
theorem simulates_dispatch {f : Arms → Build Arms} {g : Menu → Menu} (hf : S.Offers n f g)
    (mf : Gatherer f) (o v : Value) :
    S.Simulates (n + 1) b (Build.names >>= fun before => f {} >>= Lowering.dispatch b o before)
      ((g {}).binds.filter (· ∉ [""])) (fun l fr => fr.Shows l o v)
      (Eval.keeping ((g {}).binds.filter (· ∉ [""])) ((g {}).choose v))
      fun r w l fr => fr.Shows l (operand r) w := by
  intro s hs ha
  obtain ⟨hg, hold⟩ := mf {} s
  have happ : (Build.names >>= fun before => f {} >>= Lowering.dispatch b o before) s =
      Lowering.dispatch b o s.names (f {} s).1 (f {} s).2 := rfl
  rw [happ] at ha
  have hb : Builder.Grows ({b} ∪ blocksOf (f {} s).1.branches) (f {} s).2
      (Lowering.dispatch b o s.names (f {} s).1 (f {} s).2).2 :=
    adds_dispatch (.inl rfl) o s.names Set.subset_union_right _
  have hcol := hf {} {} s.names s.func.numRegs s (collected_empty hs)
    ((ha.mono (Set.empty_subset _)).left hb (by rintro c (rfl | h); exacts [.inl hs.has, .inr h]))
  have h := hcol.dispatch hs hg (fun br hbr => (hold br hbr).resolve_left (by simp)) o v ha
  exact SimulatesAt.of_eq _ h happ

theorem yields_choice {scrutinee : Build (Option Reg)} (ax : Adds {b} scrutinee) (pos : Position)
    {x y : Meaning} (hx : S.Yields (n + 1) b scrutinee x) {cases : Arms → Build Arms}
    {g : Menu → Menu} (mc : Gatherer cases) (hc : S.Offers n cases g)
    {default : Option (BlockId → Build (Option Reg))}
    (ad : ∀ body ∈ default, ∀ c, Adds {c} (body c))
    (hd : ∀ body ∈ default, ∀ c, S.Yields n c (body c) y) :
    S.Yields (n + 1) b (choice b pos scrutinee (cases {}) default)
      (.choice [""] x (if default.isSome then (g {}).addDefault y else g {})) := by
  have md : Gatherer (addSeparate pos · default) := fun a => makes_addSeparate pos a ad
  have hoffers := hc.bind mc (offers_addSeparate pos default ad hd) md
  have hrest := fun v before => adds_chosen (Set.mem_singleton b) v before (mc.bind md {})
  rw [choice_eq]
  exact Simulates.bind (by grind) hx lasting_true fun r v =>
    (simulates_dispatch hoffers (mc.bind md) (operand r) v).pre fun _ _ h => h.2

end

end Setting

end ScriptMachine
