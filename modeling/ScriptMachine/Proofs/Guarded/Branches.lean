import ScriptMachine.Proofs.Guarded.Joins

/-!
# Runs of branches

How a branch runs and what names stand for behind it.

1. A section of code comes to its end (`SectionCode.comes`). Either its own code ends it, or it sets the
   registers of joined names and yields (`SectionEnds`).
2. Behind a branch that yields, the registers of joined names hold what the names are to stand for
   (`Branch.leaves`), but for the empty name: a branch without a variable loses it (`Branch.Loses`,
   `Branch.holdsJoins_handsOn`).
-/

namespace ScriptMachine

/-! ## The end of a branch -/

namespace Machine

/-- A section of code has ended: either its own code ended it, which writes only the registers in `W`, or
it yields, once the registers in `ms` were set. -/
structure SectionEnds (g : Func) (W : Set Reg) (ms : List (Reg × Option Reg)) (fr : Frame) (k : Stack)
    (o : Outcome) (t : State) : Prop where
  stack : t.stack = k
  ended : t.ended = some o
  fixed : o.Fixed g.name
  stays : o.isYield = false → fr.Spares W t.frame
  yields : ∀ x, o = .value x .yield → x.isSet = true ∧
    ∃ fr₁, fr.Spares W fr₁ ∧ fr₁.Moved ms t.frame

variable {cfg : RunConfig} {p : Program} {g : Func} {c : BlockId} {W : Set Reg} {n : Nat}
  {ms : List (Reg × Option Reg)} {last : Option Reg} {fr : Frame} {k : Stack} {w : World}

/-- The code of a section: its own code, and unless that ends the block, what it sets behind it. -/
structure SectionCode (g : Func) (W : Set Reg) (c : BlockId) (ms : List (Reg × Option Reg))
    (last : Option Reg) (own : List Instr) : Prop where
  confined : Confined g W c 0 own.length
  noYield : ∀ l < own.length, ∀ v, (g.code c)[l]? ≠ some (.leave .yield v)
  code : g.code c = own ∨
    g.code c = own ++ (ms.map (fun m => joinStart m.1 m.2) ++ [.leave .yield (operand last)])
  movable : Movable ms

/-- A section comes to its end, and it does not yield if its own code is all there is. -/
theorem SectionCode.comes {own : List Instr} (hc : SectionCode g W c ms last own)
    (hstart : Startable p) (hlen : ∀ c, (g.code c).length < codeLimit) (hfree : AccessFree cfg p)
    (hg : fr.func = g) (hcalls : CallsEnd cfg p k) (hs : Reachable cfg p (.inCode g c 0 fr k w)) :
    ∃ t o, Through cfg p (Above k) (.inCode g c 0 fr k w) t ∧ SectionEnds g W ms fr k o t ∧
      (g.code c = own → o.isYield = false) := by
  obtain ⟨t, hthrough, hland⟩ := hc.confined.comes hstart hlen hg hcalls w
  have habove : Above k t := above_of_eq hland.stack
  rcases hland.goes with ⟨o, ho, hfixed, hyield⟩ | ⟨w', ht⟩
  · have hno : o.isYield = false := by
      by_contra hy
      obtain ⟨l, hl, v, hx⟩ := hyield (by simpa using hy)
      exact hc.noYield l hl v hx
    refine ⟨t, o, hthrough, ⟨hland.stack, ho, hfixed, fun _ => hland.frame, ?_⟩, fun _ => hno⟩
    rintro x rfl
    cases hno
  · rw [ht] at hthrough
    have hreach := hthrough.reachable hs
    have hframe : fr.Spares W t.frame := hland.frame
    generalize t.frame = fr₁ at *
    rcases hc.code with hcode | hcode
    · -- its own code is all there is, and it did not end the block
      have hname : fr₁.func.name = g.name := by rw [hframe.func, hg]
      rw [← hcode] at hthrough
      exact ⟨_, _, hthrough.trans (.step (above_of_eq rfl) (step_behind (hlen c)) (.refl (above_of_eq rfl))),
        ⟨rfl, rfl, Outcome.fixed_locate _ hname, fun _ => hframe, fun _ h => by cases h⟩, fun _ => rfl⟩
    · have hat := CodeAt.of_append hcode
      obtain ⟨fr₂, hmoves, hmoved⟩ := through_moves (P := Above k) hfree (hlen c)
        (fun _ _ => above_of_eq rfl) hc.movable hreach hat.left.of_map
      have hx : (g.code c)[own.length + ms.length]? = some (.leave .yield (operand last)) := by
        simpa using hat.last
      have hi : own.length + ms.length < codeLimit :=
        Nat.lt_trans (List.getElem?_eq_some_iff.mp hx).1 (hlen c)
      cases hr : fr₂.read (operand last) with
      | error e =>
        obtain ⟨r, -, -, rfl⟩ := Frame.read_eq_error_iff.mp hr
        have hp : perform cfg.runner p fr₂ w' (.leave .yield (operand last)) =
            (w', .error (.readUnset r)) := by
          simp only [perform, leave, hr]
          rfl
        cases hfree.not_fail (hmoves.reachable hreach) (step_error hx hi hp)
      | ok y =>
        have hp : perform cfg.runner p fr₂ w' (.leave .yield (operand last)) =
            (w', .ok (.leave y .yield)) := by
          simp only [perform, leave, hr]
          rfl
        refine ⟨_, _, hthrough.trans (hmoves.trans (.step (above_of_eq rfl) (step_leave hx hi hp)
          (.refl (above_of_eq rfl)))), ⟨rfl, rfl, Outcome.fixed_value _ y .yield,
          (fun h => by cases h), ?_⟩, fun hown => ?_⟩
        · rintro x ⟨⟩
          exact ⟨(read_operand hr).2.1, fr₁, hframe, hmoved⟩
        · simp [hown] at hcode

end Machine

/-! ## What names stand for behind a branch -/

/-- What names stand for in a frame; what has no register there stands for what it stood for before. -/
def Frame.updated (fr : Frame) (ns : Names) (E : String → Option Value) (name : String) : Option Value :=
  (ns.get? name).elim (E name) fr.get?

/-- What names are to stand for behind a branch: what they stand for at its end. The variable of a clause
stays with it, even where the clause assigns it. -/
def Branch.leaves (br : Branch) (fr : Frame) (E : String → Option Value) (name : String) : Option Value :=
  if br.own ≠ "" ∧ name = br.own then E name else fr.updated br.names E name

/-- A join takes the empty name for the variable of a branch that has none. So what the branch binds it to
is lost. -/
def Branch.Loses (br : Branch) (name : String) : Prop := br.own = "" ∧ name = ""

instance (br : Branch) (name : String) : Decidable (br.Loses name) := inferInstanceAs (Decidable (_ ∧ _))

/-- What names do stand for behind a branch. -/
def Branch.handsOn (br : Branch) (fr : Frame) (E : String → Option Value) (name : String) : Option Value :=
  if br.Loses name then E name else br.leaves fr E name

theorem Branch.handsOn_eq (br : Branch) (fr : Frame) (E : String → Option Value) (name : String) :
    br.handsOn fr E name = if name = br.own then E name else fr.updated br.names E name := by
  unfold handsOn leaves Loses
  by_cases hname : name = br.own <;> by_cases hown : br.own = "" <;> simp_all

/-- The registers of joined names hold what the names stand for, or null. -/
def Frame.HoldsJoins (fr : Frame) (joins : Names) (E : String → Option Value) : Prop :=
  ∀ name j, joins.get? name = some j → fr.get? j = some ((E name).getD .null)

section
variable {before joins : Names} {br : Branch} {brs : List Branch} {lo hi : Int} {fr fr' : Frame}
  {E : String → Option Value}

/-- A name that a branch does not hand on stands for the same behind it. -/
theorem Branch.handsOn_of_not_rebound (hE : ∀ name r, before.get? name = some r → fr.get? r = E name)
    {name : String} (hname : name ∉ br.rebound before) : br.handsOn fr E name = E name := by
  rw [handsOn_eq, Frame.updated]
  by_cases hown : name = br.own
  · rw [if_pos hown]
  · rw [if_neg hown]
    cases hr : br.names.get? name with
    | none => rfl
    | some r =>
      have hsame : before.get? name = some r := by
        by_contra hne
        exact hname (List.mem_filter.mpr ⟨mem_changed hr hne, by simpa using hown⟩)
      exact hE name r hsame

/-- Behind a branch that yields, the registers of joined names hold what the branch hands on. -/
theorem Branch.holdsJoins_handsOn (hjoins : joins.Fresh (joinedNames before brs) lo hi) (hbr : br ∈ brs)
    (hapart : ∀ p ∈ br.names, ∀ name j, joins.get? name = some j → p.2 ≠ j)
    (hbefore : ∀ p ∈ before, ∀ name j, joins.get? name = some j → p.2 ≠ j)
    (hE : ∀ name r, before.get? name = some r → fr.get? r = E name) (hold : fr.HoldsJoins joins E)
    (hmoved : fr.Moved (br.moves before joins) fr') :
    fr'.HoldsJoins joins (br.handsOn fr' E) ∧
      ∀ name, joins.get? name = none → br.handsOn fr' E name = E name := by
  -- the moves touch only registers of joined names
  have hkept : ∀ q, (∀ name, joins.get? name ≠ some q) → fr'.get? q = fr.get? q := fun q hq =>
    hmoved.kept q fun m hm heq => by
      obtain ⟨name, -, r, hj, -, -⟩ := mem_moves.mp hm
      exact hq name (heq ▸ hj)
  have hE' : ∀ name r, before.get? name = some r → fr'.get? r = E name := fun name r hr => by
    rw [hkept r fun other hj => hbefore _ (Names.mem_of_get? hr) other r hj rfl]
    exact hE name r hr
  refine ⟨fun name j hj => ?_, fun name hnone => ?_⟩
  · by_cases hre : name ∈ br.rebound before
    · obtain ⟨hchanged, hown⟩ := List.mem_filter.mp hre
      have hown : name ≠ br.own := by simpa using hown
      have hsome : (br.names.get? name).isSome := by
        simp only [Names.changed, List.mem_mergeSort, List.mem_map, List.mem_filter] at hchanged
        obtain ⟨q, ⟨hq, -⟩, rfl⟩ := hchanged
        exact Names.isSome_get?_iff.mpr (List.mem_map_of_mem hq)
      obtain ⟨r, hr⟩ := Option.isSome_iff_exists.mp hsome
      have hr' : fr'.get? r = fr.get? r :=
        hkept r fun other hj => hapart _ (Names.mem_of_get? hr) other r hj rfl
      rw [hmoved.moved (j, some r) (mem_moves.mpr ⟨name, hre, r, hj, hr, rfl⟩)]
      simp only [handsOn_eq, if_neg hown, Frame.updated, hr, Option.elim_some, hr', Frame.given,
        Option.bind_some]
    · have hj' : fr'.get? j = fr.get? j := hmoved.kept j fun m hm heq => by
        obtain ⟨other, hother, r, hj', -, -⟩ := mem_moves.mp hm
        obtain rfl : name = other := hjoins.inj _ _ j hj (heq ▸ hj')
        exact hre hother
      rw [hj', hold name j hj, Branch.handsOn_of_not_rebound hE' hre]
  · refine Branch.handsOn_of_not_rebound hE' fun hre => ?_
    have hmem := hjoins.mem_iff.mp (mem_joinedNames.mpr ⟨br, hbr, hre⟩)
    rw [hnone] at hmem
    cases hmem

end

end ScriptMachine
