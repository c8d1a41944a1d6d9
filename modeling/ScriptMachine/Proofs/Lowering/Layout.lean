import ScriptMachine.Proofs.Lowering.FuncShape
import ScriptMachine.Proofs.References

/-!
# The layout of lowered code

`Build.Lays n S m Q` is the law of a step `m` that has the registers below `n` behind it: the code it
adds to any block writes registers from `n` on, and each short circuit in it stands in front of its
whole right operand (`Bracketed`). Blocks are numbered in the order in which they are made. `S` are
blocks that exist, and `Q` is what is known of the result.

A short circuit takes a register of its own first, so its right operand is laid out above it and
cannot write that register; only the move at the end of the operand does.
-/

namespace ScriptMachine

open Lowering (landing)

/-! ## Code -/

namespace Instr

def isCircuit : Instr → Bool
  | circuit .. => true
  | _ => false

theorem Plain.isCircuit {x : Instr} (h : x.Plain) : x.isCircuit = false := by
  cases x <;> simp_all [Plain, Instr.isCircuit]

/-- An instruction writes registers from the number `n` on only. -/
def WritesFrom (n : Int) (x : Instr) : Prop := ∀ r ∈ x.writes, r = .none ∨ n ≤ r.index

theorem WritesFrom.mono {n m : Int} {x : Instr} (h : x.WritesFrom m) (hnm : n ≤ m) :
    x.WritesFrom n :=
  fun r hr => (h r hr).imp id (le_trans hnm)

theorem writesFrom_leave (n : Int) (how : Terminator) (v : Value) : (leave how v).WritesFrom n :=
  fun _ hr => .inl (List.mem_singleton.mp hr)

end Instr

/-- Code in which every short circuit stands in front of its right operand: code that does not write
its register, then a move to it if the operand has a value. -/
inductive Bracketed : List Instr → Prop
  | nil : Bracketed []
  | cons {x : Instr} {xs : List Instr} (hx : x.isCircuit = false) (h : Bracketed xs) :
      Bracketed (x :: xs)
  | circuit {kind : Circuit} {dest : Reg} {left : Value} {r : Option Reg} {body rest : List Instr}
      (hbody : Bracketed body) (hdest : ∀ y ∈ body, dest ∉ y.writes) (hrest : Bracketed rest) :
      Bracketed (.circuit kind dest left (operand r)
        (Int64.ofNat (body ++ landing dest r).length) :: ((body ++ landing dest r) ++ rest))

theorem Bracketed.append {xs ys : List Instr} (hx : Bracketed xs) (hy : Bracketed ys) :
    Bracketed (xs ++ ys) := by
  induction hx with
  | nil => exact hy
  | cons hc _ ih => exact .cons hc ih
  | circuit hbody hdest _ _ ih =>
    rw [List.cons_append, List.append_assoc]
    exact .circuit hbody hdest ih

/-! ## Numbers of blocks -/

namespace Func

variable {f g : Func}

theorem Numbered.congr (h : f.Numbered) (hb : g.blocks = f.blocks) : g.Numbered := fun i k hk =>
  h i k (by rwa [hb] at hk)

theorem numbered_new (name : String) (params : List String) : (new name params).Numbered := by
  have hblocks : (new name params).blocks = #[{ id := ⟨0⟩ }] := by
    simp [new, newBlock, (addParams_spec _ params).2.1]
  refine numbered_iff.mpr ?_
  rw [ids, hblocks]
  rfl

theorem Numbered.newBlock (h : f.Numbered) : f.newBlock.1.Numbered := by
  intro i k hk
  have hpush : (f.blocks.push { id := ⟨f.blocks.size⟩ })[i]? = some k := hk
  rw [Array.getElem?_push] at hpush
  by_cases hi : i = f.blocks.size
  · rw [if_pos hi] at hpush
    rw [← Option.some.inj hpush, hi]
  · rw [if_neg hi] at hpush
    exact h i k hpush

/-- Changing the code of a block leaves its number. -/
theorem Numbered.modify (h : f.Numbered) (j : Nat) (change : Block → Block)
    (hid : ∀ k, (change k).id = k.id) :
    ({ f with blocks := f.blocks.modify j change } : Func).Numbered := by
  intro i k hk
  rw [Array.getElem?_modify] at hk
  by_cases hj : j = i
  · rw [if_pos hj] at hk
    obtain ⟨k', hk', rfl⟩ := Option.map_eq_some_iff.mp hk
    rw [hid]
    exact h i k' hk'
  · rw [if_neg hj] at hk
    exact h i k hk

theorem Numbered.append (h : f.Numbered) (b : BlockId) (x : Instr) : (f.append b x).Numbered := by
  unfold Func.append
  split
  · exact h
  · exact h.modify _ _ fun _ => rfl

theorem Numbered.replace (h : f.Numbered) (b : BlockId) (i : Nat) (x : Instr) :
    (f.replace b i x).Numbered := by
  unfold Func.replace
  split
  · exact h
  · exact h.modify _ _ fun _ => rfl

end Func

/-! ## States and steps -/

/-- Code that writes registers from `n` on and has its short circuits in order. -/
structure LaidOut (n : Int) (xs : List Instr) : Prop where
  bracketed : Bracketed xs
  writes : ∀ x ∈ xs, x.WritesFrom n

theorem laidOut_nil (n : Int) : LaidOut n [] := ⟨.nil, by simp⟩

theorem laidOut_singleton {n : Int} {x : Instr} (hx : x.isCircuit = false) (hw : x.WritesFrom n) :
    LaidOut n [x] :=
  ⟨.cons hx .nil, by simpa using hw⟩

theorem LaidOut.append {n : Int} {xs ys : List Instr} (hx : LaidOut n xs) (hy : LaidOut n ys) :
    LaidOut n (xs ++ ys) :=
  ⟨hx.bracketed.append hy.bracketed, fun x h =>
    (List.mem_append.mp h).elim (hx.writes x) (hy.writes x)⟩

theorem LaidOut.mono {n m : Int} {xs : List Instr} (h : LaidOut m xs) (hnm : n ≤ m) : LaidOut n xs :=
  ⟨h.bracketed, fun x hx => (h.writes x hx).mono hnm⟩

/-- The state `t` is `s` with more code, laid out above the registers below `n`. -/
structure Builder.Lays (n : Int) (s t : Builder) : Prop where
  numRegs : s.func.numRegs ≤ t.func.numRegs
  size : s.func.blocks.size ≤ t.func.blocks.size
  numbered : s.func.Numbered → t.func.Numbered
  code : ∀ c, ∃ xs, t.func.code c = s.func.code c ++ xs ∧ LaidOut n xs

namespace Builder.Lays

variable {n : Int} {s t u : Builder}

theorem of_blocks (hb : t.func.blocks = s.func.blocks) (hn : s.func.numRegs ≤ t.func.numRegs) :
    Lays n s t where
  numRegs := hn
  size := le_of_eq (by rw [hb])
  numbered h := h.congr hb
  code c := ⟨[], by rw [List.append_nil, Func.code_congr hb], laidOut_nil n⟩

theorem trans (h₁ : Lays n s t) (h₂ : Lays n t u) : Lays n s u where
  numRegs := le_trans h₁.numRegs h₂.numRegs
  size := le_trans h₁.size h₂.size
  numbered h := h₂.numbered (h₁.numbered h)
  code c := by
    obtain ⟨xs, hxs, hx⟩ := h₁.code c
    obtain ⟨ys, hys, hy⟩ := h₂.code c
    exact ⟨xs ++ ys, by rw [hys, hxs, List.append_assoc], hx.append hy⟩

theorem has (h : Lays n s t) {c : BlockId} (hc : s.func.Has c) : t.func.Has c :=
  ⟨hc.1, lt_of_lt_of_le hc.2 (by exact_mod_cast h.size)⟩

end Builder.Lays

namespace Build

variable {α β : Type} {n : Int} {S T : Set BlockId} {m : Build α} {f : α → Build β}
  {Q : α → Prop} {R : β → Prop}

/-- A step that lays out code above the registers below `n`. -/
def Lays (n : Int) (S : Set BlockId) (m : Build α) (Q : α → Prop) : Prop :=
  ∀ s : Builder, 0 ≤ n → n ≤ s.func.numRegs → (∀ c ∈ S, s.func.Has c) →
    Builder.Lays n s (m s).2 ∧ Q (m s).1

theorem Lays.mono (h : Lays n S m Q) (hS : S ⊆ T) : Lays n T m Q := fun s h₀ hn hT =>
  h s h₀ hn fun c hc => hT c (hS hc)

theorem lays_pure {a : α} (hQ : Q a) : Lays n S (pure a) Q := fun _ _ _ _ =>
  ⟨.of_blocks rfl (le_refl _), hQ⟩

theorem Lays.bind (hm : Lays n S m Q) (hf : ∀ a, Q a → Lays n S (f a) R) : Lays n S (m >>= f) R := by
  intro s h₀ hn hS
  obtain ⟨hlay, hQ⟩ := hm s h₀ hn hS
  obtain ⟨hlay', hR⟩ := hf _ hQ (m s).2 h₀ (le_trans hn hlay.numRegs) fun c hc => hlay.has (hS c hc)
  exact ⟨hlay.trans hlay', hR⟩

theorem lays_ite {c : Prop} [Decidable c] {m' : Build α} (h : Lays n S m Q) (h' : Lays n S m' Q) :
    Lays n S (if c then m else m') Q := by
  split
  · exact h
  · exact h'

/-- A step that leaves the blocks alone. -/
theorem lays_still (h : ∀ s, (m s).2.func.blocks = s.func.blocks ∧
    s.func.numRegs ≤ (m s).2.func.numRegs) : Lays n S m fun _ => True :=
  fun s _ _ _ => ⟨.of_blocks (h s).1 (h s).2, trivial⟩

theorem lays_newReg : Lays n S newReg fun r => n ≤ r.index := fun s _ hn _ =>
  ⟨.of_blocks rfl (by simp only [newReg_apply, Func.newReg_numRegs]; omega), hn⟩

theorem lays_complain (pos : Position) (c : Complaint) : Lays n S (complain pos c) fun _ => True :=
  lays_still fun _ => ⟨rfl, le_refl _⟩

theorem lays_terminated (b : BlockId) : Lays n S (terminated b) fun _ => True :=
  lays_still fun _ => ⟨rfl, le_refl _⟩

theorem lays_bind_name (name : String) (r : Reg) : Lays n S (Build.bind name r) fun _ => True :=
  lays_still fun _ => ⟨rfl, le_refl _⟩

theorem lays_names : Lays n S names fun _ => True := lays_still fun _ => ⟨rfl, le_refl _⟩

theorem lays_inClosure : Lays n S inClosure fun _ => True := lays_still fun _ => ⟨rfl, le_refl _⟩

theorem lays_lookup (name : String) : Lays n S (lookup name) fun _ => True := lays_still fun s =>
  have h := resolve_grows name s.func s.names s.enclosing
  ⟨h.2.1, h.1.numRegs⟩

theorem lays_lookupOutside (name : String) : Lays n S (lookupOutside name) fun _ => True :=
  lays_still fun s => by
    rcases s with ⟨p, f, ns, _ | ⟨e, es⟩, ds⟩
    · exact ⟨rfl, le_refl _⟩
    · have h := resolve_grows name f e.outer es
      exact ⟨h.2.1, h.1.numRegs⟩

theorem lays_capture (name : String) (v : Value) : Lays n S (capture name v) fun _ => True :=
  lays_still fun s => by
    rw [capture_apply]
    exact ⟨rfl, by simp only [Func.newReg_numRegs]; omega⟩

/-- Another function has nothing to do with the code at hand. -/
theorem lays_function (g : Func) (m : Build Unit) : Lays n S (function g m) fun _ => True :=
  lays_still fun _ => ⟨rfl, le_refl _⟩

theorem lays_emit (b : BlockId) {x : Instr} (hc : x.isCircuit = false) (hw : x.WritesFrom n) :
    Lays n S (emit b x) fun _ => True := by
  refine fun s _ _ _ => ⟨⟨by simp, by simp, fun h => h.append b x, fun c => ?_⟩, trivial⟩
  by_cases hb : s.func.Has b
  · by_cases hcb : c = b
    · subst hcb
      exact ⟨[x], Func.append_code_self hb x, laidOut_singleton hc hw⟩
    · exact ⟨[], by simp [Func.append_code_ne hcb], laidOut_nil n⟩
  · exact ⟨[], by simp [Func.append_code_of_not_has hb], laidOut_nil n⟩

theorem lays_emitAll (b : BlockId) {xs : List Instr}
    (h : ∀ x ∈ xs, x.isCircuit = false ∧ x.WritesFrom n) : Lays n S (emitAll b xs) fun _ => True := by
  induction xs with
  | nil => exact lays_pure trivial
  | cons x xs ih =>
    obtain ⟨hc, hw⟩ := h x List.mem_cons_self
    exact (lays_emit b hc hw).bind fun _ _ => ih fun y hy => h y (List.mem_cons_of_mem x hy)

/-- A block that is made is there from then on. -/
theorem lays_newBlock_bind {f : BlockId → Build β} (h : ∀ c, Lays n (insert c S) (f c) R) :
    Lays n S (newBlock >>= f) R := by
  intro s h₀ hn hS
  have hnew : Builder.Lays n s (newBlock s).2 :=
    ⟨le_refl _, by simp, fun h => h.newBlock, fun c =>
      ⟨[], by simp, laidOut_nil n⟩⟩
  obtain ⟨hlay, hR⟩ := h ⟨s.func.blocks.size⟩ (newBlock s).2 h₀ (le_trans hn hnew.numRegs) (by
    rintro c (rfl | hc)
    · exact s.func.newBlock_has_self
    · exact hnew.has (hS c hc))
  exact ⟨hnew.trans hlay, hR⟩

theorem lays_isolated (h : Lays n S m Q) : Lays n S (isolated m) fun x => Q x.1 := by
  intro s h₀ hn hS
  obtain ⟨hlay, hQ⟩ := h s h₀ hn hS
  exact ⟨⟨hlay.numRegs, hlay.size, hlay.numbered, hlay.code⟩, hQ⟩

/-- What a closure captures goes to new registers. -/
theorem lays_enclosed (am : Adds T m) (h : Lays n S m Q) :
    Lays n S (enclosed m) fun x => Q x.1 ∧ ∀ c ∈ x.2, n ≤ c.reg.index := by
  intro s h₀ hn hS
  obtain ⟨hlay, hQ⟩ := h s.enclose h₀ hn hS
  have hgrow := (am s.enclose).enclosing
  obtain ⟨e, es, hes, -, -, heq⟩ := enclosed_apply am s
  rw [hes] at hgrow
  rw [heq]
  refine ⟨⟨hlay.numRegs, hlay.size, hlay.numbered, hlay.code⟩, hQ, fun c hc => ?_⟩
  cases hgrow with
  | cons he _ =>
    rcases he.fresh c hc with hold | hnew
    · cases hold
    · exact le_trans hn hnew

theorem lays_newRegs (ns : List String) : Lays n S (newRegs ns) fun rs => ∀ r ∈ rs, n ≤ r.index := by
  induction ns with
  | nil => exact lays_pure (by simp)
  | cons _ ns ih =>
    refine lays_newReg.bind fun r hr => ih.bind fun rs hrs => lays_pure ?_
    simpa using ⟨hr, hrs⟩

theorem lays_bindAll (ns : List String) (rs : List Reg) :
    Lays n S (bindAll ns rs) fun _ => True := by
  induction ns generalizing rs with
  | nil => exact lays_pure trivial
  | cons name ns ih =>
    cases rs with
    | nil => exact lays_pure trivial
    | cons r rs => exact (lays_bind_name name r).bind fun _ _ => ih rs

/-- An instruction that writes nothing but its result. -/
theorem lays_produce (b : BlockId) {x : Reg → Instr} (hc : ∀ r, (x r).isCircuit = false)
    (hw : ∀ r : Reg, n ≤ r.index → (x r).WritesFrom n) : Lays n S (produce b x) fun _ => True :=
  lays_newReg.bind fun r hr => (lays_emit b (hc r) (hw r hr)).bind fun _ _ => lays_pure trivial

theorem lays_load (b : BlockId) (v : Value) : Lays n S (load b v) fun _ => True :=
  lays_newReg.bind fun r hr =>
    (lays_emit b rfl (fun q hq => .inr (by rwa [List.mem_singleton.mp hq]))).bind fun _ _ =>
      lays_pure trivial

/-! ## Branches -/

theorem lays_branch (own : String) (caught : Reg) {body : BlockId → Build (Option Reg)}
    (h : ∀ c, Lays n {c} (body c) fun _ => True) :
    Lays n S (branch own caught body) fun _ => True := by
  refine lays_newBlock_bind fun c => (lays_isolated (Q := fun _ => True) ?_).bind fun _ _ =>
    lays_pure trivial
  have hc : Lays n (insert c S) (body c) fun _ => True :=
    (h c).mono (Set.singleton_subset_iff.mpr (Set.mem_insert c S))
  split
  · exact (lays_bind_name own caught).bind fun _ _ => hc
  · exact hc

theorem lays_startJoins (b : BlockId) (before : Names) (ns : List String) :
    Lays n S (startJoins b before ns) fun joins => ∀ p ∈ joins, n ≤ p.2.index := by
  induction ns with
  | nil => exact lays_pure (by simp)
  | cons name ns ih =>
    refine lays_newReg.bind fun j hj => Lays.bind (Q := fun _ => True) ?_ fun old _ =>
      (lays_emit b ?_ ?_).bind fun _ _ => ih.bind fun joins hjoins => lays_pure ?_
    · unfold lookupBefore
      split
      · exact lays_pure trivial
      · exact lays_lookup name
    · cases old <;> rfl
    · cases old <;> exact fun q hq => .inr (by rwa [List.mem_singleton.mp hq])
    · rintro p (_ | ⟨_, hp⟩)
      · exact hj
      · exact hjoins p hp

/-- The end of a branch moves to the registers of joined names only. -/
theorem writesFrom_ending {before joins : Names} (br : Branch) (hj : ∀ p ∈ joins, n ≤ p.2.index)
    {x : Instr} (hx : x ∈ br.ending before joins) : x.isCircuit = false ∧ x.WritesFrom n := by
  rcases List.mem_append.mp hx with hx | hx
  · obtain ⟨name, -, hsome⟩ := List.mem_filterMap.mp hx
    obtain ⟨j, hget, hsome⟩ := Option.bind_eq_some_iff.mp hsome
    obtain ⟨r, -, hsome⟩ := Option.bind_eq_some_iff.mp hsome
    obtain rfl := Option.some.inj hsome
    refine ⟨rfl, fun q hq => .inr ?_⟩
    rw [List.mem_singleton.mp hq]
    exact hj _ (Names.mem_of_get? hget)
  · rw [List.mem_singleton.mp hx]
    exact ⟨rfl, Instr.writesFrom_leave n _ _⟩

theorem lays_closeBranches {before joins : Names} (hj : ∀ p ∈ joins, n ≤ p.2.index)
    (brs : List Branch) : Lays n S (closeBranches before joins brs) fun _ => True := by
  induction brs with
  | nil => exact lays_pure trivial
  | cons br brs ih =>
    exact (lays_emitAll _ fun x hx => writesFrom_ending br hj hx).bind fun _ _ => ih

theorem lays_join (b : BlockId) (before : Names) (brs : List Branch) :
    Lays n S (join b before brs) fun _ => True := by
  refine Lays.bind (lays_still fun s => ?_) fun opened _ =>
    (lays_startJoins b before _).bind fun joins hj =>
      (lays_closeBranches hj opened).bind fun _ _ => lays_bindAll _ _
  rw [openBranches_apply]
  exact ⟨rfl, le_refl _⟩

end Build

namespace Lowering

open Build

section
variable {n : Int} {S : Set BlockId} {b : BlockId} {body : BlockId → Build (Option Reg)}
  {args : Build (List Value)} {value : Build (Option Reg)}

/-! ## Combinators -/

theorem lays_number (pos : Position) (text : String) :
    Lays n S (number pos text) fun _ => True := by
  unfold number
  split
  · exact lays_pure trivial
  · exact (lays_complain pos _).bind fun _ _ => lays_pure trivial

theorem lays_pattern (p : Node) : Lays n S (pattern p) fun _ => True := by
  unfold pattern
  split
  · exact lays_number _ _
  · exact lays_pure trivial
  · exact lays_pure trivial
  · exact (lays_complain _ _).bind fun _ _ => lays_pure trivial

theorem lays_emit_leave (b : BlockId) (how : Terminator) (v : Value) :
    Lays n S (emit b (.leave how v)) fun _ => True :=
  lays_emit b rfl (Instr.writesFrom_leave n how v)

theorem lays_leave (b : BlockId) (v : Value) : Lays n S (leave b v) fun _ => True :=
  lays_inClosure.bind fun _ _ => lays_emit_leave b _ v

theorem lays_sealBody (b : BlockId) (last : Option Reg) :
    Lays n S (sealBody b last) fun _ => True :=
  (lays_terminated b).bind fun _ _ => lays_ite (lays_pure trivial) (lays_leave b _)

theorem lays_wholeBody (f : Func) (h : ∀ c, Lays n {c} (body c) fun _ => True) :
    Lays n {f.entry} (wholeBody f body) fun _ => True :=
  (lays_bindAll _ _).bind fun _ _ => (h _).bind fun _ _ => lays_sealBody _ _

/-- An instruction whose result is all that it writes. -/
theorem lays_produce_out (b : BlockId) {x : Reg → Instr} (hc : ∀ r, (x r).isCircuit = false)
    (hw : ∀ r, (x r).writes = [r]) : Lays n S (produce b x) fun _ => True :=
  lays_produce b hc fun r hr q hq => .inr (by rw [hw r] at hq; rwa [List.mem_singleton.mp hq])

/-- The code of a short circuit, with its right operand laid out above its register. -/
theorem laidOut_circuit {kind : Circuit} {dest : Reg} {left : Value} {r : Option Reg}
    {xs : List Instr} (h₀ : 0 ≤ dest.index) (hn : n ≤ dest.index) (h : LaidOut (dest.index + 1) xs) :
    LaidOut n (.circuit kind dest left (operand r) (Int64.ofNat (xs ++ landing dest r).length) ::
      (xs ++ landing dest r)) := by
  have hdest : ∀ y ∈ xs, dest ∉ y.writes := by
    intro y hy hmem
    rcases h.writes y hy dest hmem with hnone | hlt
    · rw [hnone] at h₀
      exact absurd h₀ (by decide)
    · omega
  have hout : ∀ q ∈ [dest], q = .none ∨ n ≤ q.index := fun q hq =>
    .inr (by rwa [List.mem_singleton.mp hq])
  refine ⟨?_, fun y hy => ?_⟩
  · have := @Bracketed.circuit kind dest left r xs [] h.bracketed hdest .nil
    rwa [List.append_nil] at this
  · rcases List.mem_cons.mp hy with rfl | hy
    · exact hout
    · rcases List.mem_append.mp hy with hy | hy
      · exact (h.writes y hy).mono (by omega)
      · cases r with
        | none => cases hy
        | some r =>
          rw [List.mem_singleton.mp hy]
          exact hout

theorem lays_circuit (hb : b ∈ S) (kind : Circuit) (left : Option Reg)
    {right : Build (Option Reg)} (ar : Adds {b} right)
    (hr : ∀ n, Lays n S right fun _ => True) : Lays n S (circuit b kind left right) fun _ => True := by
  intro s h₀ hn hS
  have hhas := hS b hb
  have hstart : (circuitStart b kind left s).func.code b = _ := circuitStart_code hhas
  have hother : ∀ c, c ≠ b → (circuitStart b kind left s).func.code c = s.func.code c := fun c hc =>
    Func.append_code_ne hc _
  have hregs : (circuitStart b kind left s).func.numRegs = s.func.numRegs + 1 := by
    simp [circuitStart]
  have hsize : (circuitStart b kind left s).func.blocks.size = s.func.blocks.size := by
    simp [circuitStart]
  have hnum : s.func.Numbered → (circuitStart b kind left s).func.Numbered := fun h =>
    Func.Numbered.append (f := s.func.newReg.1) (h.congr rfl) b _
  obtain ⟨hright, -⟩ := hr (s.func.numRegs + 1) (circuitStart b kind left s) (by omega)
    (le_of_eq hregs.symm) fun c hc => by
      have := hS c hc
      rwa [Func.Has, hsize]
  have hend : (circuitEnd b kind left right s).func.code b = _ := circuitEnd_code ar hhas
  have hland : ∀ c, c ≠ b → (circuitEnd b kind left right s).func.code c =
      (right (circuitStart b kind left s)).2.func.code c := fun c hc => emitAll_code_ne hc
  obtain ⟨hendRegs, hendSize, -⟩ := @circuitEnd_fields b kind left right s
  have hendNum : (right (circuitStart b kind left s)).2.func.Numbered →
      (circuitEnd b kind left right s).func.Numbered := by
    refine (lays_emitAll (n := 0) (S := ∅) b ?_
      { (right (circuitStart b kind left s)).2 with names := s.names } (le_refl _) ?_ (by simp)).1.numbered
    · intro x hx
      cases h : (right (circuitStart b kind left s)).1 with
      | none =>
        rw [h] at hx
        cases hx
      | some r =>
        rw [h] at hx
        rw [List.mem_singleton.mp hx]
        refine ⟨rfl, fun q hq => .inr ?_⟩
        rw [List.mem_singleton.mp hq]
        exact le_trans h₀ hn
    · have := hright.numRegs
      simp only
      omega
  rw [circuit_apply]
  -- from here on only these facts matter, not how the states came about
  generalize circuitEnd b kind left right s = u at *
  generalize circuitStart b kind left s = s₁ at *
  have hn₁ := hright.numRegs
  have hs₁ := hright.size
  refine ⟨⟨?_, ?_, fun h => ?_, fun c => ?_⟩, trivial⟩
  · simp only [Func.replace_numRegs]
    omega
  · simp only [Func.replace_size]
    omega
  · exact (hendNum (hright.numbered (hnum h))).replace b _ _
  · obtain ⟨xs, hxs, hx⟩ := hright.code c
    by_cases hc : c = b
    · subst hc
      have hlen : (u.func.code c).length - ((s.func.code c).length + 1) =
          (xs ++ landing ⟨s.func.numRegs⟩ (right s₁).1).length := by
        rw [hend, hxs, hstart]
        simp only [List.length_append, List.length_cons, List.length_nil]
        omega
      refine ⟨_, ?_, @laidOut_circuit n kind ⟨s.func.numRegs⟩ (operand left) (right s₁).1 xs
        (le_trans h₀ hn) hn hx⟩
      simp only [Func.replace_code_self]
      rw [hlen, hend, hxs, hstart]
      simp only [List.append_assoc, List.cons_append, List.nil_append]
      rw [List.set_append_right _ _ (le_refl _), Nat.sub_self, List.set_cons_zero]
    · refine ⟨xs, ?_, hx.mono (by omega)⟩
      simp only
      rw [Func.replace_code_ne hc, hland c hc, hxs, hother c hc]

theorem lays_captureListed (pos : Position) (ns : List String) :
    Lays n S (captureListed pos ns) fun _ => True := by
  induction ns with
  | nil => exact lays_pure trivial
  | cons name ns ih =>
    refine Lays.bind (Q := fun _ => True) ((lays_lookupOutside name).bind fun r _ => ?_) fun _ _ => ih
    split
    · exact lays_capture name _
    · exact (lays_complain pos _).bind fun _ _ => lays_capture name _

theorem lays_closure (b : BlockId) (pos : Position) (params captures : List String)
    (ab : ∀ c, Adds {c} (body c)) (h : ∀ c, Lays n {c} (body c) fun _ => True) :
    Lays n S (closure b pos params captures body) fun _ => True := by
  refine lays_newBlock_bind fun c => ?_
  have hbody : Lays n (insert c S) (closureBody c pos params captures (body c))
      fun regs => ∀ r ∈ regs, n ≤ r.index :=
    (lays_newRegs params).bind fun regs hregs => (lays_bindAll params regs).bind fun _ _ =>
      (lays_captureListed pos captures).bind fun _ _ =>
        ((h c).mono (Set.singleton_subset_iff.mpr (Set.mem_insert c S))).bind fun r _ =>
          (lays_sealBody c r).bind fun _ _ => lays_pure hregs
  refine (lays_enclosed (adds_closureBody (Set.mem_singleton c) pos params captures (ab c))
    hbody).bind fun x hx => lays_produce b (fun _ => rfl) fun r hr q hq => .inr ?_
  rcases List.mem_cons.mp hq with rfl | hq
  · exact hr
  · rcases List.mem_append.mp hq with hq | hq
    · obtain ⟨cap, hcap, rfl⟩ := List.mem_map.mp hq
      exact hx.2 cap hcap
    · exact hx.1 q hq

theorem lays_addDefault (pos : Position) (c : Complaint) (own : String) (caught : Reg) (a : Arms)
    (h : ∀ c, Lays n {c} (body c) fun _ => True) :
    Lays n S (addDefault pos c own caught a body) fun _ => True :=
  lays_ite ((lays_complain pos c).bind fun _ _ => lays_pure trivial)
    ((lays_branch own caught h).bind fun _ _ => lays_pure trivial)

theorem lays_addCase (pos : Position) (a : Arms) (p : Node)
    (h : ∀ c, Lays n {c} (body c) fun _ => True) : Lays n S (addCase pos a p body) fun _ => True :=
  lays_ite (lays_addDefault pos _ _ _ a h)
    ((lays_pattern p).bind fun _ _ => (lays_branch _ _ h).bind fun _ _ => lays_pure trivial)

theorem lays_addClause (pos : Position) (caught : Reg) (a : Arms) (name : String) (p : Node)
    (h : ∀ c, Lays n {c} (body c) fun _ => True) :
    Lays n S (addClause pos caught a name p body) fun _ => True :=
  lays_ite (lays_addDefault pos _ _ _ a h)
    ((lays_branch name caught h).bind fun _ _ => (lays_pattern p).bind fun _ _ => lays_pure trivial)

theorem lays_chooseClause (b : BlockId) (caught : Reg) (a : Arms) :
    Lays n S (chooseClause b caught a) fun _ => True :=
  Lays.bind (Q := fun _ => True) (lays_ite (lays_pure trivial) (lays_newBlock_bind fun c =>
      (lays_emit_leave c _ _).bind fun _ _ => lays_pure trivial)) fun _ _ =>
    lays_newReg.bind fun r hr =>
      (lays_emit b rfl (fun q hq => .inr (by rwa [List.mem_singleton.mp hq]))).bind fun _ _ =>
        lays_emit_leave b _ _

theorem lays_handlers (cs : List Clause) {lowered : Reg → Build Arms}
    (h : ∀ r, Lays n S (lowered r) fun _ => True) :
    Lays n S (handlers cs lowered) fun x => x.2.1 = .none ∨ n ≤ x.2.1.index := by
  refine lays_ite (lays_pure (.inl rfl)) (lays_newReg.bind fun r hr => ?_)
  refine lays_ite ((h r).bind fun _ _ => lays_pure (.inr hr)) ?_
  refine lays_newBlock_bind fun c => ((h r).mono (Set.subset_insert c S)).bind fun a _ =>
    (lays_chooseClause c r a).bind fun _ _ => lays_pure (.inr hr)

theorem lays_choice (b : BlockId) (pos : Position) {cases : Build Arms}
    {default : Option (BlockId → Build (Option Reg))} (hv : Lays n S value fun _ => True)
    (hc : Lays n S cases fun _ => True)
    (hd : ∀ body ∈ default, ∀ c, Lays n {c} (body c) fun _ => True) :
    Lays n S (choice b pos value cases default) fun _ => True := by
  refine hv.bind fun v _ => lays_names.bind fun before _ => hc.bind fun a _ =>
    Lays.bind (Q := fun _ => True) ?_ fun a _ => (lays_join b before _).bind fun _ _ =>
      lays_produce_out b (fun _ => rfl) fun _ => rfl
  cases default with
  | none => exact lays_pure trivial
  | some body => exact lays_addDefault pos _ _ _ a (hd body rfl)

theorem lays_guarded (b : BlockId) (cs : List Clause) {lowered : Reg → Build Arms}
    {cleanup : Option (BlockId → Build (Option Reg))}
    (h : ∀ c, Lays n {c} (body c) fun _ => True) (hl : ∀ r, Lays n S (lowered r) fun _ => True)
    (hc : ∀ body ∈ cleanup, ∀ c, Lays n {c} (body c) fun _ => True) :
    Lays n S (guarded b body cs lowered cleanup) fun _ => True := by
  refine lays_names.bind fun before _ => (lays_branch _ _ h).bind fun br _ =>
    (lays_handlers cs hl).bind fun x hx => (lays_join b before _).bind fun _ _ =>
      Lays.bind (Q := fun _ => True) ?_ fun last _ =>
        lays_produce b (fun _ => rfl) fun r hr q hq => ?_
  · cases cleanup with
    | none => exact lays_pure trivial
    | some body =>
      refine lays_newBlock_bind fun c =>
        ((hc body rfl c).mono (Set.singleton_subset_iff.mpr (Set.mem_insert c S))).bind fun r _ =>
          Lays.bind (Q := fun _ => True) ((lays_terminated c).bind fun _ _ =>
            lays_ite (lays_pure trivial) (lays_emit_leave c _ _)) fun _ _ => lays_pure trivial
  · rcases List.mem_cons.mp hq with rfl | hq
    · exact .inr hr
    · rw [List.mem_singleton.mp hq]
      exact hx

end

/-! ## Trees -/

/-- Lowering adds code to a block, laid out above any registers that are behind it. -/
def LaysIn (b : BlockId) {α : Type} (m : Build α) : Prop := Adds {b} m ∧ ∀ n, Lays n {b} m fun _ => True

theorem lays_law (ds : List Declaration) : TreeLaw ds LaysIn fun a m =>
    Makes a.branches m Arms.branches ∧ ∀ n S, Lays n S m fun _ => True where
  pure a := ⟨adds_pure a, fun _ => lays_pure trivial⟩
  bind hm hf := ⟨hm.1.bind fun a => (hf a).1, fun n => (hm.2 n).bind fun a _ => (hf a).2 n⟩
  complain pos c := ⟨adds_complain pos c, fun _ => lays_complain pos c⟩
  terminated b := ⟨adds_terminated b, fun _ => lays_terminated b⟩
  lookup name := ⟨adds_lookup name, fun _ => lays_lookup name⟩
  bindName name r := ⟨adds_bind_name name r, fun _ => lays_bind_name name r⟩
  inClosure := ⟨adds_inClosure, fun _ => lays_inClosure⟩
  load b v := ⟨(adds_law ds).load b v, fun _ => lays_load b v⟩
  produce b _ hp ho := ⟨(adds_law ds).produce b hp ho, fun _ =>
    lays_produce_out b (fun r => (hp r).isCircuit) fun r => by rw [(hp r).writes, ho r]⟩
  leave b how v := ⟨(adds_law ds).leave b how v, fun _ => lays_emit_leave b how v⟩
  circuit kind left _ h := ⟨(adds_law ds).circuit kind left h.1, fun _ =>
    lays_circuit (Set.mem_singleton _) kind left h.1 h.2⟩
  closure pos params captures _ h := ⟨(adds_law ds).closure pos params captures fun c => (h c).1,
    fun n => lays_closure _ pos params captures (fun c => (h c).1) fun c => (h c).2 n⟩
  function d hd hmain hempty h := ⟨(adds_law ds).function d hd hmain hempty fun c => (h c).1,
    fun _ => lays_function _ _⟩
  done a := ⟨(adds_law ds).done a, fun _ _ => lays_pure trivial⟩
  addCase pos a p _ _ h hf := ⟨(adds_law ds).addCase pos a p (fun c => (h c).1) fun a => (hf a).1,
    fun n S => (lays_addCase pos a p fun c => (h c).2 n).bind fun a _ => (hf a).2 n S⟩
  addClause pos caught a name p _ _ h hf :=
    ⟨(adds_law ds).addClause pos caught a name p (fun c => (h c).1) fun a => (hf a).1, fun n S =>
      (lays_addClause pos caught a name p fun c => (h c).2 n).bind fun a _ => (hf a).2 n S⟩
  choice pos _ _ _ hv hc hd :=
    ⟨(adds_law ds).choice pos hv.1 hc.1 fun body hbody c => (hd body hbody c).1, fun n =>
      lays_choice _ pos (hv.2 n) (hc.2 n _) fun body hbody c => (hd body hbody c).2 n⟩
  guarded cs _ _ _ h hl hc :=
    ⟨(adds_law ds).guarded cs (fun c => (h c).1) (fun r => (hl r).1) fun body hbody c =>
        (hc body hbody c).1,
      fun n => lays_guarded _ cs (fun c => (h c).2 n) (fun r => (hl r).2 n _) fun body hbody c =>
        (hc body hbody c).2 n⟩

theorem lays_node (n : Int) (b : BlockId) (x : Node) : Lays n {b} (node b x) fun _ => True :=
  ((lays_law _).node b x (List.Subset.refl _)).2 n

end Lowering

/-! ## Functions -/

/-- The blocks of a lowered function are numbered, and their code is laid out. -/
theorem Declaration.Makes.laidOut {quiet : Prop} {d : Declaration} {f : Func}
    (h : d.Makes quiet f) : f.Numbered ∧ ∀ b, LaidOut 0 (f.code b) := by
  obtain ⟨s, hfunc, -, -, rfl, -⟩ := h
  have hentry : ∀ c ∈ ({s.func.entry} : Set BlockId), s.func.Has c := by
    rintro c rfl
    rw [hfunc]
    exact Func.new_has_entry _ _
  obtain ⟨hlay, -⟩ := Lowering.lays_wholeBody s.func (fun c => Lowering.lays_node 0 c d.body) s
    (le_refl 0) (by simp [hfunc]) hentry
  refine ⟨hlay.numbered (hfunc ▸ Func.numbered_new _ _), fun b => ?_⟩
  obtain ⟨xs, hxs, hx⟩ := hlay.code b
  rw [hxs, hfunc, Func.new_code]
  exact hx

end ScriptMachine
