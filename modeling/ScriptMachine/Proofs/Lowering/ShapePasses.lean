import ScriptMachine.Machine.Frame
import ScriptMachine.Proofs.Lowering.BlockPlaces
import ScriptMachine.Proofs.Lowering.ToEnd

/-!
# Shaped functions pass the check

A function whose shape comes to its end has no problems, and one whose shape is broken has some
(`FuncShape.passes_iff`).

1. Blocks are numbered in the order in which they are made, and an instruction refers to the blocks
   made for it. So each block but the entry is referred to once (`Shape.refCount`), and each is entered
   and runs to its end (`Shape.entered`).
2. In a block that runs to its end every instruction passes: its registers were set before, so they are
   written somewhere, and only the last instruction ends the block (`instrIssues_of_step`).
3. If every block that can be reached passes, then no shape is broken (`Shape.flow_of_fine`).
-/

namespace ScriptMachine

open Instr (Entry BlockRef)
open Check

variable {g : Func} {k : Context} {b : BlockId} {i j m n : Nat} {x : Instr} {D X : Set Reg}
  {p q : Point}

/-! ## Each block is referred to once -/

/-- The code of block `b` from index `i` to index `j`. -/
def stretch (g : Func) (b : BlockId) (i j : Nat) : List Instr := ((g.code b).drop i).take (j - i)

theorem stretch_cons (hx : (g.code b)[i]? = some x) (h : i < j) :
    stretch g b i j = x :: stretch g b (i + 1) j := by
  have hi := (List.getElem?_eq_some_iff.mp hx).1
  rw [stretch, stretch, List.drop_eq_getElem_cons hi, show j - i = j - (i + 1) + 1 by omega,
    List.take_succ_cons]
  rw [List.getElem?_eq_getElem hi] at hx
  rw [Option.some.inj hx]

theorem stretch_append (h₁ : i ≤ m) (h₂ : m ≤ j) :
    stretch g b i j = stretch g b i m ++ stretch g b m j := by
  rw [stretch, stretch, stretch, show j - i = (m - i) + (j - m) by omega, List.take_add,
    List.drop_drop, show i + (m - i) = m by omega]

@[simp] theorem stretch_self (i : Nat) : stretch g b i i = [] := by simp [stretch]

theorem stretch_all : stretch g b 0 (g.code b).length = g.code b := by simp [stretch]

/-- The code of the blocks from number `n` to number `m`. -/
def span (g : Func) (n m : Nat) : List Instr :=
  (List.range' n (m - n)).flatMap fun c : Nat => g.code ⟨c⟩

theorem span_append (h₁ : n ≤ i) (h₂ : i ≤ m) : span g n m = span g n i ++ span g i m := by
  rw [span, span, span, ← List.flatMap_append, show m - n = (i - n) + (m - i) by omega,
    ← List.range'_append_1, show n + (i - n) = i by omega]

@[simp] theorem span_self (n : Nat) : span g n n = [] := by simp [span]

theorem span_cons (h : n < m) : span g n m = g.code ⟨n⟩ ++ span g (n + 1) m := by
  rw [span, span, show m - n = m - (n + 1) + 1 by omega, List.range'_succ, List.flatMap_cons]

/-- One for the blocks from number `n` to number `m`. -/
def inSpan (c : BlockId) (n m : Nat) : Nat := if (n : Int) ≤ c.index ∧ c.index < m then 1 else 0

theorem inSpan_add (c : BlockId) (h₁ : n ≤ i) (h₂ : i ≤ m) :
    inSpan c n i + inSpan c i m = inSpan c n m := by
  unfold inSpan
  split <;> split <;> split <;> omega

@[simp] theorem inSpan_self (c : BlockId) (n : Nat) : inSpan c n n = 0 := by
  unfold inSpan
  rw [if_neg (by omega)]

/-- The references to blocks made one after the other, and those inside these blocks. -/
theorem Chain.refCount {subs : List Sub} (h : Chain n subs m) (hw : ∀ s ∈ subs, s.Wide)
    (c : BlockId) (hs : ∀ s ∈ subs, ScriptMachine.refCount c (g.code s.ref.block) +
      ScriptMachine.refCount c (span g (s.ref.block.index.toNat + 1) s.stop) =
        inSpan c (s.ref.block.index.toNat + 1) s.stop) :
    (subs.map (·.ref)).countP (·.block = c) + ScriptMachine.refCount c (span g n m) =
      inSpan c n m := by
  induction subs generalizing n with
  | nil =>
    obtain rfl : n = m := h
    simp
  | cons s ss ih =>
    obtain ⟨hb, hrest⟩ := h
    have hwide := hw s List.mem_cons_self
    have hss := fun t ht => hw t (List.mem_cons_of_mem s ht)
    have hle := hrest.le hss
    have hcount := hs s List.mem_cons_self
    have hih := ih hrest hss fun t ht => hs t (List.mem_cons_of_mem s ht)
    rw [Sub.Wide, hb, Int.toNat_natCast] at hwide
    rw [hb, Int.toNat_natCast] at hcount
    have hfirst : inSpan c n (n + 1) = if (⟨n⟩ : BlockId) = c then 1 else 0 := by
      have : (⟨n⟩ : BlockId) = c ↔ (n : Int) ≤ c.index ∧ c.index < (n + 1 : Nat) := by
        obtain ⟨i⟩ := c
        simp only [BlockId.mk.injEq]
        omega
      simp only [inSpan, this]
    have h₁ := inSpan_add c (show n ≤ n + 1 by omega) (show n + 1 ≤ s.stop by omega)
    have h₂ := inSpan_add c (show n ≤ s.stop by omega) (show s.stop ≤ m by omega)
    rw [span_append (show n ≤ s.stop by omega) (show s.stop ≤ m by omega), span_cons hwide,
      List.map_cons, List.countP_cons, hb]
    simp only [refCount_append, decide_eq_true_eq]
    omega

theorem refCount_lands {dest : Reg} {r : Option Reg}
    (h : Lands g b dest D m j r) (c : BlockId) : refCount c (stretch g b m j) = 0 := by
  cases r with
  | none =>
    obtain rfl : j = m := h
    simp
  | some r =>
    obtain ⟨-, hx, rfl⟩ := h
    rw [stretch_cons hx (by omega), refCount_cons_of_refs rfl, stretch_self, refCount_nil]

/-- In a stretch of code and the blocks made for it, each of these blocks is referred to once. -/
theorem Shape.refCount (h : Shape g k b p q) (c : BlockId) :
    ScriptMachine.refCount c (stretch g b p.index q.index) +
      ScriptMachine.refCount c (span g p.blocks q.blocks) = inSpan c p.blocks q.blocks := by
  induction h with
  | done => simp
  | plain hx hp _ _ hq ih =>
    rw [stretch_cons hx (by have := hq.index_le; simp only at this; omega),
      refCount_cons_of_refs hp.refs]
    exact ih
  | leave hx _ _ hq ih =>
    rw [stretch_cons hx (by have := hq.index_le; simp only at this; omega), refCount_cons_of_refs rfl]
    exact ih
  | circuit hx _ _ hr hj hq ihr ih =>
    have h₁ := hr.index_le
    have h₂ := lands_le hj
    have h₃ := hq.index_le
    have hb₁ := hr.blocks_le
    have hb₂ := hq.blocks_le
    have hland := refCount_lands hj c
    have hspan := inSpan_add c hb₁ hb₂
    simp only at h₁ h₂ h₃ hb₁ hb₂ ihr ih hspan ⊢
    rw [stretch_cons hx (by omega), refCount_cons_of_refs rfl,
      stretch_append h₁ (h₂.trans h₃), stretch_append h₂ h₃, span_append hb₁ hb₂]
    simp only [refCount_append]
    omega
  | enter subs hx _ _ _ _ hrefs hc _ hsub _ hq ihsub ih =>
    have hwide : ∀ s ∈ subs, s.Wide := fun s hs => (hsub s hs).blocks_le
    have hchain := hc.refCount hwide c fun s hs => by
      have := ihsub s hs
      rwa [stretch_all] at this
    have hi := hq.index_le
    have hb₁ := Nat.le_of_add_right_le (hc.le hwide)
    have hb₂ := hq.blocks_le
    have hspan := inSpan_add c hb₁ hb₂
    simp only at hi hb₂ ih hspan ⊢
    rw [stretch_cons hx (by omega), refCount_cons, hrefs.countP_eq, span_append hb₁ hb₂,
      refCount_append]
    omega

/-! ## Each block runs to its end -/

/-- The registers of a function that are written somewhere. -/
def Func.written (f : Func) : Set Reg := {r | f.InRange r ∧ f.Writes r}

theorem mem_written_of_mem_writes {r : Reg} (hx : x ∈ g.code b) (hr : r ∈ x.writes)
    (hin : g.InRange r) : r ∈ g.written :=
  ⟨hin, .inr ⟨b, x, hx, hr⟩⟩

theorem insert_out_subset (hx : x ∈ g.code b) (hout : g.InRange x.out) (hD : D ⊆ g.written) :
    insert x.out D ⊆ g.written :=
  Set.insert_subset (mem_written_of_mem_writes hx List.mem_cons_self hout) hD

/-- What an instruction gives to the blocks it enters is written somewhere. -/
theorem given_subset_written (hx : x ∈ g.code b) (hs : x.Sane g)
    (hD : D ⊆ g.written) {c : BlockId} (hc : g.Has c) : x.given D c ⊆ g.written := by
  cases x with
  | closureCreate dest block captures params names =>
    rintro r (hr | hr)
    · obtain ⟨cap, hcap, rfl⟩ := List.mem_map.mp hr
      exact mem_written_of_mem_writes hx (List.mem_cons_of_mem _
        (List.mem_append_left _ hr)) (hs.2.2 cap hcap)
    · exact mem_written_of_mem_writes hx (List.mem_cons_of_mem _
        (List.mem_append_right _ hr)) (hs.2.1 r hr)
  | guarded dest gd =>
    simp only [Instr.given]
    split
    · rename_i hh
      have hne : gd.handler ≠ .none := by
        rintro h
        rw [hh, h] at hc
        exact absurd hc.1 (by decide)
      refine Set.insert_subset ?_ hD
      exact mem_written_of_mem_writes hx (by simp [Instr.writes]) (hs.1 hne)
    · exact hD
  | _ => exact hD

/-- A reference to a block that runs to its end. -/
def Reaches (g : Func) (r : BlockRef) : Prop :=
  ∃ k D X, D ⊆ g.written ∧ ToEnd g (Context.enter k r.entry) r.block 0 D X

theorem Shape.regs_subset (h : Shape g k b p q) (hp : p.regs ⊆ g.written) : q.regs ⊆ g.written := by
  induction h with
  | done hD => exact hD.trans hp
  | plain hx _ _ hout _ ih => exact ih (insert_out_subset (List.mem_of_getElem? hx) hout hp)
  | leave _ _ _ _ ih => exact ih hp
  | circuit hx _ hout _ _ _ _ ih => exact ih (insert_out_subset (List.mem_of_getElem? hx) hout hp)
  | enter subs hx _ _ hout hs _ _ hhas _ hE _ ihsub ih =>
    have hmem := List.mem_of_getElem? hx
    refine ih (insert_out_subset hmem hout (Set.union_subset hp fun r hr => ?_))
    obtain ⟨s, hs', -, hr⟩ := hE r hr
    exact ihsub s hs' (given_subset_written hmem hs hp (hhas s hs')) hr

theorem ToEnd.regs_subset (h : ToEnd g k b i D X) (hD : D ⊆ g.written) : X ⊆ g.written := by
  obtain ⟨n, m, h⟩ := h
  exact h.regs_subset hD

theorem ToEnd.lt_length (h : ToEnd g k b i D X) : i < (g.code b).length := by
  obtain ⟨x, hx, -⟩ := h.step
  exact (List.getElem?_eq_some_iff.mp hx).1

/-- A block that runs to its end runs to it from each of its instructions on. -/
theorem ToEnd.at_index (h : ToEnd g k b 0 D X) (hD : D ⊆ g.written)
    (hi : i < (g.code b).length) : ∃ D' ⊆ g.written, ToEnd g k b i D' X := by
  induction i with
  | zero => exact ⟨D, hD, h⟩
  | succ i ih =>
    obtain ⟨D₁, hD₁, h₁⟩ := ih (by omega)
    obtain ⟨x, hx, hstep⟩ := h₁.step
    have hmem := List.mem_of_getElem? hx
    cases hstep with
    | plain _ _ hout next => exact ⟨_, insert_out_subset hmem hout hD₁, next⟩
    | leave _ _ hlast _ => omega
    | circuit _ hout _ next _ =>
      refine ⟨_, ?_, next⟩
      split
      · exact hD₁
      · exact insert_out_subset hmem hout hD₁
    | enter subs _ _ hout hs _ _ hhas hsub hE next =>
      refine ⟨_, insert_out_subset hmem hout (Set.union_subset hD₁ fun r hr => ?_), next⟩
      obtain ⟨s, hs', -, hr⟩ := hE r hr
      exact (hsub s hs').regs_subset (given_subset_written hmem hs hD₁ (hhas s hs')) hr

/-- The blocks that a block refers to run to their ends. -/
theorem Reaches.targets {r q : BlockRef} (h : Reaches g r) (hq : q ∈ targets g r) :
    Reaches g q ∧ g.Has q.block := by
  obtain ⟨k, D, X, hD, hto⟩ := h
  obtain ⟨x, hx, hqx⟩ := List.mem_flatMap.mp hq
  obtain ⟨i, hi⟩ := List.mem_iff_getElem?.mp hx
  obtain ⟨D', hD', hto'⟩ := hto.at_index hD (List.getElem?_eq_some_iff.mp hi).1
  obtain ⟨y, hy, hstep⟩ := hto'.step
  obtain rfl : x = y := Option.some.inj (hi.symm.trans hy)
  cases hstep with
  | plain hp _ _ _ => simp [hp.refs] at hqx
  | leave _ _ _ _ => simp [Instr.refs] at hqx
  | circuit _ _ _ _ _ => simp [Instr.refs] at hqx
  | enter subs _ _ _ hs hrefs _ hhas hsub _ _ =>
    obtain ⟨s, hs', rfl⟩ := List.mem_map.mp (hrefs.mem_iff.mp hqx)
    exact ⟨⟨_, _, _, given_subset_written hx hs hD' (hhas s hs'), hsub s hs'⟩, hhas s hs'⟩

/-! ## Instructions pass -/

theorem operandIssues_of_ready {written : BitSet} (hw : writtenRegs g = .ok written)
    (hD : D ⊆ g.written) {v : Value} (hv : Ready D v) : operandIssues g written v = [] := by
  cases v with
  | reg r => exact (operandIssues_of_reg hw).mpr (hD hv)
  | _ => rfl

theorem ofNat_skip (h : i < j) : Int64.ofNat i + Int64.ofNat (j - (i + 1)) + 1 = Int64.ofNat j := by
  have h₁ : (1 : Int64) = Int64.ofNat 1 := rfl
  rw [h₁, ← Int64.ofNat_add, ← Int64.ofNat_add]
  congr 1
  omega

/-- A skip to an instruction of the block stays in the block. -/
theorem skipIssues_of_lt {i j len : Nat} (hij : i < j) (hj : j < len) (hlen : len < codeLimit) :
    skipIssues i len (Int64.ofNat (j - (i + 1))) = [] := by
  have hlimit := codeLimit_eq
  have hskip : ¬ Int64.ofNat (j - (i + 1)) < 0 := by
    rw [Int64.lt_iff_toInt_lt, Int64.toInt_ofNat_of_lt (by omega)]
    exact not_lt.mpr (Int.natCast_nonneg _)
  have hend : ¬ Int64.ofNat len ≤ Int64.ofNat i + Int64.ofNat (j - (i + 1)) + 1 := by
    rw [ofNat_skip hij, Int64.ofNat_le_iff_le (by omega) (by omega)]
    omega
  unfold skipIssues
  rw [if_neg (not_or.mpr ⟨hskip, hend⟩)]

theorem endIssues_of_lt (hx : x.isTerminator = false) {i len : Nat} (h : i + 1 < len) :
    endIssues (i + 1 == len) x = [] := by
  have : (i + 1 == len) = false := by simp; omega
  rw [this]
  cases x <;> simp_all [Instr.isTerminator, endIssues]

theorem ownIssues_of_plain (hp : x.Plain) (e : Entry) (i len : Nat) : ownIssues g e i len x = [] := by
  cases x <;> simp_all [Instr.Plain, ownIssues, Instr.refs]

/-- The checks of an instruction that enters blocks that exist. -/
theorem ownIssues_of_enters (he : x.Enters) (hs : x.Sane g)
    (hrefs : ∀ r ∈ x.refs, refIssues g r = []) (e : Entry) (i len : Nat) :
    ownIssues g e i len x = [] := by
  have hall := List.flatMap_eq_nil_iff.mpr hrefs
  cases x with
  | closureCreate dest block captures params names =>
    have hparams : params.flatMap (regIssues g) = [] :=
      List.flatMap_eq_nil_iff.mpr fun r hr => regIssues_eq_nil_iff.mpr (hs.2.1 r hr)
    simp only [ownIssues, hs.1, if_true, hparams, hall, List.append_nil]
  | dispatch dest v arms default => exact hall
  | guarded dest gd =>
    have hcaught : ¬ (gd.handler ≠ .none ∧ gd.caught = .none) := by
      rintro ⟨hh, hc⟩
      have := (hs.1 hh).1
      rw [hc] at this
      exact absurd this (by decide)
    simp only [Instr.refs, List.flatMap_cons, List.flatMap_append, List.append_eq_nil_iff] at hall
    simp only [ownIssues, if_neg hcaught, hall, List.append_nil]
  | _ => exact he.elim

/-- An instruction of a block that runs to its end passes. -/
theorem instrIssues_of_step {written : BitSet} (hw : writtenRegs g = .ok written) {e : Entry}
    (hD : D ⊆ g.written) (hlen : (g.code b).length < codeLimit)
    (hentry : ∀ r ∈ x.refs, r.block ≠ g.entry) (h : ToEnd.Step g (k.enter e) b i D X x) :
    instrIssues g written e i (g.code b).length x = [] := by
  have hread : ∀ v, Ready D v → operandIssues g written v = [] := fun v => operandIssues_of_ready hw hD
  rw [instrIssues_eq_nil_iff]
  cases h with
  | plain hp hin hout next =>
    exact ⟨endIssues_of_lt hp.not_terminator next.lt_length, fun _ => hout,
      fun v hv => hread v (hin v hv), ownIssues_of_plain hp e i _⟩
  | @leave how v hk hv hlast hX =>
    refine ⟨by simp [hlast, endIssues], absurd rfl, fun u hu => ?_, ?_⟩
    · rw [List.mem_singleton.mp hu]
      exact hread v hv
    · cases how with
      | yield =>
        cases e with
        | nested => rfl
        | closure => cases hk
        | function => cases hk
      | _ => rfl
  | circuit hl hout hj next around =>
    refine ⟨endIssues_of_lt rfl next.lt_length, fun _ => hout, fun u hu => ?_,
      skipIssues_of_lt hj around.lt_length hlen⟩
    rw [List.mem_singleton.mp hu]
    exact hread _ hl
  | enter subs he hin hout hs hrefs hnd hhas hsub hE next =>
    refine ⟨endIssues_of_lt he.not_terminator next.lt_length, fun _ => hout,
      fun v hv => hread v (hin v hv), ownIssues_of_enters he hs (fun r hr => ?_) e i _⟩
    obtain ⟨s, hs', rfl⟩ := List.mem_map.mp (hrefs.mem_iff.mp hr)
    exact refIssues_eq_nil_iff.mpr ⟨hhas s hs', hentry _ hr⟩

theorem Reaches.fine {written : BitSet} (hw : writtenRegs g = .ok written) {r : BlockRef}
    (h : Reaches g r) (hhas : g.Has r.block) (hlen : (g.code r.block).length < codeLimit)
    (hentry : ∀ q ∈ Check.targets g r, q.block ≠ g.entry) : Fine g written r := by
  obtain ⟨k, D, X, hD, hto⟩ := h
  refine fine_iff.mpr ⟨hhas, List.ne_nil_of_length_pos (by have := hto.lt_length; omega), ?_⟩
  intro i x hx
  obtain ⟨D', hD', hto'⟩ := hto.at_index hD (List.getElem?_eq_some_iff.mp hx).1
  obtain ⟨y, hy, hstep⟩ := hto'.step
  obtain rfl : x = y := Option.some.inj (hx.symm.trans hy)
  exact instrIssues_of_step hw hD' hlen
    (fun q hq => hentry q (List.mem_flatMap.mpr ⟨x, List.mem_of_getElem? hx, hq⟩)) hstep

/-! ## Broken shapes do not pass -/

theorem Shape.eq_of_length_le (h : Shape g k b p q) (hp : (g.code b).length ≤ p.index) :
    q.index = p.index ∧ q.flow = p.flow := by
  have hno : ∀ {i : Nat} {x : Instr}, (g.code b)[i]? = some x → ¬ (g.code b).length ≤ i := fun hx =>
    not_le.mpr (List.getElem?_eq_some_iff.mp hx).1
  cases h with
  | done => exact ⟨rfl, rfl⟩
  | plain hx => exact absurd hp (hno hx)
  | leave hx => exact absurd hp (hno hx)
  | circuit hx => exact absurd hp (hno hx)
  | enter _ hx => exact absurd hp (hno hx)

theorem lands_le_length {dest : Reg} {r : Option Reg}
    (h : Lands g b dest D m j r) (hm : m ≤ (g.code b).length) : j ≤ (g.code b).length := by
  cases r with
  | none => exact h ▸ hm
  | some r =>
    have := (List.getElem?_eq_some_iff.mp h.2.1).1
    rw [h.2.2]
    omega

theorem Shape.index_le_length (h : Shape g k b p q)
    (hp : p.index ≤ (g.code b).length) : q.index ≤ (g.code b).length := by
  have hlt : ∀ {b : BlockId} {i : Nat} {x : Instr}, (g.code b)[i]? = some x →
      i + 1 ≤ (g.code b).length := fun hx => (List.getElem?_eq_some_iff.mp hx).1
  induction h with
  | done => exact hp
  | plain hx _ _ _ _ ih => exact ih (hlt hx)
  | leave hx _ _ _ ih => exact ih (hlt hx)
  | circuit hx _ _ _ hj _ ihr ih => exact ih (lands_le_length hj (ihr (hlt hx)))
  | enter _ hx _ _ _ _ _ _ _ _ _ _ _ ih => exact ih (hlt hx)

/-- How a stretch of a block that passes can end: there is no terminator in it, or it reaches the end
of the block. -/
def Goes (g : Func) (b : BlockId) (p q : Point) : Prop :=
  (q.flow = .live ∧ ∀ i x, p.index ≤ i → i < q.index → (g.code b)[i]? = some x →
    x.isTerminator = false) ∨ (q.flow = .ended ∧ q.index = (g.code b).length)

theorem Goes.cons {e : Flow} (h : Goes g b ⟨p.index + 1, n, D, e⟩ q)
    (hx : (g.code b)[p.index]? = some x) (ht : x.isTerminator = false) : Goes g b p q := by
  refine h.imp (fun ⟨hq, h⟩ => ⟨hq, fun i y hp hi hy => ?_⟩) id
  rcases Nat.eq_or_lt_of_le hp with rfl | hlt
  · exact Option.some.inj (hx.symm.trans hy) ▸ ht
  · exact h i y hlt hi hy

section
variable {written : BitSet} {W : Set BlockRef}

section
variable {e : Entry} (h : Fine g written ⟨b, e⟩)
include h

theorem endIssues_of_fine {i : Nat} {x : Instr}
    (hx : (g.code b)[i]? = some x) : endIssues (i + 1 == (g.code b).length) x = [] :=
  (instrIssues_eq_nil_iff.mp ((fine_iff.mp h).2.2 i x hx)).1

/-- A block that passes is not live at its end. -/
theorem Fine.exists_terminator :
    ∃ i x, i < (g.code b).length ∧ (g.code b)[i]? = some x ∧ x.isTerminator = true := by
  have hpos := List.length_pos_of_ne_nil (fine_iff.mp h).2.1
  have hlt : (g.code b).length - 1 < (g.code b).length := Nat.sub_lt hpos Nat.one_pos
  have hx := List.getElem?_eq_getElem hlt
  have hend := endIssues_of_fine h hx
  rw [show (g.code b).length - 1 + 1 = (g.code b).length by omega, beq_self_eq_true] at hend
  refine ⟨_, _, hlt, hx, ?_⟩
  generalize (g.code b)[(g.code b).length - 1] = x at hend
  cases x <;> simp_all [endIssues, Instr.isTerminator]

theorem eq_length_of_leave {i : Nat} {how : Terminator}
    {v : Value} (hx : (g.code b)[i]? = some (.leave how v)) : i + 1 = (g.code b).length := by
  by_contra hne
  have hend := endIssues_of_fine h hx
  rw [beq_false_of_ne hne] at hend
  cases hend

theorem lt_length_of_skip
    (hlen : (g.code b).length < codeLimit) {i j : Nat} {kind : Circuit} {dest : Reg}
    {left right : Value} (hx : (g.code b)[i]? =
      some (.circuit kind dest left right (Int64.ofNat (j - (i + 1))))) (hij : i < j)
    (hj : j ≤ (g.code b).length) : j < (g.code b).length := by
  have hlimit := codeLimit_eq
  have hown := (instrIssues_eq_nil_iff.mp ((fine_iff.mp h).2.2 i _ hx)).2.2.2
  simp only [ownIssues, skipIssues, ofNat_skip hij] at hown
  split at hown
  · cases hown
  · rename_i hno
    have := (not_or.mp hno).2
    rw [Int64.ofNat_le_iff_le (by omega) (by omega)] at this
    omega

end

/-- No terminator stands in a right operand, at its end or behind it. -/
theorem not_terminator_of_lands {dest : Reg} {D : Set Reg} {i m j n : Nat} {r : Option Reg}
    (hj : Lands g b dest D m j r)
    (h₁ : ∀ n x, i + 1 ≤ n → n < m → (g.code b)[n]? = some x → x.isTerminator = false) {l : Nat}
    (h₂ : ∀ n x, j ≤ n → n < l → (g.code b)[n]? = some x → x.isTerminator = false) (hi : i < n)
    (hl : n < l) {x : Instr} (hx : (g.code b)[n]? = some x) : x.isTerminator = false := by
  by_cases hm : n < m
  · exact h₁ n x hi hm hx
  · by_cases hnj : j ≤ n
    · exact h₂ n x hnj hl hx
    · cases r with
      | none =>
        obtain rfl : j = m := hj
        omega
      | some r =>
        obtain ⟨-, hmove, rfl⟩ := hj
        obtain rfl : n = m := by omega
        rw [← Option.some.inj (hmove.symm.trans hx)]
        rfl

theorem Shape.goes {p q : Point} (h : Shape g k b p q) (hfine : ∀ r ∈ W, Fine g written r)
    (hclosed : ∀ r ∈ W, ∀ q ∈ targets g r, q ∈ W) (hb : ∃ e, ⟨b, e⟩ ∈ W)
    (hlen : ∀ b, (g.code b).length < codeLimit) (hp : p.flow = .live) : Goes g b p q := by
  induction h with
  | done => exact .inl ⟨hp, fun i x h₁ h₂ => absurd h₁ (by simp only at h₂ ⊢; omega)⟩
  | plain hx hpl _ _ _ ih =>
    simp only at hp
    exact (ih hb (by simp [hp])).cons hx hpl.not_terminator
  | leave hx _ _ h ih =>
    simp only at hp
    obtain ⟨e₀, he₀⟩ := hb
    have hlast := eq_length_of_leave (hfine _ he₀) hx
    obtain ⟨hi, hflow⟩ := h.eq_of_length_le hlast.ge
    exact .inr ⟨by simp [hflow, hp], hi.trans hlast⟩
  | circuit hx _ _ hr hj h ihr ih =>
    simp only at hp
    obtain ⟨e₀, he₀⟩ := hb
    have hi := (List.getElem?_eq_some_iff.mp hx).1
    have hm := hr.index_le_length hi
    have hjlen := lands_le_length hj hm
    have hij := lt_of_lt_of_le (Nat.lt_of_succ_le hr.index_le) (lands_le hj)
    have hlt := lt_length_of_skip (hfine _ he₀) (hlen _) hx hij hjlen
    -- the right operand neither ends the block nor breaks it
    obtain ⟨hlive, hright⟩ := (ihr ⟨e₀, he₀⟩ rfl).resolve_right fun h' => by
      have := lands_le hj
      have := h'.2
      simp only at this
      omega
    simp only at hlive hright
    refine (ih ⟨e₀, he₀⟩ (by simp [hp, hlive])).imp (fun ⟨hq, hrest⟩ => ⟨hq, ?_⟩) id
    intro n x h₁ h₂ hx'
    simp only at h₁ hrest
    rcases Nat.eq_or_lt_of_le h₁ with rfl | h₁
    · rw [← Option.some.inj (hx.symm.trans hx')]
      rfl
    · exact not_terminator_of_lands hj hright hrest h₁ h₂ hx'
  | enter subs hx he _ _ _ hrefs _ _ _ _ _ ihsub ih =>
    simp only at hp
    obtain ⟨e₀, he₀⟩ := hb
    have hended : ∀ s ∈ subs, s.flow = .ended := by
      intro s hs
      have hsW : s.ref ∈ W := hclosed _ he₀ s.ref (List.mem_flatMap.mpr ⟨_, List.mem_of_getElem? hx,
        hrefs.mem_iff.mpr (List.mem_map_of_mem hs)⟩)
      rcases ihsub s hs ⟨s.ref.entry, hsW⟩ rfl with ⟨-, hno⟩ | ⟨hended, -⟩
      · obtain ⟨i, x, hi, hx, ht⟩ := Fine.exists_terminator (hfine _ hsW)
        simp [hno i x (Nat.zero_le i) hi hx] at ht
      · exact hended
    have hlive : Flow.live.enter (subs.map (·.flow)) = .live :=
      Flow.enter_eq_live_iff.mpr ⟨rfl, by simpa using hended⟩
    exact (ih ⟨e₀, he₀⟩ (by simp [hp, hlive])).cons hx he.not_terminator

end

/-! ## Functions -/

/-- A function within the limits of the machine, which can have only so many registers and counts
instructions in 64-bit integers. -/
structure Func.Fits (f : Func) : Prop where
  numRegs : f.numRegs ≤ Frame.maxRegs
  code : ∀ b, (f.code b).length < codeLimit

theorem Func.fits_iff {f : Func} : f.Fits ↔
    f.numRegs ≤ Frame.maxRegs ∧ ∀ n < f.blocks.size, (f.code ⟨n⟩).length < codeLimit := by
  refine ⟨fun h => ⟨h.numRegs, fun n _ => h.code ⟨n⟩⟩, fun ⟨hregs, hcode⟩ => ⟨hregs, fun b => ?_⟩⟩
  by_cases hb : f.Has b
  · obtain ⟨n, hn, rfl⟩ := hb.exists_natCast
    exact hcode n hn
  · rw [Func.code_eq_nil_of_not_has hb]
    decide

instance (f : Func) : Decidable f.Fits := decidable_of_iff _ Func.fits_iff.symm

theorem flatMap_blockRefs (f : Func) :
    f.blocks.toList.flatMap blockRefs = (span f 0 f.blocks.size).flatMap Instr.refs := by
  have hspan : span f 0 f.blocks.size = f.blocks.toList.flatMap (·.code.toList) := by
    rw [span, Nat.sub_zero, List.flatMap_def, List.flatMap_def]
    congr 1
    refine List.ext_getElem (by simp) fun i h₁ h₂ => ?_
    have hi : i < f.blocks.size := by simpa using h₁
    have hb : f.block? ⟨i⟩ = some f.blocks[i] := by
      rw [Func.block?_natCast, Array.getElem?_eq_getElem hi]
    simp [Func.code_of_block? hb]
  rw [hspan, List.flatMap_assoc]
  rfl

namespace FuncShape

variable {f : Func} {e : Flow}

/-- Each block is referred to at most once, and the entry not at all. -/
theorem refCount_span (h : FuncShape f e) (c : BlockId) :
    refCount c (span f 0 f.blocks.size) = inSpan c 1 f.blocks.size := by
  have hpos : 0 < f.blocks.size := by
    have := h.has.2
    have := h.has.1
    omega
  have hcount := h.shape.refCount c
  rw [stretch_all, h.entry] at hcount
  rw [span_cons hpos, refCount_append]
  exact hcount

theorem nodup_allRefs (h : FuncShape f e) : ((allRefs f).map (·.block)).Nodup := by
  rw [List.nodup_iff_count_le_one]
  intro c
  have hcount := h.refCount_span c
  have heq : ((allRefs f).map (·.block)).count c =
      (if f.entry = c then 1 else 0) + refCount c (span f 0 f.blocks.size) := by
    rw [allRefs, flatMap_blockRefs, List.map_cons, List.count_cons, refCount, List.count_eq_countP,
      List.countP_map, Nat.add_comm]
    simp [Function.comp_def, beq_eq_decide]
  rw [heq, hcount, h.entry]
  unfold inSpan
  split
  · rename_i hc
    subst hc
    simp
  · split <;> simp

theorem entry_not_target (h : FuncShape f e) {r q : BlockRef} (hq : q ∈ targets f r) :
    q.block ≠ f.entry := by
  intro heq
  obtain ⟨x, hx, hqx⟩ := List.mem_flatMap.mp hq
  obtain ⟨k, hk, hxk⟩ := mem_code_iff.mpr ⟨r.block, hx⟩
  have hmem : q ∈ f.blocks.toList.flatMap blockRefs :=
    List.mem_flatMap.mpr ⟨k, hk, List.mem_flatMap.mpr ⟨x, hxk, hqx⟩⟩
  have hnd := h.nodup_allRefs
  rw [allRefs, List.map_cons, List.nodup_cons] at hnd
  have hmap := List.mem_map_of_mem (f := (·.block)) hmem
  rw [heq] at hmap
  exact hnd.1 hmap

theorem params_written (h : FuncShape f e) : {r | r ∈ f.paramRegs} ⊆ f.written := fun r hr =>
  ⟨h.paramRegs r hr, .inl hr⟩

/-- A shaped function passes just if its shape comes to its end. -/
theorem passes_iff (h : FuncShape f e) (hne : e ≠ .live) (hfits : f.Fits) :
    Passes f ↔ e = .ended := by
  constructor
  · intro hpass
    obtain ⟨-, written, -, W, hentry, hfine, hclosed⟩ := closed_of_passes hpass
    rcases h.shape.goes hfine hclosed ⟨_, hentry⟩ hfits.code rfl with ⟨hlive, -⟩ | ⟨hended, -⟩
    · exact absurd hlive hne
    · exact hended
  · rintro rfl
    have hmax : (Frame.maxRegs : Int) ≤ 64 * BitSet.maxWords := by decide
    obtain ⟨written, hw⟩ := (h.checkable (hfits.numRegs.trans hmax)).exists_writtenRegs
    have hstart : Reaches f ⟨f.entry, .function⟩ :=
      ⟨⟨false, false⟩, _, _, h.params_written, _, _, h.shape⟩
    have hblocks : ∀ b, f.Has b → ∃ e, Reaches f ⟨b, e⟩ := by
      intro b hb
      obtain ⟨rs, hrs⟩ := h.reachable hb
      induction hrs with
      | entry => exact ⟨_, hstart⟩
      | ref _ hx hr _ ih =>
        obtain ⟨e, he⟩ := ih (Func.has_of_code_ne_nil (List.ne_nil_of_mem hx))
        exact ⟨_, (he.targets (List.mem_flatMap.mpr ⟨_, hx, hr⟩)).1⟩
    have hreach : ∀ r ∈ allRefs f, Reaches f r ∧ f.Has r.block := by
      intro r hr
      rcases List.mem_cons.mp hr with rfl | hr
      · exact ⟨hstart, h.has⟩
      · obtain ⟨k, hk, hrk⟩ := List.mem_flatMap.mp hr
        obtain ⟨x, hx, hrx⟩ := List.mem_flatMap.mp hrk
        obtain ⟨b, hb⟩ := mem_code_iff.mp ⟨k, hk, hx⟩
        obtain ⟨e, he⟩ := hblocks b (Func.has_of_code_ne_nil (List.ne_nil_of_mem hb))
        exact he.targets (List.mem_flatMap.mpr ⟨x, hb, hrx⟩)
    exact passes_of_fine h.paramCount hw h.nodup_allRefs fun r hr =>
      (hreach r hr).1.fine hw (hreach r hr).2 (hfits.code _) fun q hq => h.entry_not_target hq

end FuncShape

end ScriptMachine
