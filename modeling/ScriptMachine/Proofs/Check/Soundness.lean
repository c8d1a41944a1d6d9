import ScriptMachine.Proofs.Check.Acceptance
import ScriptMachine.Proofs.Machine.Preserved

/-!
# Accepted programs stay in their blocks

The blocks that the checker visits certify a program: each of them exists and has an end, no skip
leaves its block, and all blocks that they refer to were visited too. So no run of an accepted
program enters a missing block or runs off the end of a block, however closures are passed around.
-/

namespace ScriptMachine

/-! ## Indices -/

theorem toInt_add_one {ip : Int64} (h : 0 ≤ ip.toInt) (h' : 0 ≤ (ip + 1).toInt) :
    (ip + 1).toInt = ip.toInt + 1 := by
  have hlt := ip.toInt_lt
  have hone : (1 : Int64).toInt = 1 := rfl
  rw [Int64.toInt_add, hone] at h' ⊢
  simp only [Int.bmod_def] at h' ⊢
  split at h' <;> split <;> omega

theorem ofNat_toInt_toNat {ip : Int64} (h : 0 ≤ ip.toInt) : Int64.ofNat ip.toInt.toNat = ip := by
  have hlt := ip.toInt_lt
  rw [← Int64.toInt_inj, Int64.toInt_ofNat_of_lt (by omega), Int.toNat_of_nonneg h]

/-- An index below a length stays below it, even if the length does not fit into 64 bits. -/
theorem toInt_lt_of_lt_ofNat {ip : Int64} {len : Nat} (h : ip < Int64.ofNat len) :
    ip.toInt < len := by
  rw [Int64.lt_iff_toInt_lt] at h
  have hlt := (Int64.ofNat len).toInt_lt
  by_cases hlen : len < 2 ^ 63
  · rwa [Int64.toInt_ofNat_of_lt hlen] at h
  · omega

/-! ## Code of known instructions -/

def Value.isClosure (v : Value) : Bool := v.kind == .closure

namespace Instr

/-- Whether something is an instruction of the machine at all. -/
def isKnown : Instr → Bool
  | stray _ => false
  | _ => true

/-- Whether an operand is written as a closure. -/
def hasClosureLiteral (x : Instr) : Bool := x.ins.any Value.isClosure

/-- Where reads need not be safe, operands only have to be no closures. -/
theorem reads_ins {σ : Safety} (hσ : ¬ σ.reads) {x : Instr} (hlit : x.hasClosureLiteral = false)
    (D : Set Reg) : ∀ v ∈ x.ins, σ.Reads D v := by
  intro v hv
  cases v with
  | reg r => exact fun hreads => absurd hreads hσ
  | unset => exact hσ
  | closure c => exact absurd rfl (List.any_eq_false.mp hlit _ hv)
  | _ => trivial

/-- The registers that are set for a block before it starts: those for the captures and arguments of
a closure, and the one for what a handler gets. -/
def handed : Instr → List Reg
  | closureCreate _ _ captures params _ => captures.map (·.reg) ++ params
  | guarded _ g => if g.handler = .none then [] else [g.caught]
  | _ => []

/-- An instruction leads on to assertions that do not depend on registers if they hold behind it,
behind its skip, and at the start of the blocks that it refers to. -/
theorem leadsOn_of_refs {σ : Safety} {A : BlockId → Int64 → Prop} {f : Func} {b : BlockId}
    {ip : Int64} {x : Instr} (hσ : ¬ σ.reads) (hnext : x.isTerminator = false → A b (ip + 1))
    (hskip : ∀ kind dest left right skip, x = circuit kind dest left right skip →
      A b (ip + skip + 1))
    (hrefs : ∀ q ∈ x.refs, A q.block 0) (hhanded : σ.writes → ∀ r ∈ x.handed, f.InRange r)
    (hunknown : x.isKnown = false → σ.unknown) (D X : Set Reg) :
    x.LeadsOn σ (fun b ip _ _ => A b ip) f b ip D X := by
  cases x with
  | leave how v => exact fun _ hreads => absurd hreads hσ
  | circuit kind dest left right skip => exact ⟨hnext rfl, hskip _ _ _ _ _ rfl⟩
  | dispatch dest v arms default =>
    refine ⟨fun c hc hne => hrefs ⟨c, .nested⟩ ?_, hnext rfl⟩
    simp only [refs, optional, List.mem_append, List.mem_map]
    rcases List.mem_cons.mp hc with rfl | hc
    · exact .inr (by simp [hne])
    · obtain ⟨a, ha, rfl⟩ := List.mem_map.mp hc
      exact .inl ⟨a, ha, rfl⟩
  | guarded dest g =>
    refine ⟨hrefs ⟨g.body, .nested⟩ (by simp [refs]), fun hne => ⟨fun hw => ?_, ?_⟩, ?_⟩
    · exact hhanded hw g.caught (by simp [handed, hne])
    · exact hrefs ⟨g.handler, .nested⟩ (by simp [refs, optional, hne])
    · unfold Guard.CleansUp
      split
      · exact hnext rfl
      · rename_i hne
        exact ⟨∅, hrefs ⟨g.cleanup, .nested⟩ (by simp [refs, optional, hne]), hnext rfl⟩
  | closureCreate dest block captures params names =>
    refine ⟨hrefs ⟨block, .closure⟩ (by simp [refs]), fun hw r hr => ?_, hnext rfl⟩
    exact hhanded hw r (List.mem_append.mpr hr)
  | stray what => exact hunknown rfl
  | binary | regex | load | move | call | closureCall | command => exact hnext rfl

end Instr

/-- A program of known instructions that holds no closure before it runs. -/
def Program.Regular (p : Program) : Prop :=
  ∀ f ∈ p.funcs, ∀ k ∈ f.blocks.toList, ∀ x ∈ k.code.toList,
    x.isKnown = true ∧ x.hasClosureLiteral = false

instance (p : Program) : Decidable p.Regular :=
  inferInstanceAs (Decidable (∀ f ∈ p.funcs, ∀ k ∈ f.blocks.toList, ∀ x ∈ k.code.toList,
    x.isKnown = true ∧ x.hasClosureLiteral = false))

namespace Check

open Instr (Entry BlockRef)

variable {f : Func} {written : BitSet} {r : BlockRef} {ip : Int64}

/-! ## Visited blocks -/

/-- A reference to a block that is fine, as are all that are reached from it. -/
def Sound (f : Func) (r : BlockRef) : Prop :=
  ∃ written, ∃ W : Set BlockRef, r ∈ W ∧ (∀ q ∈ W, Fine f written q) ∧
    ∀ q ∈ W, ∀ u ∈ targets f q, u ∈ W

theorem Passes.sound_entry (h : Passes f) : Sound f ⟨f.entry, .function⟩ := by
  obtain ⟨-, written, -, W, hentry, hfine, hclosed⟩ := closed_of_passes h
  exact ⟨written, W, hentry, hfine, hclosed⟩

theorem Sound.fine (h : Sound f r) : ∃ written, Fine f written r :=
  let ⟨written, _, hr, hfine, _⟩ := h
  ⟨written, hfine r hr⟩

theorem Sound.refs (h : Sound f r) {x : Instr} (hx : x ∈ f.code r.block) {q : BlockRef}
    (hq : q ∈ x.refs) : Sound f q := by
  obtain ⟨written, W, hr, hfine, hclosed⟩ := h
  exact ⟨written, W, hclosed r hr q (List.mem_flatMap.mpr ⟨x, hx, hq⟩), hfine, hclosed⟩

/-- An index in a block, if it is one at all. -/
def Inside (f : Func) (b : BlockId) (ip : Int64) : Prop :=
  0 ≤ ip.toInt → ip.toInt.toNat < (f.code b).length

theorem Sound.inside_zero (h : Sound f r) : Inside f r.block 0 := by
  obtain ⟨written, hfine⟩ := h.fine
  exact fun _ => List.length_pos_of_ne_nil (fine_iff.mp hfine).2.1

/-- Behind an instruction that does not end its block there is another one. -/
theorem Fine.inside_next (h : Fine f written r) (hip : 0 ≤ ip.toInt) {x : Instr}
    (hx : (f.code r.block)[ip.toInt.toNat]? = some x) (hend : x.isTerminator = false) :
    Inside f r.block (ip + 1) := by
  intro hip'
  have hlt := (List.getElem?_eq_some_iff.mp hx).1
  have hnot : ip.toInt.toNat + 1 ≠ (f.code r.block).length := by
    intro hlast
    have hissues := (instrIssues_eq_nil_iff.mp ((fine_iff.mp h).2.2 _ x hx)).1
    rw [hlast, beq_self_eq_true] at hissues
    cases x <;> simp_all [endIssues, Instr.isTerminator]
  rw [toInt_add_one hip hip']
  omega

theorem Fine.inside_skip (h : Fine f written r) (hip : 0 ≤ ip.toInt) {kind : Circuit} {dest : Reg}
    {left right : Value} {skip : Int64}
    (hx : (f.code r.block)[ip.toInt.toNat]? = some (.circuit kind dest left right skip)) :
    Inside f r.block (ip + skip + 1) := by
  intro hip'
  have hissues := (instrIssues_eq_nil_iff.mp ((fine_iff.mp h).2.2 _ _ hx)).2.2.2
  simp only [ownIssues, skipIssues, ite_eq_right_iff, List.cons_ne_nil, imp_false, not_or,
    Int64.not_le, ofNat_toInt_toNat hip] at hissues
  have := toInt_lt_of_lt_ofNat hissues.2
  omega

/-! ## The certificate -/

/-- A point that the checker has seen: some index of a block that is reached and fine. -/
def Seen (f : Func) (b : BlockId) (ip : Int64) : Prop :=
  (∃ e, Sound f ⟨b, e⟩) ∧ Inside f b ip

theorem Sound.seen (h : Sound f r) : Seen f r.block 0 := ⟨⟨r.entry, h⟩, h.inside_zero⟩

theorem Seen.fine {b : BlockId} (h : Seen f b ip) : ∃ written e, Fine f written ⟨b, e⟩ := by
  obtain ⟨⟨e, hsound⟩, -⟩ := h
  obtain ⟨written, hfine⟩ := hsound.fine
  exact ⟨written, e, hfine⟩

theorem Seen.has {b : BlockId} (h : Seen f b ip) : f.Has b := by
  obtain ⟨written, e, hfine⟩ := h.fine
  exact (fine_iff.mp hfine).1

section
variable {b : BlockId} {x : Instr} (h : Seen f b ip) (hx : (f.code b)[ip.toInt.toNat]? = some x)
include h hx

theorem Seen.next (hip : 0 ≤ ip.toInt) (hend : x.isTerminator = false) : Seen f b (ip + 1) := by
  obtain ⟨written, e, hfine⟩ := h.fine
  exact ⟨h.1, hfine.inside_next hip hx hend⟩

theorem Seen.skip (hip : 0 ≤ ip.toInt) {kind : Circuit} {dest : Reg} {left right : Value} {skip : Int64}
    (hcircuit : x = .circuit kind dest left right skip) : Seen f b (ip + skip + 1) := by
  obtain ⟨written, e, hfine⟩ := h.fine
  exact ⟨h.1, hfine.inside_skip hip (hcircuit ▸ hx)⟩

theorem Seen.ref {q : BlockRef} (hq : q ∈ x.refs) : Seen f q.block 0 := by
  obtain ⟨⟨e, hsound⟩, -⟩ := h
  exact (hsound.refs (List.mem_of_getElem? hx) hq).seen

/-- What a seen point leads to has been seen. -/
theorem Seen.leadsOn {σ : Safety} (hσ : ¬ σ.reads) (hip : 0 ≤ ip.toInt)
    (hhanded : σ.writes → ∀ r ∈ x.handed, f.InRange r) (hunknown : x.isKnown = false → σ.unknown)
    (D X : Set Reg) : x.LeadsOn σ (fun b ip _ _ => Seen f b ip) f b ip D X :=
  Instr.leadsOn_of_refs hσ (h.next hx hip) (fun _ _ _ _ _ => h.skip hx hip) (fun _ => h.ref hx) hhanded
    hunknown D X

end

/-- Blocks and skips are to be safe, registers need not be. -/
abbrev controlOnly : Safety := ⟨False, False, False⟩

/-- The visited blocks certify an accepted program. -/
def certificate {p : Program} (hpass : ∀ f ∈ p.funcs, Passes f) (hp : p.Regular) :
    Certificate controlOnly p where
  At f b ip _ _ := Seen f b ip
  has h := h.has
  obeys {f b ip D X} hdef h hip := by
    have hx := List.getElem?_eq_getElem (h.2 hip)
    obtain ⟨k, hk, hxk⟩ := mem_code_iff.mpr ⟨b, List.mem_of_getElem? hx⟩
    obtain ⟨hknown, hlit⟩ := hp f (Program.func?_eq_some hdef).1 k hk _ hxk
    exact ⟨_, hx, Instr.reads_ins id hlit D, fun hw => hw.elim,
      h.leadsOn (σ := controlOnly) hx id hip (fun hw => hw.elim)
        (fun hno => absurd (hknown.symm.trans hno) (by decide)) D X⟩
  entry hdef := (hpass _ (Program.func?_eq_some hdef).1).sound_entry.seen
  params hw := hw.elim

/-- A program that was built function by function and is accepted never meets a missing block or the
end of a block without an end: in no call, closure or nested block, caught or not. -/
theorem neverRaises_invalidBlock_of_accepts (fs : List Func)
    (hp : (fs.foldl Program.add {}).Regular) (hacc : Accepts (fs.foldl Program.add {}))
    (cfg : RunConfig) (hcfg : cfg.ClosureFree) :
    Machine.NeverRaises cfg (fs.foldl Program.add {}) .invalidBlock := by
  intro c hc hkind
  have hpass := ((accepts_iff_forall (Program.wellNamed_foldl fs)).mp hacc).2
  have hpermits := (certificate hpass hp).permits_of_raises hcfg hc
  cases c with
  | noBlock | unterminated | unknownInstr => exact hpermits
  | _ => simp [Cause.kind] at hkind

/-- Throws a closure, catches it, and calls it with a text, which it returns. -/
def throwsClosure : Func where
  name := mainName
  blocks := #[
    ⟨⟨0⟩, #[.closureCreate ⟨0⟩ ⟨1⟩ [] [⟨1⟩] ["x"], .guarded ⟨2⟩ ⟨⟨2⟩, ⟨3⟩, ⟨3⟩, .none⟩,
      .closureCall ⟨4⟩ ⟨2⟩ [.string "a"], .leave .ret (.reg ⟨4⟩)]⟩,
    ⟨⟨1⟩, #[.leave .closureRet (.reg ⟨1⟩)]⟩,
    ⟨⟨2⟩, #[.leave .throw (.reg ⟨0⟩)]⟩,
    ⟨⟨3⟩, #[.leave .yield (.reg ⟨3⟩)]⟩]
  numRegs := 5

theorem throwsClosure_neverRaises_invalidBlock :
    ([throwsClosure].foldl Program.add {}).Regular ∧
      Accepts ([throwsClosure].foldl Program.add {}) ∧ RunConfig.shallow.ClosureFree ∧
      Machine.NeverRaises RunConfig.shallow ([throwsClosure].foldl Program.add {}) .invalidBlock :=
  have hp : ([throwsClosure].foldl Program.add {}).Regular := by decide
  have hacc : Accepts ([throwsClosure].foldl Program.add {}) := by decide +kernel
  ⟨hp, hacc, RunConfig.shallow_closureFree,
    neverRaises_invalidBlock_of_accepts [throwsClosure] hp hacc .shallow
      RunConfig.shallow_closureFree⟩

end Check

end ScriptMachine
