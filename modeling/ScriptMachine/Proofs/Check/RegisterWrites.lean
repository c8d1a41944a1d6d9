import ScriptMachine.Proofs.Check.Indices

/-!
# Register writes of accepted programs

The checker looks at destinations and at the parameters of closures. It does not look at a
destination that is missing, at the registers for the arguments of a function and for the captures of
a closure, and at the register for what a handler gets. If these exist too, no run of an accepted
program ever fails to write a register.
-/

namespace ScriptMachine

/-- The registers that are written for an instruction and that the checker does not look at. -/
def Instr.unchecked (x : Instr) : List Reg :=
  (if x.hasDest = true ∧ x.out = .none then [x.out] else []) ++
    match x with
    | closureCreate _ _ captures _ _ => captures.map (·.reg)
    | guarded _ g => if g.handler = .none then [] else [g.caught]
    | _ => []

/-- The registers that the checker does not look at exist. -/
def Program.UncheckedInRange (p : Program) : Prop :=
  ∀ f ∈ p.funcs, (∀ r ∈ f.paramRegs, f.InRange r) ∧
    ∀ k ∈ f.blocks.toList, ∀ x ∈ k.code.toList, ∀ r ∈ x.unchecked, f.InRange r

instance (f : Func) (r : Reg) : Decidable (f.InRange r) :=
  inferInstanceAs (Decidable (0 ≤ r.index ∧ r.index < f.numRegs))

instance (p : Program) : Decidable p.UncheckedInRange :=
  inferInstanceAs (Decidable (∀ f ∈ p.funcs, (∀ r ∈ f.paramRegs, f.InRange r) ∧
    ∀ k ∈ f.blocks.toList, ∀ x ∈ k.code.toList, ∀ r ∈ x.unchecked, f.InRange r))

namespace Check

open Instr (BlockRef)

variable {f : Func} {b : BlockId} {ip : Int64} {x : Instr} {written : BitSet} {r : BlockRef}

/-- The destination of an instruction that passes the check, unless it is missing. -/
theorem Fine.out_inRange {i : Nat} (h : Fine f written r) (hx : (f.code r.block)[i]? = some x)
    (hdest : x.hasDest = true) (hun : ∀ q ∈ x.unchecked, f.InRange q) : f.InRange x.out := by
  have hissues := (instrIssues_eq_nil_iff.mp ((fine_iff.mp h).2.2 _ x hx)).2.1
  by_cases hnone : x.out = .none
  · apply hun
    unfold Instr.unchecked
    rw [if_pos ⟨hdest, hnone⟩]
    exact List.mem_append_left _ (List.mem_singleton_self _)
  · exact hissues hnone

/-- The registers that are set for the blocks of an instruction that passes the check. -/
theorem Fine.handed_inRange {i : Nat} (h : Fine f written r) (hx : (f.code r.block)[i]? = some x)
    (hun : ∀ q ∈ x.unchecked, f.InRange q) : ∀ q ∈ x.handed, f.InRange q := by
  have hissues := (instrIssues_eq_nil_iff.mp ((fine_iff.mp h).2.2 _ x hx)).2.2.2
  intro q hq
  cases x with
  | closureCreate dest block captures params names =>
    rcases List.mem_append.mp hq with hq | hq
    · exact hun q (List.mem_append_right _ hq)
    · simp only [ownIssues, List.append_eq_nil_iff, List.flatMap_eq_nil_iff] at hissues
      exact regIssues_eq_nil_iff.mp (hissues.1.2 q hq)
  | guarded dest g => exact hun q (List.mem_append_right _ hq)
  | _ => cases hq

/-- Blocks and writes are to be safe; reads need not be, and code may hold unknown things. -/
abbrev writesOnly : Safety := ⟨False, True, True⟩

/-- An instruction of a visited block writes registers that exist. -/
theorem Seen.obeys_writes {p : Program} {f : Func} {b : BlockId} {ip : Int64} (h : Seen f b ip)
    (hdef : p.Defines f) (hlit : p.ClosureLiteralFree) (hun : p.UncheckedInRange)
    (hip : 0 ≤ ip.toInt) (D X : Set Reg) : ∃ x, (f.code b)[ip.toInt.toNat]? = some x ∧
      x.Obeys writesOnly (fun b ip _ _ => Seen f b ip) f b ip D X := by
  have hx := List.getElem?_eq_getElem (h.2 hip)
  have hmem := List.mem_of_getElem? hx
  have hf := (Program.func?_eq_some hdef).1
  obtain ⟨k, hk, hxk⟩ := mem_code_iff.mpr ⟨b, hmem⟩
  have hregs := (hun f hf).2 k hk _ hxk
  obtain ⟨written, e, hfine⟩ := h.fine
  exact ⟨_, hx, Instr.reads_ins id (hlit.of_code hf hmem) D,
    fun _ hdest => hfine.out_inRange hx hdest hregs,
    h.leadsOn (σ := writesOnly) hx id hip (fun _ => hfine.handed_inRange hx hregs) (fun _ => trivial) D X⟩

theorem seen_entry {p : Program} (hpass : ∀ f ∈ p.funcs, Passes f) {f : Func} (hdef : p.Defines f) :
    Seen f f.entry 0 :=
  (hpass f (Program.func?_eq_some hdef).1).sound_entry.seen

/-- The visited blocks certify the writes of an accepted program. -/
def writeCertificate {p : Program} (hpass : ∀ f ∈ p.funcs, Passes f) (hlit : p.ClosureLiteralFree)
    (hun : p.UncheckedInRange) : Certificate writesOnly p where
  At f b ip _ _ := Seen f b ip
  has h := h.has
  obeys hdef h hip := h.obeys_writes hdef hlit hun hip _ _
  entry hdef := seen_entry hpass hdef
  params _ {f} hdef := (hun f (Program.func?_eq_some hdef).1).1

/-- If the registers that the checker does not look at exist, no run of an accepted program fails to
write a register: not for the result of an instruction, not for an argument, not for a captured
value, and not for what a handler gets. -/
theorem not_raises_writeOutside_of_accepts (fs : List Func)
    (hlit : (fs.foldl Program.add {}).ClosureLiteralFree)
    (hun : (fs.foldl Program.add {}).UncheckedInRange) (hacc : Accepts (fs.foldl Program.add {}))
    (cfg : RunConfig) (hcfg : cfg.ClosureFree) (r : Reg) (name : String) (size : Nat) :
    ¬ Machine.Raises cfg (fs.foldl Program.add {}) (.writeOutside r name size) := by
  intro hraises
  have hpass := ((accepts_iff_forall (Program.wellNamed_foldl fs)).mp hacc).2
  exact (writeCertificate hpass hlit hun).permits_of_raises hcfg hraises trivial

/-- Throws a closure that has captured a text, catches it, and calls it with another text. -/
def throwsCapture : Func where
  name := mainName
  blocks := #[
    ⟨⟨0⟩, #[.load ⟨0⟩ (.string "a"), .closureCreate ⟨1⟩ ⟨1⟩ [⟨.reg ⟨0⟩, ⟨2⟩⟩] [⟨3⟩] ["x"],
      .guarded ⟨4⟩ ⟨⟨2⟩, ⟨3⟩, ⟨5⟩, .none⟩, .closureCall ⟨6⟩ ⟨4⟩ [.string "b"],
      .leave .ret (.reg ⟨6⟩)]⟩,
    ⟨⟨1⟩, #[.binary (.arith .add) ⟨7⟩ (.reg ⟨2⟩) (.reg ⟨3⟩), .leave .closureRet (.reg ⟨7⟩)]⟩,
    ⟨⟨2⟩, #[.leave .throw (.reg ⟨1⟩)]⟩,
    ⟨⟨3⟩, #[.leave .yield (.reg ⟨5⟩)]⟩]
  numRegs := 8

theorem throwsCapture_not_raises_writeOutside :
    ([throwsCapture].foldl Program.add {}).ClosureLiteralFree ∧
      ([throwsCapture].foldl Program.add {}).UncheckedInRange ∧
      Accepts ([throwsCapture].foldl Program.add {}) ∧ RunConfig.shallow.ClosureFree ∧
      ∀ r name size, ¬ Machine.Raises .shallow ([throwsCapture].foldl Program.add {})
        (.writeOutside r name size) :=
  have hlit : ([throwsCapture].foldl Program.add {}).ClosureLiteralFree := by decide
  have hun : ([throwsCapture].foldl Program.add {}).UncheckedInRange := by decide
  have hacc : Accepts ([throwsCapture].foldl Program.add {}) := by decide +kernel
  ⟨hlit, hun, hacc, RunConfig.shallow_closureFree,
    not_raises_writeOutside_of_accepts [throwsCapture] hlit hun hacc .shallow
      RunConfig.shallow_closureFree⟩

/-- Throws, and has no register for what its handler gets. -/
def catchesOutside : Func where
  name := mainName
  blocks := #[
    ⟨⟨0⟩, #[.guarded ⟨0⟩ ⟨⟨1⟩, ⟨2⟩, ⟨5⟩, .none⟩, .leave .ret (.reg ⟨0⟩)]⟩,
    ⟨⟨1⟩, #[.leave .throw (.string "a")]⟩,
    ⟨⟨2⟩, #[.leave .yield .null]⟩]
  numRegs := 2

theorem catchesOutside_raises_writeOutside :
    ([catchesOutside].foldl Program.add {}).ClosureLiteralFree ∧
      Accepts ([catchesOutside].foldl Program.add {}) ∧ RunConfig.shallow.ClosureFree ∧
      Machine.Raises .shallow ([catchesOutside].foldl Program.add {})
        (.writeOutside ⟨5⟩ mainName 2) := by
  refine ⟨by decide, by decide +kernel, RunConfig.shallow_closureFree, .inr ?_⟩
  -- the body is entered, it throws, and the handler's register is written
  exact ⟨_, .step (.step (.step (.initial rfl) rfl) rfl) rfl, _, .inl rfl, rfl⟩

end Check

end ScriptMachine
