import ScriptMachine.Proofs.Check.Soundness

/-!
# Indices of accepted programs

The checker and the machine add an index and a skip as 64-bit integers. As long as no such sum wraps,
a run of an accepted program stays inside the code of its blocks, and the only crash left is that of
a call whose registers cannot be had. A skip whose sum wraps is negative for the checker, which lets
it pass, and for the machine, which crashes.
-/

namespace ScriptMachine

/-- The number of instructions that an instruction may skip. -/
def Instr.skip : Instr → Int64
  | circuit _ _ _ _ n => n
  | _ => 0

namespace Program

/-- No operand of a program is written as a closure. -/
def ClosureLiteralFree (p : Program) : Prop :=
  ∀ f ∈ p.funcs, ∀ k ∈ f.blocks.toList, ∀ x ∈ k.code.toList, x.hasClosureLiteral = false

instance (p : Program) : Decidable p.ClosureLiteralFree :=
  inferInstanceAs (Decidable (∀ f ∈ p.funcs, ∀ k ∈ f.blocks.toList, ∀ x ∈ k.code.toList,
    x.hasClosureLiteral = false))

/-- The index behind an instruction and behind what it skips is a 64-bit integer. -/
def Unwrapped (p : Program) : Prop :=
  ∀ f ∈ p.funcs, ∀ k ∈ f.blocks.toList, ∀ x ∈ k.code.toList.zipIdx,
    (x.2 : Int) + x.1.skip.toInt + 1 < codeLimit

instance (p : Program) : Decidable p.Unwrapped :=
  inferInstanceAs (Decidable (∀ f ∈ p.funcs, ∀ k ∈ f.blocks.toList, ∀ x ∈ k.code.toList.zipIdx,
    (x.2 : Int) + x.1.skip.toInt + 1 < codeLimit))

variable {p : Program} {f : Func} {b : BlockId} {i : Nat} {x : Instr}

theorem ClosureLiteralFree.of_code (hp : p.ClosureLiteralFree) (hf : f ∈ p.funcs)
    (hx : x ∈ f.code b) : x.hasClosureLiteral = false := by
  obtain ⟨k, hk, hxk⟩ := Check.mem_code_iff.mpr ⟨b, hx⟩
  exact hp f hf k hk x hxk

theorem Unwrapped.of_code (hp : p.Unwrapped) (hf : f ∈ p.funcs) (hx : (f.code b)[i]? = some x) :
    (i : Int) + x.skip.toInt + 1 < codeLimit := by
  have hhas := Func.has_of_code_ne_nil (List.ne_nil_of_mem (List.mem_of_getElem? hx))
  obtain ⟨k, hk⟩ := Func.block?_eq_some_of_has hhas
  obtain ⟨n, -, rfl⟩ := hhas.exists_natCast
  rw [Func.code_of_block? hk] at hx
  rw [Func.block?_natCast] at hk
  exact hp f hf k (by simpa using Array.mem_of_getElem? hk) (x, i)
    (List.mem_zipIdx_iff_getElem?.mpr hx)

end Program

namespace Check

open Instr (BlockRef)

variable {f : Func} {b : BlockId} {ip : Int64} {x : Instr}

/-! ## Indices that do not wrap -/

/-- The index behind a skip, unless it wraps. -/
theorem toInt_add_skip {n : Int64} (hip : 0 ≤ ip.toInt) (hn : 0 ≤ n.toInt)
    (h : ip.toInt + n.toInt + 1 < codeLimit) : (ip + n + 1).toInt = ip.toInt + n.toInt + 1 := by
  have hlimit := codeLimit_eq
  have hone : (1 : Int64).toInt = 1 := rfl
  have hsum : (ip + n).toInt = ip.toInt + n.toInt := by
    rw [Int64.toInt_add, Int.bmod_def]
    split <;> omega
  rw [Int64.toInt_add, hsum, hone, Int.bmod_def]
  split <;> omega

/-- A skip that passes the check is not negative. -/
theorem Fine.skip_nonneg {written : BitSet} {r : BlockRef} {i : Nat} (h : Fine f written r)
    (hx : (f.code r.block)[i]? = some x) : 0 ≤ x.skip.toInt := by
  have hissues := (instrIssues_eq_nil_iff.mp ((fine_iff.mp h).2.2 _ x hx)).2.2.2
  cases x with
  | circuit kind dest left right skip =>
    simp only [ownIssues, skipIssues, ite_eq_right_iff, List.cons_ne_nil, imp_false, not_or,
      Int64.not_lt] at hissues
    exact Int64.le_iff_toInt_le.mp hissues.1
  | _ => exact le_refl _

/-! ## The certificate -/

/-- An index of a block that is reached and fine. -/
def Within (f : Func) (b : BlockId) (ip : Int64) : Prop := Seen f b ip ∧ 0 ≤ ip.toInt

/-- Blocks and indices are to be safe; registers need not be, and code may hold unknown things. -/
abbrev indexOnly : Safety := ⟨False, False, True⟩

/-- What an index of a block leads to is an index of a block. -/
theorem Within.leadsOn (h : Within f b ip) (hx : (f.code b)[ip.toInt.toNat]? = some x)
    (hskip : ip.toInt + x.skip.toInt + 1 < codeLimit) (D X : Set Reg) :
    x.LeadsOn indexOnly (fun b ip _ _ => Within f b ip) f b ip D X := by
  obtain ⟨hseen, hip⟩ := h
  obtain ⟨written, e, hfine⟩ := hseen.fine
  have hn := hfine.skip_nonneg hx
  refine Instr.leadsOn_of_refs (σ := indexOnly) id ?_ ?_ (fun _ hq => ⟨hseen.ref hx hq, by decide⟩)
    (fun hw => hw.elim) (fun _ => trivial) D X
  · intro hend
    refine ⟨hseen.next hx hip hend, ?_⟩
    have hzero : (0 : Int64).toInt = 0 := rfl
    have hnext := toInt_add_skip (n := 0) hip (by omega) (by omega)
    rw [Int64.add_zero] at hnext
    omega
  · rintro kind dest left right skip rfl
    refine ⟨hseen.skip hx hip rfl, ?_⟩
    have hnext := toInt_add_skip hip hn hskip
    simp only [Instr.skip] at hnext hn
    omega

/-- The indices of the visited blocks certify an accepted program. -/
def indexCertificate {p : Program} (hpass : ∀ f ∈ p.funcs, Passes f) (hlit : p.ClosureLiteralFree)
    (hskip : p.Unwrapped) : Certificate indexOnly p where
  At f b ip _ _ := Within f b ip
  has h := h.1.has
  obeys {f b ip D X} hdef h hip := by
    have hx := List.getElem?_eq_getElem (h.1.2 hip)
    have hf := (Program.func?_eq_some hdef).1
    have hunwrapped := hskip.of_code hf hx
    rw [Int.toNat_of_nonneg hip] at hunwrapped
    exact ⟨_, hx, Instr.reads_ins id (hlit.of_code hf (List.mem_of_getElem? hx)) D,
      fun hw => hw.elim, h.leadsOn hx hunwrapped D X⟩
  entry hdef := ⟨(hpass _ (Program.func?_eq_some hdef).1).sound_entry.seen, by decide⟩
  params hw := hw.elim

end Check

/-! ## Crashes -/

/-- A certified program crashes at a negative index or where the registers of a function cannot be
had. -/
theorem Certificate.crash_of_step {σ : Safety} {p : Program} (K : Certificate σ p) {cfg : RunConfig}
    (hcfg : cfg.ClosureFree) {s : State} (h : K.Invariant s) {w : World} {c : Crash}
    (hstep : Machine.step cfg p s = .crash w c) :
    s.site.ip.toInt < 0 ∨ ∃ f, p.Defines f ∧ Frame.new f = .error c := by
  obtain ⟨hrunning, ⟨hneg, -⟩ | ⟨hip, x, callee, dest, hx, hperform, hnew⟩⟩ :=
    Machine.crash_cases hstep
  · exact .inl hneg
  · obtain ⟨hfr, X, -, hruns⟩ := h
    rw [hrunning] at hruns
    obtain ⟨D, hruns⟩ := hruns
    obtain ⟨y, hy, hobeys⟩ := K.obeys hfr.defines hruns.at_ip hip
    rw [← hruns.code, Array.getElem?_toList, hx] at hy
    obtain rfl := Option.some.inj hy
    have hgives := gives_perform hfr hruns.covers hcfg hruns.code s.world hobeys
    rw [hperform] at hgives
    exact .inr ⟨callee.func, hgives.1.defines, hnew⟩

theorem Frame.new_eq_error {f : Func} {c : Crash} (h : Frame.new f = .error c) :
    c = .sizeOutside ∧ (f.numRegs < 0 ∨ maxRegs < f.numRegs) := by
  unfold Frame.new at h
  split at h
  · rename_i hsize
    exact ⟨(Except.error.inj h).symm, hsize⟩
  · cases h

/-- The first call crashes only if the registers of the function cannot be had. -/
theorem Machine.crash_of_initial {p : Program} {c : Crash} (h : Machine.initial p = .error c) :
    ∃ f, p.Defines f ∧ Frame.new f = .error c := by
  unfold Machine.initial at h
  split at h
  · cases h
  · rename_i f hf
    refine ⟨f, Program.defines_of_func? hf, ?_⟩
    rcases bind_eq_error_iff.mp h with hnew | ⟨fr, -, hbind⟩
    · exact hnew
    · split at hbind <;> cases hbind

namespace Check

/-- If no sum of an index and a skip wraps, every index that a run of an accepted program comes to is
one of the code of its block, and the program crashes only where a function has an impossible number
of registers. -/
theorem index_inside_of_accepts (fs : List Func)
    (hlit : (fs.foldl Program.add {}).ClosureLiteralFree)
    (hskip : (fs.foldl Program.add {}).Unwrapped) (hacc : Accepts (fs.foldl Program.add {}))
    (cfg : RunConfig) (hcfg : cfg.ClosureFree) :
    (∀ s, Machine.Reachable cfg (fs.foldl Program.add {}) s → s.ended = none →
      0 ≤ s.site.ip.toInt ∧ s.site.ip.toInt < s.site.code.size) ∧
    ∀ c, (Machine.main cfg (fs.foldl Program.add {})).ending = .crash c → c = .sizeOutside ∧
      ∃ f ∈ (fs.foldl Program.add {}).funcs, f.numRegs < 0 ∨ Frame.maxRegs < f.numRegs := by
  have hpass := ((accepts_iff_forall (Program.wellNamed_foldl fs)).mp hacc).2
  have hinv := fun s => (indexCertificate hpass hlit hskip).invariant_reachable (s := s) hcfg
  have hin : ∀ s, Machine.Reachable cfg (fs.foldl Program.add {}) s → s.ended = none →
      0 ≤ s.site.ip.toInt ∧ s.site.ip.toInt < s.site.code.size := by
    intro s hs hrunning
    obtain ⟨-, X, -, hruns⟩ := hinv s hs
    rw [hrunning] at hruns
    obtain ⟨D, hcode, -, ⟨-, hinside⟩, hip⟩ := hruns
    have hlt := hinside hip
    rw [← hcode, Array.length_toList] at hlt
    exact ⟨hip, by omega⟩
  refine ⟨hin, fun c hc => ?_⟩
  have hnew : ∃ f, (fs.foldl Program.add {}).Defines f ∧ Frame.new f = .error c := by
    rcases Machine.crashes_of_main hc with hinit | ⟨s, w, hs, hstep⟩
    · exact Machine.crash_of_initial hinit
    · have hip := (hin s hs (Machine.crash_cases hstep).1).1
      exact ((indexCertificate hpass hlit hskip).crash_of_step hcfg (hinv s hs) hstep).resolve_left
        (not_lt.mpr hip)
  obtain ⟨f, hdef, hnew⟩ := hnew
  obtain ⟨hcrash, hsize⟩ := Frame.new_eq_error hnew
  exact ⟨hcrash, f, (Program.func?_eq_some hdef).1, hsize⟩

/-- A short circuit that is decided at once and skips the code of its right operand. -/
def skipsOperand : Func where
  name := mainName
  blocks := #[⟨⟨0⟩, #[.circuit .and ⟨0⟩ (.bool false) (.reg ⟨1⟩) 2, .load ⟨1⟩ (.string "a"),
    .move ⟨0⟩ ⟨1⟩, .leave .ret (.reg ⟨0⟩)]⟩]
  numRegs := 2

theorem skipsOperand_index_inside :
    ([skipsOperand].foldl Program.add {}).ClosureLiteralFree ∧
      ([skipsOperand].foldl Program.add {}).Unwrapped ∧
      Accepts ([skipsOperand].foldl Program.add {}) ∧ RunConfig.shallow.ClosureFree ∧
      (∀ s, Machine.Reachable .shallow ([skipsOperand].foldl Program.add {}) s → s.ended = none →
        0 ≤ s.site.ip.toInt ∧ s.site.ip.toInt < s.site.code.size) ∧
      ∀ c, (Machine.main .shallow ([skipsOperand].foldl Program.add {})).ending ≠ .crash c :=
  have hlit : ([skipsOperand].foldl Program.add {}).ClosureLiteralFree := by decide
  have hskip : ([skipsOperand].foldl Program.add {}).Unwrapped := by decide +kernel
  have hacc : Accepts ([skipsOperand].foldl Program.add {}) := by decide +kernel
  have h := index_inside_of_accepts [skipsOperand] hlit hskip hacc .shallow
    RunConfig.shallow_closureFree
  ⟨hlit, hskip, hacc, RunConfig.shallow_closureFree, h.1,
    fun c hc => absurd (h.2 c hc).2 (by decide)⟩

/-- A short circuit that is decided at once and skips as far as a 64-bit integer goes. -/
def skipsTooFar : Func where
  name := mainName
  blocks := #[⟨⟨0⟩, #[.circuit .and ⟨0⟩ (.bool false) .null 9223372036854775807,
    .leave .ret (.reg ⟨0⟩)]⟩]
  numRegs := 1

theorem skipsTooFar_crashes :
    ([skipsTooFar].foldl Program.add {}).ClosureLiteralFree ∧
      Accepts ([skipsTooFar].foldl Program.add {}) ∧ RunConfig.shallow.ClosureFree ∧
      (Machine.main .shallow ([skipsTooFar].foldl Program.add {})).ending =
        .crash (.indexOutside (-9223372036854775808)) := by
  refine ⟨by decide, by decide +kernel, RunConfig.shallow_closureFree, ?_⟩
  obtain ⟨s, hinit, t, hstep, w, hcrash⟩ : ∃ s,
      Machine.initial ([skipsTooFar].foldl Program.add {}) = .ok (.ok s) ∧
      ∃ t, Machine.step .shallow ([skipsTooFar].foldl Program.add {}) s = .state t ∧
      ∃ w, Machine.step .shallow ([skipsTooFar].foldl Program.add {}) t =
        .crash w (.indexOutside (-9223372036854775808)) := ⟨_, rfl, _, rfl, _, rfl⟩
  unfold Machine.main
  rw [hinit]
  dsimp only
  rw [State.run, hstep]
  dsimp only
  rw [State.run, hcrash]
  rfl

end Check

end ScriptMachine
