import ScriptMachine.Proofs.Machine.Sites

/-!
# What an instruction reads and writes

`Instr.ins` and `Instr.out` tell all that an instruction does to the registers of its frame, but for
the blocks that it enters. Let two frames of one function agree on the registers that it reads.

1. Whatever it looks up is the same in both: operands, captures, the arm that is chosen, the callee
   (`Frame.AgreeOn.read` and the lemmas behind it).
2. So it does the same in both (`does_perform`): it fails alike, leaves both frames alone, writes one
   value to one register of both, or asks for the same end, the same call or the same block.
-/

namespace ScriptMachine

/-! ## Frames that agree -/

/-- Frames of one function that have as many registers and agree on those in `R`. -/
structure Frame.AgreeOn (R : Set Reg) (fr fr' : Frame) : Prop where
  func : fr.func = fr'.func
  size : fr.regs.size = fr'.regs.size
  get? : ∀ r ∈ R, fr.get? r = fr'.get? r

namespace Frame.AgreeOn

variable {R : Set Reg} {fr fr' a a' : Frame}

theorem refl (R : Set Reg) (fr : Frame) : fr.AgreeOn R fr := ⟨rfl, rfl, fun _ _ => rfl⟩

section
variable (h : fr.AgreeOn R fr') {v : Value}
include h

theorem read (hv : ∀ r, v = .reg r → r ∈ R) : fr.read v = fr'.read v := by
  cases v with
  | reg r => simp only [Frame.read, h.get? r (hv r rfl)]
  | _ => rfl

theorem readAll {vs : List Value} (hvs : ∀ r, .reg r ∈ vs → r ∈ R) :
    fr.readAll vs = fr'.readAll vs := by
  induction vs with
  | nil => rfl
  | cons v vs ih =>
    have hv : fr.read v = fr'.read v := h.read fun r hr => hvs r (by simp [hr])
    rw [Frame.readAll, Frame.readAll, hv, ih fun r hr => hvs r (by simp [hr])]

/-- A write fails in both frames, for the same cause, or in none. -/
theorem write_error {d : Reg} {c : Cause}
    (hw : fr.write d v = .error c) : fr'.write d v = .error c := by
  rw [write_eq_error_iff, ← h.func, ← h.size]
  exact write_eq_error_iff.mp hw

theorem write_ok {d : Reg} (hw : fr.write d v = .ok a) : ∃ a', fr'.write d v = .ok a' := by
  cases hw' : fr'.write d v with
  | ok a' => exact ⟨a', rfl⟩
  | error c =>
    have hsym : fr'.AgreeOn R fr := ⟨h.func.symm, h.size.symm, fun r hr => (h.get? r hr).symm⟩
    rw [hsym.write_error hw'] at hw
    cases hw

/-- The same write makes frames agree that agreed before. -/
theorem write {d : Reg} (hw : fr.write d v = .ok a)
    (hw' : fr'.write d v = .ok a') : a.AgreeOn R a' where
  func := by rw [func_write hw, func_write hw', h.func]
  size := by rw [size_write hw, size_write hw', h.size]
  get? r hr := by
    by_cases heq : r = d
    · subst heq
      rw [get?_write hw, get?_write hw']
    · rw [get?_write_of_ne hw heq, get?_write_of_ne hw' heq]
      exact h.get? r hr

end

end Frame.AgreeOn

namespace Machine

variable {R : Set Reg} {fr fr' : Frame} {p : Program} {x : Instr}

/-! ## What is looked up -/

section
variable (h : fr.AgreeOn R fr')
include h

theorem capture_congr {cs : List (Capture Value)}
    (hcs : ∀ r, .reg r ∈ cs.map (·.value) → r ∈ R) : capture fr cs = capture fr' cs := by
  induction cs with
  | nil => rfl
  | cons c cs ih =>
    have hc : fr.read c.value = fr'.read c.value := h.read fun r hr => hcs r (by simp [hr])
    have hrest : capture fr cs = capture fr' cs :=
      ih fun r hr => hcs r (by rw [List.map_cons]; exact List.mem_cons_of_mem _ hr)
    rw [capture, capture, hc, hrest]

theorem chooseArm_congr (v : Value) (default : BlockId) {arms : List Arm}
    (harms : ∀ r, .reg r ∈ arms.map (·.pattern) → r ∈ R) :
    chooseArm fr v default arms = chooseArm fr' v default arms := by
  induction arms with
  | nil => rfl
  | cons a as ih =>
    have ha : fr.read a.pattern = fr'.read a.pattern := h.read fun r hr => harms r (by simp [hr])
    have hrest : chooseArm fr v default as = chooseArm fr' v default as :=
      ih fun r hr => harms r (by rw [List.map_cons]; exact List.mem_cons_of_mem _ hr)
    rw [chooseArm, chooseArm, ha, hrest]

theorem callHeld_congr {r : Reg} (hr : r ∈ R) {args : List Value}
    (hargs : ∀ q, .reg q ∈ args → q ∈ R) : callHeld p fr r args = callHeld p fr' r args := by
  rw [callHeld, callHeld, h.get? r hr, h.readAll hargs]

theorem command_congr (runner : Option Runner) (w : World) (name : String)
    {args : List Value} (hargs : ∀ q, .reg q ∈ args → q ∈ R) :
    command runner fr w name args = command runner fr' w name args := by
  unfold command
  rw [h.readAll hargs]

theorem create_congr (w : World) (block : BlockId)
    {captures : List (Capture Value)} (hcs : ∀ r, .reg r ∈ captures.map (·.value) → r ∈ R)
    (params : List Reg) : create fr w block captures params = create fr' w block captures params := by
  rw [create, create, capture_congr h hcs, h.func]

end

/-! ## What is done -/

/-- What an instruction does in two frames, where it does the same in both. -/
inductive Does (x : Instr) (fr fr' : Frame) : Except Cause Action → Except Cause Action → Prop
  | fail (c : Cause) : Does x fr fr' (.error c) (.error c)
  | keep (skip : Int64) : Does x fr fr' (.ok (.next fr skip)) (.ok (.next fr' skip))
  | write {v : Value} {a a' : Frame} (hw : fr.write x.out v = .ok a)
      (hw' : fr'.write x.out v = .ok a') (skip : Int64) :
      Does x fr fr' (.ok (.next a skip)) (.ok (.next a' skip))
  | leave (v : Value) (exit : Exit) : Does x fr fr' (.ok (.leave v exit)) (.ok (.leave v exit))
  | call (c : Callee) : Does x fr fr' (.ok (.call c x.out)) (.ok (.call c x.out))
  | arm {b : BlockId} (hb : ⟨b, .nested⟩ ∈ x.refs) :
      Does x fr fr' (.ok (.enter b (.arm x.out))) (.ok (.enter b (.arm x.out)))
  | guarded {g : Guard} (hx : x = .guarded x.out g) :
      Does x fr fr' (.ok (.enter g.body (.body x.out g))) (.ok (.enter g.body (.body x.out g)))

/-- A computation that does not look at the frame comes first. -/
theorem Does.bind {α : Type} {m : Except Cause α} {k k' : α → Except Cause Action}
    (h : ∀ a, m = .ok a → Does x fr fr' (k a) (k' a)) : Does x fr fr' (m >>= k) (m >>= k') := by
  cases m with
  | error c => exact .fail c
  | ok a => exact h a rfl

section
variable (h : fr.AgreeOn R fr')
include h

theorem does_finish (v : Value) : Does x fr fr' (finish fr x.out v) (finish fr' x.out v) := by
  unfold finish
  cases hw : fr.write x.out v with
  | error c =>
    rw [h.write_error hw]
    exact .fail c
  | ok a =>
    obtain ⟨a', hw'⟩ := h.write_ok hw
    rw [hw']
    exact .write hw hw' 0

theorem does_circuit {kind : Circuit} {dest : Reg} {left right : Value}
    {skip : Int64} (hleft : ∀ r, left = .reg r → r ∈ R) :
    Does (.circuit kind dest left right skip) fr fr' (circuit fr kind dest left right skip)
      (circuit fr' kind dest left right skip) := by
  unfold circuit
  rw [h.read hleft]
  refine .bind fun l _ => ?_
  split
  · cases hw : fr.write dest (.bool kind.decides) with
    | error c =>
      rw [h.write_error hw]
      exact .fail c
    | ok a =>
      obtain ⟨a', hw'⟩ := h.write_ok hw
      rw [hw']
      exact .write hw hw' skip
  · split
    · exact .keep 0
    · exact does_finish h .null

theorem does_leave (how : Terminator) {v : Value} (hv : ∀ r, v = .reg r → r ∈ R) :
    Does (.leave how v) fr fr' (leave fr how v) (leave fr' how v) := by
  unfold leave
  rw [h.read hv]
  refine .bind fun u _ => ?_
  cases how with
  | ret => exact .leave u .ret
  | closureRet => exact .leave u .ret
  | yield => exact .leave u .yield
  | throw => exact .fail _

/-- The arm that is chosen is one of those that the dispatch refers to. -/
theorem does_dispatch {dest : Reg} {v : Value} {arms : List Arm}
    {default : BlockId} (hins : ∀ r, .reg r ∈ v :: arms.map (·.pattern) → r ∈ R) :
    Does (.dispatch dest v arms default) fr fr'
      (do
        let u ← fr.read v
        let b ← chooseArm fr u default arms
        if b = .none then finish fr dest .null else return .enter b (.arm dest))
      (do
        let u ← fr'.read v
        let b ← chooseArm fr' u default arms
        if b = .none then finish fr' dest .null else return .enter b (.arm dest)) := by
  rw [h.read fun r hr => hins r (by simp [hr])]
  refine .bind fun u _ => ?_
  rw [chooseArm_congr h u default fun r hr => hins r (List.mem_cons_of_mem _ hr)]
  refine .bind fun b hb => ?_
  split
  · exact does_finish h .null
  · rename_i hsome
    refine .arm ?_
    have hmem := mem_chooseArm u default arms b hb
    simp only [Instr.refs, Instr.optional, List.mem_append, List.mem_map]
    rcases List.mem_cons.mp hmem with rfl | hmem
    · rw [if_neg hsome]
      exact .inr List.mem_cons_self
    · obtain ⟨a, ha, rfl⟩ := List.mem_map.mp hmem
      exact .inl ⟨a, ha, rfl⟩

/-- An instruction does the same in frames that agree on the registers that it reads, and it leaves the
same world behind. -/
theorem does_perform (hins : ∀ r, .reg r ∈ x.ins → r ∈ R)
    (runner : Option Runner) (p : Program) (w : World) :
    (perform runner p fr w x).1 = (perform runner p fr' w x).1 ∧
      Does x fr fr' (perform runner p fr w x).2 (perform runner p fr' w x).2 := by
  cases x with
  | binary op dest l r | regex dest l r negate =>
    refine ⟨rfl, ?_⟩
    simp only [perform]
    rw [h.read fun q hq => hins q (by simp [Instr.ins, hq]),
      h.read fun q hq => hins q (by simp [Instr.ins, hq])]
    exact .bind fun a _ => .bind fun b _ => .bind fun v _ => does_finish h v
  | load dest v | move dest src =>
    refine ⟨rfl, ?_⟩
    simp only [perform]
    rw [h.read fun q hq => hins q (by simp [Instr.ins, hq])]
    exact .bind fun u _ => does_finish h u
  | circuit kind dest left right skip =>
    exact ⟨rfl, does_circuit h fun q hq => hins q (by simp [Instr.ins, hq])⟩
  | call dest func args =>
    refine ⟨rfl, ?_⟩
    have hargs : fr.readAll args = fr'.readAll args := h.readAll hins
    simp only [perform, hargs]
    exact .bind fun vs _ => .bind fun c _ => .call c
  | closureCall dest c args =>
    refine ⟨rfl, ?_⟩
    simp only [perform]
    rw [callHeld_congr h (hins c (by simp [Instr.ins]))
      fun q hq => hins q (List.mem_cons_of_mem _ hq)]
    exact .bind fun c _ => .call c
  | closureCreate dest block captures params names =>
    simp only [perform]
    rw [create_congr h w block hins params]
    exact ⟨rfl, .bind fun v _ => does_finish h v⟩
  | command dest name args =>
    have hcommand : command runner fr w name args = command runner fr' w name args :=
      command_congr h runner w name hins
    simp only [perform]
    rw [hcommand]
    exact ⟨rfl, .bind fun v _ => does_finish h v⟩
  | dispatch dest v arms default => exact ⟨rfl, does_dispatch h hins⟩
  | guarded dest g => exact ⟨rfl, .guarded rfl⟩
  | leave how v => exact ⟨rfl, does_leave h how fun q hq => hins q (by simp [Instr.ins, hq])⟩
  | stray what => exact ⟨rfl, .fail _⟩

end

end Machine

end ScriptMachine
