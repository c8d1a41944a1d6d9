import ScriptMachine.Proofs.Machine.Sites

/-!
# The places of faults

The fault that a program ends with names the instruction that raised it. A fault gets its place where
the block of the failing instruction ends, and keeps it on its way through the blocks and calls that
wait. It has no place only while the instruction that waits for it is the one that failed: the block
that it wanted to enter is missing or lies too deep, or what a handler was to receive could not be
written and a cleanup comes first.

1. `raises_of_perform`: an instruction fails only with faults of its own classes.
2. `attributed_step`: in every state, each fault that is under way has the place of an instruction that
   can raise it, or waits for one.
-/

namespace ScriptMachine

namespace Instr

/-- Whether an instruction can raise a fault of a class itself. -/
def raises (x : Instr) : FaultKind → Bool
  | .undefinedFunction => match x with | call .. | closureCall .. | command .. => true | _ => false
  | .undefinedVariable => match x with | closureCall .. => true | _ => false
  | .invalidRegister => match x with | stray _ => false | _ => true
  | .invalidBlock =>
    match x with | call .. | closureCall .. | dispatch .. | guarded .. | stray _ => true | _ => false
  | .typeMismatch => match x with | binary .. | closureCall .. => true | _ => false
  | .regexCompile => match x with | regex .. => true | _ => false
  | .stackOverflow =>
    match x with | call .. | closureCall .. | dispatch .. | guarded .. => true | _ => false
  | .commandFailed => match x with | command .. => true | _ => false
  | .thrown => match x with | leave .throw _ => true | _ => false

end Instr

/-- The place of a fault in a program: an instruction that can raise it, or the end of a block that is
not terminated. -/
def Program.Explains (p : Program) (e : Fault) (l : Location) : Prop :=
  ∃ f k, p.func? l.func = some f ∧ f.block? l.block = some k ∧
    (l.instr = k.code.size ∧ e.cause = .unterminated ∨
      ∃ (i : Nat) (x : Instr), l.instr = i ∧ k.code[i]? = some x ∧ x.raises e.kind = true)

/-- The main function cannot be entered: it is missing, its entry block is missing, or one of its
parameters has no register. -/
def Program.Unenterable (p : Program) : Prop :=
  p.main? = none ∨
    ∃ f, p.main? = some f ∧ (f.block? f.entry = none ∨ ∃ r ∈ f.paramRegs, ¬ f.InRange r)

/-- All functions of a program have names. -/
def Program.Named (p : Program) : Prop := ∀ f ∈ p.funcs, f.name ≠ ""

theorem Program.named_foldl {fs : List Func} (hfs : ∀ f ∈ fs, f.name ≠ "") :
    (fs.foldl Program.add {}).Named := by
  have hall : ∀ p : Program, p.Named → (fs.foldl Program.add p).Named := by
    induction fs with
    | nil => exact fun p hp => hp
    | cons f fs ih =>
      obtain ⟨hf, hfs⟩ := List.forall_mem_cons.mp hfs
      refine fun p hp => ih hfs _ fun g hg => ?_
      rcases Program.mem_add hg with ⟨hg, -⟩ | rfl
      · exact hp g hg
      · exact hf
  exact hall {} nofun

/-- A fault has a place that explains it. -/
def Fault.Placed (p : Program) (e : Fault) : Prop := ∃ l, e.place = some l ∧ p.Explains e l

/-- A fault has its place, or the instruction that gets it can have raised it. -/
def Fault.Due (p : Program) (x : Instr) (e : Fault) : Prop :=
  e.Placed p ∨ e.place = none ∧ x.raises e.kind = true

/-! ## What instructions raise -/

/-- All faults of a computation have `Q`. -/
def AllFail {α : Type} (m : Except Cause α) (Q : Cause → Prop) : Prop := ∀ c, m = .error c → Q c

theorem AllFail.bind {α β : Type} {m : Except Cause α} {f : α → Except Cause β} {Q : Cause → Prop}
    (hm : AllFail m Q) (hf : ∀ a, AllFail (f a) Q) : AllFail (m >>= f) Q := by
  intro c hc
  rcases bind_eq_error_iff.mp hc with hc | ⟨a, -, hc⟩
  · exact hm c hc
  · exact hf a c hc

theorem allFail_pure {α : Type} (a : α) {Q : Cause → Prop} :
    AllFail (pure a : Except Cause α) Q := nofun

theorem kind_apply (op : BinOp) (l r : Value) : AllFail (op.apply l r) (·.kind = .typeMismatch) := by
  intro c hc
  cases op with
  | arith op =>
    simp only [BinOp.apply, arith] at hc
    split at hc
    · cases hc
    · obtain rfl := Except.error.inj hc
      rfl
  | eq => cases hc
  | ne => cases hc
  | order op =>
    simp only [BinOp.apply, order] at hc
    split at hc
    · cases hc
    · cases hc
    · split at hc
      · cases hc
      · obtain rfl := Except.error.inj hc
        rfl
  | bits op =>
    simp only [BinOp.apply, bitwise] at hc
    split at hc
    · unfold intBits at hc
      cases op <;> dsimp only at hc
      case and | or | xor => cases hc
      case shl | shr =>
        split at hc
        · obtain rfl := Except.error.inj hc
          rfl
        · cases hc
    · obtain rfl := Except.error.inj hc
      rfl

namespace Frame

variable {fr : Frame}

theorem kind_read (v : Value) : AllFail (fr.read v) (·.kind = .invalidRegister) := by
  intro c hc
  obtain ⟨r, -, -, rfl⟩ := read_eq_error_iff.mp hc
  rfl

theorem kind_readAll (vs : List Value) : AllFail (fr.readAll vs) (·.kind = .invalidRegister) := by
  intro c hc
  obtain ⟨v, -, hv⟩ := readAll_eq_error hc
  exact kind_read v c hv

theorem kind_write (r : Reg) (v : Value) : AllFail (fr.write r v) (·.kind = .invalidRegister) := by
  intro c hc
  obtain ⟨-, rfl⟩ := write_eq_error_iff.mp hc
  rfl

theorem kind_writeAll (binds : List (Reg × Value)) :
    AllFail (fr.writeAll binds) (·.kind = .invalidRegister) := by
  induction binds generalizing fr with
  | nil => exact allFail_pure _
  | cons b binds ih =>
    rw [writeAll]
    exact (kind_write b.1 b.2).bind fun fr' => ih

theorem writeAll_eq_error {binds : List (Reg × Value)} {c : Cause}
    (h : fr.writeAll binds = .error c) :
    ∃ b ∈ binds, ¬ (0 ≤ b.1.index ∧ b.1.index < fr.regs.size) := by
  induction binds generalizing fr with
  | nil => cases h
  | cons b binds ih =>
    rcases bind_eq_error_iff.mp h with hw | ⟨fr', hw, h⟩
    · exact ⟨b, List.mem_cons_self, (write_eq_error_iff.mp hw).1⟩
    · obtain ⟨b', hb', hout⟩ := ih h
      rw [size_write hw] at hout
      exact ⟨b', List.mem_cons_of_mem b hb', hout⟩

end Frame

namespace Machine

variable {p : Program} {fr : Frame} {x : Instr}

/-- Reading and writing registers is part of every instruction but of those that are none. -/
theorem raises_register (hx : x.isKnown = true) {α : Type} {m : Except Cause α}
    (hm : AllFail m (·.kind = .invalidRegister)) : AllFail m (x.raises ·.kind = true) := by
  intro c hc
  rw [hm c hc]
  cases x with
  | stray what => cases hx
  | _ => rfl

theorem raises_finish (hx : x.isKnown = true) (dest : Reg) (v : Value) :
    AllFail (finish fr dest v) (x.raises ·.kind = true) := by
  refine raises_register hx fun c hc => ?_
  unfold finish at hc
  cases hw : fr.write dest v with
  | error e =>
    rw [hw] at hc
    obtain rfl := Except.error.inj hc
    exact Frame.kind_write dest v e hw
  | ok fr' =>
    rw [hw] at hc
    cases hc

theorem raises_calleeNamed (hx : x.isCall = true) (name : String) (vs : List Value) :
    AllFail (calleeNamed p name vs) (x.raises ·.kind = true) := by
  intro c hc
  unfold calleeNamed at hc
  split at hc
  · obtain rfl := Except.error.inj hc
    cases x <;> first | rfl | cases hx
  · cases hc

theorem raises_callHeld (dest r : Reg) (args : List Value) :
    AllFail (callHeld p fr r args) ((Instr.closureCall dest r args).raises ·.kind = true) := by
  unfold callHeld
  split
  · intro c hc
    obtain rfl := Except.error.inj hc
    rfl
  · refine (raises_register rfl (Frame.kind_readAll args)).bind fun vs => ?_
    unfold callee
    split
    · intro c hc
      unfold calleeClosure at hc
      split at hc
      · obtain rfl := Except.error.inj hc
        rfl
      · cases hc
    · exact raises_calleeNamed rfl _ vs
    · intro c hc
      obtain rfl := Except.error.inj hc
      rfl

theorem kind_capture (cs : List (Capture Value)) :
    AllFail (capture fr cs) (·.kind = .invalidRegister) := by
  induction cs with
  | nil => exact allFail_pure _
  | cons c cs ih =>
    rw [capture]
    exact (Frame.kind_read _).bind fun v => ih.bind fun rest => allFail_pure _

theorem kind_create (w : World) (block : BlockId) (captures : List (Capture Value))
    (params : List Reg) :
    AllFail (create fr w block captures params).2 (·.kind = .invalidRegister) := by
  intro c hc
  unfold create at hc
  split at hc
  · rename_i e he
    obtain rfl := Except.error.inj hc
    exact kind_capture captures e he
  · cases hc

theorem kind_chooseArm (v : Value) (default : BlockId) (arms : List Arm) :
    AllFail (chooseArm fr v default arms) (·.kind = .invalidRegister) := by
  induction arms with
  | nil => exact allFail_pure _
  | cons a as ih =>
    rw [chooseArm]
    refine (Frame.kind_read _).bind fun u => ?_
    split
    · exact allFail_pure _
    · exact ih

theorem raises_command (runner : Option Runner) (w : World) (dest : Reg) (name : String)
    (args : List Value) : AllFail (command runner fr w name args).2
      ((Instr.command dest name args).raises ·.kind = true) := by
  intro c hc
  unfold command at hc
  split at hc
  · obtain rfl := Except.error.inj hc
    rfl
  · split at hc
    · rename_i e he
      obtain rfl := Except.error.inj hc
      exact raises_register rfl (Frame.kind_readAll args) e he
    · dsimp only at hc
      split at hc
      · obtain rfl := Except.error.inj hc
        rfl
      · cases hc
      · cases hc

/-- An instruction fails only with faults of its own classes. -/
theorem raises_of_perform (runner : Option Runner) (w : World) (x : Instr) :
    AllFail (perform runner p fr w x).2 (x.raises ·.kind = true) := by
  cases x with
  | binary op dest l r =>
    refine (raises_register rfl (Frame.kind_read l)).bind fun a => ?_
    refine (raises_register rfl (Frame.kind_read r)).bind fun b => ?_
    refine AllFail.bind (fun c hc => ?_) fun v => raises_finish rfl dest v
    rw [kind_apply op a b c hc]
    rfl
  | regex dest l r negate =>
    refine (raises_register rfl (Frame.kind_read l)).bind fun a => ?_
    refine (raises_register rfl (Frame.kind_read r)).bind fun b => ?_
    refine AllFail.bind (fun c hc => ?_) fun v => raises_finish rfl dest v
    unfold matchPattern at hc
    split at hc
    · cases hc
    · obtain rfl := Except.error.inj hc
      rfl
  | load dest v | move dest src =>
    exact (raises_register rfl (Frame.kind_read _)).bind fun u => raises_finish rfl dest u
  | circuit kind dest left right skip =>
    unfold perform circuit
    refine (raises_register rfl (Frame.kind_read left)).bind fun l => ?_
    split
    · refine (raises_register rfl (Frame.kind_write dest _)).bind fun fr' => ?_
      exact allFail_pure _
    · split
      · exact allFail_pure _
      · exact raises_finish rfl dest _
  | call dest func args =>
    refine (raises_register rfl (Frame.kind_readAll args)).bind fun vs => ?_
    exact (raises_calleeNamed rfl func vs).bind fun c => allFail_pure _
  | closureCall dest r args =>
    exact (raises_callHeld dest r args).bind fun c => allFail_pure _
  | closureCreate dest block captures params names =>
    refine AllFail.bind (fun c hc => ?_) fun v => raises_finish rfl dest v
    exact raises_register rfl (kind_create w block captures params) c hc
  | command dest name args =>
    exact AllFail.bind (raises_command runner w dest name args) fun v => raises_finish rfl dest v
  | dispatch dest scrutinee arms default =>
    refine (raises_register rfl (Frame.kind_read scrutinee)).bind fun v => ?_
    refine (raises_register rfl (kind_chooseArm v default arms)).bind fun b => ?_
    split
    · exact raises_finish rfl dest _
    · exact allFail_pure _
  | guarded dest g => exact allFail_pure _
  | leave how v =>
    unfold perform leave
    refine (raises_register rfl (Frame.kind_read v)).bind fun u => ?_
    cases how with
    | throw =>
      intro c hc
      obtain rfl := Except.error.inj hc
      rfl
    | _ => exact allFail_pure _
  | stray what =>
    intro c hc
    obtain rfl := Except.error.inj hc
    rfl

end Machine

/-- An instruction that enters a block can miss it or find it too deep. -/
theorem Instr.Opens.raises {x : Instr} {after : After} (hx : x.Opens after) :
    x.isKnown = true ∧ x.raises .invalidBlock = true ∧ x.raises .stackOverflow = true := by
  cases after with
  | arm dest =>
    obtain ⟨v, arms, default, rfl⟩ := hx
    exact ⟨rfl, rfl, rfl⟩
  | body dest g | handler dest g =>
    obtain rfl := hx
    exact ⟨rfl, rfl, rfl⟩
  | cleanup dest pending =>
    obtain ⟨g, rfl, -⟩ := hx
    exact ⟨rfl, rfl, rfl⟩

theorem Instr.raises_of_isCall {x : Instr} (hx : x.isCall = true) : x.isKnown = true ∧
    x.raises .invalidBlock = true ∧ x.raises .stackOverflow = true := by
  cases x <;> first | exact ⟨rfl, rfl, rfl⟩ | cases hx

/-! ## Faults that are under way -/

/-- The instruction that waits. -/
def Waiting.instr? : Waiting → Option Instr
  | caller _ site _ | within site _ => site.instr?

/-- The fault of an outcome, if it is one, is due to an instruction. -/
def Outcome.Due (p : Program) (x : Instr) (o : Outcome) : Prop := ∀ e, o = .fault e → e.Due p x

/-- A fault goes to what waits, or to nobody if the main function was not entered. -/
def Fault.DueTo (p : Program) (e : Fault) : List Waiting → Prop
  | [] => e.Placed p ∨ e.place = none ∧ p.Unenterable
  | w :: _ => ∃ x, w.instr? = some x ∧ e.Due p x

/-- Every fault that a cleanup has to pass on is due to its guarded section. -/
def Pending (p : Program) (ws : List Waiting) : Prop :=
  ∀ site dest e, .within site (.cleanup dest (.fault e)) ∈ ws → ∃ x, site.instr? = some x ∧ e.Due p x

/-- All faults of a state are placed or due. -/
structure State.Attributed (p : Program) (s : State) : Prop where
  ended : ∀ e, s.ended = some (.fault e) → e.DueTo p s.stack.entries
  pending : Pending p s.stack.entries

theorem pending_nil (p : Program) : Pending p [] := by
  intro site dest e h
  cases h

theorem Pending.push {p : Program} {ws : List Waiting} (h : Pending p ws) {w : Waiting}
    (hw : ∀ site dest e, w = .within site (.cleanup dest (.fault e)) →
      ∃ x, site.instr? = some x ∧ e.Due p x) : Pending p (w :: ws) := by
  intro site dest e hmem
  rcases List.mem_cons.mp hmem with heq | hmem
  · exact hw site dest e heq.symm
  · exact h site dest e hmem

theorem Fault.Placed.dueTo {p : Program} {e : Fault} (h : e.Placed p) {f : Func}
    {ws : List Waiting} (hws : p.Waits f ws) : e.DueTo p ws := by
  cases hws with
  | nil => exact .inl h
  | caller _ hsite _ _ => exact ⟨_, hsite.instr, .inl h⟩
  | within hsite _ _ => exact ⟨_, hsite.instr, .inl h⟩

namespace State

variable {p : Program} {cfg : RunConfig} {s t : State} {x : Instr} {e : Fault} {stack : Stack}

/-- A fault at an instruction that can have raised it gets its place there. -/
theorem Facing.placed (h : s.Facing p x) (hp : p.Named) (he : e.Due p x) :
    (e.locate (s.location s.site.ip.toInt)).Placed p := by
  unfold Fault.locate
  rcases he with ⟨l, hplace, hl⟩ | ⟨hplace, hraises⟩
  · rw [hplace]
    exact ⟨l, hplace, hl⟩
  · have hname : (s.location s.site.ip.toInt).func ≠ "" := hp _ (Program.func?_eq_some h.defines).1
    rw [hplace, if_neg hname]
    obtain ⟨⟨k, hk, hcode⟩, hinstr⟩ := h.site
    obtain ⟨hip, hx⟩ := Site.instr?_eq_some_iff.mp hinstr
    refine ⟨_, rfl, s.frame.func, k, h.defines, hk, .inr ⟨s.site.ip.toInt.toNat, x, ?_, ?_, hraises⟩⟩
    · exact (Int.toNat_of_nonneg hip).symm
    · rw [hcode]
      exact hx

theorem attributed_of_running (hpend : Pending p s.stack.entries) (h : s.ended = none) :
    s.Attributed p :=
  ⟨fun e he => (by rw [h] at he; cases he), hpend⟩

theorem attributed_value (hpend : Pending p s.stack.entries) (v : Value) (exit : Exit) :
    (s.finish (.value v exit)).Attributed p :=
  ⟨fun _ he => (by cases he), hpend⟩

/-- A block that cannot be started is a fault of the instruction that wanted it. -/
theorem attributed_start {fr : Frame} {b : BlockId} {w : Waiting} {ws : List Waiting}
    (hstack : stack.entries = w :: ws) (hpend : Pending p stack.entries) (hx : w.instr? = some x)
    (hraises : x.raises .invalidBlock = true) : (s.start fr b stack).Attributed p := by
  unfold start
  split
  · exact attributed_of_running hpend rfl
  · refine ⟨fun e he => ?_, hpend⟩
    obtain rfl := Outcome.fault.inj (Option.some.inj he)
    show Fault.DueTo p _ stack.entries
    rw [hstack]
    exact ⟨x, hx, .inr ⟨rfl, hraises⟩⟩

theorem Facing.attributed_enter (h : s.Facing p x) (hpend : Pending p s.stack.entries)
    {after : After} (hx : x.Opens after)
    (hafter : ∀ dest e, after = .cleanup dest (.fault e) → e.Due p x) (b : BlockId) :
    (s.enter cfg b after).Attributed p := by
  obtain ⟨-, hblock, hdeep⟩ := Instr.Opens.raises hx
  have hpush : Pending p (s.stack.push (.within s.site after)).entries := by
    refine hpend.push fun site dest e heq => ?_
    obtain ⟨rfl, rfl⟩ := Waiting.within.inj heq
    exact ⟨x, h.site.instr, hafter dest e rfl⟩
  unfold State.enter
  dsimp only
  split
  · exact attributed_start rfl hpush h.site.instr hblock
  · refine ⟨fun e he => ?_, hpush⟩
    obtain rfl := Outcome.fault.inj (Option.some.inj he)
    exact ⟨x, h.site.instr, .inr ⟨rfl, hdeep⟩⟩

section
variable (h : s.Facing p x) (hp : p.Named) (hpend : Pending p s.stack.entries) {o : Outcome}
include h hp hpend

theorem Facing.attributed_fail (he : e.Due p x) : (s.fail e).Attributed p where
  ended e' he' := by
    obtain rfl : e.locate _ = e' := Outcome.fault.inj (Option.some.inj he')
    exact (h.placed hp he).dueTo h.waits
  pending := hpend

/-- What a block leaves behind for its register can always be missing. -/
theorem Facing.attributed_store (hx : x.isKnown = true) (dest : Reg) (v : Value) :
    (s.store dest v).Attributed p := by
  unfold State.store
  split
  · exact attributed_of_running hpend rfl
  · rename_i c hc
    exact h.attributed_fail hp hpend
      (.inr ⟨rfl, Machine.raises_register hx (Frame.kind_write dest v) c hc⟩)

theorem Facing.attributed_call (hx : x.isCall = true) {c : Callee} (hc : c.Overflows) {dest : Reg}
    (ht : s.call cfg c dest = .ok t) : t.Attributed p := by
  obtain ⟨hknown, hblock, hdeep⟩ := Instr.raises_of_isCall hx
  cases Machine.called ht with
  | tooDeep =>
    refine h.attributed_fail hp hpend (.inr ⟨rfl, ?_⟩)
    show x.raises (c.tooDeep s.depth).kind = true
    rwa [hc]
  | unbound _ _ hw =>
    exact h.attributed_fail hp hpend
      (.inr ⟨rfl, Machine.raises_register hknown (Frame.kind_writeAll _) _ hw⟩)
  | start =>
    exact attributed_start rfl (hpend.push fun _ _ _ h => by cases h) h.site.instr hblock

/-! ## The end of a block -/

theorem Facing.attributed_conclude (hx : x.isKnown = true) (dest : Reg)
    (ho : o.Due p x) : (Machine.conclude s dest o).Attributed p := by
  match o with
  | .fault e => exact h.attributed_fail hp hpend (ho e rfl)
  | .value v .ret => exact attributed_value hpend v .ret
  | .value v .yield => exact h.attributed_store hp hpend hx dest v

theorem Facing.attributed_cleanUp {dest : Reg} {g : Guard} (hx : x = .guarded dest g)
    (ho : o.Due p x) : (Machine.cleanUp cfg s dest g o).Attributed p := by
  unfold Machine.cleanUp
  split
  · exact h.attributed_conclude hp hpend (by rw [hx]; rfl) dest ho
  · rename_i hsome
    have hopens : x.Opens (.cleanup dest o) := ⟨g, hx, hsome⟩
    refine h.attributed_enter hpend hopens (fun dest' e heq => ?_) g.cleanup
    exact ho e (After.cleanup.inj heq).2

theorem Facing.attributed_handle {dest : Reg} {g : Guard} (hx : x = .guarded dest g)
    (ho : o.Due p x) : (Machine.handle cfg s dest g o).Attributed p := by
  unfold Machine.handle
  split
  · exact h.attributed_cleanUp hp hpend hx ho
  · split
    · exact h.attributed_cleanUp hp hpend hx ho
    · split
      · exact h.attributed_cleanUp hp hpend hx ho
      · split
        · rename_i c hc
          -- what was caught could not be written: a fault of the guarded section itself
          refine h.attributed_cleanUp hp hpend hx fun e he => ?_
          obtain rfl := Outcome.fault.inj he
          refine .inr ⟨rfl, Machine.raises_register (by rw [hx]; rfl) (Frame.kind_write _ _) c hc⟩
        · rename_i fr hw
          have hopens : x.Opens (.handler dest g) := hx
          exact (h.withFrame (Frame.func_write hw)).attributed_enter hpend hopens
            (fun _ _ h => by cases h) g.handler

theorem Facing.attributed_resume {after : After} (hx : x.Opens after)
    (hafter : ∀ dest o, after = .cleanup dest o → o.Due p x) (ho : o.Due p x) :
    (Machine.resume cfg s after o).Attributed p := by
  have hknown := (Instr.Opens.raises hx).1
  cases after with
  | arm dest => exact h.attributed_conclude hp hpend hknown dest ho
  | body dest g => exact h.attributed_handle hp hpend hx ho
  | handler dest g => exact h.attributed_cleanUp hp hpend hx ho
  | cleanup dest pending =>
    match o with
    | .value v .yield => exact h.attributed_conclude hp hpend hknown dest (hafter dest pending rfl)
    | .value v .ret => exact h.attributed_conclude hp hpend hknown dest ho
    | .fault e => exact h.attributed_conclude hp hpend hknown dest ho

end

/-- What has ended is due to whoever waits for it. -/
theorem Attributed.due (h : s.Attributed p) {o : Outcome} (ho : s.ended = some o) {w : Waiting}
    (hpop : s.stack.pop? = some (w, stack)) (hx : w.instr? = some x) : o.Due p x := by
  rintro e rfl
  have hdue := h.ended e ho
  rw [Stack.entries_of_pop? hpop] at hdue
  obtain ⟨y, hy, hdue⟩ := hdue
  rwa [← Option.some.inj (hy.symm.trans hx)]

theorem Attributed.below (h : s.Attributed p) {w : Waiting}
    (hpop : s.stack.pop? = some (w, stack)) : Pending p stack.entries := by
  have hpend := h.pending
  rw [Stack.entries_of_pop? hpop] at hpend
  exact fun site dest e hmem => hpend site dest e (List.mem_cons_of_mem w hmem)

end State

/-! ## Steps and runs -/

namespace Machine

variable {p : Program} {cfg : RunConfig} {s t : State} {x : Instr}

theorem attributed_execute (hp : p.Named) (hs : s.Sited p) (h : s.Attributed p)
    (hrunning : s.ended = none) (hx : s.site.instr? = some x)
    (ht : Executed cfg p s x t) : t.Attributed p := by
  have hfacing := hs.facing hrunning hx
  cases ht with
  | @fail w c hp' =>
    have hraises : AllFail (perform cfg.runner p s.frame s.world x).2 (x.raises ·.kind = true) :=
      raises_of_perform cfg.runner s.world x
    exact (hfacing w).attributed_fail hp h.pending (.inr ⟨rfl, hraises c (by rw [hp'])⟩)
  | next => exact State.attributed_of_running h.pending rfl
  | @leave w v exit => exact State.attributed_value (s := { s with world := w }) h.pending v exit
  | @enter w b after _ ha =>
    obtain ⟨hopens, hne⟩ := wants_of_mayAsk ha
    refine (hfacing w).attributed_enter h.pending hopens (fun dest e heq => ?_) b
    exact absurd heq (hne dest (.fault e))
  | @call w _ _ _ _ ha ht =>
    obtain ⟨-, hcall, hc⟩ := wants_of_mayAsk ha
    exact (hfacing w).attributed_call hp h.pending hcall hc ht

theorem attributed_unwind (hp : p.Named) (hs : s.Sited p) (h : s.Attributed p) {o : Outcome}
    (ho : s.ended = some o) (ht : Unwound cfg s o t) : t.Attributed p := by
  cases ht with
  | fail hpop =>
    obtain ⟨x, hx, hfacing⟩ := hs.caller hpop
    exact hfacing.attributed_fail hp (h.below hpop) (h.due ho hpop hfacing.site.instr _ rfl)
  | store hpop =>
    obtain ⟨x, hx, hfacing⟩ := hs.caller hpop
    exact hfacing.attributed_store hp (h.below hpop) (Instr.raises_of_isCall hx).1 _ _
  | @resume site after stack _ hpop =>
    obtain ⟨x, hx, hfacing⟩ := hs.within hpop
    refine hfacing.attributed_resume hp (h.below hpop) hx ?_ (h.due ho hpop hfacing.site.instr)
    rintro dest pending rfl e rfl
    have hmem : .within site (.cleanup dest (.fault e)) ∈ s.stack.entries := by
      rw [Stack.entries_of_pop? hpop]
      exact List.mem_cons_self
    obtain ⟨y, hy, hdue⟩ := h.pending site dest e hmem
    rwa [← Option.some.inj (hy.symm.trans hfacing.site.instr)]

/-- A step keeps every fault due or placed. -/
theorem attributed_step (hp : p.Named) (hs : s.Sited p) (h : s.Attributed p)
    (ht : step cfg p s = .state t) : t.Attributed p := by
  cases stepped ht with
  | unwind ho ht => exact attributed_unwind hp hs h ho ht
  | execute hrunning hx ht => exact attributed_execute hp hs h hrunning hx ht
  | runOff hrunning =>
    refine ⟨fun e he => ?_, h.pending⟩
    obtain rfl := Outcome.fault.inj (Option.some.inj he)
    refine Fault.Placed.dueTo ?_ hs.waits
    obtain ⟨k, hk, hcode⟩ := hs.site hrunning
    have hname : s.frame.func.name ≠ "" := hp _ (Program.func?_eq_some hs.defines).1
    refine ⟨s.location s.site.code.size, ?_, s.frame.func, k, hs.defines, hk, .inl ⟨?_, ?_⟩⟩
    · show (if s.frame.func.name = "" then _ else _ : Fault).place = _
      rw [if_neg hname]
    · rw [hcode]
      rfl
    · exact Fault.locate_cause _ _

theorem attributed_initial (h : initial p = .ok (.ok s)) : s.Attributed p := by
  obtain ⟨f, fr, fr', site, hf, -, -, rfl, rfl⟩ := initial_eq_ok h
  unfold State.start
  split
  · exact State.attributed_of_running (pending_nil p) rfl
  · rename_i hblock
    refine ⟨fun e he => ?_, pending_nil p⟩
    obtain rfl := Outcome.fault.inj (Option.some.inj he)
    exact .inr ⟨rfl, .inr ⟨_, hf, .inl hblock⟩⟩

theorem stack_of_halt {w : World} {o : Outcome} (h : step cfg p s = .halt w o) :
    s.stack.entries = [] := by
  rw [step_ended (ended_of_halt h)] at h
  unfold unwind at h
  rcases hpop : s.stack.pop? with _ | ⟨⟨fr, site, dest⟩ | ⟨site, after⟩, stack⟩ <;> rw [hpop] at h
  · exact (Stack.pop?_eq_none_iff _).mp hpop
  · cases o <;> cases h
  · cases h

theorem attributed_reachable (hp : p.Named) (h : Reachable cfg p s) : s.Attributed p := by
  induction h with
  | initial h => exact attributed_initial h
  | step hs ht ih => exact attributed_step hp (sited_reachable hs) ih ht

/-- If the main function cannot get its arguments, one of its parameters has no register. -/
theorem unenterable_of_initial {c : Cause} (h : initial p = .ok (.error c)) : p.Unenterable := by
  unfold initial at h
  split at h
  · rename_i hnone
    exact .inl hnone
  · rename_i f hf
    obtain ⟨fr, hnew, h⟩ := bind_eq_ok_iff.mp h
    split at h
    · rename_i e he
      obtain ⟨-, rfl⟩ := Frame.new_eq_ok_iff.mp hnew
      obtain ⟨b, hb, hout⟩ := Frame.writeAll_eq_error he
      have hr := List.mem_map_of_mem (f := (·.1)) hb
      rw [map_fst_bindArgs] at hr
      refine .inr ⟨f, hf, .inr ⟨b.1, hr, fun hin => hout ?_⟩⟩
      rw [Array.size_replicate]
      unfold Func.InRange at hin
      omega
    · cases h

/-- The fault that a program ends with has no place only if the main function could not be entered.
Else its place is in a function and a block of the program, and the instruction there can raise a fault
of its class itself; only the fault of a block that is not terminated has its place at the end of the
block. -/
theorem explains_of_main (fs : List Func) (hnames : ∀ f ∈ fs, f.name ≠ "") (cfg : RunConfig)
    {e : Fault} (h : (main cfg (fs.foldl Program.add {})).ending = .fault e) :
    e.place = none ∧ (fs.foldl Program.add {}).Unenterable ∨
      ∃ l, e.place = some l ∧ (fs.foldl Program.add {}).Explains e l := by
  have hp := Program.named_foldl hnames
  unfold main at h
  split at h
  · cases h
  · rename_i c hinit
    obtain rfl := Ending.fault.inj h
    exact .inl ⟨rfl, unenterable_of_initial hinit⟩
  · rename_i s hinit
    cases hrun : s.run cfg (fs.foldl Program.add {}) with
    | none =>
      rw [hrun] at h
      cases h
    | some r =>
      rw [hrun, Option.getD_some] at h
      obtain ⟨t, ht, ⟨w, o, hstep, rfl⟩ | ⟨w, c, -, rfl⟩⟩ := exists_last_of_run (.initial hinit) hrun
      · cases o with
        | value v exit => cases h
        | fault f =>
          obtain rfl := Ending.fault.inj h
          have hdue := (attributed_reachable hp ht).ended f (ended_of_halt hstep)
          rw [stack_of_halt hstep] at hdue
          exact hdue.symm
      · cases h

/-- A call in a guarded section that has a cleanup, and the function that it calls, which divides
null. -/
def callsHalf : List Func :=
  [{ name := mainName
     blocks := #[⟨⟨0⟩, #[.guarded ⟨0⟩ ⟨⟨1⟩, .none, .none, ⟨2⟩⟩, .leave .ret (.reg ⟨0⟩)]⟩,
       ⟨⟨1⟩, #[.call ⟨1⟩ "half" [], .leave .yield (.reg ⟨1⟩)]⟩,
       ⟨⟨2⟩, #[.leave .yield .null]⟩]
     numRegs := 2 },
   { name := "half"
     blocks := #[⟨⟨0⟩, #[.binary (.arith .div) ⟨0⟩ .null (.int 2), .leave .ret (.reg ⟨0⟩)]⟩]
     numRegs := 1 }]

/-- What is wrong with the division, and where it stands. -/
def halfFault : Fault := ⟨.mismatch .null "/" .int, some ⟨"half", ⟨0⟩, 0⟩⟩

theorem callsHalf_explains : (∀ f ∈ callsHalf, f.name ≠ "") ∧
    (main .shallow (callsHalf.foldl Program.add {})).ending = .fault halfFault ∧
      (halfFault.place = none ∧ (callsHalf.foldl Program.add {}).Unenterable ∨
        ∃ l, halfFault.place = some l ∧ (callsHalf.foldl Program.add {}).Explains halfFault l) := by
  have hnames : ∀ f ∈ callsHalf, f.name ≠ "" := by decide
  have hmain : main .shallow (callsHalf.foldl Program.add {}) = .ofOutcome {} (.fault halfFault) := by
    refine main_of_ends rfl ?_
    exact .step rfl (.step rfl (.step rfl (.step rfl (.step rfl (.step rfl (.step rfl (.halt rfl)))))))
  have hending : (main .shallow (callsHalf.foldl Program.add {})).ending = .fault halfFault := by
    rw [hmain]
    rfl
  exact ⟨hnames, hending, explains_of_main callsHalf hnames .shallow hending⟩

end Machine

end ScriptMachine
