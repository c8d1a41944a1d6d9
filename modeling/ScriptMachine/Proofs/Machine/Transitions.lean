import ScriptMachine.Proofs.Machine.Frames
import ScriptMachine.Proofs.Machine.Raised
import ScriptMachine.Proofs.Programs

/-!
# What a step can do

The functions of the machine by the states that they may lead to, with one case for each way.
Invariants of runs go through these cases.

1. `Instr.MayAsk` has the actions that an instruction may ask for, whatever its operands are.
2. `Executed`, `Unwound` and `Stepped` have the states behind an instruction, behind the end of a
   block, and behind a step.
-/

namespace ScriptMachine

/-- The instruction at a site; a negative index is that of none. -/
def Site.instr? (site : Site) : Option Instr :=
  if site.ip.toInt < 0 then none else site.code[site.ip.toInt.toNat]?

theorem Site.instr?_eq_some_iff {site : Site} {x : Instr} : site.instr? = some x ↔
    0 ≤ site.ip.toInt ∧ site.code[site.ip.toInt.toNat]? = some x := by
  unfold instr?
  split
  · simp; omega
  · simp; omega

theorem Stack.entries_of_pop? {k j : Stack} {w : Waiting} (h : k.pop? = some (w, j)) :
    k.entries = w :: j.entries := by
  rw [(pop?_eq_some_iff _ _ _).mp h, entries_push]

namespace Instr

/-- Whether an instruction makes calls. -/
def isCall : Instr → Bool
  | call .. | closureCall .. => true
  | _ => false

/-- An instruction that writes its register and goes on to the next one. -/
def Straight : Instr → Prop
  | leave .. | stray _ | circuit .. | dispatch .. | guarded .. => False
  | _ => True

theorem straight_of_isCall {x : Instr} (h : x.isCall = true) : x.Straight := by
  cases x with
  | call | closureCall => trivial
  | _ => cases h

end Instr

/-- A call that is too deep overflows the stack. -/
def Callee.Overflows (c : Callee) : Prop := ∀ n, (c.tooDeep n).kind = .stackOverflow

/-! ## Instructions -/

/-- What an instruction may ask for. -/
inductive Instr.MayAsk (p : Program) (fr : Frame) : Instr → Action → Prop
  | write {x fr' v} (hx : x.Straight) (hw : fr.write x.out v = .ok fr') :
      MayAsk p fr x (.next fr' 0)
  | call {x c} (hx : x.isCall = true) (hdef : p.Defines c.func) (hc : c.Overflows) :
      MayAsk p fr x (.call c x.out)
  | circuit {kind dest left right skip fr' d} (hd : d = 0 ∨ d = skip)
      (hfr : fr' = fr ∨ ∃ v, fr.write dest v = .ok fr') :
      MayAsk p fr (.circuit kind dest left right skip) (.next fr' d)
  | pass {dest v arms default fr'} (hw : fr.write dest .null = .ok fr') :
      MayAsk p fr (.dispatch dest v arms default) (.next fr' 0)
  | arm {dest v arms default c} (hc : c ∈ default :: arms.map (·.block)) (hne : c ≠ .none) :
      MayAsk p fr (.dispatch dest v arms default) (.enter c (.arm dest))
  | body {dest g} : MayAsk p fr (.guarded dest g) (.enter g.body (.body dest g))
  | leave {how v u exit} : MayAsk p fr (.leave how v) (.leave u exit)

namespace Machine

variable {p : Program} {fr : Frame}

theorem allGive_calleeNamed (name : String) (vs : List Value) :
    AllGive (calleeNamed p name vs) fun c => p.Defines c.func ∧ c.Overflows := by
  unfold calleeNamed
  split
  · exact allGive_error
  · rename_i f hf
    exact allGive_ok ⟨Program.defines_of_func? hf, fun n => rfl⟩

theorem allGive_callHeld (r : Reg) (args : List Value) :
    AllGive (callHeld p fr r args) fun c => p.Defines c.func ∧ c.Overflows := by
  unfold callHeld
  split
  · exact allGive_error
  · refine allGive_bind fun vs _ => ?_
    unfold callee
    split
    · unfold calleeClosure
      split
      · exact allGive_error
      · rename_i f hf
        exact allGive_ok ⟨Program.defines_of_func? hf, fun n => rfl⟩
    · exact allGive_calleeNamed _ vs
    · exact allGive_error

theorem mem_chooseArm (v : Value) (default : BlockId) (arms : List Arm) :
    AllGive (chooseArm fr v default arms) (· ∈ default :: arms.map (·.block)) := by
  induction arms with
  | nil => exact allGive_ok (by simp)
  | cons a as ih =>
    rw [chooseArm]
    refine allGive_bind fun u _ => ?_
    split
    · exact allGive_ok (by simp)
    · intro c hc
      have := ih c hc
      simp only [List.map_cons, List.mem_cons] at this ⊢
      tauto

theorem allGive_finish (dest : Reg) (v : Value) : AllGive (finish fr dest v) fun a =>
    ∃ fr', fr.write dest v = .ok fr' ∧ a = .next fr' 0 := by
  unfold finish
  exact allGive_map fun fr' hw => ⟨fr', hw, rfl⟩

theorem mayAsk_finish (p : Program) (fr : Frame) (x : Instr) (hx : x.Straight) (v : Value) :
    AllGive (finish fr x.out v) (x.MayAsk p fr) := by
  refine (allGive_finish x.out v).mono ?_
  rintro a ⟨fr', hw, rfl⟩
  exact .write hx hw

theorem mayAsk_circuit (kind : Circuit) (dest : Reg) (left right : Value) (skip : Int64) :
    AllGive (circuit fr kind dest left right skip)
      ((Instr.circuit kind dest left right skip).MayAsk p fr) := by
  unfold circuit
  refine allGive_bind fun l _ => ?_
  split
  · exact allGive_bind fun fr' hw => allGive_ok (.circuit (.inr rfl) (.inr ⟨_, hw⟩))
  · split
    · exact allGive_ok (.circuit (.inl rfl) (.inl rfl))
    · refine (allGive_finish dest _).mono ?_
      rintro a ⟨fr', hw, rfl⟩
      exact .circuit (.inl rfl) (.inr ⟨_, hw⟩)

theorem mayAsk_perform (runner : Option Runner) (w : World) (x : Instr) :
    AllGive (perform runner p fr w x).2 (x.MayAsk p fr) := by
  have hfinish := mayAsk_finish p fr x
  cases x with
  | binary | regex =>
    exact allGive_bind fun u _ => allGive_bind fun v _ => allGive_bind fun y _ =>
      hfinish trivial y
  | load | move | closureCreate | command =>
    exact allGive_bind fun y _ => hfinish trivial y
  | circuit kind dest left right skip => exact mayAsk_circuit kind dest left right skip
  | call dest func args =>
    refine allGive_bind fun vs _ => (allGive_calleeNamed func vs).bind fun c hc => ?_
    exact allGive_ok (.call rfl hc.1 hc.2)
  | closureCall dest r args =>
    exact (allGive_callHeld r args).bind fun c hc => allGive_ok (.call rfl hc.1 hc.2)
  | dispatch dest scrutinee arms default =>
    refine allGive_bind fun v _ => (mem_chooseArm v default arms).bind fun c hc => ?_
    split
    · refine (allGive_finish dest _).mono ?_
      rintro a ⟨fr', hw, rfl⟩
      exact .pass hw
    · rename_i hne
      exact allGive_ok (.arm hc hne)
  | guarded dest g => exact allGive_ok .body
  | leave how v =>
    refine allGive_bind fun u _ => ?_
    cases how with
    | throw => exact allGive_error
    | _ => exact allGive_ok .leave
  | stray what => exact allGive_error

/-! ## Steps -/

variable {cfg : RunConfig} {s t : State} {x : Instr}

/-- The states behind an instruction. -/
inductive Executed (cfg : RunConfig) (p : Program) (s : State) (x : Instr) : State → Prop
  | fail {w c} (hp : perform cfg.runner p s.frame s.world x = (w, .error c)) :
      Executed cfg p s x ({ s with world := w }.fail { cause := c })
  | next {w fr skip} (hp : perform cfg.runner p s.frame s.world x = (w, .ok (.next fr skip)))
      (ha : x.MayAsk p s.frame (.next fr skip)) :
      Executed cfg p s x ({ s with world := w }.advance fr skip)
  | leave {w v exit} (hp : perform cfg.runner p s.frame s.world x = (w, .ok (.leave v exit))) :
      Executed cfg p s x ({ s with world := w }.finish (.value v exit))
  | enter {w b after} (hp : perform cfg.runner p s.frame s.world x = (w, .ok (.enter b after)))
      (ha : x.MayAsk p s.frame (.enter b after)) :
      Executed cfg p s x ({ s with world := w }.enter cfg b after)
  | call {w c dest} {t : State} (hp : perform cfg.runner p s.frame s.world x = (w, .ok (.call c dest)))
      (ha : x.MayAsk p s.frame (.call c dest)) (ht : { s with world := w }.call cfg c dest = .ok t) :
      Executed cfg p s x t

theorem executed (h : execute cfg p s x = .state t) : Executed cfg p s x t := by
  have hmay : AllGive (perform cfg.runner p s.frame s.world x).2 (x.MayAsk p s.frame) :=
    mayAsk_perform cfg.runner s.world x
  unfold execute at h
  cases hp : perform cfg.runner p s.frame s.world x with
  | mk w result =>
    rw [hp] at h hmay
    cases result with
    | error c =>
      obtain rfl := Next.state.inj h
      exact .fail hp
    | ok action =>
      have ha := hmay action rfl
      cases action with
      | next fr skip =>
        obtain rfl := Next.state.inj h
        exact .next hp ha
      | leave v exit =>
        obtain rfl := Next.state.inj h
        exact .leave hp
      | enter b after =>
        obtain rfl := Next.state.inj h
        exact .enter hp ha
      | call c dest =>
        dsimp only at h
        split at h
        · rename_i u hu
          obtain rfl := Next.state.inj h
          exact .call hp ha hu
        · cases h

/-- The states in which the outcome of a block is given to whoever waits for it. -/
inductive Unwound (cfg : RunConfig) (s : State) : Outcome → State → Prop
  | fail {fr site dest stack f} (hpop : s.stack.pop? = some (.caller fr site dest, stack)) :
      Unwound cfg s (.fault f) ({ s with frame := fr, site, stack, ended := none }.fail f)
  | store {fr site dest stack v exit}
      (hpop : s.stack.pop? = some (.caller fr site dest, stack)) : Unwound cfg s (.value v exit)
        ({ s with frame := fr, site, stack, ended := none }.store dest v)
  | resume {site after stack o} (hpop : s.stack.pop? = some (.within site after, stack)) :
      Unwound cfg s o (resume cfg { s with site, stack, ended := none } after o)

theorem unwound {o : Outcome} (h : unwind cfg s o = .state t) : Unwound cfg s o t := by
  unfold unwind at h
  rcases hpop : s.stack.pop? with _ | ⟨⟨fr, site, dest⟩ | ⟨site, after⟩, stack⟩ <;> rw [hpop] at h
  · cases h
  · cases o <;> obtain rfl := Next.state.inj h
    · exact .store hpop
    · exact .fail hpop
  · obtain rfl := Next.state.inj h
    exact .resume hpop

/-- A running machine crashes at a negative index, runs off its block, or runs an instruction. -/
theorem step_running (h : s.ended = none) : step cfg p s =
    if s.site.ip.toInt < 0 then .crash s.world (.indexOutside s.site.ip.toInt)
    else match s.site.instr? with
      | some x => execute cfg p s x
      | none => .state (s.finish (.fault
          (Fault.locate (s.location s.site.code.size) { cause := .unterminated }))) := by
  unfold step Site.instr?
  rw [h]
  dsimp only
  split
  · rfl
  · rfl

theorem step_ended {o : Outcome} (h : s.ended = some o) : step cfg p s = unwind cfg s o := by
  unfold step
  rw [h]

/-- The states behind a step. -/
inductive Stepped (cfg : RunConfig) (p : Program) (s : State) : State → Prop
  | unwind {o : Outcome} {t : State} (ho : s.ended = some o) (h : Unwound cfg s o t) :
      Stepped cfg p s t
  | execute {x : Instr} {t : State} (hrunning : s.ended = none) (hx : s.site.instr? = some x)
      (h : Executed cfg p s x t) : Stepped cfg p s t
  | runOff (hrunning : s.ended = none) (hip : 0 ≤ s.site.ip.toInt) (hx : s.site.instr? = none) :
      Stepped cfg p s (s.finish (.fault
        (Fault.locate (s.location s.site.code.size) { cause := .unterminated })))

theorem stepped (h : step cfg p s = .state t) : Stepped cfg p s t := by
  cases hended : s.ended with
  | some o =>
    rw [step_ended hended] at h
    exact .unwind hended (unwound h)
  | none =>
    rw [step_running hended] at h
    split at h
    · cases h
    · rename_i hip
      cases hx : s.site.instr? with
      | some x =>
        rw [hx] at h
        exact .execute hended hx (executed h)
      | none =>
        rw [hx] at h
        obtain rfl := Next.state.inj h
        exact .runOff hended (not_lt.mp hip) hx

/-! ## Calls -/

/-- The states behind a call. -/
inductive Called (cfg : RunConfig) (s : State) (c : Callee) (dest : Reg) : State → Prop
  | tooDeep (hdepth : cfg.maxDepth ≤ s.depth) :
      Called cfg s c dest (s.fail { cause := c.tooDeep s.depth })
  | unbound {fr e} (hdepth : ¬ cfg.maxDepth ≤ s.depth) (hnew : Frame.new c.func = .ok fr)
      (hw : fr.writeAll c.binds = .error e) : Called cfg s c dest (s.fail { cause := e })
  | start {fr fr'} (hdepth : ¬ cfg.maxDepth ≤ s.depth) (hnew : Frame.new c.func = .ok fr)
      (hw : fr.writeAll c.binds = .ok fr') (hfunc : fr'.func = c.func) :
      Called cfg s c dest (s.start fr' c.start (s.stack.push (.caller s.frame s.site dest)))

/-- A frame keeps its function while its arguments are set. -/
theorem func_of_new {f : Func} {fr' : Frame} (hnew : Frame.new f = .ok fr)
    {binds : List (Reg × Value)} (hw : fr.writeAll binds = .ok fr') : fr'.func = f := by
  rw [Frame.func_writeAll hw, (Frame.new_eq_ok_iff.mp hnew).2]

theorem called {c : Callee} {dest : Reg} (h : s.call cfg c dest = .ok t) :
    Called cfg s c dest t := by
  unfold State.call at h
  split at h
  · rename_i hdepth
    obtain rfl := Except.ok.inj h
    exact .tooDeep hdepth
  · rename_i hdepth
    obtain ⟨fr, hnew, h⟩ := bind_eq_ok_iff.mp h
    split at h
    · rename_i e hw
      obtain rfl := Except.ok.inj h
      exact .unbound hdepth hnew hw
    · rename_i fr' hw
      obtain rfl := Except.ok.inj h
      exact .start hdepth hnew hw (func_of_new hnew hw)

theorem initial_eq_ok (h : initial p = .ok (.ok s)) : ∃ f fr fr' site, p.main? = some f ∧
    Frame.new f = .ok fr ∧ fr.writeAll (bindArgs f.paramRegs []) = .ok fr' ∧ fr'.func = f ∧
      s = State.start { frame := fr', site } fr' f.entry {} := by
  unfold initial at h
  split at h
  · cases h
  · rename_i f hf
    obtain ⟨fr, hnew, h⟩ := bind_eq_ok_iff.mp h
    split at h
    · cases h
    · rename_i fr' hw
      exact ⟨f, fr, fr', _, hf, hnew, hw, func_of_new hnew hw,
        (Except.ok.inj (Except.ok.inj h)).symm⟩

end Machine

end ScriptMachine
