import ScriptMachine.Proofs.Lowering.Onward
import ScriptMachine.Proofs.Machine.Sites
import ScriptMachine.Proofs.Renaming.Lockstep

/-!
# Code that is confined to registers

`Confined g W b i j` follows the code of block `b` of `g` from the index `i` to the index `j`: whatever
it does, in blocks that it enters or after a skip, of the registers of its frame it writes only those in
`W`.

1. The machine comes through such code to its end, or ends the block before, and in its frame all other
   registers are as they were (`Confined.comes`). On the way everything below its own stack stays. The
   proof is by induction on the code; blocks of other frames come to their ends by assumption.
2. If all blocks of a program can be followed, each block that is started comes to its end
   (`Machine.callsEnd`). The induction is on the depth that is left.
-/

namespace ScriptMachine

/-! ## Outcomes -/

namespace Outcome

/-- Whether a block hands its value to the instruction that entered it. -/
def isYield : Outcome → Bool
  | value _ .yield => true
  | _ => false

/-- A fault keeps its place in whatever block of the function it is handed on. -/
def Fixed (name : String) (o : Outcome) : Prop :=
  ∀ f, o = .fault f → ∀ l : Location, l.func = name → f.locate l = f

theorem fixed_value (name : String) (v : Value) (exit : Exit) : (value v exit).Fixed name :=
  fun _ h => by cases h

theorem fixed_locate (f : Fault) {l : Location} {name : String} (hl : l.func = name) :
    (fault (f.locate l)).Fixed name := by
  intro f' hf l' hl'
  obtain rfl := Outcome.fault.inj hf
  unfold Fault.locate
  cases hp : f.place with
  | some q => simp [hp]
  | none =>
    by_cases hname : name = ""
    · simp [hp, hl, hl', hname]
    · simp [hl, hname]

end Outcome

/-! ## Code -/

/-- The code of a block from one index to another, which writes only the registers in `W`. -/
inductive Confined (g : Func) (W : Set Reg) : BlockId → Nat → Nat → Prop
  | stop {b i} : Confined g W b i i
  | leave {b i j how v} (hx : (g.code b)[i]? = some (.leave how v)) (hij : i < j) : Confined g W b i j
  | straight {b i j x} (hx : (g.code b)[i]? = some x) (hs : x.Straight) (hout : x.out ∈ W)
      (next : Confined g W b (i + 1) j) : Confined g W b i j
  | circuit {b i j l kind dest left right}
      (hx : (g.code b)[i]? = some (.circuit kind dest left right (Int64.ofNat (l - (i + 1)))))
      (hil : i < l) (hdest : dest ∈ W) (next : Confined g W b (i + 1) j)
      (skip : Confined g W b l j) : Confined g W b i j
  | dispatch {b i j dest v arms default} (hx : (g.code b)[i]? = some (.dispatch dest v arms default))
      (sub : ∀ c ∈ default :: arms.map (·.block), c ≠ .none → Confined g W c 0 (g.code c).length)
      (hdest : dest ∈ W) (next : Confined g W b (i + 1) j) : Confined g W b i j
  | guarded {b i j dest gd} (hx : (g.code b)[i]? = some (.guarded dest gd))
      (body : Confined g W gd.body 0 (g.code gd.body).length)
      (hcaught : gd.handler ≠ .none → gd.caught ∈ W)
      (handler : gd.handler ≠ .none → Confined g W gd.handler 0 (g.code gd.handler).length)
      (cleanup : gd.cleanup ≠ .none → Confined g W gd.cleanup 0 (g.code gd.cleanup).length)
      (hdest : dest ∈ W) (next : Confined g W b (i + 1) j) : Confined g W b i j

namespace Machine

variable {cfg : RunConfig} {p : Program} {P P' Q R : State → Prop} {s t u : State}

/-! ## Ways of the machine -/

/-- The machine comes from one state to another, and has `P` all the way. -/
inductive Through (cfg : RunConfig) (p : Program) (P : State → Prop) : State → State → Prop
  | refl {s : State} (h : P s) : Through cfg p P s s
  | step {s t u : State} (h : P s) (hstep : step cfg p s = .state t) (ht : Through cfg p P t u) :
      Through cfg p P s u

namespace Through

theorem trans (h : Through cfg p P s t) (h' : Through cfg p P t u) : Through cfg p P s u := by
  induction h with
  | refl => exact h'
  | step hP hstep _ ih => exact .step hP hstep (ih h')

theorem mono (h : Through cfg p P s t) (hP : ∀ u, P u → P' u) : Through cfg p P' s t := by
  induction h with
  | refl h => exact .refl (hP _ h)
  | step h hstep _ ih => exact .step (hP _ h) hstep ih

theorem reachable (h : Through cfg p P s t) (hs : Reachable cfg p s) : Reachable cfg p t := by
  induction h with
  | refl => exact hs
  | step _ hstep _ ih => exact ih (.step hs hstep)

end Through

/-- The machine comes to a state with `Q`, and has `P` all the way. -/
def Comes (cfg : RunConfig) (p : Program) (P Q : State → Prop) (s : State) : Prop :=
  ∃ t, Through cfg p P s t ∧ Q t

namespace Comes

theorem here (hP : P s) (hQ : Q s) : Comes cfg p P Q s := ⟨s, .refl hP, hQ⟩

theorem step (hP : P s) (hstep : Machine.step cfg p s = .state t) (h : Comes cfg p P Q t) :
    Comes cfg p P Q s := by
  obtain ⟨u, hu, hQ⟩ := h
  exact ⟨u, .step hP hstep hu, hQ⟩

theorem trans (h : Comes cfg p P Q s) (hQ : ∀ t, Q t → Comes cfg p P R t) : Comes cfg p P R s := by
  obtain ⟨t, ht, hq⟩ := h
  obtain ⟨u, hu, hr⟩ := hQ t hq
  exact ⟨u, ht.trans hu, hr⟩

theorem mono (h : Comes cfg p P Q s) (hP : ∀ t, P t → P' t) (hQ : ∀ t, Q t → R t) :
    Comes cfg p P' R s := by
  obtain ⟨t, ht, hq⟩ := h
  exact ⟨t, ht.mono hP, hQ t hq⟩

end Comes

/-- All that waits in `k` waits still, below whatever was entered since. -/
def Above (k : Stack) (s : State) : Prop := k.entries <:+ s.stack.entries

theorem above_of_eq {k : Stack} (h : s.stack = k) : Above k s := h ▸ List.suffix_refl _

theorem Above.of_push {k : Stack} {w : Waiting} (h : Above (k.push w) s) : Above k s :=
  (List.suffix_cons w k.entries).trans h

/-! ## One instruction -/

variable {g : Func} {W : Set Reg} {b c : BlockId} {i j : Nat} {fr fr' : Frame} {k : Stack} {w w' : World}
  {x : Instr}

theorem step_within {after : After} {o : Outcome} (ho : t.ended = some o)
    (hstack : t.stack = k.push (.within ⟨b, (g.code b).toArray, Int64.ofNat i⟩ after)) :
    step cfg p t = .state (resume cfg (.inCode g b i t.frame k t.world) after o) := by
  rw [step_ended ho, unwind, hstack, Stack.pop?_push]
  rfl

/-- The instruction at an index is done: it has ended its block, or the machine stands behind it. -/
structure Passed (g : Func) (W : Set Reg) (b : BlockId) (i : Nat) (fr : Frame) (k : Stack) (t : State) :
    Prop where
  frame : fr.Spares W t.frame
  stack : t.stack = k
  goes : (∃ o, t.ended = some o ∧ o.Fixed g.name ∧ o.isYield = false) ∨
    ∃ w, t = .inCode g b (i + 1) t.frame k w

theorem passed_fail (hfr : fr.Spares W fr') (hg : fr.func = g) (f : Fault) :
    Passed g W b i fr k ((State.inCode g b i fr' k w).fail f) where
  frame := hfr
  stack := rfl
  goes := .inl ⟨_, rfl, Outcome.fixed_locate f (by rw [← hg, ← hfr.func]; rfl), rfl⟩

theorem passed_store (hfr : fr.Spares W fr') (hg : fr.func = g) {dest : Reg} (hdest : dest ∈ W)
    (v : Value) : Passed g W b i fr k ((State.inCode g b i fr' k w).store dest v) := by
  unfold State.store
  cases hw : (State.inCode g b i fr' k w).frame.write dest v with
  | error e => exact passed_fail hfr hg _
  | ok fr'' =>
    refine ⟨hfr.write hdest hw, rfl, .inr ⟨w, ?_⟩⟩
    simp only [State.advance, State.inCode, Int64.ofNat_add, Int64.add_zero]
    rfl

theorem passed_conclude (hfr : fr.Spares W fr') (hg : fr.func = g) {dest : Reg} (hdest : dest ∈ W)
    (o : Outcome) : Passed g W b i fr k (conclude (.inCode g b i fr' k w) dest o) := by
  match o with
  | .fault f => exact passed_fail hfr hg f
  | .value v .ret => exact ⟨hfr, rfl, .inl ⟨_, rfl, Outcome.fixed_value _ v .ret, rfl⟩⟩
  | .value v .yield => exact passed_store hfr hg hdest v

/-! ## Blocks -/

/-- The code of a block up to an index is done: it has ended its block, or the machine stands at that
index. If it yields, there is an instruction for it in that code. -/
structure Landed (g : Func) (W : Set Reg) (b : BlockId) (j : Nat) (fr : Frame) (k : Stack) (t : State) :
    Prop where
  frame : fr.Spares W t.frame
  stack : t.stack = k
  goes : (∃ o, t.ended = some o ∧ o.Fixed g.name ∧ (o.isYield = true →
      ∃ l < j, ∃ v, (g.code b)[l]? = some (.leave .yield v))) ∨ ∃ w, t = .inCode g b j t.frame k w

theorem Landed.after (h : Landed g W b j fr' k t) (hfr : fr.Spares W fr') : Landed g W b j fr k t :=
  { h with frame := hfr.trans h.frame }

theorem landed_fail (hg : fr.func = g) (f : Fault) :
    Landed g W b j fr k ((State.inCode g b i fr k w).fail f) where
  frame := .refl W fr
  stack := rfl
  goes := .inl ⟨_, rfl, Outcome.fixed_locate f (by rw [← hg]; rfl), fun h => by cases h⟩

/-- A block has ended on top of a stack. -/
structure Closed (W : Set Reg) (fr : Frame) (k : Stack) (t : State) : Prop where
  frame : fr.Spares W t.frame
  stack : t.stack = k
  ended : t.ended.isSome

/-- Behind its last instruction a block ends with a fault. -/
theorem step_behind (hlen : (g.code b).length < codeLimit) :
    step cfg p (.inCode g b (g.code b).length fr k w) =
      .state ((State.inCode g b (g.code b).length fr k w).finish (.fault
        (Fault.locate ⟨fr.func.name, b, (g.code b).length⟩ { cause := .unterminated }))) := by
  have hlimit := codeLimit_eq
  have hip : (Int64.ofNat (g.code b).length).toInt = (g.code b).length :=
    Int64.toInt_ofNat_of_lt (by omega)
  rw [step_running rfl]
  simp [State.inCode, State.location, Site.instr?, hip]

theorem comes_closed (hlen : (g.code b).length < codeLimit)
    (h : Comes cfg p (Above k) (Landed g W b (g.code b).length fr k) s) :
    Comes cfg p (Above k) (Closed W fr k) s := by
  refine h.trans fun t ht => ?_
  rcases ht.goes with ⟨o, ho, -, -⟩ | ⟨w, hw⟩
  · exact .here (above_of_eq ht.stack) ⟨ht.frame, ht.stack, by simp [ho]⟩
  · rw [hw]
    exact .step (above_of_eq rfl) (step_behind hlen) (.here (above_of_eq rfl) ⟨ht.frame, rfl, rfl⟩)

/-- A block that is entered comes to its end, be it that it is missing or lies too deep. -/
theorem comes_enter (after : After) (hg : fr'.func = g) (hlen : (g.code c).length < codeLimit)
    (hc : Comes cfg p (Above (k.push (.within ⟨b, (g.code b).toArray, Int64.ofNat i⟩ after)))
      (Landed g W c (g.code c).length fr' (k.push (.within ⟨b, (g.code b).toArray, Int64.ofNat i⟩ after)))
      (.inCode g c 0 fr' (k.push (.within ⟨b, (g.code b).toArray, Int64.ofNat i⟩ after)) w)) :
    Comes cfg p (Above (k.push (.within ⟨b, (g.code b).toArray, Int64.ofNat i⟩ after)))
      (Closed W fr' (k.push (.within ⟨b, (g.code b).toArray, Int64.ofNat i⟩ after)))
      ((State.inCode g b i fr' k w).enter cfg c after) := by
  unfold State.enter
  dsimp only
  by_cases hdepth : (State.inCode g b i fr' k w).depth < cfg.maxDepth
  · rw [if_pos hdepth]
    unfold State.start
    cases hblk : (State.inCode g b i fr' k w).frame.func.block? c with
    | none => exact .here (above_of_eq rfl) ⟨.refl W fr', rfl, rfl⟩
    | some blk =>
      have hcode : blk.code = (g.code c).toArray := by
        rw [Func.code_of_block? (hg ▸ hblk), Array.toArray_toList]
      simp only [hcode]
      exact comes_closed hlen hc
  · rw [if_neg hdepth]
    exact .here (above_of_eq rfl) ⟨.refl W fr', rfl, rfl⟩

/-- What an instruction does with the outcome of a block that it has entered. -/
theorem comes_resumed {after : After} (hfr : fr.Spares W fr')
    (h : Comes cfg p (Above (k.push (.within ⟨b, (g.code b).toArray, Int64.ofNat i⟩ after)))
      (Closed W fr' (k.push (.within ⟨b, (g.code b).toArray, Int64.ofNat i⟩ after))) s)
    (hnext : ∀ fr'' w o, fr.Spares W fr'' → Comes cfg p (Above k) (Passed g W b i fr k)
      (resume cfg (.inCode g b i fr'' k w) after o)) :
    Comes cfg p (Above k) (Passed g W b i fr k) s := by
  refine (h.mono (fun _ => Above.of_push) fun _ h => h).trans fun t ht => ?_
  obtain ⟨o, ho⟩ := Option.isSome_iff_exists.mp ht.ended
  exact .step ((above_of_eq ht.stack).of_push) (step_within ho ht.stack)
    (hnext _ _ _ (hfr.trans ht.frame))

theorem comes_conclude (hfr : fr.Spares W fr') (hg : fr.func = g) {dest : Reg} (hdest : dest ∈ W)
    (o : Outcome) : Comes cfg p (Above k) (Passed g W b i fr k)
      (conclude (.inCode g b i fr' k w) dest o) := by
  have h := passed_conclude (b := b) (i := i) (k := k) (w := w) hfr hg hdest o
  exact .here (above_of_eq h.stack) h

/-- The code of a block comes to its end from each frame of its function, on top of each stack above
`k`. -/
def Runs (cfg : RunConfig) (p : Program) (g : Func) (W : Set Reg) (k : Stack) (c : BlockId) : Prop :=
  ∀ fr w (j : Stack), fr.func = g → k.height < j.height →
    Comes cfg p (Above j) (Landed g W c (g.code c).length fr j) (.inCode g c 0 fr j w)

section
variable (hlen : ∀ c, (g.code c).length < codeLimit) {dest : Reg} {gd : Guard}
include hlen

theorem comes_cleanUp (hfr : fr.Spares W fr') (hg : fr.func = g) (hdest : dest ∈ W)
    (hcleanup : gd.cleanup ≠ .none → Runs cfg p g W k gd.cleanup) (o : Outcome) :
    Comes cfg p (Above k) (Passed g W b i fr k) (cleanUp cfg (.inCode g b i fr' k w) dest gd o) := by
  unfold cleanUp
  by_cases hnone : gd.cleanup = .none
  · rw [if_pos hnone]
    exact comes_conclude hfr hg hdest o
  · rw [if_neg hnone]
    have hg' : fr'.func = g := hfr.func.trans hg
    refine comes_resumed hfr (comes_enter _ hg' (hlen _) (hcleanup hnone fr' w _ hg' ?_))
      fun fr'' w o' hfr' => ?_
    · exact Nat.lt_succ_self _
    · match o' with
      | .value v .yield => exact comes_conclude hfr' hg hdest o
      | .value v .ret => exact comes_conclude hfr' hg hdest (.value v .ret)
      | .fault f => exact comes_conclude hfr' hg hdest (.fault f)

theorem comes_handle (hfr : fr.Spares W fr') (hg : fr.func = g) (hdest : dest ∈ W)
    (hcaught : gd.handler ≠ .none → gd.caught ∈ W)
    (hhandler : gd.handler ≠ .none → Runs cfg p g W k gd.handler)
    (hcleanup : gd.cleanup ≠ .none → Runs cfg p g W k gd.cleanup) (o : Outcome) :
    Comes cfg p (Above k) (Passed g W b i fr k) (handle cfg (.inCode g b i fr' k w) dest gd o) := by
  have hclean := fun fr'' w o (h : fr.Spares W fr'') =>
    comes_cleanUp (b := b) (i := i) (w := w) hlen h hg hdest hcleanup o
  cases o with
  | value v exit => exact hclean fr' w _ hfr
  | fault f =>
    unfold handle
    dsimp only
    by_cases hnone : gd.handler = .none
    · rw [if_pos hnone]
      exact hclean fr' w _ hfr
    · rw [if_neg hnone]
      cases f.caught? with
      | none => exact hclean fr' w _ hfr
      | some v =>
        dsimp only
        cases hw : (State.inCode g b i fr' k w).frame.write gd.caught v with
        | error e => exact hclean fr' w _ hfr
        | ok fr'' =>
          have hfr'' := hfr.write (hcaught hnone) hw
          have hg' : fr''.func = g := hfr''.func.trans hg
          exact comes_resumed hfr'' (comes_enter (b := b) (i := i) (.handler dest gd) hg'
            (hlen _) (hhandler hnone fr'' w _ hg' (Nat.lt_succ_self _)))
            fun fr₃ w o' hfr₃ => hclean fr₃ w o' hfr₃

end

/-! ## Calls -/

/-- Blocks that are started above a stack, in whatever frame, come to their ends. -/
def CallsEnd (cfg : RunConfig) (p : Program) (k : Stack) : Prop :=
  ∀ (s : State) (fr : Frame) (c : BlockId) (j : Stack), p.Defines fr.func → k.height < j.height →
    j.height < cfg.maxDepth →
    Comes cfg p (Above j) (fun t => t.stack = j ∧ t.ended.isSome) (s.start fr c j)

theorem CallsEnd.mono {j : Stack} (h : CallsEnd cfg p k) (hkj : k.height < j.height) :
    CallsEnd cfg p j :=
  fun s fr c l hfr hl => h s fr c l hfr (Nat.lt_trans hkj hl)

/-- A call gives its result to the instruction that made it. -/
theorem comes_call (hcalls : CallsEnd cfg p k) (hfr : fr.Spares W fr') (hg : fr.func = g)
    {f : Callee} (hf : p.Defines f.func) {dest : Reg} (hdest : dest ∈ W)
    (ht : (State.inCode g b i fr' k w).call cfg f dest = .ok t) :
    Comes cfg p (Above k) (Passed g W b i fr k) t := by
  have hfail : ∀ e, Comes cfg p (Above k) (Passed g W b i fr k)
      ((State.inCode g b i fr' k w).fail e) := fun e =>
    .here (above_of_eq rfl) (passed_fail hfr hg e)
  cases called ht with
  | tooDeep | unbound => exact hfail _
  | @start fr₀ fr₁ hdepth hnew hw hfunc =>
    have hends := hcalls (.inCode g b i fr' k w) fr₁ f.start
      (k.push (.caller fr' ⟨b, (g.code b).toArray, Int64.ofNat i⟩ dest)) (hfunc ▸ hf)
      (Nat.lt_succ_self _) (not_le.mp hdepth)
    refine (hends.mono (fun _ => Above.of_push) fun _ h => h).trans fun u ⟨hstack, hended⟩ => ?_
    obtain ⟨o, ho⟩ := Option.isSome_iff_exists.mp hended
    have habove : Above k u := (above_of_eq hstack).of_push
    cases o with
    | value v exit =>
      have hstep : step cfg p u = .state ((State.inCode g b i fr' k u.world).store dest v) := by
        rw [step_ended ho, unwind, hstack, Stack.pop?_push]
        rfl
      have hpassed := passed_store (b := b) (i := i) (k := k) (w := u.world) hfr hg hdest v
      exact .step habove hstep (.here (above_of_eq hpassed.stack) hpassed)
    | fault e =>
      have hstep : step cfg p u = .state ((State.inCode g b i fr' k u.world).fail e) := by
        rw [step_ended ho, unwind, hstack, Stack.pop?_push]
        rfl
      exact .step habove hstep (.here (above_of_eq rfl) (passed_fail hfr hg e))

/-! ## Straight code -/

/-- What an instruction asks for that goes on to the next one. -/
def GoesOn (p : Program) (fr : Frame) (out : Reg) : Action → Prop
  | .next fr' skip => skip = 0 ∧ ∃ v, fr.write out v = .ok fr'
  | .call c dest => p.Defines c.func ∧ dest = out
  | _ => False

theorem goesOn_perform (hx : x.Straight) (runner : Option Runner) (w : World) :
    AllGive (perform runner p fr w x).2 (GoesOn p fr x.out) := by
  refine (mayAsk_perform runner w x).mono fun a ha => ?_
  cases ha with
  | write _ hw => exact ⟨rfl, _, hw⟩
  | call _ hdef _ => exact ⟨hdef, rfl⟩
  | circuit | pass | arm | body | leave => exact hx.elim

/-! ## Confined code -/

theorem comes_error {e : Cause} (hg : fr.func = g) (hx : (g.code b)[i]? = some x) (hi : i < codeLimit)
    (hp : perform cfg.runner p fr w x = (w', .error e)) :
    Comes cfg p (Above k) (Passed g W b i fr k) (.inCode g b i fr k w) :=
  .step (above_of_eq rfl) (step_error hx hi hp) (.here (above_of_eq rfl) (passed_fail (.refl W fr) hg _))

/-- What a step of straight code leads to. -/
theorem comes_straight (hcalls : CallsEnd cfg p k) (hstart : Startable p) (hg : fr.func = g)
    (hx : (g.code b)[i]? = some x) (hi : i < codeLimit) (hs : x.Straight) (hout : x.out ∈ W) :
    Comes cfg p (Above k) (Passed g W b i fr k) (.inCode g b i fr k w) := by
  have hgives : AllGive (perform cfg.runner p fr w x).2 _ := goesOn_perform (p := p) hs cfg.runner w
  cases hp : perform cfg.runner p fr w x with
  | mk w' result =>
    rw [hp] at hgives
    cases result with
    | error e => exact comes_error hg hx hi hp
    | ok action =>
      have hon := hgives action rfl
      cases action with
      | next fr' skip =>
        obtain ⟨rfl, v, hw⟩ := hon
        exact .step (above_of_eq rfl) (step_next (d := 0) hx hi hp) (.here (above_of_eq rfl)
          ⟨(Frame.Spares.refl W fr).write hout hw, rfl, .inr ⟨w', rfl⟩⟩)
      | call f dest =>
        obtain ⟨hf, rfl⟩ := hon
        obtain ⟨fr₀, hnew⟩ := hstart _ _ hf
        have hcall : ∃ t, (State.inCode g b i fr k w').call cfg f x.out = .ok t := by
          unfold State.call
          by_cases hdepth : cfg.maxDepth ≤ (State.inCode g b i fr k w').depth
          · exact ⟨_, if_pos hdepth⟩
          · rw [if_neg hdepth, hnew]
            cases hw : fr₀.writeAll f.binds with
            | error e => exact ⟨_, by simp only [bind, Except.bind, hw]; rfl⟩
            | ok fr₁ => exact ⟨_, by simp only [bind, Except.bind, hw]; rfl⟩
        obtain ⟨t, ht⟩ := hcall
        exact .step (above_of_eq rfl) (step_call hx hi hp ht)
          (comes_call hcalls (.refl W fr) hg hf hout ht)
      | leave | enter => exact hon.elim

theorem comes_arms (hlen : ∀ c, (g.code c).length < codeLimit) (hg : fr.func = g) {dest : Reg}
    {v : Value} {arms : List Arm} {default : BlockId}
    (hx : (g.code b)[i]? = some (.dispatch dest v arms default)) (hdest : dest ∈ W)
    (hsub : ∀ c ∈ default :: arms.map (·.block), c ≠ .none → Runs cfg p g W k c) :
    Comes cfg p (Above k) (Passed g W b i fr k) (.inCode g b i fr k w) := by
  have hi : i < codeLimit :=
    Nat.lt_trans (List.getElem?_eq_some_iff.mp hx).1 (hlen b)
  cases hv : fr.read v with
  | error e => exact comes_error hg hx hi (by simp only [perform, hv]; rfl)
  | ok y =>
    cases hc : chooseArm fr y default arms with
    | error e => exact comes_error hg hx hi (by simp only [perform, hv, bind, Except.bind, hc]; rfl)
    | ok c =>
      by_cases hnone : c = .none
      · have hp : perform cfg.runner p fr w (.dispatch dest v arms default) =
            (w, finish fr dest .null) := by
          simp only [perform, hv, bind, Except.bind, hc, if_pos hnone]
        rw [finish] at hp
        cases hw : fr.write dest .null with
        | error e =>
          rw [hw] at hp
          exact comes_error hg hx hi hp
        | ok fr' =>
          rw [hw] at hp
          exact .step (above_of_eq rfl) (step_next (d := 0) hx hi hp) (.here (above_of_eq rfl)
            ⟨(Frame.Spares.refl W fr).write hdest hw, rfl, .inr ⟨w, rfl⟩⟩)
      · have hp : perform cfg.runner p fr w (.dispatch dest v arms default) =
            (w, .ok (.enter c (.arm dest))) := by
          simp only [perform, hv, bind, Except.bind, hc, if_neg hnone]
          rfl
        have hruns := hsub c (mem_chooseArm y default arms c hc) hnone fr w
        refine .step (above_of_eq rfl) (step_enters hx hi hp) (comes_resumed (.refl W fr)
          (comes_enter _ hg (hlen c) (hruns _ hg (Nat.lt_succ_self _))) fun fr' w' o hfr => ?_)
        exact comes_conclude hfr hg hdest o

/-- Behind an instruction that is done comes the rest of the code. -/
theorem comes_next (h : Comes cfg p (Above k) (Passed g W b i fr k) s) (hg : fr.func = g)
    (hnext : ∀ fr' w, fr'.func = g →
      Comes cfg p (Above k) (Landed g W b j fr' k) (.inCode g b (i + 1) fr' k w)) :
    Comes cfg p (Above k) (Landed g W b j fr k) s := by
  refine h.trans fun t ht => ?_
  rcases ht.goes with ⟨o, ho, hfixed, hyield⟩ | ⟨w, hw⟩
  · exact .here (above_of_eq ht.stack) ⟨ht.frame, ht.stack, .inl ⟨o, ho, hfixed, by simp [hyield]⟩⟩
  · rw [hw]
    exact (hnext t.frame w (ht.frame.func.trans hg)).mono (fun _ h => h) fun u hu => hu.after ht.frame

end Machine

open Machine in
/-- The machine comes through confined code, and all but its registers are as they were. -/
theorem Confined.comes {g : Func} {W : Set Reg} {b : BlockId} {i j : Nat} (h : Confined g W b i j)
    {cfg : RunConfig} {p : Program} (hstart : Startable p)
    (hlen : ∀ c, (g.code c).length < codeLimit) {fr : Frame} (hg : fr.func = g) {k : Stack}
    (hcalls : CallsEnd cfg p k) (w : World) :
    Comes cfg p (Above k) (Landed g W b j fr k) (.inCode g b i fr k w) := by
  have hlt : ∀ {c : BlockId} {i : Nat} {x : Instr}, (g.code c)[i]? = some x → i < codeLimit :=
    fun hx => Nat.lt_trans (List.getElem?_eq_some_iff.mp hx).1 (hlen _)
  induction h generalizing fr k w with
  | stop => exact .here (above_of_eq rfl) ⟨.refl W fr, rfl, .inr ⟨w, rfl⟩⟩
  | @leave b i j how v hx hij =>
    have hfail : ∀ e, perform cfg.runner p fr w (.leave how v) = (w, .error e) →
        Comes cfg p (Above k) (Landed g W b j fr k) (.inCode g b i fr k w) := fun e hp =>
      .step (above_of_eq rfl) (step_error hx (hlt hx) hp)
        (.here (above_of_eq rfl) (landed_fail hg _))
    have hvalue : ∀ y exit, perform cfg.runner p fr w (.leave how v) = (w, .ok (.leave y exit)) →
        (exit = .yield → how = .yield) →
        Comes cfg p (Above k) (Landed g W b j fr k) (.inCode g b i fr k w) := by
      intro y exit hp hexit
      refine .step (above_of_eq rfl) (step_leave hx (hlt hx) hp) (.here (above_of_eq rfl)
        ⟨.refl W fr, rfl, .inl ⟨_, rfl, Outcome.fixed_value _ y exit, fun hy => ⟨i, hij, v, ?_⟩⟩⟩)
      cases exit with
      | ret => cases hy
      | yield => rw [← hexit rfl, hx]
    cases hv : fr.read v with
    | error e => exact hfail e (by simp only [perform, Machine.leave, hv]; rfl)
    | ok y =>
      cases how with
      | ret | closureRet => exact hvalue y .ret (by simp only [perform, Machine.leave, hv]; rfl) nofun
      | yield => exact hvalue y .yield (by simp only [perform, Machine.leave, hv]; rfl) fun _ => rfl
      | throw => exact hfail (.thrown y) (by simp only [perform, Machine.leave, hv]; rfl)
  | @straight b i j x hx hs hout next ih =>
    exact comes_next (comes_straight hcalls hstart hg hx (hlt hx) hs hout) hg
      fun fr' w hg' => ih hg' hcalls w
  | @circuit b i j l kind dest left right hx hil hdest next skip ih ihskip =>
    have hgives : AllGive _ (Instr.MayAsk p fr _) :=
      mayAsk_circuit kind dest left right (Int64.ofNat (l - (i + 1)))
    cases hc : Machine.circuit fr kind dest left right (Int64.ofNat (l - (i + 1))) with
    | error e =>
      have hp : perform cfg.runner p fr w (.circuit kind dest left right
          (Int64.ofNat (l - (i + 1)))) = (w, .error e) := by simp only [perform, hc]
      exact .step (above_of_eq rfl) (step_error hx (hlt hx) hp)
        (.here (above_of_eq rfl) (landed_fail hg _))
    | ok a =>
      cases hgives a hc with
      | write hs => exact hs.elim
      | call hcall => cases hcall
      | @circuit _ _ _ _ _ fr' _ hd hw =>
        have hfr : fr.Spares W fr' := by
          rcases hw with rfl | ⟨y, hw⟩
          · exact .refl W fr'
          · exact (Frame.Spares.refl W fr).write hdest hw
        have hg' := hfr.func.trans hg
        rcases hd with rfl | rfl
        · refine .step (above_of_eq rfl)
            (step_next (d := 0) hx (hlt hx) (by simp only [perform, hc]; rfl))
            ((ih hg' hcalls w).mono (fun _ h => h) fun u hu => hu.after hfr)
        · have hlanding : i + (l - (i + 1)) + 1 = l := by omega
          refine .step (above_of_eq rfl) (step_next hx (hlt hx) (by simp only [perform, hc]; rfl)) ?_
          rw [hlanding]
          exact (ihskip hg' hcalls w).mono (fun _ h => h) fun u hu => hu.after hfr
  | @dispatch b i j dest v arms default hx sub hdest next ihsub ih =>
    refine comes_next (comes_arms hlen hg hx hdest fun c hc hne fr' w k' hg' hk' => ?_) hg
      fun fr' w hg' => ih hg' hcalls w
    exact ihsub c hc hne hg' (hcalls.mono hk') w
  | @guarded b i j dest gd hx body hcaught handler cleanup hdest next ihbody ihhandler ihcleanup ih =>
    have hp : perform cfg.runner p fr w (.guarded dest gd) = (w, .ok (.enter gd.body (.body dest gd))) :=
      rfl
    refine comes_next (.step (above_of_eq rfl) (step_enters hx (hlt hx) hp)
      (comes_resumed (.refl W fr) (comes_enter _ hg (hlen _)
        (ihbody hg (hcalls.mono (Nat.lt_succ_self _)) w)) fun fr' w o hfr => ?_)) hg
      fun fr' w hg' => ih hg' hcalls w
    exact comes_handle hlen hfr hg hdest hcaught
      (fun hne fr₁ w k' hg₁ hk' => ihhandler hne hg₁ (hcalls.mono hk') w)
      (fun hne fr₁ w k' hg₁ hk' => ihcleanup hne hg₁ (hcalls.mono hk') w) o

/-! ## Programs -/

/-- All blocks of a program can be followed. -/
structure Program.Followed (p : Program) : Prop where
  fits : ∀ f, p.Defines f → ∀ b, (f.code b).length < codeLimit
  confined : ∀ f, p.Defines f → ∀ c, f.Has c → Confined f Set.univ c 0 (f.code c).length
  startable : Machine.Startable p

namespace Machine

variable {cfg : RunConfig} {p : Program}

/-- Each block that is started comes to its end. -/
theorem callsEnd (hp : p.Followed) (k : Stack) : CallsEnd cfg p k := by
  induction hn : cfg.maxDepth - k.height using Nat.strong_induction_on generalizing k with
  | _ n ih =>
    intro s fr c j hdef hkj hj
    have hcalls : CallsEnd cfg p j := ih _ (by omega) j rfl
    unfold State.start
    cases hblk : fr.func.block? c with
    | none => exact .here (above_of_eq rfl) ⟨rfl, rfl⟩
    | some blk =>
      have hcode : blk.code = (fr.func.code c).toArray := by
        rw [Func.code_of_block? hblk, Array.toArray_toList]
      simp only [hcode]
      have hhas : fr.func.Has c := (Func.isSome_block?_iff _ c).mp (by rw [hblk]; rfl)
      exact (comes_closed (hp.fits _ hdef c) ((hp.confined _ hdef c hhas).comes hp.startable
        (hp.fits _ hdef) rfl hcalls s.world)).mono (fun _ h => h) fun t ht => ⟨ht.stack, ht.ended⟩

end Machine

end ScriptMachine
