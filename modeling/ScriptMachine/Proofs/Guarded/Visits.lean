import Mathlib.Data.List.ReduceOption
import ScriptMachine.Proofs.Lowering.NodeOrder
import ScriptMachine.Proofs.Renaming.Bindings

/-!
# The nodes that lowering comes to

A visit is a node as lowering comes to it: the block that it is lowered into, and the state in which
this starts. `Visit.parts` lists the visits of its parts, following the lowering of each construct, and
`Visits f` are all visits in the making of the function `f`.

`Visits.sound` says what is known of each of them in the finished function: the names at hand stand for
settled registers, and the function has all the code that was added since. It passes from a visit to
those of its parts, one lemma for each construct.
-/

namespace ScriptMachine

/-- A node as lowering comes to it. -/
structure Visit where
  block : BlockId
  node : Node
  start : Builder

namespace Visit

/-- The register of the node's value, if it has one. -/
def last (v : Visit) : Option Reg := (Lowering.node v.block v.node v.start).1

/-- The state behind the node. -/
def stop (v : Visit) : Builder := (Lowering.node v.block v.node v.start).2

/-- The index at which the code of the node starts. -/
def index (v : Visit) : Nat := (v.start.func.code v.block).length

end Visit

namespace Lowering

open Build

/-! ## Visits of parts -/

/-- Statements, until one of them ends the block. -/
def visitStmts (b : BlockId) : List Node → Builder → List Visit
  | [], _ => []
  | x :: xs, s => ⟨b, x, s⟩ ::
    if endsBlock ((node b x s).2.func.code b) then [] else visitStmts b xs (node b x s).2

def visitArgs (b : BlockId) : List Node → Builder → List Visit
  | [], _ => []
  | x :: xs, s => ⟨b, x, s⟩ :: visitArgs b xs (node b x s).2

/-- Whether the line of a command has words, so that the command can be lowered. -/
def hasWords (line : String) : Bool :=
  match Words.split line with
  | .ok (_ :: _) => true
  | _ => false

/-- A callee that is no word has a value of its own. -/
def visitCall (b : BlockId) (callee : Node) (xs : List Node) (s : Builder) : List Visit :=
  match callee with
  | .word _ name => visitArgs b xs (lookup name s).2
  | callee => ⟨b, callee, s⟩ ::
    if (node b callee s).1.isSome then visitArgs b xs (node b callee s).2 else []

/-- The right operand of an operator, behind the left one. -/
def visitRight (b : BlockId) (op : String) (x : Node) (left : Option Reg × Builder) : List Visit :=
  match circuit? op with
  | some kind => [⟨b, x, circuitStart b kind left.1 left.2⟩]
  | none => if (operator? op).isSome then [⟨b, x, left.2⟩] else []

/-- A branch, with a name that is bound for it alone. -/
def visitBranch (own : String) (caught : Reg) (x : Node) (s : Builder) : Visit where
  block := ⟨s.func.blocks.size⟩
  node := x
  start := { (newBlock s).2 with names := if own = "" then s.names else s.names.bind own caught }

/-- The body of a closure, behind its parameters and the captures that it lists. -/
def visitClosure (pos : Position) (params captures : List String) (x : Node) (s : Builder) : Visit where
  block := ⟨s.func.blocks.size⟩
  node := x
  start := ((newRegs params >>= fun regs => bindAll params regs >>= fun _ =>
    captureListed pos captures) (newBlock s).2.enclose).2

/-- The default of a choice or of a guarded section, of which only the first is lowered. -/
def visitDefault (own : String) (caught : Reg) (a : Arms) (x : Node) (s : Builder) : Option Visit :=
  if a.default = .none then some (visitBranch own caught x s) else none

def visitCases (pos : Position) (a : Arms) : List Case → Builder → List (Option Visit)
  | [], _ => []
  | .mk p x :: cs, s =>
    (if isDefault p then visitDefault "" .none a x s
      else some (visitBranch "" .none x (pattern p s).2)) ::
    visitCases pos (addCase pos a p (node · x) s).1 cs (addCase pos a p (node · x) s).2

def visitClause (caught : Reg) (a : Arms) (name : String) (p x : Node) (s : Builder) : Option Visit :=
  if p.isAbsent then visitDefault name caught a x s else some (visitBranch name caught x s)

/-- The clauses of a guarded section, one by one; some are not lowered. -/
def visitClauses (pos : Position) (caught : Reg) (a : Arms) :
    List Clause → Builder → List (Option Visit)
  | [], _ => []
  | .mk name p x :: cs, s => visitClause caught a name p x s ::
    visitClauses pos caught (addClause pos caught a name p (node · x) s).1 cs
      (addClause pos caught a name p (node · x) s).2

def visitChoice (pos : Position) (cs : List Case) (default : Node) (s : Builder) : List Visit :=
  (visitCases pos {} cs s).reduceOption ++
    if default.isAbsent then []
    else (visitDefault "" .none (cases pos {} cs s).1 default (cases pos {} cs s).2).toList

/-! ## Guarded sections -/

/-- The state in which the clauses of a guarded section start, the body being done: the register of what
is caught is taken, and if there is a choice among clauses, the block for it is made. -/
def clausesStart (cs : List Clause) (s : Builder) : Builder :=
  if isSole cs then (newReg s).2 else (newBlock (newReg s).2).2

/-- The state behind the body of a guarded section. -/
def bodyDone (body : Node) (s : Builder) : Builder := (branch "" .none (node · body) s).2

/-- The block that handles faults of the body, the register of what is caught and the branches of the
clauses, and the state behind all of them. -/
def handlersDone (pos : Position) (body : Node) (cs : List Clause) (s : Builder) :
    (BlockId × Reg × List Branch) × Builder :=
  handlers cs (clauses pos · {} cs) (bodyDone body s)

/-- The branches of the body and of the clauses. -/
def sectionBranches (pos : Position) (body : Node) (cs : List Clause) (s : Builder) : List Branch :=
  (branch "" .none (node · body) s).1 :: (handlersDone pos body cs s).1.2.2

/-- The clauses of a guarded section that starts in a state. -/
def visitHandlers (pos : Position) (body : Node) (cs : List Clause) (s : Builder) :
    List (Option Visit) :=
  visitClauses pos ⟨(bodyDone body s).func.numRegs⟩ {} cs (clausesStart cs (bodyDone body s))

/-- The state in which the body and the clauses of a guarded section were joined. -/
def sectionsDone (b : BlockId) (pos : Position) (body : Node) (cs : List Clause) (s : Builder) :
    Builder :=
  (join b s.names (sectionBranches pos body cs s) (handlersDone pos body cs s).2).2

/-- The cleanup of a guarded section. -/
def visitCleanup (b : BlockId) (pos : Position) (body : Node) (cs : List Clause) (cleanup : Node)
    (s : Builder) : Visit where
  block := ⟨(sectionsDone b pos body cs s).func.blocks.size⟩
  node := cleanup
  start := (newBlock (sectionsDone b pos body cs s)).2

def visitGuarded (b : BlockId) (pos : Position) (body : Node) (cs : List Clause) (cleanup : Node)
    (s : Builder) : List Visit :=
  visitBranch "" .none body s :: (visitHandlers pos body cs s).reduceOption ++
    if cleanup.isAbsent then [] else [visitCleanup b pos body cs cleanup s]

end Lowering

open Build Lowering

/-- The visits of the parts of a node, in order. The code of a function that is declared is none of
its. -/
def Visit.parts (v : Visit) : List Visit :=
  match v.node with
  | .absent | .number .. | .string .. | .word .. | .func .. | .other .. => []
  | .program _ xs | .list _ xs => visitStmts v.block xs v.start
  | .assign _ _ x | .ret _ x | .throw _ x => [⟨v.block, x, v.start⟩]
  | .call _ callee xs => visitCall v.block callee xs v.start
  | .closure pos params captures x => [visitClosure pos params captures x v.start]
  | .binary _ left op right =>
    ⟨v.block, left, v.start⟩ :: visitRight v.block op right (Lowering.node v.block left v.start)
  | .choice pos scrutinee cs default =>
    ⟨v.block, scrutinee, v.start⟩ ::
      visitChoice pos cs default (Lowering.node v.block scrutinee v.start).2
  | .guarded pos body cs cleanup => visitGuarded v.block pos body cs cleanup v.start
  | .command _ _ xs line => if line = "" ∨ hasWords line then visitArgs v.block xs v.start else []
  | .invoke _ _ xs => visitArgs v.block xs v.start

/-- The visits in the making of a function: of the body of a declaration that it is made from, and of
their parts. -/
inductive Visits (f : Func) : Visit → Prop
  | body {d : Declaration} {s : Builder} (hfunc : s.func = Func.new d.name d.params)
      (hnames : s.names = []) (hencl : s.enclosing = [])
      (hf : f = (wholeBody s.func (node · d.body) s).2.func) :
      Visits f ⟨s.func.entry, d.body, (bindAll s.func.params s.func.paramRegs s).2⟩
  | part {v w : Visit} (hv : Visits f v) (hw : w ∈ v.parts) : Visits f w

/-! ## What is known of a visit -/

/-- What is known of a stretch of lowering into block `b` from `s` to `t`, in the finished function `g`
where the registers `C` are captured. -/
structure Inside (g : Func) (C : Set Reg) (b : BlockId) (s t : Builder) : Prop where
  kept : Kept C ∅ s
  has : s.func.Has b
  captures : Captures C t
  agrees : Agrees g ∅ s t

/-- What is known of a visit in the finished function. -/
def Visit.Sound (g : Func) (v : Visit) : Prop := ∃ C, Inside g C v.block v.start v.stop

namespace Inside

variable {g : Func} {C : Set Reg} {b : BlockId} {s t u : Builder} {α β : Type} {m : Build α}
  {f : α → Build β}

theorem left (h : Inside g C b s u) (hg : Builder.Grows {b} t u) : Inside g C b s t where
  kept := h.kept
  has := h.has
  captures := h.captures.left hg
  agrees := h.agrees.left hg fun _ hc => .inl (hc ▸ h.has)

theorem fst (af : ∀ a, Adds {b} (f a)) (h : Inside g C b s ((m >>= f) s).2) :
    Inside g C b s (m s).2 :=
  h.left (af _ _)

theorem snd (ha : Adds {b} m ∧ ∀ a, Adds {b} (f a)) (h : Inside g C b s ((m >>= f) s).2)
    {Q : α → Int → Prop} (hm : Orders g C ∅ b s.func.numRegs m Q) :
    Inside g C b (m s).2 (f (m s).1 (m s).2).2 where
  kept := (hm s (le_refl _) h.kept h.has (h.fst ha.2).captures (h.fst ha.2).agrees).1.kept
  has := (ha.1 s).func.has h.has
  captures := h.captures
  agrees := h.agrees.right (ha.1 s)

/-- What the law of the first step says of its result. -/
theorem post (af : ∀ a, Adds {b} (f a)) (h : Inside g C b s ((m >>= f) s).2) {Q : α → Int → Prop}
    (hm : Orders g C ∅ b s.func.numRegs m Q) : Q (m s).1 (m s).2.func.numRegs :=
  (hm s (le_refl _) h.kept h.has (h.fst af).captures (h.fst af).agrees).2

end Inside

namespace Lowering

variable {g : Func} {C : Set Reg} {b : BlockId} {s t : Builder} {pos : Position} {xs : List Node}
  {cs : List Clause} {x : Node}

/-! ## Parts in the same block -/

theorem sound_stmts (xs : List Node) (last : Option Reg) (h : Inside g C b s (stmts b last xs s).2) :
    ∀ w ∈ visitStmts b xs s, w.Sound g := by
  induction xs generalizing last s with
  | nil => exact nofun
  | cons x xs ih =>
    rw [stmts] at h
    have hrest := h.snd (by grind) (settles_node b x C ∅ _)
    intro w hw
    rcases List.mem_cons.mp hw with rfl | hw
    · exact ⟨C, h.fst (by grind)⟩
    · cases hends : endsBlock ((node b x s).2.func.code b) with
      | true =>
        rw [hends] at hw
        cases hw
      | false =>
        rw [hends] at hw
        rw [bind_apply, terminated_apply, hends] at hrest
        exact ih _ hrest w hw

theorem sound_args (xs : List Node) (h : Inside g C b s (args b xs s).2) :
    ∀ w ∈ visitArgs b xs s, w.Sound g := by
  induction xs generalizing s with
  | nil => exact nofun
  | cons x xs ih =>
    rw [args] at h
    have hrest := h.snd (by grind) (settles_node b x C ∅ _)
    intro w hw
    rcases List.mem_cons.mp hw with rfl | hw
    · exact ⟨C, h.fst (by grind)⟩
    · exact ih (hrest.fst (by grind)) w hw

theorem sound_issue {name : String} {words : List String}
    (h : Inside g C b s (issue b name words (args b xs) s).2) : ∀ w ∈ visitArgs b xs s, w.Sound g :=
  sound_args xs (h.fst (by grind))

theorem sound_command {name line : String}
    (h : Inside g C b s (command b pos name line (args b xs) s).2) (hline : line = "" ∨ hasWords line) :
    ∀ w ∈ visitArgs b xs s, w.Sound g := by
  unfold command at h
  by_cases hempty : line = ""
  · rw [if_pos hempty] at h
    exact sound_issue h
  · rw [if_neg hempty] at h
    have hwords := hline.resolve_left hempty
    unfold hasWords at hwords
    cases hsplit : Words.split line with
    | error e =>
      rw [hsplit] at hwords
      cases hwords
    | ok ws =>
      rw [hsplit] at h hwords
      cases ws with
      | nil => cases hwords
      | cons y ys =>
        dsimp only at h
        by_cases hname : name = ""
        · rw [if_pos hname] at h
          exact sound_issue h
        · rw [if_neg hname] at h
          exact sound_issue h

theorem sound_callHeld {r : Reg} (h : Inside g C b s (callHeld b r (args b xs) s).2) :
    ∀ w ∈ visitArgs b xs s, w.Sound g :=
  sound_args xs (h.fst (by grind))

theorem visitCall_of_ne_word {callee : Node} (hne : ∀ q name, callee ≠ .word q name) (xs : List Node) :
    visitCall b callee xs s = ⟨b, callee, s⟩ ::
      if (node b callee s).1.isSome then visitArgs b xs (node b callee s).2 else [] := by
  cases callee with
  | word q name => exact absurd rfl (hne q name)
  | _ => rfl

theorem sound_call {callee : Node}
    (h : Inside g C b s (call b pos callee (node b callee) (args b xs) s).2) :
    ∀ w ∈ visitCall b callee xs s, w.Sound g := by
  by_cases hword : ∃ q name, callee = .word q name
  · obtain ⟨q, name, rfl⟩ := hword
    have hrest := Inside.snd (m := lookup name) (by grind) h (orders_lookup name)
    cases hr : (lookup name s).1 with
    | none =>
      rw [hr] at hrest
      exact sound_args xs (hrest.fst (by grind))
    | some r =>
      rw [hr] at hrest
      exact sound_callHeld hrest
  · have hne : ∀ q name, callee ≠ .word q name := fun q name heq => hword ⟨q, name, heq⟩
    rw [call_of_ne_word hne] at h
    rw [visitCall_of_ne_word hne]
    have hrest := h.snd (by grind) (settles_node b callee C ∅ _)
    intro w hw
    rcases List.mem_cons.mp hw with rfl | hw
    · exact ⟨C, h.fst (by grind)⟩
    · cases hr : (node b callee s).1 with
      | none =>
        rw [hr] at hw
        cases hw
      | some r =>
        rw [hr] at hrest hw
        exact sound_callHeld hrest w hw

/-- The right operand of a short circuit. -/
theorem inside_circuit {kind : Circuit} {left : Option Reg} {right : Build (Option Reg)}
    (ar : Adds {b} right) (h : Inside g C b s (circuit b kind left right s).2) :
    Inside g C b (circuitStart b kind left s) (right (circuitStart b kind left s)).2 := by
  have hb := Set.mem_singleton b
  have hkept : Kept C (insert ⟨s.func.numRegs⟩ ∅) (circuitStart b kind left s) :=
    kept_circuitStart h.kept
  obtain ⟨hnum, -, -, hencl, -⟩ := @circuitEnd_fields b kind left right s
  refine ⟨⟨hkept.numRegs, hkept.scope, fun _ h => absurd h (Set.notMem_empty _), fun p hp => ?_⟩,
    (grows_circuitStart hb kind left s).func.has h.has, ?_, agrees_circuit ar h.has h.agrees⟩
  · exact (hkept.names p hp).imp id fun hlt => ⟨hlt.1, id⟩
  · have hc := h.captures
    rw [circuit_apply] at hc
    exact hc.congr (by simp only [Func.replace_numRegs, hnum]) hencl.symm

theorem sound_binary {op : String} {left right : Node}
    (h : Inside g C b s (binary b pos op (node b left) (node b right) s).2) :
    ∀ w ∈ ⟨b, left, s⟩ :: visitRight b op right (node b left s), w.Sound g := by
  -- what follows the left operand is an operator on a value that is there
  have arest : ∀ l : Option Reg, Adds {b} (binary b pos op (pure l) (node b right)) := fun l =>
    (adds_law []).binary pos op (adds_pure l) (adds_node b right)
  refine List.forall_mem_cons.mpr ⟨⟨C, h.fst arest⟩, ?_⟩
  have hrest : Inside g C b (node b left s).2
      (binary b pos op (pure (node b left s).1) (node b right) (node b left s).2).2 :=
    h.snd ⟨adds_node b left, arest⟩ (settles_node b left C ∅ _)
  unfold visitRight
  unfold binary at hrest
  simp only [pure_bind] at hrest
  cases hc : circuit? op with
  | some kind =>
    rw [hc] at hrest
    intro w hw
    rw [List.mem_singleton.mp hw]
    exact ⟨C, inside_circuit (adds_node b right) hrest⟩
  | none =>
    rw [hc] at hrest
    cases ho : operator? op with
    | none =>
      intro w hw
      cases hw
    | some instr =>
      rw [ho] at hrest
      intro w hw
      rw [List.mem_singleton.mp hw]
      exact ⟨C, hrest.fst (by grind)⟩

/-! ## Closures -/

theorem sound_closure {params captures : List String}
    (h : Inside g C b s (closure b pos params captures (node · x) s).2) :
    (visitClosure pos params captures x s).Sound g := by
  have hc := Set.mem_singleton (⟨s.func.blocks.size⟩ : BlockId)
  have hadds := adds_closureBody hc pos params captures (adds_node ⟨s.func.blocks.size⟩ x)
  obtain ⟨en, es, hen, -, -, heq⟩ := enclosed_apply hadds (newBlock s).2
  have ha := h.agrees
  rw [closure_apply, heq] at ha
  have hs₀ : Builder.Grows ∅ s (newBlock s).2 := grows_newBlock s
  have hhas₀ : (newBlock s).2.enclose.func.Has ⟨s.func.blocks.size⟩ := s.func.newBlock_has_self
  -- the whole body of the closure, in a frame of its own
  have hbody : Inside g (capturedRegs (en :: es)) ⟨s.func.blocks.size⟩ (newBlock s).2.enclose
      (closureBody ⟨s.func.blocks.size⟩ pos params captures (node ⟨s.func.blocks.size⟩ x)
        (newBlock s).2.enclose).2 := by
    refine ⟨⟨h.kept.numRegs, ⟨by simp, by simp, h.kept.scope⟩, by simp, fun p hp => by cases hp⟩,
      hhas₀, fun r _ => by rw [hen], ?_⟩
    have hleft := ha.left (adds_produce (Set.mem_singleton b) _ _) (by
      rintro c rfl
      exact .inl h.has)
    exact (hleft.right hs₀).congr rfl rfl
  have hregs := hbody.post (by grind) (orders_newRegs params)
  have h₁ := hbody.snd (by grind) (orders_newRegs params)
  have h₂ := h₁.snd (by grind) (orders_bindAll params hregs)
  have h₃ := h₂.snd (by grind) (orders_captureListed pos captures)
  have h₄ := h₃.fst (by grind)
  exact ⟨_, h₄⟩

/-! ## Branches -/

theorem branch_eq_visit (own : String) (caught : Reg) (x : Node) (s : Builder) :
    branch own caught (node · x) s =
      (⟨(visitBranch own caught x s).block, (visitBranch own caught x s).last,
        (visitBranch own caught x s).stop.names, own⟩,
        { (visitBranch own caught x s).stop with names := s.names }) := by
  rw [branch_apply]
  unfold owned
  by_cases hown : own = ""
  · simp only [hown, ne_eq, not_true_eq_false, if_false]
    rfl
  · simp only [hown, ne_eq, not_false_eq_true, if_true, bind_apply]
    have hstart : (Build.bind own caught (newBlock s).2).2 = (visitBranch own caught x s).start := by
      simp [visitBranch, hown]
    rw [hstart]
    rfl

theorem inside_branch {own : String} {caught : Reg} (hs : Kept C ∅ s)
    (hown : own ≠ "" → Settled C ∅ s.func.numRegs caught)
    (hc : Captures C (branch own caught (node · x) s).2)
    (ha : Agrees g {⟨s.func.blocks.size⟩} s (branch own caught (node · x) s).2) :
    Inside g C (visitBranch own caught x s).block (visitBranch own caught x s).start
      (visitBranch own caught x s).stop := by
  rw [branch_eq_visit] at hc ha
  have hhas : (visitBranch own caught x s).start.func.Has (visitBranch own caught x s).block :=
    s.func.newBlock_has_self
  refine ⟨⟨hs.numRegs, hs.scope, fun _ h => absurd h (Set.notMem_empty _), fun p hp => ?_⟩, hhas,
    hc.congr rfl rfl, (agrees_newBlock ha).congr rfl rfl⟩
  by_cases hempty : own = ""
  · exact hs.names p (by simpa [visitBranch, hempty] using hp)
  · rcases Names.mem_bind (show p ∈ s.names.bind own caught by
      simpa [visitBranch, hempty] using hp) with rfl | hp
    · exact hown hempty
    · exact hs.names p hp

theorem inside_default {own : String} {caught : Reg} {a : Arms} {w : Visit}
    (hw : w ∈ visitDefault own caught a x s) (hs : Kept C ∅ s)
    (hown : own ≠ "" → Settled C ∅ s.func.numRegs caught) (hold : ∀ br ∈ a.branches, s.func.Has br.block)
    {c : Complaint} (hc : Captures C (addDefault pos c own caught a (node · x) s).2)
    (ha : Agrees g (blocksOf (addDefault pos c own caught a (node · x) s).1.branches) s
      (addDefault pos c own caught a (node · x) s).2) :
    Inside g C w.block w.start w.stop := by
  by_cases hnone : a.default = .none
  · simp only [visitDefault, if_pos hnone, Option.mem_def, Option.some.injEq] at hw
    rw [addDefault_apply pos c hnone] at hc ha
    rw [← hw]
    exact inside_branch hs hown hc (agrees_branch hold rfl ha)
  · simp [visitDefault, hnone] at hw

theorem sound_cases (pos : Position) (cs : List Case) {a : Arms} (hG : Collected g C ∅ s a t)
    (hc : Captures C (cases pos a cs t).2)
    (ha : Agrees g (blocksOf (cases pos a cs t).1.branches) t (cases pos a cs t).2) :
    ∀ w, some w ∈ visitCases pos a cs t → w.Sound g := by
  induction cs generalizing a t with
  | nil => exact nofun
  | cons c cs ih =>
    obtain ⟨p, x⟩ := c
    have hold : ∀ br ∈ a.branches, t.func.Has br.block := fun br hbr => (hG.loose br hbr).1.has
    have mcase : Gatherer (addCase pos · p (node · x)) := fun a =>
      makes_addCase pos a p (by grind)
    obtain ⟨hg₂, hb₂⟩ := gatherer_cases pos cs (addCase pos a p (node · x) t).1
      (addCase pos a p (node · x) t).2
    rw [cases, bind_apply] at hc ha
    have hc₁ := hc.left hg₂
    have ha₁ := agrees_left_of_makes ha hg₂ hb₂
    have hG' := collects_addCase (fun c => adds_node c x) (fun c => settles_node c x C ∅) pos p a s t
      (le_refl _) hG hc₁ ha₁
    have hrest := ih hG' hc (ha.right (mcase a t).1)
    intro w hw
    rcases List.mem_cons.mp hw with hw | hw
    · by_cases hp : isDefault p
      · rw [if_pos hp] at hw
        simp only [addCase, if_pos hp] at hc₁ ha₁
        exact ⟨C, inside_default hw.symm hG.kept (absurd rfl) hold hc₁ ha₁⟩
      · rw [if_neg hp] at hw
        obtain ⟨v, ds, -, hv, happ⟩ := @addCase_apply a (node · x) t pos p (by simpa using hp)
        rw [happ] at hc₁ ha₁
        rw [Option.some.inj hw, hv]
        have hkept : Kept C ∅ { t with diags := t.diags ++ ds } := hG.kept.congr rfl rfl rfl
        exact ⟨C, inside_branch hkept (absurd rfl) hc₁
          (agrees_branch hold rfl (ha₁.congr rfl rfl))⟩
    · exact hrest w hw

theorem sound_clauses (pos : Position) {caught : Reg} (hcaught : Settled C ∅ s.func.numRegs caught)
    (cs : List Clause) {a : Arms} (hG : Collected g C ∅ s a t)
    (hc : Captures C (clauses pos caught a cs t).2)
    (ha : Agrees g (blocksOf (clauses pos caught a cs t).1.branches) t (clauses pos caught a cs t).2) :
    ∀ w, some w ∈ visitClauses pos caught a cs t → Inside g C w.block w.start w.stop := by
  induction cs generalizing a t with
  | nil => exact nofun
  | cons c cs ih =>
    obtain ⟨name, p, x⟩ := c
    have hold : ∀ br ∈ a.branches, t.func.Has br.block := fun br hbr => (hG.loose br hbr).1.has
    have hown : name ≠ "" → Settled C ∅ t.func.numRegs caught := fun _ =>
      hcaught.mono hG.grows.func.numRegs
    have mclause : Gatherer (addClause pos caught · name p (node · x)) := fun a =>
      makes_addClause pos caught a name p (by grind)
    obtain ⟨hg₂, hb₂⟩ := gatherer_clauses pos caught cs (addClause pos caught a name p (node · x) t).1
      (addClause pos caught a name p (node · x) t).2
    rw [clauses, bind_apply] at hc ha
    have hc₁ := hc.left hg₂
    have ha₁ := agrees_left_of_makes ha hg₂ hb₂
    have hG' := collects_addClause (fun c => adds_node c x) (fun c => settles_node c x C ∅) pos hcaught
      name p a s t (le_refl _) hG hc₁ ha₁
    have hrest := ih hG' hc (ha.right (mclause a t).1)
    intro w hw
    rcases List.mem_cons.mp hw with hw | hw
    · unfold visitClause at hw
      by_cases hp : p.isAbsent
      · rw [if_pos hp] at hw
        simp only [addClause, if_pos hp] at hc₁ ha₁
        exact inside_default hw.symm hG.kept hown hold hc₁ ha₁
      · rw [if_neg hp] at hw
        obtain ⟨v, ds, -, -, happ⟩ := @addClause_apply a (node · x) caught t pos name p (by simpa using hp)
        rw [happ] at hc₁ ha₁
        rw [Option.some.inj hw]
        exact inside_branch hG.kept hown (hc₁.congr rfl rfl)
          (agrees_branch hold rfl (ha₁.congr rfl rfl))
    · exact hrest w hw

/-- The branches of a choice, with the separate default last. -/
theorem sound_arms {cs : List Case} {default : Node} (hs : Kept C ∅ s)
    (hc : Captures C ((cases pos {} cs >>= (addSeparate pos · (optionalNode default))) s).2)
    (ha : Agrees g (blocksOf ((cases pos {} cs >>= (addSeparate pos · (optionalNode default))) s).1.branches)
      s ((cases pos {} cs >>= (addSeparate pos · (optionalNode default))) s).2) :
    ∀ w ∈ visitChoice pos cs default s, w.Sound g := by
  rw [bind_apply] at hc ha
  obtain ⟨hg₂, hb₂⟩ := makes_addSeparate pos (cases pos {} cs s).1
    (of_mem_optionalNode fun c => adds_node c default) (cases pos {} cs s).2
  have hG := collects_cases pos cs C ∅ _ {} s s (le_refl _) (collected_empty hs) (hc.left hg₂)
    (agrees_left_of_makes ha hg₂ hb₂)
  have hold : ∀ br ∈ (cases pos {} cs s).1.branches, (cases pos {} cs s).2.func.Has br.block :=
    fun br hbr => (hG.loose br hbr).1.has
  intro w hw
  rcases List.mem_append.mp hw with hw | hw
  · exact sound_cases pos cs (collected_empty hs) (hc.left hg₂) (agrees_left_of_makes ha hg₂ hb₂) w
      (List.reduceOption_mem_iff.mp hw)
  · cases hd : default.isAbsent with
    | true =>
      rw [hd] at hw
      cases hw
    | false =>
      rw [hd] at hw
      simp only [optionalNode, hd, Bool.false_eq_true, if_false, addSeparate] at hc ha
      exact ⟨C, inside_default (Option.mem_toList.mp hw) hG.kept (absurd rfl) hold hc
        (ha.right (gatherer_cases pos cs {} s).1)⟩

theorem sound_choice {cs : List Case} {default : Node} {v : Value}
    (h : Inside g C b s ((names >>= fun before => (cases pos {} cs >>=
      (addSeparate pos · (optionalNode default))) >>= dispatch b v before) s).2) :
    ∀ w ∈ visitChoice pos cs default s, w.Sound g := by
  have hgrow := fun x : Arms × Builder => adds_dispatch (S := {b} ∪ blocksOf x.1.branches) (b := b)
    (.inl rfl) v s.names Set.subset_union_right x.2
  have hg := hgrow ((cases pos {} cs >>= (addSeparate pos · (optionalNode default))) s)
  exact sound_arms h.kept (h.captures.left hg) ((h.agrees.mono (Set.empty_subset _)).left hg (by
    rintro c (rfl | hc)
    exacts [.inl h.has, .inr hc]))

/-! ## Guarded sections -/

theorem inside_handlers (hne : cs.isEmpty = false)
    (hs : Kept C ∅ s) (hc : Captures C (handlers cs (clauses pos · {} cs) s).2)
    (ha : Agrees g (blocksOf (handlers cs (clauses pos · {} cs) s).1.2.2) s
      (handlers cs (clauses pos · {} cs) s).2) :
    ∀ w, some w ∈ visitClauses pos ⟨s.func.numRegs⟩ {} cs (clausesStart cs s) →
      Inside g C w.block w.start w.stop := by
  have hsettled : ∀ t : Builder, s.func.numRegs < t.func.numRegs →
      Settled C ∅ t.func.numRegs ⟨s.func.numRegs⟩ := fun t ht => hs.settled_fresh ht
  by_cases hone : isSole cs
  · rw [handlers_sole hne hone] at hc ha
    simp only [clausesStart, if_pos hone]
    exact sound_clauses pos (hsettled _ (Int.lt_succ _)) cs (collected_empty hs.newReg) hc
      (ha.right (adds_newReg (S := ∅) s))
  · rw [handlers_choosing hne hone] at hc ha
    simp only [clausesStart, if_neg hone]
    have hs₀ : Kept C ∅ (newBlock (newReg s).2).2 := hs.newReg.congr rfl rfl rfl
    have hhas : (newBlock (newReg s).2).2.func.Has ⟨s.func.blocks.size⟩ := Func.newBlock_has_self _
    have hg₂ := adds_chooseClause (Set.mem_singleton ⟨s.func.blocks.size⟩) ⟨s.func.numRegs⟩
      (clauses pos ⟨s.func.numRegs⟩ {} cs (newBlock (newReg s).2).2).1
      (clauses pos ⟨s.func.numRegs⟩ {} cs (newBlock (newReg s).2).2).2
    have hgrow := (adds_newReg (S := ∅) s).trans (grows_newBlock (newReg s).2) (by simp)
    exact sound_clauses pos (hsettled _ (Int.lt_succ _)) cs (collected_empty hs₀) (hc.left hg₂)
      ((ha.right hgrow).left hg₂ (by rintro c rfl; exact .inl hhas))

/-- What is known of the sections of a guarded section that starts in `s`, up to where they are
joined. -/
structure Sections (g : Func) (C : Set Reg) (b : BlockId) (pos : Position) (body : Node)
    (cs : List Clause) (s : Builder) : Prop where
  inside : Inside g C (visitBranch "" .none body s).block (visitBranch "" .none body s).start
    (visitBranch "" .none body s).stop
  clauses : ∀ w, some w ∈ visitHandlers pos body cs s → Inside g C w.block w.start w.stop
  grows : Builder.Grows ∅ (bodyDone body s) (handlersDone pos body cs s).2
  names : (handlersDone pos body cs s).2.names = s.names
  joined : Kept C ∅ (sectionsDone b pos body cs s)
  new : ∀ q ∈ sectionBranches pos body cs s, ¬ s.func.Has q.block
  has : ∀ q ∈ sectionBranches pos body cs s, (handlersDone pos body cs s).2.func.Has q.block
  nodup : ((sectionBranches pos body cs s).map (·.block)).Nodup
  code : (handlersDone pos body cs s).2.func.code b = s.func.code b
  finished : ∀ q ∈ sectionBranches pos body cs s,
    g.code q.block = (sectionsDone b pos body cs s).func.code q.block

theorem sections_of_inside {body : Node}
    (h : Inside g C b s (sectionsDone b pos body cs s)) : Sections g C b pos body cs s := by
  have ab : ∀ c, Adds {c} (node c body) := fun c => adds_node c body
  have hsteps : SectionSteps b s (branch "" .none (node · body) s).1 (bodyDone body s)
      (handlersDone pos body cs s).1.2.2 (handlersDone pos body cs s).2
      (sectionsDone b pos body cs s) :=
    sectionSteps_guarded b ab cs (fun r => gatherer_clauses pos r cs {}) s
  have hend := Builder.Grows.refl {b} (sectionsDone b pos body cs s)
  have hc₁ := h.captures.left (hsteps.behindBody hend)
  have ha₁ := hsteps.agrees_body h.has hend h.agrees
  obtain ⟨hloose, hkept₁, -⟩ := loose_branch "" .none ab (fun c => settles_node c body C ∅)
    (absurd rfl) h.kept hc₁ ha₁
  have hc₂ := h.captures.left hsteps.join
  have ha₂ := hsteps.agrees_handlers h.has hloose.has hend h.agrees
  obtain ⟨n', u, hS⟩ := secured_handlers cs (gatherer_clauses pos · cs)
    (fun r n hr => collects_clauses pos cs C ∅ hr) hkept₁ hc₂ ha₂
  have hhas₂ := hsteps.has hloose.has fun q hq => (hS.code q hq).1
  have hnd := hsteps.nodup hloose.has hS.nodup
  have hnames : (handlersDone pos body cs s).2.names = s.names := hS.names
  have hM := merged_join hS.kept (by rw [hS.names]; exact h.kept.names)
    (le_trans hsteps.body.func.numRegs hsteps.handlers.func.numRegs) h.kept.names
    (hsteps.handlers.func.has (hsteps.body.func.has h.has)) hnd hhas₂ (hsteps.ne h.has) h.captures
    (hsteps.agrees_join h.has hend h.agrees)
  refine ⟨inside_branch h.kept (absurd rfl) hc₁ ha₁, ?_, hsteps.handlers, hnames,
    hM.kept, hsteps.not_has, hhas₂, hnd, hsteps.code h.has, fun q hq => ?_⟩
  · cases hne : cs.isEmpty with
    | true =>
      rw [List.isEmpty_iff.mp hne]
      exact nofun
    | false => exact inside_handlers hne hkept₁ hc₂ ha₂
  · exact hsteps.finished h.has hend h.agrees hq (hhas₂ q hq)

/-- A node that is lowered into a block of its own, which it ends. -/
theorem inside_ending (hs : Kept C ∅ s) (hc : Captures C (ending (some (node · x)) s).2)
    (ha : Agrees g ∅ s (ending (some (node · x)) s).2) :
    Inside g C ⟨s.func.blocks.size⟩ (newBlock s).2 (node ⟨s.func.blocks.size⟩ x (newBlock s).2).2 := by
  have hhas : (newBlock s).2.func.Has ⟨s.func.blocks.size⟩ := Func.newBlock_has_self _
  have h : Inside g C ⟨s.func.blocks.size⟩ (newBlock s).2
      ((node ⟨s.func.blocks.size⟩ x >>= sealNested ⟨s.func.blocks.size⟩) (newBlock s).2).2 :=
    ⟨hs.congr rfl rfl rfl, hhas, hc, ha.right (grows_newBlock s)⟩
  exact h.fst (by grind)

theorem sound_guarded {body cleanup : Node}
    (h : Inside g C b s (guarded b (node · body) cs (clauses pos · {} cs) (optionalNode cleanup) s).2) :
    ∀ w ∈ visitGuarded b pos body cs cleanup s, w.Sound g := by
  have hb := Set.mem_singleton b
  have ac : ∀ x ∈ optionalNode cleanup, ∀ c, Adds {c} (x c) :=
    of_mem_optionalNode fun c => adds_node c cleanup
  have hg₁ : Builder.Grows {b} s (sectionsDone b pos body cs s) :=
    adds_guardedSections (fun c => adds_node c body) cs (fun r => gatherer_clauses pos r cs {}) s
  have hg₂ : Builder.Grows ∅ (sectionsDone b pos body cs s)
    (ending (optionalNode cleanup) (sectionsDone b pos body cs s)).2 := adds_ending ac _
  have hg₃ : Builder.Grows {b} (ending (optionalNode cleanup) (sectionsDone b pos body cs s)).2
      (guarded b (node · body) cs (clauses pos · {} cs) (optionalNode cleanup) s).2 := by
    rw [guarded_apply]
    exact adds_produce hb _ _
  have hg₂₃ := (hg₂.mono (Set.empty_subset _)).trans hg₃ fun _ hc _ => hc
  have hS := sections_of_inside (h.left hg₂₃)
  intro w hw
  rcases List.mem_append.mp hw with hw | hw
  · rcases List.mem_cons.mp hw with rfl | hw
    · exact ⟨C, hS.inside⟩
    · exact ⟨C, hS.clauses w (List.reduceOption_mem_iff.mp hw)⟩
  · cases hd : cleanup.isAbsent with
    | true =>
      rw [hd] at hw
      cases hw
    | false =>
      rw [hd] at hw
      rw [List.mem_singleton.mp hw]
      have hopt : optionalNode cleanup = some (node · cleanup) := by simp [optionalNode, hd]
      have hend := h.left hg₃
      rw [hopt] at hend
      exact ⟨C, inside_ending hS.joined hend.captures (hend.agrees.right hg₁)⟩

end Lowering

/-! ## Whole functions -/

open Lowering

theorem Visit.Sound.part {g : Func} {v w : Visit} (h : v.Sound g) (hw : w ∈ v.parts) : w.Sound g := by
  obtain ⟨C, h⟩ := h
  obtain ⟨b, x, s⟩ := v
  unfold Visit.stop at h
  unfold Visit.parts at hw
  dsimp only at h hw
  have hb := Set.mem_singleton b
  cases x with
  | absent | number _ _ | string _ _ | word _ _ | func _ _ _ _ | other _ _ => cases hw
  | program _ xs => rw [Lowering.node] at h; exact sound_stmts xs none h w hw
  | list _ xs => rw [Lowering.node] at h; exact sound_stmts xs none h w hw
  | assign _ name value =>
    rw [Lowering.node] at h
    rw [List.mem_singleton.mp hw]
    exact ⟨C, h.fst (by grind)⟩
  | call pos callee xs => rw [Lowering.node] at h; exact sound_call h w hw
  | closure pos params captures body =>
    rw [Lowering.node] at h
    rw [List.mem_singleton.mp hw]
    exact sound_closure h
  | binary pos left op right => rw [Lowering.node] at h; exact sound_binary h w hw
  | choice pos scrutinee cs default =>
    rw [Lowering.node, choice_eq] at h
    have md : Gatherer (addSeparate pos · (optionalNode default)) := fun a =>
      makes_addSeparate pos a (of_mem_optionalNode fun c => adds_node c default)
    have arest : ∀ v : Option Reg, Adds {b} (names >>= fun before => (cases pos {} cs >>=
        (addSeparate pos · (optionalNode default))) >>= dispatch b (operand v) before) := fun v =>
      adds_names.bind fun before => adds_chosen hb (operand v) before ((gatherer_cases pos cs).bind md {})
    rcases List.mem_cons.mp hw with rfl | hw
    · exact ⟨C, h.fst arest⟩
    · exact sound_choice (h.snd ⟨adds_node b scrutinee, arest⟩ (settles_node b scrutinee C ∅ _)) w hw
  | guarded pos body cs cleanup => rw [Lowering.node] at h; exact sound_guarded h w hw
  | ret _ value =>
    rw [Lowering.node] at h
    rw [List.mem_singleton.mp hw]
    exact ⟨C, h.fst (by grind)⟩
  | throw _ value =>
    rw [Lowering.node] at h
    rw [List.mem_singleton.mp hw]
    exact ⟨C, h.fst (by grind)⟩
  | command pos name xs line =>
    rw [Lowering.node] at h
    by_cases hline : line = "" ∨ hasWords line
    · exact sound_command h hline w (by simpa [hline] using hw)
    · simp [hline] at hw
  | invoke _ name xs => rw [Lowering.node] at h; exact sound_issue h w hw

/-- Every node that lowering comes to in the making of a function is sound in it. -/
theorem Visits.sound {f : Func} {v : Visit} (h : Visits f v) : v.Sound f := by
  induction h with
  | part _ hw ih => exact ih.part hw
  | @body d s hfunc hnames hencl hf =>
    have hg := adds_wholeBody s.func (fun c => adds_node c d.body) s
    have henc : (wholeBody s.func (node · d.body) s).2.enclosing = [] := by
      have hgrow := hg.enclosing
      rw [hencl] at hgrow
      exact List.forall₂_nil_left_iff.mp hgrow
    have hparams : ∀ r ∈ s.func.paramRegs, Settled ∅ ∅ s.func.numRegs r := fun r hr => by
      rw [hfunc] at hr ⊢
      exact .inr ⟨(Func.new_paramRegs_inRange _ _ hr).2, id⟩
    have h : Inside f ∅ s.func.entry s (wholeBody s.func (node · d.body) s).2 := by
      refine ⟨⟨by simp [hfunc], by rw [hencl]; trivial, by simp, by simp [hnames]⟩, ?_, ?_, ?_⟩
      · rw [hfunc]
        exact Func.new_has_entry _ _
      · intro r _
        rw [henc]
        exact Iff.rfl
      · rw [hf]
        exact ⟨le_refl _, le_refl _, fun _ _ _ _ h => h, fun _ _ _ _ => rfl⟩
    have hrest := h.snd (by grind) (m := bindAll s.func.params s.func.paramRegs)
      (orders_bindAll s.func.params hparams)
    exact ⟨∅, hrest.fst (by grind)⟩

/-! ## The main function -/

namespace Lowering

theorem func?_main (t : Node) : (program t).1.func? mainName =
    some (wholeBody mainStart.func (node · t) mainStart).2.func := by
  rw [← wholeBody_name t]
  refine (program_sourced t).wellNamed.func? ?_
  rw [program_apply]
  exact Program.mem_add_self _ _

/-- In the making of the main function lowering comes to the tree itself. -/
theorem visits_main {t : Node} {f : Func} (hf : (program t).1.Defines f) (hname : f.name = mainName) :
    Visits f ⟨mainStart.func.entry, t,
      (bindAll mainStart.func.params mainStart.func.paramRegs mainStart).2⟩ := by
  refine .body (d := ⟨mainName, [], t⟩) rfl rfl rfl (Option.some.inj ?_)
  rw [← hf, hname, func?_main]

end Lowering

end ScriptMachine
