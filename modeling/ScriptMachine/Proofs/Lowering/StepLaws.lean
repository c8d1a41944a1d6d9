import ScriptMachine.Lowering.Program
import ScriptMachine.Proofs.Lowering.Shape

/-!
# Laws of steps

Lowering a tree is composed of a few kinds of steps. `Build.TreeLaw ds P A` says that these steps have
a property `P b`, where `b` is the block that they add to, and that steps which collect alternatives
have a property `A`. Then lowering a tree has it (`Build.TreeLaw.node`), if the functions that the tree
declares are among `ds`.

`Build.Law ds P` is for properties that do not depend on the block: it asks for the primitive steps
only, and what is composed of them follows (`Build.Law.tree`).
-/

namespace ScriptMachine

/-- A function as a tree declares it. -/
structure Declaration where
  name : String
  params : List String
  body : Node

mutual

/-- The functions declared anywhere in the code of a tree. -/
def Node.declarations : Node → List Declaration
  | .absent | .number .. | .string .. | .word .. | .other .. => []
  | .program _ xs | .list _ xs | .command _ _ xs _ | .invoke _ _ xs => Node.declarationsOfList xs
  | .func _ name params body => ⟨name, params, body⟩ :: body.declarations
  | .call _ callee xs => callee.declarations ++ Node.declarationsOfList xs
  | .assign _ _ x | .ret _ x | .throw _ x | .closure _ _ _ x => x.declarations
  | .binary _ left _ right => left.declarations ++ right.declarations
  | .choice _ scrutinee cs default =>
    scrutinee.declarations ++ Node.declarationsOfCases cs ++ default.declarations
  | .guarded _ body cs cleanup =>
    body.declarations ++ Node.declarationsOfClauses cs ++ cleanup.declarations

def Node.declarationsOfList : List Node → List Declaration
  | [] => []
  | x :: xs => x.declarations ++ Node.declarationsOfList xs

def Node.declarationsOfCases : List Case → List Declaration
  | [] => []
  | .mk _ body :: cs => body.declarations ++ Node.declarationsOfCases cs

def Node.declarationsOfClauses : List Clause → List Declaration
  | [] => []
  | .mk _ _ body :: cs => body.declarations ++ Node.declarationsOfClauses cs

end

/-- The steps that lower the body of a function. -/
def Declaration.steps (d : Declaration) : Build Unit :=
  Lowering.wholeBody (Func.new d.name d.params) (Lowering.node · d.body)

/-! ## Trees -/

/-- The instruction of an operator is plain and reads its operands. -/
theorem Lowering.operator?_spec {op : String} {instr : Reg → Value → Value → Instr}
    (h : operator? op = some instr) (r : Reg) (v w : Value) :
    (instr r v w).Plain ∧ (instr r v w).out = r ∧ (instr r v w).ins = [v, w] := by
  unfold operator? at h
  split at h
  · cases h
    exact ⟨trivial, rfl, rfl⟩
  · cases h
    exact ⟨trivial, rfl, rfl⟩
  · obtain ⟨o, -, rfl⟩ := Option.map_eq_some_iff.mp h
    exact ⟨trivial, rfl, rfl⟩

/-- A property `P b` of steps that add to the block `b`, and a property `A a` of steps that add to the
alternatives `a`, which all have that lowering a tree is composed of. -/
structure Build.TreeLaw (ds : List Declaration) (P : BlockId → ∀ {α : Type}, Build α → Prop)
    (A : Lowering.Arms → Build Lowering.Arms → Prop) : Prop where
  pure : ∀ {b} {α : Type} (a : α), P b (Pure.pure a : Build α)
  bind : ∀ {b} {α β : Type} {m : Build α} {f : α → Build β}, P b m → (∀ a, P b (f a)) → P b (m >>= f)
  complain : ∀ {b} pos c, P b (complain pos c)
  terminated : ∀ b, P b (terminated b)
  lookup : ∀ {b} name, P b (lookup name)
  bindName : ∀ {b} name r, P b (Build.bind name r)
  inClosure : ∀ {b}, P b inClosure
  load : ∀ b v, P b (load b v)
  produce : ∀ b {x : Reg → Instr}, (∀ r, (x r).Plain) → (∀ r, (x r).out = r) → P b (produce b x)
  leave : ∀ b how v, P b (emit b (.leave how v))
  circuit : ∀ {b} kind left {right}, P b right → P b (Lowering.circuit b kind left right)
  closure : ∀ {b} pos params captures {body : BlockId → Build (Option Reg)}, (∀ c, P c (body c)) →
    P b (Lowering.closure b pos params captures body)
  function : ∀ {b}, ∀ d ∈ ds, d.name ≠ mainName → d.name ≠ "" → (∀ c, P c (Lowering.node c d.body)) →
    P b (function (Func.new d.name d.params) d.steps)
  done : ∀ a, A a (Pure.pure a)
  addCase : ∀ pos a p {body : BlockId → Build (Option Reg)} {f}, (∀ c, P c (body c)) →
    (∀ a', A a' (f a')) → A a (Lowering.addCase pos a p body >>= f)
  addClause : ∀ pos caught a name p {body : BlockId → Build (Option Reg)} {f}, (∀ c, P c (body c)) →
    (∀ a', A a' (f a')) → A a (Lowering.addClause pos caught a name p body >>= f)
  choice : ∀ {b} pos {scrutinee cases default}, P b scrutinee → A {} cases →
    (∀ body ∈ default, ∀ c, P c (body c)) → P b (Lowering.choice b pos scrutinee cases default)
  guarded : ∀ {b} cs {body : BlockId → Build (Option Reg)} {lowered cleanup}, (∀ c, P c (body c)) →
    (∀ r, A {} (lowered r)) → (∀ body ∈ cleanup, ∀ c, P c (body c)) →
    P b (Lowering.guarded b body cs lowered cleanup)

namespace Build.TreeLaw

variable {ds : List Declaration} {P : BlockId → ∀ {α : Type}, Build α → Prop}
  {A : Lowering.Arms → Build Lowering.Arms → Prop}

theorem optional {x : Node} (h : ∀ c, P c (Lowering.node c x)) :
    ∀ body ∈ (if x.isAbsent then none else some (Lowering.node · x)), ∀ c, P c (body c) := by
  intro body hbody
  split at hbody
  · cases hbody
  · cases hbody
    exact h

variable (law : TreeLaw ds P A)
include law

section
variable {b : BlockId} {args : Build (List Value)} {value : Build (Option Reg)}

theorem number (pos : Position) (text : String) : P b (Lowering.number pos text) := by
  unfold Lowering.number
  split
  · exact law.pure _
  · exact law.bind (law.complain pos _) fun _ => law.pure _

theorem constant (b : BlockId) (v : Value) : P b (Lowering.constant b v) :=
  law.bind (law.load b v) fun _ => law.pure _

theorem degrade (b : BlockId) (pos : Position) (c : Complaint) : P b (Lowering.degrade b pos c) :=
  law.bind (law.complain pos c) fun _ => law.constant b .null

theorem word (b : BlockId) (name : String) : P b (Lowering.word b name) := by
  refine law.bind (law.lookup name) fun r => ?_
  split
  · exact law.pure _
  · exact law.constant b _

theorem issue (name : String) (words : List String) (h : P b args) :
    P b (Lowering.issue b name words args) :=
  law.bind h fun _ => law.produce b (fun _ => trivial) fun _ => rfl

theorem command (pos : Position) (name line : String) (h : P b args) :
    P b (Lowering.command b pos name line args) := by
  unfold Lowering.command
  split
  · exact law.issue _ _ h
  · split
    · exact law.degrade b _ _
    · exact law.degrade b _ _
    · split <;> exact law.issue _ _ h

theorem callHeld (callee : Reg) (h : P b args) : P b (Lowering.callHeld b callee args) :=
  law.bind h fun _ => law.produce b (fun _ => trivial) fun _ => rfl

theorem call (pos : Position) (callee : Node) (hv : P b value) (h : P b args) :
    P b (Lowering.call b pos callee value args) := by
  unfold Lowering.call
  split
  · refine law.bind (law.lookup _) fun r => ?_
    split
    · exact law.callHeld _ h
    · exact law.bind h fun _ => law.produce b (fun _ => trivial) fun _ => rfl
  · refine law.bind hv fun r => ?_
    split
    · exact law.callHeld _ h
    · exact law.degrade b _ _

theorem assign (name : String) (hv : P b value) : P b (Lowering.assign b name value) := by
  refine law.bind hv fun r => law.bind ?_ fun r => law.bind (law.bindName name r) fun _ => law.pure _
  cases r with
  | some r => exact law.pure r
  | none => exact law.load b .null

theorem binary (pos : Position) (op : String) {left right : Build (Option Reg)} (hl : P b left)
    (hr : P b right) : P b (Lowering.binary b pos op left right) := by
  refine law.bind hl fun l => ?_
  split
  · exact law.circuit _ l hr
  · split
    · exact law.degrade b _ _
    · rename_i x hx
      exact law.bind hr fun r => law.produce b (fun d => (Lowering.operator?_spec hx d _ _).1) fun d =>
        (Lowering.operator?_spec hx d _ _).2.1

end

mutual

/-- Lowering a tree has every property of this kind. -/
theorem node (b : BlockId) (x : Node) (hx : x.declarations ⊆ ds) : P b (Lowering.node b x) := by
  cases x with
  | absent => rw [Lowering.node]; exact law.pure none
  | program _ xs =>
    rw [Node.declarations] at hx
    rw [Lowering.node]
    exact stmts b none xs hx
  | list _ xs =>
    rw [Node.declarations] at hx
    rw [Lowering.node]
    exact stmts b none xs hx
  | number pos text =>
    rw [Lowering.node]
    exact law.bind (law.number pos text) fun v => law.constant b v
  | string _ v => rw [Lowering.node]; exact law.constant b _
  | word _ name => rw [Lowering.node]; exact law.word b name
  | assign _ name value =>
    rw [Node.declarations] at hx
    rw [Lowering.node]
    exact law.assign name (node b value hx)
  | func pos name params body =>
    rw [Node.declarations] at hx
    obtain ⟨hd, hbody⟩ := List.cons_subset.mp hx
    rw [Lowering.node]
    refine law.bind ?_ fun _ => law.pure none
    unfold Lowering.function
    split
    · exact law.complain pos _
    · rename_i hname
      obtain ⟨hmain, hempty⟩ := not_or.mp hname
      exact law.function ⟨name, params, body⟩ hd hmain hempty fun c => node c body hbody
  | call pos callee xs =>
    rw [Node.declarations] at hx
    obtain ⟨hcallee, hxs⟩ := List.append_subset.mp hx
    rw [Lowering.node]
    exact law.call pos callee (node b callee hcallee) (args b xs hxs)
  | closure pos params captures body =>
    rw [Node.declarations] at hx
    rw [Lowering.node]
    exact law.closure pos params captures fun c => node c body hx
  | binary pos left op right =>
    rw [Node.declarations] at hx
    obtain ⟨hleft, hright⟩ := List.append_subset.mp hx
    rw [Lowering.node]
    exact law.binary pos op (node b left hleft) (node b right hright)
  | choice pos scrutinee cs default =>
    rw [Node.declarations] at hx
    obtain ⟨hx, hdefault⟩ := List.append_subset.mp hx
    obtain ⟨hscrutinee, hcs⟩ := List.append_subset.mp hx
    rw [Lowering.node]
    exact law.choice pos (node b scrutinee hscrutinee) (cases pos {} cs hcs)
      (optional fun c => node c default hdefault)
  | guarded pos body cs cleanup =>
    rw [Node.declarations] at hx
    obtain ⟨hx, hcleanup⟩ := List.append_subset.mp hx
    obtain ⟨hbody, hcs⟩ := List.append_subset.mp hx
    rw [Lowering.node]
    exact law.guarded cs (fun c => node c body hbody) (fun r => clauses pos r {} cs hcs)
      (optional fun c => node c cleanup hcleanup)
  | ret _ value =>
    rw [Node.declarations] at hx
    rw [Lowering.node]
    exact law.bind (node b value hx) fun _ => law.bind (law.bind law.inClosure fun _ => law.leave b _ _)
      fun _ => law.pure none
  | throw _ value =>
    rw [Node.declarations] at hx
    rw [Lowering.node]
    exact law.bind (node b value hx) fun _ => law.bind (law.leave b _ _) fun _ => law.pure none
  | command pos name xs line =>
    rw [Node.declarations] at hx
    rw [Lowering.node]
    exact law.command pos name line (args b xs hx)
  | invoke _ name xs =>
    rw [Node.declarations] at hx
    rw [Lowering.node]
    exact law.issue name [] (args b xs hx)
  | other pos type => rw [Lowering.node]; exact law.degrade b pos _

theorem stmts (b : BlockId) (last : Option Reg) (xs : List Node)
    (hxs : Node.declarationsOfList xs ⊆ ds) : P b (Lowering.stmts b last xs) := by
  cases xs with
  | nil => rw [Lowering.stmts]; exact law.pure last
  | cons x xs =>
    rw [Node.declarationsOfList] at hxs
    obtain ⟨hx, hxs⟩ := List.append_subset.mp hxs
    rw [Lowering.stmts]
    refine law.bind (node b x hx) fun r => law.bind (law.terminated b) fun _ => ?_
    split
    · exact law.pure r
    · exact stmts b r xs hxs

theorem args (b : BlockId) (xs : List Node) (hxs : Node.declarationsOfList xs ⊆ ds) :
    P b (Lowering.args b xs) := by
  cases xs with
  | nil => rw [Lowering.args]; exact law.pure []
  | cons x xs =>
    rw [Node.declarationsOfList] at hxs
    obtain ⟨hx, hxs⟩ := List.append_subset.mp hxs
    rw [Lowering.args]
    exact law.bind (node b x hx) fun _ => law.bind (args b xs hxs) fun _ => law.pure _

theorem cases (pos : Position) (a : Lowering.Arms) (cs : List Case)
    (hcs : Node.declarationsOfCases cs ⊆ ds) : A a (Lowering.cases pos a cs) := by
  cases cs with
  | nil => rw [Lowering.cases]; exact law.done a
  | cons c cs =>
    obtain ⟨p, body⟩ := c
    rw [Node.declarationsOfCases] at hcs
    obtain ⟨hbody, hcs⟩ := List.append_subset.mp hcs
    rw [Lowering.cases]
    exact law.addCase pos a p (fun c => node c body hbody) fun a' => cases pos a' cs hcs

theorem clauses (pos : Position) (caught : Reg) (a : Lowering.Arms) (cs : List Clause)
    (hcs : Node.declarationsOfClauses cs ⊆ ds) : A a (Lowering.clauses pos caught a cs) := by
  cases cs with
  | nil => rw [Lowering.clauses]; exact law.done a
  | cons c cs =>
    obtain ⟨name, p, body⟩ := c
    rw [Node.declarationsOfClauses] at hcs
    obtain ⟨hbody, hcs⟩ := List.append_subset.mp hcs
    rw [Lowering.clauses]
    exact law.addClause pos caught a name p (fun c => node c body hbody) fun a' =>
      clauses pos caught a' cs hcs

end

end Build.TreeLaw

/-! ## Primitive steps -/

/-- A property that all primitive steps have, and all that is composed of steps with it. Functions
are built from the declarations `ds` only, and only under names that a function may have. -/
structure Build.Law (ds : List Declaration) (P : ∀ {α : Type}, Build α → Prop) : Prop where
  pure : ∀ {α : Type} (a : α), P (Pure.pure a : Build α)
  bind : ∀ {α β : Type} {m : Build α} {f : α → Build β}, P m → (∀ a, P (f a)) → P (m >>= f)
  newReg : P newReg
  newBlock : P newBlock
  emit : ∀ b x, P (emit b x)
  length : ∀ b, P (length b)
  replace : ∀ b i x, P (replace b i x)
  terminated : ∀ b, P (terminated b)
  lookup : ∀ name, P (lookup name)
  bindName : ∀ name r, P (Build.bind name r)
  names : P names
  inClosure : P inClosure
  lookupOutside : ∀ name, P (lookupOutside name)
  capture : ∀ name v, P (capture name v)
  complain : ∀ pos c, P (complain pos c)
  isolated : ∀ {α : Type} {m : Build α}, P m → P (isolated m)
  enclosed : ∀ {α : Type} {m : Build α}, P m → P (enclosed m)
  function : ∀ d ∈ ds, d.name ≠ mainName → d.name ≠ "" → P d.steps →
    P (function (Func.new d.name d.params) d.steps)

namespace Build.Law

variable {ds : List Declaration} {P : ∀ {α : Type}, Build α → Prop}

theorem either {α : Type} {c : Prop} [Decidable c] {m m' : Build α} (h : P m) (h' : P m') :
    P (if c then m else m') := by
  split
  · exact h
  · exact h'

variable (law : Law ds P)
include law

/-! ## Composed steps -/

theorem newRegs (ns : List String) : P (Build.newRegs ns) := by
  induction ns with
  | nil => exact law.pure []
  | cons n ns ih => exact law.bind law.newReg fun _ => law.bind ih fun _ => law.pure _

theorem bindAll (ns : List String) (rs : List Reg) : P (Build.bindAll ns rs) := by
  induction ns generalizing rs with
  | nil => exact law.pure ()
  | cons n ns ih =>
    cases rs with
    | nil => exact law.pure ()
    | cons r rs => exact law.bind (law.bindName n r) fun _ => ih rs

theorem emitAll (b : BlockId) (xs : List Instr) : P (Build.emitAll b xs) := by
  induction xs with
  | nil => exact law.pure ()
  | cons x xs ih => exact law.bind (law.emit b x) fun _ => ih

theorem load (b : BlockId) (v : Value) : P (Build.load b v) :=
  law.bind law.newReg fun _ => law.bind (law.emit b _) fun _ => law.pure _

theorem produce (b : BlockId) (x : Reg → Instr) : P (Build.produce b x) :=
  law.bind law.newReg fun _ => law.bind (law.emit b _) fun _ => law.pure _

section
variable {b : BlockId} {body : BlockId → Build (Option Reg)} {args : Build (List Value)}
  {value : Build (Option Reg)}

theorem branch (own : String) (caught : Reg) (h : ∀ c, P (body c)) :
    P (Build.branch own caught body) := by
  refine law.bind law.newBlock fun c => law.bind (law.isolated ?_) fun _ => law.pure _
  split
  · exact law.bind (law.bindName own caught) fun _ => h c
  · exact h c

theorem openBranches (brs : List Branch) : P (Build.openBranches brs) := by
  induction brs with
  | nil => exact law.pure []
  | cons br brs ih =>
    exact law.bind ih fun _ => law.bind (law.terminated br.block) fun _ => law.pure _

theorem startJoins (b : BlockId) (before : Names) (ns : List String) :
    P (Build.startJoins b before ns) := by
  induction ns with
  | nil => exact law.pure []
  | cons n ns ih =>
    refine law.bind law.newReg fun _ => law.bind ?_ fun _ => law.bind (law.emit b _)
      fun _ => law.bind ih fun _ => law.pure _
    unfold lookupBefore
    split
    · exact law.pure _
    · exact law.lookup n

theorem closeBranches (before joins : Names) (brs : List Branch) :
    P (Build.closeBranches before joins brs) := by
  induction brs with
  | nil => exact law.pure ()
  | cons br brs ih => exact law.bind (law.emitAll _ _) fun _ => ih

theorem join (b : BlockId) (before : Names) (brs : List Branch) : P (Build.join b before brs) :=
  law.bind (law.openBranches brs) fun opened => law.bind (law.startJoins b before _) fun joins =>
    law.bind (law.closeBranches before joins opened) fun _ => law.bindAll _ _

/-! ## Combinators -/

theorem number (pos : Position) (text : String) : P (Lowering.number pos text) := by
  unfold Lowering.number
  split
  · exact law.pure _
  · exact law.bind (law.complain pos _) fun _ => law.pure _

theorem pattern (p : Node) : P (Lowering.pattern p) := by
  unfold Lowering.pattern
  split
  · exact law.number _ _
  · exact law.pure _
  · exact law.pure _
  · exact law.bind (law.complain _ _) fun _ => law.pure _

theorem leave (b : BlockId) (v : Value) : P (Lowering.leave b v) :=
  law.bind law.inClosure fun _ => law.emit b _

theorem sealBody (b : BlockId) (last : Option Reg) : P (Lowering.sealBody b last) :=
  law.bind (law.terminated b) fun _ => either (law.pure _) (law.leave b _)

theorem wholeBody (f : Func) (h : ∀ c, P (body c)) : P (Lowering.wholeBody f body) :=
  law.bind (law.bindAll _ _) fun _ => law.bind (h _) fun _ => law.sealBody _ _

theorem circuit (kind : Circuit) (left : Option Reg) (hv : P value) :
    P (Lowering.circuit b kind left value) :=
  law.bind law.newReg fun dest => law.bind (law.length b) fun i => law.bind (law.emit b _) fun _ =>
    law.bind (law.isolated hv) fun r =>
      law.bind (law.emitAll b (Lowering.landing dest r.1)) fun _ =>
        law.bind (law.length b) fun _ => law.bind (law.replace b i _) fun _ => law.pure _

theorem captureListed (pos : Position) (ns : List String) : P (Lowering.captureListed pos ns) := by
  induction ns with
  | nil => exact law.pure ()
  | cons n ns ih =>
    refine law.bind (law.bind (law.lookupOutside n) fun r => ?_) fun _ => ih
    split
    · exact law.capture n _
    · exact law.bind (law.complain pos _) fun _ => law.capture n _

theorem closure (pos : Position) (params captures : List String) (h : ∀ c, P (body c)) :
    P (Lowering.closure b pos params captures body) := by
  refine law.bind law.newBlock fun c => law.bind (law.enclosed ?_) fun _ => law.produce b _
  exact law.bind (law.newRegs params) fun regs => law.bind (law.bindAll params regs) fun _ =>
    law.bind (law.captureListed pos captures) fun _ => law.bind (h c) fun r =>
      law.bind (law.sealBody c r) fun _ => law.pure regs

theorem addDefault (pos : Position) (c : Complaint) (own : String) (caught : Reg)
    (a : Lowering.Arms) (h : ∀ c, P (body c)) : P (Lowering.addDefault pos c own caught a body) :=
  either (law.bind (law.complain pos c) fun _ => law.pure a)
    (law.bind (law.branch own caught h) fun _ => law.pure _)

theorem addCase (pos : Position) (a : Lowering.Arms) (p : Node) (h : ∀ c, P (body c)) :
    P (Lowering.addCase pos a p body) :=
  either (law.addDefault pos _ _ _ a h)
    (law.bind (law.pattern p) fun _ => law.bind (law.branch _ _ h) fun _ => law.pure _)

theorem addClause (pos : Position) (caught : Reg) (a : Lowering.Arms) (name : String) (p : Node)
    (h : ∀ c, P (body c)) : P (Lowering.addClause pos caught a name p body) :=
  either (law.addDefault pos _ _ _ a h)
    (law.bind (law.branch name caught h) fun _ => law.bind (law.pattern p) fun _ => law.pure _)

theorem chooseClause (b : BlockId) (caught : Reg) (a : Lowering.Arms) :
    P (Lowering.chooseClause b caught a) :=
  law.bind (either (law.pure _) (law.bind law.newBlock fun c => law.bind (law.emit c _) fun _ =>
      law.pure c)) fun _ =>
    law.bind law.newReg fun _ => law.bind (law.emit b _) fun _ => law.emit b _

theorem handlers (cs : List Clause) {lowered : Reg → Build Lowering.Arms}
    (h : ∀ r, P (lowered r)) : P (Lowering.handlers cs lowered) := by
  refine either (law.pure _) (law.bind law.newReg fun r => ?_)
  refine either (law.bind (h r) fun _ => law.pure _) ?_
  exact law.bind law.newBlock fun c => law.bind (h r) fun a =>
    law.bind (law.chooseClause c r a) fun _ => law.pure _

theorem choice (pos : Position) {cases : Build Lowering.Arms}
    {default : Option (BlockId → Build (Option Reg))} (hv : P value) (hc : P cases)
    (hd : ∀ body ∈ default, ∀ c, P (body c)) : P (Lowering.choice b pos value cases default) := by
  refine law.bind hv fun v => law.bind law.names fun before => law.bind hc fun a =>
    law.bind ?_ fun a => law.bind (law.join b before _) fun _ => law.produce b _
  cases default with
  | none => exact law.pure a
  | some body => exact law.addDefault pos _ _ _ a (hd body rfl)

theorem guarded (cs : List Clause) {lowered : Reg → Build Lowering.Arms}
    {cleanup : Option (BlockId → Build (Option Reg))} (h : ∀ c, P (body c))
    (hl : ∀ r, P (lowered r)) (hc : ∀ body ∈ cleanup, ∀ c, P (body c)) :
    P (Lowering.guarded b body cs lowered cleanup) := by
  refine law.bind law.names fun before => law.bind (law.branch _ _ h) fun br =>
    law.bind (law.handlers cs hl) fun x => law.bind (law.join b before _) fun _ =>
      law.bind ?_ fun _ => law.produce b _
  cases cleanup with
  | none => exact law.pure _
  | some body =>
    exact law.bind law.newBlock fun c => law.bind (hc body rfl c) fun r =>
      law.bind (law.bind (law.terminated c) fun _ => either (law.pure _) (law.emit c _))
        fun _ => law.pure _

end

/-- A property of steps that does not depend on the block is one of trees. -/
theorem tree : TreeLaw ds (fun _ {_} m => P m) fun _ m => P m where
  pure := law.pure
  bind := law.bind
  complain := law.complain
  terminated := law.terminated
  lookup := law.lookup
  bindName := law.bindName
  inClosure := law.inClosure
  load := law.load
  produce b _ _ _ := law.produce b _
  leave b _ _ := law.emit b _
  circuit kind left _ := law.circuit kind left
  closure pos params captures _ := law.closure pos params captures
  function d hd hmain hempty h := law.function d hd hmain hempty (law.wholeBody _ h)
  done := law.pure
  addCase pos a p _ _ h hf := law.bind (law.addCase pos a p h) hf
  addClause pos caught a name p _ _ h hf := law.bind (law.addClause pos caught a name p h) hf
  choice pos _ _ _ := law.choice pos
  guarded cs _ _ _ := law.guarded cs

theorem node (b : BlockId) (x : Node) (hx : x.declarations ⊆ ds) : P (Lowering.node b x) :=
  law.tree.node b x hx

end Build.Law

end ScriptMachine
