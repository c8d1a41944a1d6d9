import ScriptMachine.Proofs.Lowering.GuardShape

/-!
# The shape of lowered trees

Every node lowers to code with a shape, and the flow of the code is that of the tree
(`lowers_node`): by induction on the tree, with the law of each construct from the modules before.
-/

namespace ScriptMachine.Lowering

open Build

variable {g : Func} {quiet : Prop}

/-! ## Parts that may be absent -/

theorem flow_of_isAbsent {x : Node} (h : x.isAbsent = true) : x.flow = .live := by
  cases x <;> simp_all [Node.isAbsent, Node.flow]

/-- The steps of a part that may be absent. -/
def optionalNode (x : Node) : Option (BlockId → Build (Option Reg)) :=
  if x.isAbsent then none else some (node · x)

theorem of_mem_optionalNode {x : Node} {P : (BlockId → Build (Option Reg)) → Prop}
    (h : P (node · x)) : ∀ body ∈ optionalNode x, P body := by
  intro body hbody
  unfold optionalNode at hbody
  split at hbody
  · cases hbody
  · cases hbody
    exact h

theorem flow_of_optionalNode {x : Node} (h : optionalNode x = none) : x.flow ≠ .broken := by
  unfold optionalNode at h
  split at h
  · rename_i ha
    simp [flow_of_isAbsent ha]
  · cases h

/-- A single clause that takes everything makes no arm. -/
theorem arms_of_isSole {cs : List Clause} (h : isSole cs = true) (pos : Position) (r : Reg)
    (s : Builder) : (clauses pos r {} cs s).1.arms = [] := by
  unfold isSole at h
  split at h
  · simp [clauses, addClause, h, addDefault, Arms.addDefault]
  · cases h

/-! ## Functions -/

/-- The code of another function is none of this one's. -/
theorem lowers_func {k : Context} {b : BlockId} {D : Set Reg} {e : Flow}
    {body : BlockId → Build (Option Reg)} (ab : ∀ c, Adds {c} (body c)) (pos : Position)
    (name : String) (params : List String) :
    Lowers g k quiet b D e (function pos name params body >>= fun _ => pure none) .live := by
  have hfollows : Flow.Follows quiet .live e none e :=
    ⟨Flow.Persists.refl e, fun h _ => h, fun _ _ => rfl⟩
  refine Shaped.bind (by grind) (Q := fun _ D' e' => D' = D ∧ e' = e) ?_ ?_
  · unfold function
    split
    · exact (shaped_complain pos _).post fun _ _ _ h => h.2
    · exact shaped_function _ _
  · rintro _ D' e' - ⟨rfl, rfl⟩
    exact shaped_pure ⟨trivial, hfollows⟩

/-! ## Trees -/

theorem gatherer_cases (pos : Position) (cs : List Case) : Gatherer (cases pos · cs) :=
  fun a => makes_cases pos a cs

theorem gatherer_clauses (pos : Position) (caught : Reg) (cs : List Clause) :
    Gatherer (clauses pos caught · cs) :=
  fun a => makes_clauses pos caught a cs

mutual

theorem lowers_node (b : BlockId) (x : Node) (k : Context) (D : Set Reg) (e : Flow) :
    Lowers g k quiet b D e (node b x) x.flow := by
  cases x with
  | absent =>
    rw [node, Node.flow]
    exact shaped_pure ⟨trivial, ⟨Flow.Persists.refl e, fun h _ => h, fun _ _ => rfl⟩⟩
  | program _ xs => rw [node, Node.flow]; exact lowers_stmts b xs k none D e trivial
  | list _ xs => rw [node, Node.flow]; exact lowers_stmts b xs k none D e trivial
  | number pos text => rw [node, Node.flow]; exact lowers_number pos text
  | string _ v => rw [node, Node.flow]; exact lowers_constant trivial
  | word _ name => rw [node, Node.flow]; exact lowers_word name
  | assign _ name value =>
    rw [node, Node.flow]
    exact lowers_assign (by grind) name (lowers_node b value k D e)
  | func pos name params body =>
    rw [node, Node.flow]
    exact lowers_func (by grind) pos name params
  | call pos callee xs =>
    rw [node, Node.flow]
    exact lowers_call (by grind) pos (lowers_node b callee k D e) (lowersAll_args b xs k)
  | closure pos params captures body =>
    rw [node, Node.flow]
    exact lowers_closure (by grind) pos params captures fun c => lowers_node c body ⟨true, false⟩
  | binary pos left op right =>
    rw [node, Node.flow]
    exact lowers_binary (by grind) pos op (lowers_node b left k D e) (lowers_node b right k)
  | choice pos scrutinee cs default =>
    rw [node, Node.flow]
    have hd : ∀ body ∈ optionalNode default, ∀ c D₁ e₁,
        Lowers g ⟨k.closure, true⟩ quiet c D₁ e₁ (body c) default.flow :=
      of_mem_optionalNode fun c => lowers_node c default ⟨k.closure, true⟩
    exact lowers_choice (by grind) pos (lowers_node b scrutinee k D e) (gatherer_cases pos cs)
      (gathers_cases pos cs k)
      (of_mem_optionalNode fun c => adds_node c default) hd flow_of_optionalNode
  | guarded pos body cs cleanup =>
    rw [node, Node.flow]
    have hc : ∀ body ∈ optionalNode cleanup, ∀ c D₁ e₁,
        Lowers g ⟨k.closure, true⟩ quiet c D₁ e₁ (body c) cleanup.flow :=
      of_mem_optionalNode fun c => lowers_node c cleanup ⟨k.closure, true⟩
    exact lowers_guarded (fun c => adds_node c body)
      (fun c => lowers_node c body ⟨k.closure, true⟩) cs (gatherer_clauses pos · cs)
      (fun r => gathers_clauses pos r cs k (Set.mem_insert r D))
      (fun h r s => arms_of_isSole h pos r s)
      (fun h => by rw [List.isEmpty_iff.mp h, Node.clausesSound])
      (of_mem_optionalNode fun c => adds_node c cleanup) hc flow_of_optionalNode
  | ret _ value =>
    rw [node, Node.flow]
    exact lowers_exit (leave b) (by grind) shaped_leave (by grind) (lowers_node b value k D e)
  | throw _ value =>
    rw [node, Node.flow]
    exact lowers_exit (fun v => emit b (.leave .throw v)) (by grind) (shaped_emit_leave .throw trivial)
      (by grind) (lowers_node b value k D e)
  | command pos name xs line =>
    rw [node, Node.flow]
    exact lowers_command (by grind) pos name line (lowersAll_args b xs k D e)
  | invoke _ name xs =>
    rw [node, Node.flow]
    exact lowers_issue (by grind) name [] (lowersAll_args b xs k D e)
  | other pos type => rw [node, Node.flow]; exact lowers_degrade pos _

theorem lowers_stmts (b : BlockId) (xs : List Node) (k : Context) (last : Option Reg) (D : Set Reg)
    (e : Flow) (hlast : Ready D (operand last)) :
    Lowers g k quiet b D e (stmts b last xs) (Node.flowOfStmts xs) := by
  cases xs with
  | nil =>
    rw [stmts, Node.flowOfStmts]
    exact shaped_pure ⟨hlast, ⟨Flow.Persists.refl e, fun h _ => h, fun h h' => by simp [h] at h'⟩⟩
  | cons x xs =>
    rw [stmts]
    refine Shaped.bind (by grind) (lowers_node b x k D e) ?_
    rintro r D₁ e₁ - ⟨hr, hf⟩
    refine shaped_terminated.bind (by grind) ?_
    rintro t D₂ e₂ - ⟨hends, hgoes, rfl, rfl⟩
    cases t with
    | true => exact shaped_pure ⟨hr, hf.drop_stmts (hends rfl)⟩
    | false =>
      refine Shaped.post (lowers_stmts b xs k r D₂ e₂ hr) ?_
      rintro q D' e' ⟨hq, hf'⟩
      exact ⟨hq, hf.then_stmts (hgoes rfl) hf'⟩

theorem lowersAll_args (b : BlockId) (xs : List Node) (k : Context) (D : Set Reg) (e : Flow) :
    LowersAll g k quiet b D e (args b xs) (Node.allLive xs = true) := by
  cases xs with
  | nil =>
    rw [args, Node.allLive]
    exact shaped_pure ⟨by simp, (Flow.Lives.refl quiet e).congr (by simp)⟩
  | cons x xs =>
    rw [args, Node.allLive]
    refine Shaped.bind (by grind) (lowers_node b x k D e) ?_
    rintro r D₁ e₁ - ⟨hr, hf⟩
    refine Shaped.bind (by grind) (lowersAll_args b xs k D₁ e₁) ?_
    rintro vs D₂ e₂ hD₂ ⟨hvs, hl⟩
    refine shaped_pure ⟨?_, (hf.lives.trans hl).congr (by simp)⟩
    intro v hv
    rcases List.mem_cons.mp hv with rfl | hv
    · exact hr.mono hD₂
    · exact hvs v hv

theorem gathers_cases (pos : Position) (cs : List Case) (k : Context) (D : Set Reg) :
    Gathers g k quiet D (cases pos · cs) (Node.casesSound cs = true) := by
  cases cs with
  | nil => exact gathers_pure.congr (by simp [Node.casesSound])
  | cons c cs =>
    obtain ⟨p, body⟩ := c
    have hcase := gathers_addCase (D := D) (fun c => adds_node c body)
      (fun c => lowers_node c body ⟨k.closure, true⟩) pos p
    exact (hcase.bind (fun a => makes_addCase pos a p (by grind))
      (gathers_cases pos cs k D) (gatherer_cases pos cs)).congr (by simp [Node.casesSound])

theorem gathers_clauses (pos : Position) (caught : Reg) (cs : List Clause) (k : Context)
    {D : Set Reg} (hcaught : caught ∈ D) :
    Gathers g k quiet D (clauses pos caught · cs) (Node.clausesSound cs = true) := by
  cases cs with
  | nil => exact gathers_pure.congr (by simp [Node.clausesSound])
  | cons c cs =>
    obtain ⟨name, p, body⟩ := c
    have hclause := gathers_addClause (fun c => adds_node c body)
      (fun c => lowers_node c body ⟨k.closure, true⟩) pos hcaught name p
    exact (hclause.bind (fun a => makes_addClause pos caught a name p (by grind))
      (gathers_clauses pos caught cs k hcaught) (gatherer_clauses pos caught cs)).congr
        (by simp [Node.clausesSound])

end

end ScriptMachine.Lowering
