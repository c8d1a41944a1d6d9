import ScriptMachine.Proofs.Lowering.Declared
import ScriptMachine.Proofs.Lowering.TreeFlow

/-!
# Where returns and throws stand

A return or a throw is in statement position if it is an element of a statement list or a body, and
is not inside a value that its block goes on to use: an operand, an argument, a callee, a scrutinee,
or what is assigned, returned or thrown. The bodies of functions, closures, cases and guarded
sections are blocks of their own, so inside them statement position starts anew.

If all returns and throws of a tree are in statement position, no block of its code is broken.
-/

namespace ScriptMachine

/-- What a node stands for in its block: a statement, or a value that the block goes on to use. -/
inductive Place where
  | statement | value
deriving DecidableEq, Repr

mutual

/-- All returns and throws in the code of a node at a place are in statement position. -/
def Node.exitsPlaced (p : Place) : Node → Bool
  | .absent | .number .. | .string .. | .word .. | .other .. => true
  | .program _ xs | .list _ xs => Node.allPlaced p xs
  | .ret _ x | .throw _ x => p = .statement && x.exitsPlaced .value
  | .assign _ _ x => x.exitsPlaced .value
  | .func _ _ _ body | .closure _ _ _ body => body.exitsPlaced .statement
  | .call _ callee xs => callee.exitsPlaced .value && Node.allPlaced .value xs
  | .command _ _ xs _ | .invoke _ _ xs => Node.allPlaced .value xs
  | .binary _ left _ right => left.exitsPlaced .value && right.exitsPlaced .value
  | .choice _ scrutinee cs default =>
    scrutinee.exitsPlaced .value && Node.casesPlaced cs && default.exitsPlaced .statement
  | .guarded _ body cs cleanup =>
    body.exitsPlaced .statement && Node.clausesPlaced cs && cleanup.exitsPlaced .statement

def Node.allPlaced (p : Place) : List Node → Bool
  | [] => true
  | x :: xs => x.exitsPlaced p && Node.allPlaced p xs

def Node.casesPlaced : List Case → Bool
  | [] => true
  | .mk _ body :: cs => body.exitsPlaced .statement && Node.casesPlaced cs

def Node.clausesPlaced : List Clause → Bool
  | [] => true
  | .mk _ _ body :: cs => body.exitsPlaced .statement && Node.clausesPlaced cs

end

/-- The flows that are allowed at a place. -/
def Place.Allows : Place → Flow → Prop
  | statement, f => f ≠ .broken
  | value, f => f = .live

namespace Place

theorem allows_live : (p : Place) → p.Allows .live
  | statement => by simp [Allows]
  | value => rfl

theorem allows_ofLive {q : Prop} [Decidable q] (p : Place) (h : q) : p.Allows (.ofLive q) := by
  rw [Flow.ofLive, if_pos h]
  exact p.allows_live

end Place

namespace Node

mutual

/-- A tree whose returns and throws are in statement position breaks no block. -/
theorem allows_flow (p : Place) : (x : Node) → x.exitsPlaced p = true → p.Allows x.flow
  | .absent, _ | .number .., _ | .string .., _ | .word .., _ | .other .., _ | .func .., _ => by
    rw [flow]
    exact p.allows_live
  | .program _ xs, h | .list _ xs, h => by
    rw [flow]
    rw [exitsPlaced] at h
    exact allows_flowOfStmts p xs h
  | .ret _ x, h | .throw _ x, h => by
    rw [exitsPlaced, Bool.and_eq_true, decide_eq_true_iff] at h
    obtain ⟨rfl, hx⟩ := h
    have hlive : x.flow = .live := allows_flow .value x hx
    rw [flow, hlive]
    simp [Place.Allows]
  | .assign _ _ x, h => by
    rw [exitsPlaced] at h
    have hlive : x.flow = .live := allows_flow .value x h
    rw [flow, hlive]
    exact p.allows_live
  | .closure _ _ _ body, h => by
    rw [exitsPlaced] at h
    rw [flow]
    exact p.allows_ofLive (allows_flow .statement body h)
  | .call _ callee xs, h => by
    rw [exitsPlaced, Bool.and_eq_true] at h
    rw [flow]
    exact p.allows_ofLive ⟨allows_flow .value callee h.1, allLive_of_placed xs h.2⟩
  | .command _ _ xs _, h | .invoke _ _ xs, h => by
    rw [exitsPlaced] at h
    rw [flow]
    exact p.allows_ofLive (allLive_of_placed xs h)
  | .binary _ left _ right, h => by
    rw [exitsPlaced, Bool.and_eq_true] at h
    rw [flow]
    exact p.allows_ofLive ⟨allows_flow .value left h.1, allows_flow .value right h.2⟩
  | .choice _ scrutinee cs default, h => by
    rw [exitsPlaced, Bool.and_eq_true, Bool.and_eq_true] at h
    rw [flow]
    exact p.allows_ofLive ⟨allows_flow .value scrutinee h.1.1, casesSound_of_placed cs h.1.2,
      allows_flow .statement default h.2⟩
  | .guarded _ body cs cleanup, h => by
    rw [exitsPlaced, Bool.and_eq_true, Bool.and_eq_true] at h
    rw [flow]
    exact p.allows_ofLive ⟨allows_flow .statement body h.1.1, clausesSound_of_placed cs h.1.2,
      allows_flow .statement cleanup h.2⟩

theorem allows_flowOfStmts (p : Place) :
    (xs : List Node) → allPlaced p xs = true → p.Allows (flowOfStmts xs)
  | [], _ => by
    rw [flowOfStmts]
    exact p.allows_live
  | x :: xs, h => by
    rw [allPlaced, Bool.and_eq_true] at h
    rw [flowOfStmts]
    split
    · exact allows_flowOfStmts p xs h.2
    · exact allows_flow p x h.1

theorem allLive_of_placed : (xs : List Node) → allPlaced .value xs = true → allLive xs = true
  | [], _ => rfl
  | x :: xs, h => by
    rw [allPlaced, Bool.and_eq_true] at h
    rw [allLive, Bool.and_eq_true, decide_eq_true_iff]
    exact ⟨allows_flow .value x h.1, allLive_of_placed xs h.2⟩

theorem casesSound_of_placed : (cs : List Case) → casesPlaced cs = true → casesSound cs = true
  | [], _ => rfl
  | .mk _ body :: cs, h => by
    rw [casesPlaced, Bool.and_eq_true] at h
    rw [casesSound, Bool.and_eq_true, decide_eq_true_iff]
    exact ⟨allows_flow .statement body h.1, casesSound_of_placed cs h.2⟩

theorem clausesSound_of_placed :
    (cs : List Clause) → clausesPlaced cs = true → clausesSound cs = true
  | [], _ => rfl
  | .mk _ _ body :: cs, h => by
    rw [clausesPlaced, Bool.and_eq_true] at h
    rw [clausesSound, Bool.and_eq_true, decide_eq_true_iff]
    exact ⟨allows_flow .statement body h.1, clausesSound_of_placed cs h.2⟩

end

end Node

/-! ## Declarations -/

/-- The returns and throws of a body are in statement position. -/
def Declaration.Placed (d : Declaration) : Prop := d.body.exitsPlaced .statement = true

theorem Declaration.Placed.flow_ne_broken {d : Declaration} (h : d.Placed) :
    d.body.flow ≠ .broken :=
  Node.allows_flow .statement d.body h

namespace Node

mutual

theorem declarations_placed (p : Place) :
    (x : Node) → x.exitsPlaced p = true → ∀ d ∈ x.declarations, d.Placed
  | .absent, _ | .number .., _ | .string .., _ | .word .., _ | .other .., _ => by
    simp [declarations]
  | .program _ xs, h | .list _ xs, h => by
    rw [exitsPlaced] at h
    rw [declarations]
    exact declarationsOfList_placed p xs h
  | .command _ _ xs _, h | .invoke _ _ xs, h => by
    rw [exitsPlaced] at h
    rw [declarations]
    exact declarationsOfList_placed .value xs h
  | .ret _ x, h | .throw _ x, h => by
    rw [exitsPlaced, Bool.and_eq_true] at h
    rw [declarations]
    exact declarations_placed .value x h.2
  | .assign _ _ x, h => by
    rw [exitsPlaced] at h
    rw [declarations]
    exact declarations_placed .value x h
  | .closure _ _ _ body, h => by
    rw [exitsPlaced] at h
    rw [declarations]
    exact declarations_placed .statement body h
  | .func _ _ _ body, h => by
    rw [exitsPlaced] at h
    rw [declarations, List.forall_mem_cons]
    exact ⟨h, declarations_placed .statement body h⟩
  | .call _ callee xs, h => by
    rw [exitsPlaced, Bool.and_eq_true] at h
    rw [declarations, List.forall_mem_append]
    exact ⟨declarations_placed .value callee h.1, declarationsOfList_placed .value xs h.2⟩
  | .binary _ left _ right, h => by
    rw [exitsPlaced, Bool.and_eq_true] at h
    rw [declarations, List.forall_mem_append]
    exact ⟨declarations_placed .value left h.1, declarations_placed .value right h.2⟩
  | .choice _ scrutinee cs default, h => by
    rw [exitsPlaced, Bool.and_eq_true, Bool.and_eq_true] at h
    rw [declarations, List.forall_mem_append, List.forall_mem_append]
    exact ⟨⟨declarations_placed .value scrutinee h.1.1, declarationsOfCases_placed cs h.1.2⟩,
      declarations_placed .statement default h.2⟩
  | .guarded _ body cs cleanup, h => by
    rw [exitsPlaced, Bool.and_eq_true, Bool.and_eq_true] at h
    rw [declarations, List.forall_mem_append, List.forall_mem_append]
    exact ⟨⟨declarations_placed .statement body h.1.1, declarationsOfClauses_placed cs h.1.2⟩,
      declarations_placed .statement cleanup h.2⟩

theorem declarationsOfList_placed (p : Place) :
    (xs : List Node) → allPlaced p xs = true → ∀ d ∈ declarationsOfList xs, d.Placed
  | [], _ => by simp [declarationsOfList]
  | x :: xs, h => by
    rw [allPlaced, Bool.and_eq_true] at h
    rw [declarationsOfList, List.forall_mem_append]
    exact ⟨declarations_placed p x h.1, declarationsOfList_placed p xs h.2⟩

theorem declarationsOfCases_placed :
    (cs : List Case) → casesPlaced cs = true → ∀ d ∈ declarationsOfCases cs, d.Placed
  | [], _ => by simp [declarationsOfCases]
  | .mk _ body :: cs, h => by
    rw [casesPlaced, Bool.and_eq_true] at h
    rw [declarationsOfCases, List.forall_mem_append]
    exact ⟨declarations_placed .statement body h.1, declarationsOfCases_placed cs h.2⟩

theorem declarationsOfClauses_placed :
    (cs : List Clause) → clausesPlaced cs = true → ∀ d ∈ declarationsOfClauses cs, d.Placed
  | [], _ => by simp [declarationsOfClauses]
  | .mk _ _ body :: cs, h => by
    rw [clausesPlaced, Bool.and_eq_true] at h
    rw [declarationsOfClauses, List.forall_mem_append]
    exact ⟨declarations_placed .statement body h.1, declarationsOfClauses_placed cs h.2⟩

end

end Node

/-- If the returns and throws of a tree are in statement position, so are those of all functions
that it declares. -/
theorem Lowering.functions_placed {t : Node} (h : t.exitsPlaced .statement = true) :
    ∀ d ∈ Lowering.functions t, d.Placed :=
  List.forall_mem_cons.mpr ⟨h, t.declarations_placed .statement h⟩

end ScriptMachine
