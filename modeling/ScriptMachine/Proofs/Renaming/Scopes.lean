import ScriptMachine.Lowering.Program
import ScriptMachine.Proofs.Lowering.Placement

/-!
# The scopes of a tree

Which names are bound where in a tree, without lowering it. `Node.binds` are the names that the code of a
node leaves bound behind it in its own scope, where they stand for registers. The scope of a node is what
is bound in front of it, here or outside of the closures around it.

A closure may list names to capture. If all of them are bound in its scope, the list says nothing that
the closure would not find out by itself: `Node.bare` leaves such lists out, and trees that differ in
nothing else (`Node.Recaptured`) are the same without them.
-/

namespace ScriptMachine

open Lowering

/-! ## Names that are bound -/

/-- The names that are seen behind a block in which `names` are bound: if control gets there, all but the
name that the block keeps to itself. -/
def namesBehind (flow : Flow) (own : String) (names : List String) : List String :=
  if flow = .live then names.filter (· ≠ own) else []

/-- The scope of a block with a name of its own, empty if there is none. -/
def scopeWith (own : String) (scope : List String) : List String :=
  if own = "" then scope else own :: scope

/-- The scope of the body of a closure. -/
def scopeInside (params captures scope : List String) : List String :=
  params ++ captures.filter (· ∉ scope) ++ scope

/-- Whether the arguments of a command become part of it: not if its line has no words. -/
def readsArgs (line : String) : Bool :=
  line = "" || match Words.split line with
    | .ok (_ :: _) => true
    | _ => false

/-- Whether the right operand of an operator is evaluated in any case. -/
def evaluatesRight (op : String) : Bool := (circuit? op).isNone && (operator? op).isSome

def Case.takesAll : Case → Bool
  | .mk p _ => isDefault p

mutual

/-- Whether a node has a value. -/
def Node.yields : Node → Bool
  | .absent | .func .. | .ret .. | .throw .. => false
  | .program _ xs | .list _ xs => Node.yieldsLast false xs
  | .number .. | .string .. | .word .. | .other .. | .assign .. | .call .. | .closure .. | .binary ..
  | .choice .. | .guarded .. | .command .. | .invoke .. => true

/-- The last statement decides. -/
def Node.yieldsLast (last : Bool) : List Node → Bool
  | [] => last
  | x :: xs => Node.yieldsLast x.yields xs

end

mutual

/-- The names that the code of a node leaves bound. -/
def Node.binds : Node → List String
  | .absent | .number .. | .string .. | .word .. | .other .. | .func .. | .closure .. => []
  | .program _ xs | .list _ xs => Node.bindsOfStmts xs
  | .assign _ name value => name :: value.binds
  | .ret _ value | .throw _ value => value.binds
  | .call _ callee xs => callee.binds ++ if callee.yields then Node.bindsOfArgs xs else []
  | .command _ _ xs line => if readsArgs line then Node.bindsOfArgs xs else []
  | .invoke _ _ xs => Node.bindsOfArgs xs
  | .binary _ left op right => left.binds ++ if evaluatesRight op then right.binds else []
  | .choice _ scrutinee cs default =>
    scrutinee.binds ++ (Node.bindsOfCases false cs ++
      if cs.any Case.takesAll then [] else namesBehind default.flow "" default.binds)
  | .guarded _ body cs cleanup =>
    namesBehind body.flow "" body.binds ++ Node.bindsOfClauses false cs ++ cleanup.binds

/-- Statements behind one that is not live are dropped. -/
def Node.bindsOfStmts : List Node → List String
  | [] => []
  | x :: xs => x.binds ++ if x.flow = .live then Node.bindsOfStmts xs else []

def Node.bindsOfArgs : List Node → List String
  | [] => []
  | x :: xs => x.binds ++ Node.bindsOfArgs xs

/-- Only the first case that takes everything counts; `taken` if there was one. -/
def Node.bindsOfCases (taken : Bool) : List Case → List String
  | [] => []
  | .mk p body :: cs =>
    (if isDefault p && taken then [] else namesBehind body.flow "" body.binds) ++
      Node.bindsOfCases (isDefault p || taken) cs

/-- Only the first clause that takes everything counts; `taken` if there was one. -/
def Node.bindsOfClauses (taken : Bool) : List Clause → List String
  | [] => []
  | .mk name p body :: cs =>
    (if p.isAbsent && taken then [] else namesBehind body.flow name body.binds) ++
      Node.bindsOfClauses (p.isAbsent || taken) cs

end

/-! ## Captures that are listed -/

mutual

/-- The tree without the lists of captures that name only what is bound in the scope of their closures. -/
def Node.bare (scope : List String) : Node → Node
  | .program pos xs => .program pos (Node.bareAll scope xs)
  | .list pos xs => .list pos (Node.bareAll scope xs)
  | .func pos name params body => .func pos name params (body.bare params)
  | .call pos callee xs => .call pos (callee.bare scope) (Node.bareAll (scope ++ callee.binds) xs)
  | .assign pos name value => .assign pos name (value.bare scope)
  | .closure pos params captures body =>
    .closure pos params (if captures ⊆ scope then [] else captures)
      (body.bare (scopeInside params captures scope))
  | .binary pos left op right =>
    .binary pos (left.bare scope) op (right.bare (scope ++ left.binds))
  | .choice pos scrutinee cs default =>
    .choice pos (scrutinee.bare scope) (Node.bareCases (scope ++ scrutinee.binds) cs)
      (default.bare (scope ++ scrutinee.binds))
  | .guarded pos body cs cleanup =>
    .guarded pos (body.bare scope) (Node.bareClauses scope cs)
      (cleanup.bare (scope ++ (namesBehind body.flow "" body.binds ++ Node.bindsOfClauses false cs)))
  | .ret pos value => .ret pos (value.bare scope)
  | .throw pos value => .throw pos (value.bare scope)
  | .command pos name xs line => .command pos name (Node.bareAll scope xs) line
  | .invoke pos name xs => .invoke pos name (Node.bareAll scope xs)
  | x => x

/-- Statements or arguments, each in the scope that those in front of it leave. -/
def Node.bareAll (scope : List String) : List Node → List Node
  | [] => []
  | x :: xs => x.bare scope :: Node.bareAll (scope ++ x.binds) xs

def Node.bareCases (scope : List String) : List Case → List Case
  | [] => []
  | .mk p body :: cs => .mk (p.bare scope) (body.bare scope) :: Node.bareCases scope cs

def Node.bareClauses (scope : List String) : List Clause → List Clause
  | [] => []
  | .mk name p body :: cs =>
    .mk name (p.bare scope) (body.bare (scopeWith name scope)) :: Node.bareClauses scope cs

end

mutual

/-- Trees in a scope that differ only in what closures list as captures. Where two lists differ, both
name only what is bound in the scope of their closure. -/
inductive Node.Recaptured : List String → Node → Node → Prop
  | refl (S : List String) (x : Node) : Node.Recaptured S x x
  | program {S pos xs ys} (h : Node.RecapturedAll S xs ys) :
      Node.Recaptured S (.program pos xs) (.program pos ys)
  | list {S pos xs ys} (h : Node.RecapturedAll S xs ys) :
      Node.Recaptured S (.list pos xs) (.list pos ys)
  | func {S pos name params x y} (h : Node.Recaptured params x y) :
      Node.Recaptured S (.func pos name params x) (.func pos name params y)
  | call {S pos x y xs ys} (h : Node.Recaptured S x y) (hs : Node.RecapturedAll (S ++ x.binds) xs ys) :
      Node.Recaptured S (.call pos x xs) (.call pos y ys)
  | assign {S pos name x y} (h : Node.Recaptured S x y) :
      Node.Recaptured S (.assign pos name x) (.assign pos name y)
  | closure {S pos params captures x y} (h : Node.Recaptured (scopeInside params captures S) x y) :
      Node.Recaptured S (.closure pos params captures x) (.closure pos params captures y)
  /-- A closure may list other captures, as long as all are bound in its scope. -/
  | recapture {S pos params captures captures' x y} (hc : captures ⊆ S) (hc' : captures' ⊆ S)
      (h : Node.Recaptured (params ++ S) x y) :
      Node.Recaptured S (.closure pos params captures x) (.closure pos params captures' y)
  | binary {S pos op x y x' y'} (h : Node.Recaptured S x y)
      (h' : Node.Recaptured (S ++ x.binds) x' y') :
      Node.Recaptured S (.binary pos x op x') (.binary pos y op y')
  | choice {S pos x y cs ds x' y'} (h : Node.Recaptured S x y)
      (hs : Node.RecapturedCases (S ++ x.binds) cs ds) (h' : Node.Recaptured (S ++ x.binds) x' y') :
      Node.Recaptured S (.choice pos x cs x') (.choice pos y ds y')
  | guarded {S pos x y cs ds x' y'} (h : Node.Recaptured S x y) (hs : Node.RecapturedClauses S cs ds)
      (h' : Node.Recaptured (S ++ (namesBehind x.flow "" x.binds ++ Node.bindsOfClauses false cs))
        x' y') :
      Node.Recaptured S (.guarded pos x cs x') (.guarded pos y ds y')
  | ret {S pos x y} (h : Node.Recaptured S x y) : Node.Recaptured S (.ret pos x) (.ret pos y)
  | throw {S pos x y} (h : Node.Recaptured S x y) : Node.Recaptured S (.throw pos x) (.throw pos y)
  | command {S pos name xs ys line} (h : Node.RecapturedAll S xs ys) :
      Node.Recaptured S (.command pos name xs line) (.command pos name ys line)
  | invoke {S pos name xs ys} (h : Node.RecapturedAll S xs ys) :
      Node.Recaptured S (.invoke pos name xs) (.invoke pos name ys)

inductive Node.RecapturedAll : List String → List Node → List Node → Prop
  | nil {S} : Node.RecapturedAll S [] []
  | cons {S x y xs ys} (h : Node.Recaptured S x y) (hs : Node.RecapturedAll (S ++ x.binds) xs ys) :
      Node.RecapturedAll S (x :: xs) (y :: ys)

inductive Node.RecapturedCases : List String → List Case → List Case → Prop
  | nil {S} : Node.RecapturedCases S [] []
  | cons {S p q x y cs ds} (hp : Node.Recaptured S p q) (h : Node.Recaptured S x y)
      (hs : Node.RecapturedCases S cs ds) :
      Node.RecapturedCases S (.mk p x :: cs) (.mk q y :: ds)

inductive Node.RecapturedClauses : List String → List Clause → List Clause → Prop
  | nil {S} : Node.RecapturedClauses S [] []
  | cons {S name p q x y cs ds} (hp : Node.Recaptured S p q)
      (h : Node.Recaptured (scopeWith name S) x y) (hs : Node.RecapturedClauses S cs ds) :
      Node.RecapturedClauses S (.mk name p x :: cs) (.mk name q y :: ds)

end

/-! ## What the lists do not change -/

namespace Node

theorem isAbsent_bare (x : Node) (S : List String) : (x.bare S).isAbsent = x.isAbsent := by
  cases x <;> rfl

theorem isDefault_bare (x : Node) (S : List String) : isDefault (x.bare S) = isDefault x := by
  cases x <;> rfl

theorem scopeInside_of_subset (params : List String) {captures S : List String} (h : captures ⊆ S) :
    scopeInside params captures S = params ++ S := by
  have hnone : captures.filter (· ∉ S) = [] := by
    rw [List.filter_eq_nil_iff]
    intro n hn
    simpa using h hn
  rw [scopeInside, hnone, List.append_nil]

/-! ## Trees that differ in their lists -/

/-- Trees that are the same without their lists, and what they have in common. -/
structure Same (S : List String) (x y : Node) : Prop where
  bare : x.bare S = y.bare S
  isAbsent : x.isAbsent = y.isAbsent
  isDefault : isDefault x = isDefault y
  flow : x.flow = y.flow
  placed : ∀ p, x.exitsPlaced p = y.exitsPlaced p
  yields : x.yields = y.yields
  binds : x.binds = y.binds

structure SameAll (S : List String) (xs ys : List Node) : Prop where
  bare : bareAll S xs = bareAll S ys
  flow : flowOfStmts xs = flowOfStmts ys
  live : allLive xs = allLive ys
  placed : ∀ p, allPlaced p xs = allPlaced p ys
  yields : ∀ last, yieldsLast last xs = yieldsLast last ys
  stmts : bindsOfStmts xs = bindsOfStmts ys
  args : bindsOfArgs xs = bindsOfArgs ys

structure SameCases (S : List String) (cs ds : List Case) : Prop where
  bare : bareCases S cs = bareCases S ds
  takesAll : cs.any Case.takesAll = ds.any Case.takesAll
  sound : casesSound cs = casesSound ds
  placed : casesPlaced cs = casesPlaced ds
  binds : ∀ taken, bindsOfCases taken cs = bindsOfCases taken ds

structure SameClauses (S : List String) (cs ds : List Clause) : Prop where
  bare : bareClauses S cs = bareClauses S ds
  sound : clausesSound cs = clausesSound ds
  placed : clausesPlaced cs = clausesPlaced ds
  binds : ∀ taken, bindsOfClauses taken cs = bindsOfClauses taken ds

mutual

theorem Recaptured.same {S : List String} {x y : Node} (h : x.Recaptured S y) : Same S x y := by
  cases h with
  | refl => exact ⟨rfl, rfl, rfl, rfl, fun _ => rfl, rfl, rfl⟩
  | program h | list h | command h | invoke h =>
    have hs := h.same
    refine ⟨by rw [bare, bare, hs.bare], rfl, rfl, ?_, fun p => ?_, ?_, ?_⟩ <;>
      simp only [flow, exitsPlaced, yields, binds, hs.flow, hs.live, hs.placed, hs.yields, hs.stmts,
        hs.args]
  | func h | assign h | ret h | throw h | closure h =>
    have h := h.same
    refine ⟨by rw [bare, bare, h.bare], rfl, rfl, ?_, fun p => ?_, rfl, ?_⟩ <;>
      simp only [flow, exitsPlaced, binds, h.flow, h.placed, h.binds]
  | recapture hc hc' h =>
    have h := h.same
    refine ⟨?_, rfl, rfl, ?_, fun p => ?_, rfl, rfl⟩
    · rw [bare, bare, if_pos hc, if_pos hc', scopeInside_of_subset _ hc,
        scopeInside_of_subset _ hc', h.bare]
    · rw [flow, flow, h.flow]
    · rw [exitsPlaced, exitsPlaced, h.placed]
  | call h hs =>
    have h := h.same
    have hs := hs.same
    refine ⟨by rw [bare, bare, h.bare, hs.bare, h.binds], rfl, rfl, ?_, fun p => ?_, rfl, ?_⟩ <;>
      simp only [flow, exitsPlaced, binds, h.flow, h.placed, h.yields, h.binds, hs.live, hs.placed,
        hs.args]
  | binary h h' =>
    have h := h.same
    have h' := h'.same
    refine ⟨by rw [bare, bare, h.bare, h'.bare, h.binds], rfl, rfl, ?_, fun p => ?_, rfl, ?_⟩ <;>
      simp only [flow, exitsPlaced, binds, h.flow, h.placed, h.binds, h'.flow, h'.placed, h'.binds]
  | choice h hs h' =>
    have h := h.same
    have hs := hs.same
    have h' := h'.same
    refine ⟨by rw [bare, bare, h.bare, hs.bare, h'.bare, h.binds], rfl, rfl, ?_, fun p => ?_, rfl,
      ?_⟩ <;>
      simp only [flow, exitsPlaced, binds, h.flow, h.placed, h.binds, hs.sound, hs.placed, hs.binds,
        hs.takesAll, h'.flow, h'.placed, h'.binds]
  | guarded h hs h' =>
    have h := h.same
    have hs := hs.same
    have h' := h'.same
    refine ⟨?_, rfl, rfl, ?_, fun p => ?_, rfl, ?_⟩
    · rw [bare, bare, h.bare, hs.bare, h'.bare, h.binds, h.flow, hs.binds]
    all_goals simp only [flow, exitsPlaced, binds, h.flow, h.placed, h.binds, hs.sound, hs.placed,
      hs.binds, h'.flow, h'.placed, h'.binds]
termination_by sizeOf x

theorem RecapturedAll.same {S : List String} {xs ys : List Node} (h : RecapturedAll S xs ys) :
    SameAll S xs ys := by
  cases h with
  | nil => exact ⟨rfl, rfl, rfl, fun _ => rfl, fun _ => rfl, rfl, rfl⟩
  | cons h hs =>
    have h := h.same
    have hs := hs.same
    refine ⟨by rw [bareAll, bareAll, h.bare, hs.bare, h.binds], ?_, ?_, fun p => ?_, fun last => ?_,
      ?_, ?_⟩ <;>
      simp only [flowOfStmts, allLive, allPlaced, yieldsLast, bindsOfStmts, bindsOfArgs, h.flow,
        h.placed, h.yields, h.binds, hs.flow, hs.live, hs.placed, hs.yields, hs.stmts, hs.args]
termination_by sizeOf xs

theorem RecapturedCases.same {S : List String} {cs ds : List Case} (h : RecapturedCases S cs ds) :
    SameCases S cs ds := by
  cases h with
  | nil => exact ⟨rfl, rfl, rfl, rfl, fun _ => rfl⟩
  | cons hp h hs =>
    have hp := hp.same
    have h := h.same
    have hs := hs.same
    refine ⟨by rw [bareCases, bareCases, hp.bare, h.bare, hs.bare], ?_, ?_, ?_, fun taken => ?_⟩ <;>
      simp only [List.any_cons, Case.takesAll, casesSound, casesPlaced, bindsOfCases, hp.isDefault,
        h.flow, h.placed, h.binds, hs.takesAll, hs.sound, hs.placed, hs.binds]
termination_by sizeOf cs

theorem RecapturedClauses.same {S : List String} {cs ds : List Clause}
    (h : RecapturedClauses S cs ds) : SameClauses S cs ds := by
  cases h with
  | nil => exact ⟨rfl, rfl, rfl, fun _ => rfl⟩
  | cons hp h hs =>
    have hp := hp.same
    have h := h.same
    have hs := hs.same
    refine ⟨by rw [bareClauses, bareClauses, hp.bare, h.bare, hs.bare], ?_, ?_, fun taken => ?_⟩ <;>
      simp only [clausesSound, clausesPlaced, bindsOfClauses, hp.isAbsent, h.flow, h.placed, h.binds,
        hs.sound, hs.placed, hs.binds]
termination_by sizeOf cs

end

end Node

end ScriptMachine
