import Mathlib.Logic.Function.Basic
import ScriptMachine.Lowering.Program
import ScriptMachine.Machine.Action

/-!
# Direct evaluation

A tree without functions, calls, closures, guarded sections, returns and throws is evaluated from
left to right over an environment of names, with no registers and no blocks in sight.
`Node.meaning` gives such a tree its evaluation and the names that it binds.

1. A word that is not bound is a string, an assignment binds its value, a list has the value of its
   last statement, and what is absent is null.
2. The right operand of a short circuit is evaluated only if the left one does not decide, and what
   it binds is not seen behind it.
3. A choice evaluates one of its alternatives. A name that some alternative binds is bound behind
   the choice, to null if it has no value there. Only the names in `own` stay inside.
-/

namespace ScriptMachine

/-- The values of the names that are bound. -/
abbrev Bindings := String → Option Value

/-- What an evaluation works on: the names, and the commands issued so far, the latest first. -/
structure Memory where
  env : Bindings := fun _ => none
  issued : List (List String) := []

/-- An evaluation ends with a result or with the cause of a fault. -/
abbrev Eval := ExceptT Cause (StateM Memory)

namespace Eval

/-- The value of a name; one that is not bound is a string. -/
def word (name : String) : Eval Value := fun μ => (.ok ((μ.env name).getD (.string name)), μ)

/-- Binds a name. -/
def assign (name : String) (v : Value) : Eval Unit := fun μ =>
  (.ok (), { μ with env := Function.update μ.env name (some v) })

/-- An evaluation whose bindings are seen behind it for `names` only, each of which is bound then, to
null if it has no value. -/
def keeping {α : Type} (names : List String) (m : Eval α) : Eval α := fun μ =>
  ((m μ).1, { (m μ).2 with
    env := fun name => if name ∈ names then some (((m μ).2.env name).getD .null) else μ.env name })

/-- Evaluates in order. The value is the last one; that of nothing is `last`. -/
def seq (last : Value) : List (Eval Value) → Eval Value
  | [] => return last
  | m :: ms => do seq (← m) ms

/-- The values of evaluations in order. -/
def all : List (Eval Value) → Eval (List Value)
  | [] => return []
  | m :: ms => do
    let v ← m
    return v :: (← all ms)

/-- A short circuit behind its left operand. -/
def circuit (kind : Circuit) (left : Value) (right : Eval Value) : Eval Value :=
  if left.truthy = kind.decides then return .bool kind.decides else keeping [] right

/-- What an operator other than the short circuits does. -/
def operation? : String → Option (Value → Value → Except Cause Value)
  | "=~" => some (Machine.matchPattern · · false)
  | "!~" => some (Machine.matchPattern · · true)
  | op => (BinOp.ofSymbol? op).map BinOp.apply

/-- A binary operator. One that is not known is null whatever stands to its right. -/
def binary (op : String) (left right : Eval Value) : Eval Value := do
  let l ← left
  match Lowering.circuit? op with
  | some kind => circuit kind l right
  | none =>
    match operation? op with
    | none => return .null
    | some f =>
      let r ← right
      liftM (f l r)

/-- Issues a command with the texts of its arguments. -/
def issue (runner : Option Runner) (name : String) (args : List Value) : Eval Value := fun μ =>
  match runner with
  | none => (.error (.noRunner name), μ)
  | some run =>
    (match run.answer μ.issued name (args.map Value.text) with
      | .error problem => .error (.command name problem)
      | .ok .unset => .ok .null
      | .ok v => .ok v,
      { μ with issued := (name :: args.map Value.text) :: μ.issued })

end Eval

/-- How a tree is evaluated, and the names that it binds for what stands behind it. -/
structure Meaning where
  eval : Eval Value
  binds : List String := []

/-- The alternatives of a choice: those for one value each, in order, and the one for all others. -/
structure Menu where
  arms : List (Value × Meaning) := []
  default : Option Meaning := none

namespace Menu

def addArm (m : Menu) (pattern : Value) (x : Meaning) : Menu :=
  { m with arms := m.arms ++ [(pattern, x)] }

/-- Only the first alternative for all other values counts. -/
def addDefault (m : Menu) (x : Meaning) : Menu := { m with default := m.default.or (some x) }

/-- The names that alternatives bind. -/
def binds (m : Menu) : List String :=
  m.arms.flatMap (·.2.binds) ++ (m.default.map (·.binds)).getD []

/-- The evaluation of the first alternative for a value, else of the one for all others. -/
def choose (m : Menu) (v : Value) : Eval Value :=
  match m.arms.find? (equal v ·.1) with
  | some arm => arm.2.eval
  | none => (m.default.map (·.eval)).getD (return .null)

end Menu

namespace Meaning

/-- A constant. -/
def const (v : Value) : Meaning := { eval := return v }

def assign (name : String) (x : Meaning) : Meaning where
  eval := do
    let v ← x.eval
    Eval.assign name v
    return v
  binds := x.binds ++ [name]

def seq (xs : List Meaning) : Meaning where
  eval := Eval.seq .null (xs.map (·.eval))
  binds := xs.flatMap (·.binds)

def binary (op : String) (x y : Meaning) : Meaning where
  eval := Eval.binary op x.eval y.eval
  binds := x.binds ++
    if (Lowering.circuit? op).isNone ∧ (Eval.operation? op).isSome then y.binds else []

def issue (runner : Option Runner) (name : String) (xs : List Meaning) : Meaning where
  eval := do
    let vs ← Eval.all (xs.map (·.eval))
    Eval.issue runner name vs
  binds := xs.flatMap (·.binds)

/-- A choice whose alternatives keep the names in `own` to themselves. -/
def choice (own : List String) (x : Meaning) (m : Menu) : Meaning where
  eval := do
    let v ← x.eval
    Eval.keeping (m.binds.filter (· ∉ own)) (m.choose v)
  binds := x.binds ++ m.binds.filter (· ∉ own)

end Meaning

/-- The value of a number; null if it is none. -/
def Lowering.numberValue (text : String) : Value := (numberValue? text).getD .null

/-- The constant of a pattern; null if it is none. -/
def Lowering.patternValue : Node → Value
  | .number _ text => numberValue text
  | .string _ s => .string s
  | .word _ name => .string name
  | _ => .null

namespace Node

mutual

/-- The meaning of a tree, where `runner` runs the commands and the alternatives of choices keep the
names in `own` to themselves. -/
def meaning (runner : Option Runner) (own : List String) : Node → Meaning
  | .absent => .const .null
  | .program _ xs | .list _ xs => .seq (meanings runner own xs)
  | .number _ text => .const (Lowering.numberValue text)
  | .string _ s => .const (.string s)
  | .word _ name => { eval := Eval.word name }
  | .assign _ name value => .assign name (meaning runner own value)
  | .binary _ left op right => .binary op (meaning runner own left) (meaning runner own right)
  | .choice _ scrutinee cs default =>
    let cases := menu runner own {} cs
    .choice own (meaning runner own scrutinee)
      (if default.isAbsent then cases else cases.addDefault (meaning runner own default))
  | .command _ name xs _ | .invoke _ name xs => .issue runner name (meanings runner own xs)
  | .func .. | .call .. | .closure .. | .guarded .. | .ret .. | .throw .. | .other .. => .const .null

def meanings (runner : Option Runner) (own : List String) : List Node → List Meaning
  | [] => []
  | x :: xs => meaning runner own x :: meanings runner own xs

/-- The alternatives of the cases of a choice. -/
def menu (runner : Option Runner) (own : List String) (m : Menu) : List Case → Menu
  | [] => m
  | .mk p body :: cs =>
    let x := meaning runner own body
    menu runner own
      (if Lowering.isDefault p then m.addDefault x else m.addArm (Lowering.patternValue p) x) cs

end

mutual

/-- Whether a tree has no part whose evaluation is not direct: functions, calls, closures, guarded
sections, returns, throws, and commands given by a line. -/
def isDirect : Node → Bool
  | .absent | .number .. | .string .. | .word .. => true
  | .program _ xs | .list _ xs | .invoke _ _ xs => allDirect xs
  | .assign _ _ value => isDirect value
  | .binary _ left _ right => isDirect left && isDirect right
  | .choice _ scrutinee cs default =>
    isDirect scrutinee && casesDirect cs && isDirect default
  | .command _ _ xs line => line == "" && allDirect xs
  | .func .. | .call .. | .closure .. | .guarded .. | .ret .. | .throw .. | .other .. => false

def allDirect : List Node → Bool
  | [] => true
  | x :: xs => isDirect x && allDirect xs

def casesDirect : List Case → Bool
  | [] => true
  | .mk _ body :: cs => isDirect body && casesDirect cs

end

mutual

/-- How deep choices are nested in the alternatives of others. -/
def nesting : Node → Nat
  | .absent | .number .. | .string .. | .word .. | .other .. => 0
  | .program _ xs | .list _ xs | .command _ _ xs _ | .invoke _ _ xs => nestingAll xs
  | .assign _ _ x | .ret _ x | .throw _ x | .func _ _ _ x | .closure _ _ _ x => nesting x
  | .binary _ left _ right => max (nesting left) (nesting right)
  | .call _ callee xs => max (nesting callee) (nestingAll xs)
  | .choice _ scrutinee cs default =>
    max (nesting scrutinee) (max (nestingCases cs) (nesting default) + 1)
  | .guarded _ body cs cleanup =>
    max (nesting body) (max (nestingClauses cs) (nesting cleanup))

def nestingAll : List Node → Nat
  | [] => 0
  | x :: xs => max (nesting x) (nestingAll xs)

def nestingCases : List Case → Nat
  | [] => 0
  | .mk _ body :: cs => max (nesting body) (nestingCases cs)

def nestingClauses : List Clause → Nat
  | [] => 0
  | .mk _ _ body :: cs => max (nesting body) (nestingClauses cs)

end

mutual

/-- Whether no part of a tree assigns to a name. -/
def neverAssigns (name : String) : Node → Bool
  | .absent | .number .. | .string .. | .word .. | .other .. => true
  | .program _ xs | .list _ xs | .command _ _ xs _ | .invoke _ _ xs => allNeverAssign name xs
  | .assign _ target value => target != name && neverAssigns name value
  | .ret _ x | .throw _ x | .func _ _ _ x | .closure _ _ _ x => neverAssigns name x
  | .binary _ left _ right => neverAssigns name left && neverAssigns name right
  | .call _ callee xs => neverAssigns name callee && allNeverAssign name xs
  | .choice _ scrutinee cs default =>
    neverAssigns name scrutinee && casesNeverAssign name cs && neverAssigns name default
  | .guarded _ body cs cleanup =>
    neverAssigns name body && clausesNeverAssign name cs && neverAssigns name cleanup

def allNeverAssign (name : String) : List Node → Bool
  | [] => true
  | x :: xs => neverAssigns name x && allNeverAssign name xs

def casesNeverAssign (name : String) : List Case → Bool
  | [] => true
  | .mk _ body :: cs => neverAssigns name body && casesNeverAssign name cs

def clausesNeverAssign (name : String) : List Clause → Bool
  | [] => true
  | .mk _ _ body :: cs => neverAssigns name body && clausesNeverAssign name cs

end

/-- The result of a tree, and the commands that it issues, in order. -/
def evaluate (x : Node) (runner : Option Runner) (own : List String) :
    Except Cause Value × List (List String) :=
  let done := (x.meaning runner own).eval {}
  (done.1, done.2.issued.reverse)

end Node

end ScriptMachine
