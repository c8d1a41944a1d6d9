import ScriptMachine.Text.CaseFold
import ScriptMachine.Text.Category
import ScriptMachine.Text.Script

/-!
# Patterns

The regular expressions of pattern matches. Characters are code points, and a set of them is a list
of items that may each be negated. Folding widens an item to all case variants of what it holds
before any negation.
-/

namespace ScriptMachine.Pattern

open ScriptMachine.Text (category script caseVariants)

/-- A class of code points with a name. -/
inductive Named where
  /-- Every code point. -/
  | any
  /-- A general category, or a group of them by its letter; unassigned code points are in none. -/
  | category (code : String)
  | script (name : String)
deriving DecidableEq, Repr

def Named.holds : Named → Nat → Bool
  | any, _ => true
  | category code, c =>
    let k := Text.category c
    k != .cn && code.toList.isPrefixOf k.code.toList
  | script name, c => Text.script c == name

inductive Item where
  /-- The code points in one of some ranges. -/
  | ranges (rs : List (Nat × Nat)) (negate : Bool)
  | named (n : Named) (negate : Bool)
deriving DecidableEq, Repr

def Item.single (lo hi : Nat) : Item := .ranges [(lo, hi)] false

/-- Whether some range holds a code point. -/
def inRanges (rs : List (Nat × Nat)) (c : Nat) : Bool :=
  rs.any fun r => r.1 ≤ c && c ≤ r.2

/-- A predicate widened to case variants. -/
def widened (fold : Bool) (p : Nat → Bool) (c : Nat) : Bool :=
  if fold then (caseVariants c).any p else p c

def Item.holds (fold : Bool) : Item → Nat → Bool
  | ranges rs negate, c => widened fold (inRanges rs) c != negate
  | named n negate, c => widened fold n.holds c != negate

structure CharSet where
  items : List Item
  negate : Bool := false
  fold : Bool := false
deriving DecidableEq, Repr

def CharSet.holds (s : CharSet) (c : Nat) : Bool :=
  s.items.any (·.holds s.fold c) != s.negate

/-- Conditions on a place between characters. -/
inductive Assertion where
  | beginText | endText | beginLine | endLine | wordBoundary | noWordBoundary
deriving DecidableEq, Repr

inductive Expr where
  | empty
  | chars (s : CharSet)
  | assert (a : Assertion)
  | seq (a b : Expr)
  | alt (a b : Expr)
  /-- Between `min` and `max` times, without a limit if there is no `max`. A `counted` repetition
  was written with its numbers. -/
  | loop (e : Expr) (min : Nat) (max : Option Nat) (counted : Bool)
deriving Repr

/-- The largest product of nested counts, each at least one. A repetition of at most zero times
weighs nothing, whatever it repeats. -/
def Expr.weight : Expr → Nat
  | empty | chars _ | assert _ => 1
  | seq a b | alt a b => Nat.max a.weight b.weight
  | loop _ _ (some 0) true => 0
  | loop e _ (some m) true => m * e.weight
  | loop e m none true => Nat.max 1 m * e.weight
  | loop e _ _ false => e.weight

/-! ## Why a text is no pattern -/

inductive ErrorCode where
  | charRange | escape | namedCapture | perlSyntax | nestedRepeat | repeatCount | missingBracket
  | missingParen | missingArgument | trailingBackslash | unexpectedParen | nesting
deriving DecidableEq, Repr

def ErrorCode.message : ErrorCode → String
  | charRange => "invalid character class range"
  | escape => "invalid escape sequence"
  | namedCapture => "invalid named capture"
  | perlSyntax => "invalid or unsupported Perl syntax"
  | nestedRepeat => "invalid nested repetition operator"
  | repeatCount => "invalid repeat count"
  | missingBracket => "missing closing ]"
  | missingParen => "missing closing )"
  | missingArgument => "missing argument to repetition operator"
  | trailingBackslash => "trailing backslash at end of expression"
  | unexpectedParen => "unexpected )"
  | nesting => "expression nests too deeply"

/-- An error with the part of the pattern that is to blame. -/
structure Error where
  code : ErrorCode
  fragment : List Char
deriving DecidableEq, Repr

def Error.message (e : Error) : String :=
  "error parsing regexp: " ++ e.code.message ++ ": `" ++ String.ofList e.fragment ++ "`"

end ScriptMachine.Pattern
