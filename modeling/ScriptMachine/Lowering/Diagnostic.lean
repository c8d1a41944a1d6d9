import ScriptMachine.Text.Quoted
import ScriptMachine.Tree
import ScriptMachine.Words

/-!
# Diagnostics

What the lowering reports about a tree. It never fails: what it cannot lower becomes null, and a
diagnostic says so.
-/

namespace ScriptMachine

open Text (decimal quoted)

inductive Complaint where
  | unsupportedNode (type : String)
  | badNumber (text : String)
  | badFunctionName (name : String)
  | calleeWithoutValue (type : String)
  | unboundCapture (name : String)
  | unsupportedOperator (op : String)
  /-- A command line that cannot be split, or that has no words. -/
  | badCommandLine (line : String) (problem : Option Words.Problem)
  | unreachableDefault
  | unreachableClause
  | patternNotLiteral (type : String)
deriving DecidableEq, Repr

def Complaint.message : Complaint → String
  | unsupportedNode type => "unsupported node: " ++ type
  | badNumber text => "bad number literal: " ++ quoted text
  | badFunctionName name => "can't declare function " ++ quoted name
  | calleeWithoutValue type => "callee produces no value: " ++ type
  | unboundCapture name => "captured name is not bound, capturing it as a word: " ++ name
  | unsupportedOperator op => "unsupported operator: " ++ quoted op
  | badCommandLine line problem =>
    "bad command line " ++ quoted line ++ ": " ++ (problem.map Words.Problem.message).getD "<nil>"
  | unreachableDefault => "unreachable default arm"
  | unreachableClause => "unreachable catch clause"
  | patternNotLiteral type => "match pattern is not a literal: " ++ type

/-- A complaint and the node it is about, by its place. -/
structure Diagnostic where
  pos : Position
  complaint : Complaint
deriving DecidableEq, Repr

namespace Diagnostic

def message (d : Diagnostic) : String := d.complaint.message

/-- The message with its place, if that is known. -/
def text (d : Diagnostic) : String :=
  if d.pos.line = 0 then d.message
  else decimal d.pos.line ++ ":" ++ decimal d.pos.col ++ ": " ++ d.message

end Diagnostic

end ScriptMachine
