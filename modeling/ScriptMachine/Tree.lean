import ScriptMachine.Text.Decimal

/-!
# Syntax trees

The trees that programs are written as. Every node has the place in its text where it starts. A
place that may stay empty, such as the value of a return, holds the node `absent`.
-/

namespace ScriptMachine

/-- A place in a text: line and column, counted from one; zero if it is not known. -/
structure Position where
  line : Int := 0
  col : Int := 0
deriving DecidableEq, Repr, Inhabited

mutual

inductive Node where
  | absent
  | program (pos : Position) (stmts : List Node)
  | list (pos : Position) (stmts : List Node)
  | func (pos : Position) (name : String) (params : List String) (body : Node)
  | call (pos : Position) (callee : Node) (args : List Node)
  | number (pos : Position) (text : String)
  | string (pos : Position) (value : String)
  /-- A name if it is bound where it stands, else a string. -/
  | word (pos : Position) (name : String)
  | assign (pos : Position) (name : String) (value : Node)
  | closure (pos : Position) (params captures : List String) (body : Node)
  | binary (pos : Position) (left : Node) (op : String) (right : Node)
  | choice (pos : Position) (scrutinee : Node) (cases : List Case) (default : Node)
  | guarded (pos : Position) (body : Node) (clauses : List Clause) (cleanup : Node)
  | ret (pos : Position) (value : Node)
  | throw (pos : Position) (value : Node)
  /-- A command, by its name and arguments or by a line that holds them as words. -/
  | command (pos : Position) (name : String) (args : List Node) (line : String)
  | invoke (pos : Position) (name : String) (args : List Node)
  /-- A node of a type that the language does not have. -/
  | other (pos : Position) (type : String)

/-- A case of a choice: a pattern and the code for it. -/
inductive Case where
  | mk (pattern body : Node)

/-- A clause of a guarded section: the name for what was caught, the pattern, and the code. Without
a pattern it takes everything. -/
inductive Clause where
  | mk (name : String) (pattern body : Node)

end

instance : Inhabited Node := ⟨.absent⟩

namespace Node

def position : Node → Position
  | absent => {}
  | program p _ | list p _ | func p _ _ _ | call p _ _ | number p _ | string p _ | word p _
  | assign p _ _ | closure p _ _ _ | binary p _ _ _ | choice p _ _ _ | guarded p _ _ _ | ret p _
  | throw p _ | command p _ _ _ | invoke p _ _ | other p _ => p

/-- The name of the type of a node in diagnostics. -/
def typeName : Node → String
  | absent => "<nil>"
  | program .. => "*ast.Program"
  | list .. => "*ast.StatementList"
  | func .. => "*ast.FunctionDecl"
  | call .. => "*ast.FunctionCall"
  | number .. => "*ast.NumberLiteral"
  | string .. => "*ast.StringLiteral"
  | word .. => "*ast.Word"
  | assign .. => "*ast.Assign"
  | closure .. => "*ast.Closure"
  | binary .. => "*ast.Binary"
  | choice .. => "*ast.Match"
  | guarded .. => "*ast.Try"
  | ret .. => "*ast.Return"
  | throw .. => "*ast.Throw"
  | command .. => "*ast.Command"
  | invoke .. => "*ast.MacroInvocation"
  | other _ type => type

def isAbsent : Node → Bool
  | absent => true
  | _ => false

end Node

end ScriptMachine
