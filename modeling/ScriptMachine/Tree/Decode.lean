import ScriptMachine.Markup.Document
import ScriptMachine.Tree.Payload

/-!
# Trees written as markup

Reads trees. Scalars need no kind: numbers are numbers, quoted texts are strings, null is the absent
node, and all else are words. A sequence is a statement list, and at the top a program.
-/

namespace ScriptMachine.Decode

/-! ## Kinds -/

/-- Numbers, strings and words are written as scalars. -/
def leaf (kind : String) (make : String → Node) (p : Payload) : Decoded Node :=
  (p.text (.leafNotScalar kind)).map make

def func (pos : Position) (p : Payload) : Decoded Node := do
  let fs ← p.fields ["name", "params", "body"]
  let name ← fs.text "name"
  let params ← fs.texts "params"
  let body ← fs.nodeD "body" (.field "body")
  return .func pos name params body

def call (pos : Position) (p : Payload) : Decoded Node := do
  let fs ← p.fields ["callee", "args"]
  let callee ← fs.node "callee"
  let args ← fs.nodes "args"
  return .call pos callee args

def assign (pos : Position) (p : Payload) : Decoded Node := do
  let fs ← p.fields ["name", "value"]
  let name ← fs.text "name"
  let value ← fs.nodeD "value" (.field "value")
  return .assign pos name value

def closure (pos : Position) (p : Payload) : Decoded Node := do
  let fs ← p.fields ["params", "captures", "body"]
  let params ← fs.texts "params"
  let captures ← fs.texts "captures"
  let body ← fs.nodeD "body" (.field "body")
  return .closure pos params captures body

def binary (pos : Position) (p : Payload) : Decoded Node := do
  let fs ← p.fields ["left", "op", "right"]
  let op ← fs.text "op"
  let left ← fs.node "left"
  let right ← fs.node "right"
  return .binary pos left op right

def case (i : Nat) (p : Payload) : Decoded Case := do
  let fs ← (p.fields ["pattern", "body"]).within (.arm i)
  let pattern ← (fs.node "pattern").within (.arm i)
  let body ← fs.nodeD "body" (.armBody i)
  return .mk pattern body

def cases : (i : Nat) → List Payload → Decoded (List Case)
  | _, [] => .ok []
  | i, p :: ps => do
    let c ← case i p
    let cs ← cases (i + 1) ps
    return c :: cs

def choice (pos : Position) (p : Payload) : Decoded Node := do
  let fs ← p.fields ["scrutinee", "arms", "default"]
  let scrutinee ← fs.node "scrutinee"
  let default ← fs.nodeD "default" (.field "default")
  let cs ← match fs.get? "arms" with
    | none => pure []
    | some a => do cases 0 (← a.items (.notSequence "arms"))
  return .choice pos scrutinee cs default

def clause (i : Nat) (p : Payload) : Decoded Clause := do
  let fs ← (p.fields ["var", "pattern", "body"]).within (.clause i)
  let name ← (fs.textD "var").within (.clause i)
  let pattern ← (fs.nodeD "pattern" (.field "pattern")).within (.clause i)
  let body ← fs.nodeD "body" (.clauseBody i)
  return .mk name pattern body

def clauses : (i : Nat) → List Payload → Decoded (List Clause)
  | _, [] => .ok []
  | i, p :: ps => do
    let c ← clause i p
    let cs ← clauses (i + 1) ps
    return c :: cs

def guarded (pos : Position) (p : Payload) : Decoded Node := do
  let fs ← p.fields ["body", "catches", "finally"]
  let body ← fs.nodeD "body" (.field "body")
  let cleanup ← fs.nodeD "finally" (.field "finally")
  let cs ← match fs.get? "catches" with
    | none => pure []
    | some c => do clauses 0 (← c.items (.notSequence "catches"))
  return .guarded pos body cs cleanup

/-- A command is a line, or a mapping with a name or a line. -/
def command (pos : Position) (p : Payload) : Decoded Node :=
  match p with
  | .scalar _ line _ => .ok (.command pos "" [] line)
  | p => do
    let fs ← p.fields ["name", "args", "line"]
    let name ← fs.textD "name"
    let line ← fs.textD "line"
    if name = "" ∧ line = "" then .error (.here p.pos .commandWithoutName)
    let args ← fs.nodes "args"
    return .command pos name args line

def invoke (pos : Position) (p : Payload) : Decoded Node := do
  let fs ← p.fields ["name", "args"]
  let name ← fs.text "name"
  let args ← fs.nodes "args"
  return .invoke pos name args

/-- How the payload of a kind is read. -/
def ofKind? (pos : Position) : String → Option (Payload → Decoded Node)
  | "program" => some fun p => p.list.map (.program pos)
  | "block" => some fun p => p.list.map (.list pos)
  | "func" => some (func pos)
  | "call" => some (call pos)
  | "number" => some (leaf "number" (.number pos))
  | "string" => some (leaf "string" (.string pos))
  | "word" => some (leaf "word" (.word pos))
  | "assign" => some (assign pos)
  | "closure" => some (closure pos)
  | "binary" => some (binary pos)
  | "match" => some (choice pos)
  | "try" => some (guarded pos)
  | "return" => some fun p => p.node.map (.ret pos)
  | "throw" => some fun p => p.node.map (.throw pos)
  | "command" => some (command pos)
  | "macro" => some (invoke pos)
  | _ => none

/-! ## Nodes -/

def scalar (pos : Position) (tag : Markup.Tag) (text : String) (quoted : Bool) : Node :=
  if quoted then .string pos text
  else match tag with
    | .int | .float => .number pos text
    | .null => .absent
    | _ => .word pos text

def mapping (pos : Position) : Fields → Decoded Node
  | [(kind, _, payload)] =>
    match ofKind? pos kind with
    | some read => (read payload).within (.kind kind)
    | none => .error (.here pos (.unknownKind kind))
  | fs => .error (.here pos (.keyCount fs.length))

mutual

/-- Reads a markup node in all roles. -/
def payload : Markup.Node → Payload
  | .scalar pos tag text style =>
    .scalar pos text (scalar pos tag text (style == .single || style == .double))
  | .sequence pos _ items =>
    let ps := payloads items
    .sequence pos ps ((Payload.nodes 0 ps).map (.list pos))
  | .mapping pos _ entries =>
    let fs := fields entries
    .mapping pos fs (mapping pos fs)
  | .reference pos _ _ | .loop pos _ => .reference pos (.error (.here pos (.unexpectedKind 16)))

def payloads : List Markup.Node → List Payload
  | [] => []
  | n :: ns => payload n :: payloads ns

def fields : List Markup.Entry → Fields
  | [] => []
  | .mk k v :: es => (k.name, k.position, payload v) :: fields es

end

def node (n : Markup.Node) : Decoded Node := (payload n).node

/-! ## Programs -/

/-- Reads the root of a document as a program. -/
def root (n : Markup.Node) : Decoded Node := do
  match n with
  | .sequence pos _ items => return .program pos (← Payload.nodes 0 (payloads items))
  | n =>
    match ← node n with
    | .program pos stmts => return .program pos stmts
    | x => return .program n.position [x]

/-- Why a text is not a tree. -/
inductive Error where
  | markup
  | tree (e : DecodeError)

/-- Reads a text as a program. A text without content is a program without statements. -/
def text (s : String) : Except Error Node :=
  match Markup.parse? s with
  | none => .error .markup
  | some none => .ok (.program {} [])
  | some (some n) => (root n).mapError .tree

end ScriptMachine.Decode
