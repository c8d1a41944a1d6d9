import ScriptMachine.Markup.Node
import ScriptMachine.Text.Quoted
import ScriptMachine.Tree

/-!
# Trees written as markup: payloads

Every node of a tree is written as a mapping with one key, which names its kind; the value of that
key is the payload. A payload may be read in several roles: as a node, a text, a list, or a mapping
with fields. `Payload` holds a markup node together with its reading as a node, so that the other
roles need no further recursion.
-/

namespace ScriptMachine

open Text (decimal quoted)

/-! ## Errors -/

/-- Where in a tree an error is, one step from the outside. -/
inductive DecodeStep where
  | item (i : Nat)
  | kind (name : String)
  | field (name : String)
  | arm (i : Nat)
  | armBody (i : Nat)
  | clause (i : Nat)
  | clauseBody (i : Nat)
deriving DecidableEq, Repr

def DecodeStep.render : DecodeStep → String
  | item i => "item " ++ decimal i
  | kind name | field name => name
  | arm i => "arm " ++ decimal i
  | armBody i => "arm " ++ decimal i ++ ": body"
  | clause i => "catch " ++ decimal i
  | clauseBody i => "catch " ++ decimal i ++ ": body"

/-- What is wrong with a markup node as a part of a tree. -/
inductive DecodeProblem where
  | unexpectedKind (number : Nat)
  | keyCount (n : Nat)
  | unknownKind (name : String)
  | unknownField (name : String)
  | mappingExpected
  | leafNotScalar (kind : String)
  | scalarExpected (field : String)
  | sequenceExpected (field : String)
  | notSequence (field : String)
  | commandWithoutName
  /-- A field that is left out, for which there is no place. -/
  | missingField (name : String)
deriving DecidableEq, Repr

def DecodeProblem.message : DecodeProblem → String
  | unexpectedKind n => "unexpected yaml node kind " ++ decimal n
  | keyCount n => "node must have exactly one kind key, got " ++ decimal n ++ " keys"
  | unknownKind name => "unknown node kind: " ++ quoted name
  | unknownField name => "unknown field: " ++ quoted name
  | mappingExpected => "mapping expected"
  | leafNotScalar kind => kind ++ " must be a scalar"
  | scalarExpected field => field ++ ": scalar expected"
  | sequenceExpected field => field ++ ": sequence expected"
  | notSequence field => field ++ " must be a sequence"
  | commandWithoutName => "command needs name or line"
  | missingField name => "missing field: " ++ name

/-- An error with the way to it, from the outside, and its place. -/
structure DecodeError where
  path : List DecodeStep := []
  pos : Option Position
  problem : DecodeProblem
deriving DecidableEq, Repr

namespace DecodeError

def here (pos : Position) (problem : DecodeProblem) : DecodeError := { pos := some pos, problem }

/-- The same error, seen from one step further outside. -/
def within (step : DecodeStep) (e : DecodeError) : DecodeError := { e with path := step :: e.path }

def message (e : DecodeError) : String :=
  let place := match e.pos with
    | some p => decimal p.line ++ ":" ++ decimal p.col ++ ": "
    | none => ""
  ": ".intercalate (e.path.map DecodeStep.render ++ [place ++ e.problem.message])

end DecodeError

abbrev Decoded (α : Type) := Except DecodeError α

namespace Decoded

/-- Notes that an error is one step inside. -/
def within {α : Type} (step : DecodeStep) (r : Decoded α) : Decoded α :=
  r.mapError (DecodeError.within step)

end Decoded

/-! ## Payloads -/

/-- A markup node with what it is as a node of a tree. -/
inductive Payload where
  | scalar (pos : Position) (text : String) (node : Node)
  | sequence (pos : Position) (items : List Payload) (node : Decoded Node)
  | mapping (pos : Position) (fields : List (String × Position × Payload)) (node : Decoded Node)
  | reference (pos : Position) (node : Decoded Node)

/-- The fields of a mapping, each with the place of its key. -/
abbrev Fields := List (String × Position × Payload)

namespace Payload

def pos : Payload → Position
  | scalar p .. | sequence p .. | mapping p .. | reference p _ => p

def node : Payload → Decoded Node
  | scalar _ _ n => .ok n
  | sequence _ _ r | mapping _ _ r | reference _ r => r

/-- Payloads as nodes, the first of which is item `i`. -/
def nodes : (i : Nat) → List Payload → Decoded (List Node)
  | _, [] => .ok []
  | i, p :: ps => do
    let x ← p.node.within (.item i)
    let xs ← nodes (i + 1) ps
    return x :: xs

/-- The payload as a list of nodes: that of a sequence, or a single node. -/
def list : Payload → Decoded (List Node)
  | sequence _ items _ => nodes 0 items
  | p => p.node.map ([·])

/-- The payload as a mapping that has no other fields than those named. -/
def fields (p : Payload) (known : List String) : Decoded Fields :=
  match p with
  | mapping _ fs _ =>
    match fs.find? fun f => !known.contains f.1 with
    | some (name, pos, _) => .error (.here pos (.unknownField name))
    | none => .ok fs
  | p => .error (.here p.pos .mappingExpected)

/-- The text of a payload that has to be a scalar. -/
def text (p : Payload) (problem : DecodeProblem) : Decoded String :=
  match p with
  | scalar _ s _ => .ok s
  | p => .error (.here p.pos problem)

/-- The items of a payload that has to be a sequence. -/
def items (p : Payload) (problem : DecodeProblem) : Decoded (List Payload) :=
  match p with
  | sequence _ ps _ => .ok ps
  | p => .error (.here p.pos problem)

end Payload

namespace Fields

/-- The value of a field; of fields with the same name the last counts. -/
def get? (fs : Fields) (name : String) : Option Payload := (fs.reverse.lookup name).map (·.2)

def missing {α : Type} (name : String) : Decoded α := .error ⟨[], none, .missingField name⟩

/-- A field that has to be there. -/
def required (fs : Fields) (name : String) : Decoded Payload :=
  match fs.get? name with
  | some p => .ok p
  | none => missing name

def text (fs : Fields) (name : String) : Decoded String := do
  let p ← fs.required name
  p.text (.scalarExpected name)

/-- A text that may be left out. -/
def textD (fs : Fields) (name : String) : Decoded String :=
  match fs.get? name with
  | some p => p.text (.scalarExpected name)
  | none => .ok ""

/-- A sequence of texts that may be left out. -/
def texts (fs : Fields) (name : String) : Decoded (List String) :=
  match fs.get? name with
  | some p => do
    let ps ← p.items (.sequenceExpected name)
    ps.mapM (Payload.text · (.scalarExpected name))
  | none => .ok []

def node (fs : Fields) (name : String) : Decoded Node := do
  let p ← fs.required name
  p.node.within (.field name)

/-- A node that may be left out; `step` is the way to it. -/
def nodeD (fs : Fields) (name : String) (step : DecodeStep) : Decoded Node :=
  match fs.get? name with
  | some p => p.node.within step
  | none => .ok .absent

/-- A sequence of nodes that may be left out. -/
def nodes (fs : Fields) (name : String) : Decoded (List Node) :=
  match fs.get? name with
  | some p => do
    let ps ← p.items (.sequenceExpected name)
    Decoded.within (.field name) (Payload.nodes 0 ps)
  | none => .ok []

end Fields

end ScriptMachine
