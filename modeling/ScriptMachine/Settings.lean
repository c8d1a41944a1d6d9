import ScriptMachine.Files
import ScriptMachine.Machine.Run
import ScriptMachine.Markup.Document
import ScriptMachine.Text.Quoted

/-!
# Settings

The settings of the system and how they are read from a markup document over the defaults. Values of
a wrong type are collected; a null leaves a setting as it is, unknown keys are passed over, and the
key `<<` merges the entries of further mappings that are not set yet.
-/

namespace ScriptMachine

open Text (decimal quoted)
open Markup (Tag Plain)

/-- The settings: whether diagnostics are errors, and the limit on the depth of runs. -/
structure Settings where
  strict : Bool := false
  maxDepth : Int := RunConfig.defaultDepth
deriving DecidableEq, Repr

namespace Settings

/-! ## Problems -/

/-- What a markup node is read as. -/
inductive Target where
  | settings | machine | bool | int | key
deriving DecidableEq, Repr

def Target.typeName : Target → String
  | settings => "compiler.Config"
  | machine => "exec.Config"
  | bool => "bool"
  | int => "int"
  | key => "string"

/-- Something in a document of settings that cannot be used, with its line. -/
inductive Problem where
  | mismatch (line : Int) (tag : Tag) (text : String) (target : Target)
  | duplicateKey (line : Int) (key : String) (first : Int)
  | setTwice (line : Int) (name : String) (target : Target)
deriving DecidableEq, Repr

/-- A text of at most ten bytes, else its first seven. Cut characters are replaced. -/
def cutText (s : String) : String :=
  if s.utf8ByteSize ≤ 10 then s
  else
    let step := fun (acc : List Char × Nat) (c : Char) =>
      let n := acc.2 + c.utf8Size
      if n ≤ 7 then (c :: acc.1, n)
      else (List.replicate (7 - acc.2) '\ufffd' ++ acc.1, max acc.2 7)
    String.ofList (s.toList.foldl step ([], 0)).1.reverse ++ "..."

def Problem.message : Problem → String
  | mismatch line tag text target =>
    let shown := if tag = .seq ∨ tag = .map then "" else " `" ++ cutText text ++ "`"
    "line " ++ decimal line ++ ": cannot unmarshal " ++ tag.render ++ shown ++ " into "
      ++ target.typeName
  | duplicateKey line key first =>
    "line " ++ decimal line ++ ": mapping key " ++ quoted key ++ " already defined at line "
      ++ decimal first
  | setTwice line name target =>
    "line " ++ decimal line ++ ": field " ++ name ++ " already set in type " ++ target.typeName

/-! ## Scalars -/

/-- What a scalar stands for under its tag; `none` if the text does not fit the tag. -/
def scalarValue (tag : Tag) (text : String) : Option Plain :=
  let plain := Plain.ofText text
  if tag = .str ∨ tag = .other "!!binary" then some .str
  else if tag = plain.tag then some plain
  else match tag, plain with
    | .float, .int n => some (.float (Float.ofInt n))
    | _, _ => none

/-- The truth value of a scalar. Some words that are strings otherwise stand for one. -/
def boolOf (value : Plain) (text : String) : Option Bool :=
  match value with
  | .bool b => some b
  | .str =>
    if text ∈ ["y", "Y", "yes", "Yes", "YES", "on", "On", "ON"] then some true
    else if text ∈ ["n", "N", "no", "No", "NO", "off", "Off", "OFF"] then some false
    else none
  | _ => none

/-- The whole part of a double; the least 64-bit integer if it is no such integer. -/
def wholePart (x : Float) : Int :=
  match Binary64.parts x with
  | .finite neg m q =>
    let n := if 0 ≤ q then m <<< q.toNat else m >>> (-q).toNat
    let n : Int := if neg then -(n : Int) else n
    if Int64.minValue.toInt ≤ n ∧ n ≤ Int64.maxValue.toInt then n else Int64.minValue.toInt
  | _ => Int64.minValue.toInt

/-- The integer of a scalar. A double that is not too large counts by its whole part. -/
def intOf (value : Plain) : Option Int :=
  match value with
  | .int n => if n ≤ Int64.maxValue.toInt then some n else none
  | .float x => if x ≤ Int64.maxValue.toFloat then some (wholePart x) else none
  | _ => none

/-! ## Mappings -/

/-- Settings under construction: what was set, the problems so far, and, while mappings are merged,
the names that are taken. -/
structure Reading where
  settings : Settings
  problems : List Problem := []
  taken : Option (List String) := none

/-- A step in reading settings; `none` if the document makes no sense. -/
abbrev Step := StateT Reading Option

def report (p : Problem) : Step Unit :=
  modify fun s => { s with problems := s.problems ++ [p] }

/-- The further occurrences of the keys of a mapping. -/
def duplicates : List Markup.Entry → List Problem
  | [] => []
  | .mk k _ :: es =>
    (es.filter fun e => e.key.kindNumber = k.kindNumber ∧ e.key.name = k.name).map
        (fun e => .duplicateKey e.key.position.line e.key.name k.position.line)
      ++ duplicates es

def isMerge : Markup.Node → Bool
  | .scalar _ tag text _ => tag = .merge ∧ text = "<<"
  | _ => false

/-- The name that a key stands for, if it is one. -/
def keyName : Markup.Node → Step (Option String)
  | .scalar _ tag text _ =>
    match scalarValue tag text with
    | none => failure
    | some .null => return none
    | some _ => return some text
  | .sequence pos tag _ => do
    report (.mismatch pos.line tag "" .key)
    return none
  | .mapping pos tag es => do
    match duplicates es with
    | [] => report (.mismatch pos.line tag "" .key)
    | ps => ps.forM report
    return none
  | .reference _ _ target => keyName target
  | .loop .. => failure

def keyNames (es : List Markup.Entry) : Step (List String) := do
  return (← es.mapM fun e => keyName e.key).filterMap id

/-- What a name stands for in a mapping. -/
def member (target : Target) (name : String) : Option Target :=
  match target, name with
  | .settings, "strict" => some .bool
  | .settings, "exec" => some .machine
  | .machine, "max_depth" => some .int
  | _, _ => none

def scalar (target : Target) (pos : Position) (tag : Tag) (text : String) : Step Unit := do
  let mismatch := report (.mismatch pos.line tag text target)
  match scalarValue tag text with
  | none => failure
  | some .null => return
  | some v =>
    match target with
    | .bool =>
      match boolOf v text with
      | some b => modify fun s => { s with settings.strict := b }
      | none => mismatch
    | .int =>
      match intOf v with
      | some n => modify fun s => { s with settings.maxDepth := n }
      | none => mismatch
    | _ => mismatch

/-- Whether a name is to be read, which it then is no more. -/
def claim (name : String) (taken : Option (List String)) : Bool × Option (List String) :=
  match taken with
  | none => (true, none)
  | some ns => if ns.contains name then (false, some ns) else (true, some (name :: ns))

/-- Whether a node is a mapping, directly or by an alias. -/
def isMapping : Markup.Node → Bool
  | .mapping .. => true
  | .reference _ _ n => isMapping n
  | _ => false

mutual

/-- Reads a node. As the value of a merge it has to be a mapping or a sequence of mappings. -/
def node (target : Target) (merging : Bool) : Markup.Node → Step Unit
  | .reference _ _ n => if merging && !isMapping n then failure else node target false n
  | .loop .. => failure
  | .scalar pos tag text _ => if merging then failure else scalar target pos tag text
  | .sequence pos tag items =>
    if merging then mergeAll target items else report (.mismatch pos.line tag "" target)
  | .mapping pos tag es => do
    match duplicates es with
    | [] =>
      if target = .settings ∨ target = .machine then
        let taken := (← get).taken
        modify fun s => { s with taken := none }
        let taken ← entries target taken [] es
        modify fun s => { s with taken }
        merges target (keyNames es) es
      else report (.mismatch pos.line tag "" target)
    | ps => ps.forM report

/-- Reads the entries of a mapping other than merges; `done` are the names read so far. -/
def entries (target : Target) (taken : Option (List String)) (done : List String) :
    List Markup.Entry → Step (Option (List String))
  | [] => return taken
  | .mk k v :: es => do
    if isMerge k then entries target taken done es
    else
      match ← keyName k with
      | none => entries target taken done es
      | some name =>
        let (free, taken) := claim name taken
        match if free then member target name else none with
        | none => entries target taken done es
        | some t =>
          if done.contains name then
            report (.setTwice k.position.line name target)
            entries target taken done es
          else
            node t false v
            entries target taken (name :: done) es

/-- Merges what the merge keys among entries ask for, except for the names that are taken: those of
the mappings merged before, and the mapping's own, which are `own`. -/
def merges (target : Target) (own : Step (List String)) : List Markup.Entry → Step Unit
  | [] => return
  | .mk k v :: es => do
    if isMerge k then
      let outer := (← get).taken
      let taken ← match outer with
        | some ns => pure ns
        | none => own
      modify fun s => { s with taken := some taken }
      node target true v
      modify fun s => { s with taken := outer.bind fun _ => s.taken }
    merges target own es

def mergeAll (target : Target) : List Markup.Node → Step Unit
  | [] => return
  | n :: ns => do
    if isMapping n then node target false n else failure
    mergeAll target ns

end

/-! ## Documents -/

/-- Why settings cannot be read. -/
inductive Error where
  | file (e : FileError)
  | markup (name : String)
  | types (name : String) (problems : List Problem)

def Error.message : Error → String
  | file e => "read config: " ++ e.message
  | markup name => "decode config " ++ name ++ ": yaml"
  | types name problems =>
    "decode config " ++ name ++ ": yaml: unmarshal errors:\n  "
      ++ "\n  ".intercalate (problems.map Problem.message)

def ofText (name text : String) : Except Error Settings :=
  match Markup.parse? text with
  | none => .error (.markup name)
  | some none => .ok {}
  | some (some root) =>
    match (node .settings false root).run { settings := {} } with
    | none => .error (.markup name)
    | some (_, r) => if r.problems.isEmpty then .ok r.settings else .error (.types name r.problems)

/-- Loads settings from a file; without a name they are the defaults. -/
def load (fs : Files) (name : String) : Except Error Settings :=
  if name = "" then .ok {}
  else match fs.read name with
    | .error e => .error (.file e)
    | .ok text => ofText name text

end Settings

end ScriptMachine
