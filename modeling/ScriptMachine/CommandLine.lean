import ScriptMachine.Code.Listing
import ScriptMachine.Pipeline
import ScriptMachine.Process.Commands

/-!
# The command line

Three commands that each take files: `lower` prints listings, `run` prints results, and `check`
tells whether programs are well formed.
-/

namespace ScriptMachine.CommandLine

open Text (decimal quoted)

inductive Command where
  | lower | run | check
deriving DecidableEq, Repr

def Command.name : Command → String
  | lower => "lower"
  | run => "run"
  | check => "check"

def Command.ofName? (name : String) : Option Command :=
  [lower, run, check].find? (·.name == name)

structure Options where
  verbosity : String := ""
  config : String := ""
  strict : Bool := false
  color : String := "auto"
  maxDepth : Int := 0
deriving DecidableEq, Repr

/-! ## Arguments -/

/-- Why arguments make no sense. -/
inductive UsageError where
  | unexpectedArg (arg : String)
  | noSuchFlag (arg : String)
  | missingValue (arg : String)
  | badBool (arg value : String)
  | badInt (arg value : String)
  | intOutOfRange (arg value : String)
deriving DecidableEq, Repr

def UsageError.message : UsageError → String
  | unexpectedArg arg => "no args expected, got " ++ arg
  | noSuchFlag arg => "parse flag: " ++ arg ++ ": no such flag"
  | missingValue arg => "parse flag: " ++ arg ++ ": value required"
  | badBool arg value =>
    "parse flag: " ++ arg ++ ": strconv.ParseBool: parsing " ++ quoted value ++ ": invalid syntax"
  | badInt arg value =>
    "parse flag: " ++ arg ++ ": strconv.ParseInt: parsing " ++ quoted value ++ ": invalid syntax"
  | intOutOfRange arg value =>
    "parse flag: " ++ arg ++ ": strconv.ParseInt: parsing " ++ quoted value
      ++ ": value out of range"

inductive Flag where
  | verbosity | config | strict | color | maxDepth
deriving DecidableEq, Repr

/-- The flag of a name, with its dashes, where a command is given or not. -/
def Flag.ofName? (command : Option Command) (name : String) : Option Flag :=
  match name with
  | "--verbosity" | "-v" => some verbosity
  | "--config" | "-c" => some config
  | "--strict" => some strict
  | "--color" => if command = some .lower then some color else none
  | "--max-depth" => if command = some .run then some maxDepth else none
  | _ => none

def readBool? (s : String) : Option Bool :=
  if s ∈ ["1", "t", "T", "true", "TRUE", "True"] then some true
  else if s ∈ ["0", "f", "F", "false", "FALSE", "False"] then some false
  else none

def Flag.set (f : Flag) (arg value : String) (o : Options) : Except UsageError Options :=
  match f with
  | verbosity => .ok { o with verbosity := value }
  | config => .ok { o with config := value }
  | color => .ok { o with color := value }
  | strict =>
    match readBool? value with
    | some b => .ok { o with strict := b }
    | none => .error (.badBool arg value)
  | maxDepth =>
    match Number.readInt value.toList with
    | some n => .ok { o with maxDepth := n.toInt }
    | none =>
      let digits := (Number.splitSign value.toList).2
      if !digits.isEmpty && digits.all Char.isDigit then .error (.intOutOfRange arg value)
      else .error (.badInt arg value)

/-- An argument of the form `name=value`, or the name alone. -/
def splitFlag (arg : String) : String × Option String :=
  let name := arg.toList.takeWhile (· != '=')
  match arg.toList.drop name.length with
  | _ :: value => (String.ofList name, some (String.ofList value))
  | [] => (arg, none)

/-- What the arguments ask for. -/
structure Request where
  command : Option Command := none
  options : Options := {}
  /-- The arguments of the command, last first. -/
  args : List String := []

/-- Reading arguments: the request so far, a flag that waits for its value, with its argument, and
whether there are no more flags. -/
structure Parsing where
  request : Request := {}
  waiting : Option (Flag × String) := none
  plain : Bool := false

/-- An error in the arguments, with the command if it is known. -/
abbrev Parsed (α : Type) := Except (Option Command × UsageError) α

namespace Parsing

def fail {α : Type} (p : Parsing) (e : UsageError) : Parsed α := .error (p.request.command, e)

def set (p : Parsing) (f : Flag) (arg value : String) : Parsed Parsing :=
  match f.set arg value p.request.options with
  | .ok options => .ok { p with request.options := options, waiting := none }
  | .error e => p.fail e

/-- Reads an argument that is no flag. Behind a double dash it is no command either. -/
def positional (p : Parsing) (arg : String) : Parsed Parsing :=
  match p.request.command, if p.plain then none else Command.ofName? arg with
  | some _, _ => .ok { p with request.args := arg :: p.request.args }
  | none, some c => .ok { p with request.command := some c }
  | none, none => p.fail (.unexpectedArg arg)

/-- Reads a flag. Only the flag for strictness needs no value. -/
def flag (p : Parsing) (arg : String) : Parsed Parsing :=
  let (name, value) := splitFlag arg
  match Flag.ofName? p.request.command name, value with
  | none, _ => p.fail (.noSuchFlag arg)
  | some f, some v => p.set f arg v
  | some .strict, none => p.set .strict arg "true"
  | some f, none => .ok { p with waiting := some (f, arg) }

def step (p : Parsing) (arg : String) : Parsed Parsing :=
  match p.waiting with
  | some (f, given) => p.set f given arg
  | none =>
    if p.plain then p.positional arg
    else if arg = "--" then .ok { p with plain := true }
    else if arg.startsWith "-" && arg != "-" then p.flag arg
    else p.positional arg

end Parsing

def parse (args : List String) : Parsed Request := do
  let p ← args.foldlM Parsing.step {}
  match p.waiting with
  | some (_, given) => p.fail (.missingValue given)
  | none => return p.request

/-! ## Actions -/

/-- What a command wrote to its two outputs, and the message of its error if it failed. -/
structure Report where
  out : String := ""
  err : String := ""
  failure : Option String := none

/-- The diagnostics of a program, one a line. -/
def diagnosticLines (c : Option Compiled) : String :=
  match c with
  | some c => String.join (c.diags.map fun d => c.name ++ ":" ++ d.text ++ "\n")
  | none => ""

/-- The unreachable blocks of the functions of a program, one function a line. -/
def unreachableLines (file : String) (c : Compiled) : String :=
  String.join (c.program.order.map fun name =>
    match c.report.unreachable.lookup name with
    | some (b :: bs) =>
      file ++ ": " ++ name ++ ": unreachable blocks ["
        ++ " ".intercalate ((b :: bs).map fun b => decimal b.index) ++ "]\n"
    | _ => "")

def decoration (color : String) : String → String :=
  if color = "always" then fun op => "\x1b[36;1m" ++ op ++ "\x1b[0m" else id

/-- What a command does with one file. -/
def fileAction (fs : Files) (s : Settings) (o : Options) (command : Command) (file : String) :
    Report :=
  let blame (what problem : String) := some (what ++ " " ++ file ++ ": " ++ problem)
  match command with
  | .run =>
    let (c, done) := runFile fs file s (some (Process.runner fs))
    match done.result with
    | .ok v => { out := v.render ++ "\n", err := diagnosticLines c }
    | .error e => { err := diagnosticLines c, failure := blame "run" e.message }
  | _ =>
    match compileFile fs file s.strict with
    | .error (e, c) => { err := diagnosticLines c, failure := blame command.name e.message }
    | .ok c =>
      let err := diagnosticLines (some c)
      if command = .check then
        { out := file ++ ": ok\n", err := err ++ unreachableLines file c }
      else
        let opts : ListingOptions :=
          { opcode := decoration o.color, unreachable := c.report.unreachable }
        match Listing.program opts c.program with
        | .ok text => { out := text, err }
        | .error e => { err, failure := blame "format" e.message }

/-- What a command does with files, up to the first on which it fails. -/
def filesAction (fs : Files) (s : Settings) (o : Options) (command : Command) :
    List String → Report → Report
  | [], r => r
  | file :: rest, r =>
    let next := fileAction fs s o command file
    let r : Report :=
      { out := r.out ++ next.out, err := r.err ++ next.err, failure := next.failure }
    match r.failure with
    | some _ => r
    | none => filesAction fs s o command rest r

/-- The settings under the options. -/
def settings (fs : Files) (command : Command) (o : Options) : Except Settings.Error Settings := do
  let s ← Settings.load fs o.config
  let s := if o.strict then { s with strict := true } else s
  return if command = .run ∧ o.maxDepth ≠ 0 then { s with maxDepth := o.maxDepth } else s

/-- Does what the arguments ask for. -/
def perform (fs : Files) (r : Request) : Report :=
  match r.command with
  | none => {}
  | some command =>
    match settings fs command r.options with
    | .error e => { failure := some e.message }
    | .ok s => filesAction fs s r.options command r.args.reverse {}

/-- The outputs and the exit code of the program. -/
structure Result where
  out : String
  err : String
  code : Nat
deriving DecidableEq, Repr

/-- The line of an error, with the command if it is known. -/
def errorLine (command : Option Command) (message : String) : String :=
  "error: " ++ (command.map fun c => c.name ++ ": ").getD "" ++ message ++ "\n"

def run (fs : Files) (args : List String) : Result :=
  match parse args with
  | .error (command, e) => ⟨"", errorLine command e.message, 1⟩
  | .ok request =>
    let r := perform fs request
    match r.failure with
    | none => ⟨r.out, r.err, 0⟩
    | some message => ⟨r.out, r.err ++ errorLine request.command message, 1⟩

end ScriptMachine.CommandLine
