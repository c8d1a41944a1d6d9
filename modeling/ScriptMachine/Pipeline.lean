import ScriptMachine.Check
import ScriptMachine.Lowering.Program
import ScriptMachine.Settings
import ScriptMachine.Tree.Decode

/-!
# From a text to a result

Reads a tree, lowers it, checks the program, and runs it. Each part can fail, and `Failure.message`
tells which one did.
-/

namespace ScriptMachine

open Text (decimal)

/-- A program made from a text, with what was found on the way. -/
structure Compiled where
  name : String
  program : Program
  diags : List Diagnostic
  report : Check.Report := {}

/-- Why there is no program, or no result of it. -/
inductive Failure where
  | file (e : FileError)
  | tree (e : Decode.Error)
  /-- Diagnostics where none are allowed. -/
  | diagnostics (name : String) (count : Nat) (first : Diagnostic)
  | check (problems : List Problem)
  | depth (e : DepthError)
  | fault (name : String) (f : Fault)
  | crash (c : Crash)
  | unfinished

namespace Failure

/-- The wording of what is wrong with a text that is no tree. -/
def treeMessage : Decode.Error → String
  | .markup => "yaml"
  | .tree e => e.message

def message : Failure → String
  | file e => "read file: " ++ e.message
  | tree e => "decode tree: " ++ treeMessage e
  | diagnostics name count first =>
    name ++ ": " ++ decimal count ++ ", first: " ++ first.text ++ ": lowering diagnostics"
  | check problems => "check: " ++ Problem.texts problems
  | depth e => e.message
  | fault name f => "exec " ++ name ++ ": " ++ f.text
  | crash c => c.message
  | unfinished => "the run does not end"

end Failure

/-- The outcome of a compilation: the program, or a failure with the program if it was made. -/
abbrev Compilation := Except (Failure × Option Compiled) Compiled

/-- Makes a program from a tree and checks it. With `strict` there may be no diagnostics. -/
def compileTree (name : String) (root : Node) (strict : Bool) : Compilation :=
  let (program, diags) := Lowering.program root
  let c : Compiled := { name, program, diags }
  match strict, diags with
  | true, d :: _ => .error (.diagnostics name diags.length d, some c)
  | _, _ =>
    match Check.program program with
    | .error e => .error (.crash e, some c)
    | .ok report =>
      let c := { c with report }
      if report.problems.isEmpty then .ok c else .error (.check report.problems, some c)

def compile (name text : String) (strict : Bool) : Compilation :=
  match Decode.text text with
  | .error e => .error (.tree e, none)
  | .ok root => compileTree name root strict

def compileFile (fs : Files) (name : String) (strict : Bool) : Compilation :=
  match fs.read name with
  | .error e => .error (.file e, none)
  | .ok text => compile name text strict

/-- How a run went: its result and the commands it issued. -/
structure Completion where
  calls : List (List String) := []
  result : Except Failure Value

def Compiled.run (c : Compiled) (depth : Int) (runner : Option Runner) : Completion :=
  match RunConfig.ofDepth depth runner with
  | .error e => { result := .error (.depth e) }
  | .ok cfg =>
    let r := Machine.main cfg c.program
    { calls := r.calls
      result := match r.ending with
        | .value v => .ok v
        | .fault f => .error (.fault c.name f)
        | .crash e => .error (.crash e)
        | .unfinished => .error .unfinished }

def runFile (fs : Files) (name : String) (settings : Settings) (runner : Option Runner) :
    Option Compiled × Completion :=
  match compileFile fs name settings.strict with
  | .error (e, c) => (c, { result := .error e })
  | .ok c => (some c, c.run settings.maxDepth runner)

end ScriptMachine
