import ScriptMachine.Files
import ScriptMachine.Machine.Action
import ScriptMachine.Process.Shell

/-!
# Commands

The commands that programs can issue from the command line, as functions of their arguments, their
input and the files at hand. They stand in for the processes of the host, and for the command line only:
the machine itself takes any runner, and nothing is stated about these ones.
-/

namespace ScriptMachine.Process

/-- The texts of files one after the other; `-` is the input. -/
def cat (fs : Files) (input : String) (args : List String) : Exit :=
  if args.isEmpty then { out := input }
  else args.foldl (fun r a =>
    if a = "-" then { r with out := r.out ++ input }
    else match fs.read a with
      | .ok text => { r with out := r.out ++ text }
      | .error _ =>
        { r with err := r.err ++ "cat: " ++ a ++ ": No such file or directory\n", status := 1 }) {}

/-- The directories where commands are found. -/
def directories : List String := ["/usr/local/bin/", "/usr/bin/", "/bin/"]

/-- The name of a command without the directory that it is in. -/
def baseName (name : String) : String :=
  match directories.find? (name.startsWith ·) with
  | some d => (name.drop d.length).toString
  | none => name

/-- Runs a command; `none` if there is none of that name. Shells may be nested to some depth. -/
def run (fs : Files) : (fuel : Nat) → String → List String → (input : String) → Option Exit
  | 0, _, _, _ => none
  | fuel + 1, name, args, input =>
    match baseName name with
    | "echo" => some (echo false args)
    | "printf" => some (printf args)
    | "true" => some {}
    | "false" => some { status := 1 }
    | "cat" => some (cat fs input args)
    | "sh" =>
      match args with
      | "-c" :: script :: rest =>
        some (Shell.run ⟨run fs fuel, if rest.isEmpty then ["sh"] else rest⟩ script)
      | "-c" :: [] => some { err := "sh: 0: -c requires an argument\n", status := 2 }
      | file :: rest =>
        match fs.read file with
        | .ok script => some (Shell.run ⟨run fs fuel, file :: rest⟩ script)
        | .error _ => some { err := "sh: 0: cannot open " ++ file ++ "\n", status := 2 }
      | [] => some (Shell.run ⟨run fs fuel, ["sh"]⟩ input)
    | _ => none

/-- Why a command cannot be started. A file at hand is none that can be run. -/
def notStarted (fs : Files) (name : String) : String :=
  if name = "" then "exec: no command"
  else if name.contains '/' then
    "fork/exec " ++ name ++
      match fs.read name with
      | .error (.missing ..) => ": no such file or directory"
      | _ => ": permission denied"
  else "exec: " ++ Text.quoted name ++ ": executable file not found in $PATH"

/-- Runs a command for a program: its value is what it wrote, without the line breaks at the end. -/
def runner (fs : Files) : Runner where
  answer _ name args :=
    let blame (problem : String) := if name = "" then problem else name ++ ": " ++ problem
    match run fs 64 name args "" with
    | none => .error (blame (notStarted fs name))
    | some r =>
      if r.status = 0 then
        .ok (.string (String.ofList (r.out.toList.reverse.dropWhile (· == '\n')).reverse))
      else .error (blame ("exit status " ++ Text.decimalNat r.status))

end ScriptMachine.Process
