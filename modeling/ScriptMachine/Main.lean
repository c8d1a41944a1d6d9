import ScriptMachine.CommandLine

/-!
# The program

Reads the files that the arguments name and prints what the command line makes of them.
-/

namespace ScriptMachine.CommandLine

/-- The files that a request may read. -/
def Request.files (r : Request) : List String :=
  (if r.options.config = "" then [] else [r.options.config]) ++ r.args.reverse

/-- Reads those of some files that can be read. -/
def readFiles : List String → IO (List (String × String))
  | [] => return []
  | name :: rest => do
    let more ← readFiles rest
    try
      return (name, ← IO.FS.readFile name) :: more
    catch _ => return more

end ScriptMachine.CommandLine

open ScriptMachine CommandLine in
def main (args : List String) : IO UInt32 := do
  let names := match parse args with
    | .ok r => r.files
    | .error _ => []
  let r := CommandLine.run { storage := .directory, files := ← readFiles names } args
  IO.print r.out
  IO.eprint r.err
  return UInt32.ofNat r.code
