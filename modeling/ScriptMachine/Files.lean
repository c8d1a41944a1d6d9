/-!
# Files

The files that programs and settings are read from. Paths are compared in their shortest form,
without empty parts, dots and parts that are taken back.
-/

namespace ScriptMachine

/-- Appends a part to the parts of a path, last first. -/
def pathStep (rooted : Bool) (parts : List String) (part : String) : List String :=
  if part = "" ∨ part = "." then parts
  else if part = ".." then
    match parts with
    | [] => if rooted then [] else [".."]
    | p :: ps => if p = ".." then ".." :: p :: ps else ps
  else part :: parts

/-- The shortest form of a path. -/
def cleanPath (path : String) : String :=
  let rooted := path.startsWith "/"
  let parts := ((path.splitOn "/").foldl (pathStep rooted) []).reverse
  let text := "/".intercalate parts
  if rooted then "/" ++ text else if text = "" then "." else text

/-- Where files are kept: in memory, or in a directory of the system. -/
inductive Storage where
  | memory | directory
deriving DecidableEq, Repr

structure Files where
  storage : Storage
  files : List (String × String) := []

inductive FileError where
  | missing (storage : Storage) (path : String)
  | isDirectory (path : String)
deriving DecidableEq, Repr

def FileError.message : FileError → String
  | missing .memory path => "open " ++ path ++ ": file does not exist"
  | missing .directory path => "open " ++ path ++ ": no such file or directory"
  | isDirectory path => "read " ++ path ++ ": is a directory"

namespace Files

/-- The path under which a file is looked up. In memory, the directory of relative paths is the
root. -/
def key (fs : Files) (path : String) : String :=
  let p := cleanPath path
  match fs.storage with
  | .memory => if p = "." ∨ p = ".." then "/" else p
  | .directory => p

def isDirectory (fs : Files) (path : String) : Bool :=
  let p := fs.key path
  let start := if p = "/" then "/" else p ++ "/"
  p = "/" || p = "." || fs.files.any fun (name, _) => (fs.key name).startsWith start

/-- The text of a file. In memory, a directory reads as an empty text. -/
def read (fs : Files) (path : String) : Except FileError String :=
  match fs.files.find? fun (name, _) => fs.key name = fs.key path with
  | some (_, text) => if path = "" then .error (.missing fs.storage path) else .ok text
  | none =>
    match fs.storage with
    | .memory => if fs.isDirectory path then .ok "" else .error (.missing .memory path)
    | .directory =>
      if path ≠ "" ∧ fs.isDirectory path then .error (.isDirectory path)
      else .error (.missing .directory path)

end Files

end ScriptMachine
