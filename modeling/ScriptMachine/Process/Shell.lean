import ScriptMachine.Process.Print

/-!
# A small shell

Scripts of simple commands with quotes and positional parameters, joined by `;`, `&&`, `||` and
pipes, with redirections between the two outputs and to the null device. This is what the command
line needs in place of the shell of the host, and no more.
-/

namespace ScriptMachine.Process

inductive WordPart where
  | text (s : String)
  | param (n : Nat)
  | allParams
  | status
deriving DecidableEq, Repr

/-- Where an output goes. -/
inductive Sink where
  | out | err | null
deriving DecidableEq, Repr

/-- The parts that scripts are made of. -/
inductive ShellToken where
  | word (parts : List WordPart)
  | sequence
  | andIf
  | orIf
  | pipe
  /-- A redirection of output one or two. -/
  | redirect (two : Bool) (sink : Sink)
  | redirectFile (two : Bool)
deriving DecidableEq, Repr

namespace Shell

/-- A parameter behind its dollar sign. -/
def parameter : List Char → WordPart × List Char
  | '@' :: cs | '*' :: cs => (.allParams, cs)
  | '?' :: cs => (.status, cs)
  | c :: cs => if c.isDigit then (.param (c.toNat - 48), cs) else (.text "$", c :: cs)
  | [] => (.text "$", [])

/-- Appends a character to the parts of a word, last first. -/
def addChar (c : Char) : List WordPart → List WordPart
  | .text s :: ps => .text (s.push c) :: ps
  | ps => .text (String.singleton c) :: ps

def isBreaker (c : Char) : Bool :=
  c == ' ' || c == '\t' || c == '\n' || c == ';' || c == '&' || c == '|' || c == '>' || c == '<'

/-- How the next character of a word is read. -/
inductive Quoting where
  | none | single | double
deriving DecidableEq

/-- Reads a word to its end; `none` if a quote is not closed. -/
def readWord : (fuel : Nat) → Quoting → List WordPart → List Char →
    Option (List WordPart × List Char)
  | 0, _, _, _ => none
  | fuel + 1, q, ps, cs =>
    match q, cs with
    | .none, [] => some (ps.reverse, [])
    | _, [] => none
    | .single, c :: cs =>
      if c == '\'' then readWord fuel .none ps cs else readWord fuel .single (addChar c ps) cs
    | .double, c :: cs =>
      if c == '"' then readWord fuel .none ps cs
      else if c == '\\' then
        match cs with
        | d :: rest =>
          if d ∈ ['"', '\\', '$', '\x60'] then readWord fuel .double (addChar d ps) rest
          else readWord fuel .double (addChar c ps) cs
        | [] => Option.none
      else if c == '$' then
        let (p, rest) := parameter cs
        readWord fuel .double (p :: ps) rest
      else readWord fuel .double (addChar c ps) cs
    | .none, c :: cs =>
      if isBreaker c then some (ps.reverse, c :: cs)
      else if c == '\'' then readWord fuel .single (.text "" :: ps) cs
      else if c == '"' then readWord fuel .double (.text "" :: ps) cs
      else if c == '\\' then
        match cs with
        | d :: rest => readWord fuel .none (addChar d ps) rest
        | [] => some ((addChar c ps).reverse, [])
      else if c == '$' then
        let (p, rest) := parameter cs
        readWord fuel .none (p :: ps) rest
      else readWord fuel .none (addChar c ps) cs

def tokens : (fuel : Nat) → List Char → Option (List ShellToken)
  | 0, _ => some []
  | fuel + 1, cs =>
    match cs with
    | [] => some []
    | ' ' :: rest | '\t' :: rest => tokens fuel rest
    | ';' :: rest | '\n' :: rest => (tokens fuel rest).map (.sequence :: ·)
    | '#' :: rest => tokens fuel (rest.dropWhile (· != '\n'))
    | '&' :: '&' :: rest => (tokens fuel rest).map (.andIf :: ·)
    | '|' :: '|' :: rest => (tokens fuel rest).map (.orIf :: ·)
    | '|' :: rest => (tokens fuel rest).map (.pipe :: ·)
    | '2' :: '>' :: '&' :: '1' :: rest => (tokens fuel rest).map (.redirect true .out :: ·)
    | '1' :: '>' :: '&' :: '2' :: rest | '>' :: '&' :: '2' :: rest =>
      (tokens fuel rest).map (.redirect false .err :: ·)
    | '2' :: '>' :: rest => (tokens fuel rest).map (.redirectFile true :: ·)
    | '1' :: '>' :: rest | '>' :: rest => (tokens fuel rest).map (.redirectFile false :: ·)
    | cs => do
      let (ps, rest) ← readWord (cs.length + 1) .none [] cs
      if rest.length < cs.length then
        let ts ← tokens fuel rest
        return .word ps :: ts
      else none

/-- The surroundings of a script: the commands it may use, and its parameters, its name first. -/
structure Env where
  command : String → List String → (input : String) → Option Exit
  params : List String

/-- What has been written so far, the status of the last command, and whether the script has
ended. -/
structure State where
  out : String := ""
  err : String := ""
  status : Nat := 0
  ended : Bool := false

def expand (env : Env) (status : Nat) (parts : List WordPart) : String :=
  String.join (parts.map fun
    | .text s => s
    | .param n => env.params.getD n ""
    | .allParams => " ".intercalate (env.params.drop 1)
    | .status => Text.decimalNat status)

/-- A simple command: its words and where its outputs go. -/
structure Simple where
  words : List (List WordPart) := []
  out : Sink := .out
  err : Sink := .err

/-- Reads a simple command. Files other than the null device are not written. -/
def simple : List ShellToken → Simple → Simple
  | .word ps :: ts, s => simple ts { s with words := s.words ++ [ps] }
  | .redirect false sink :: ts, s => simple ts { s with out := if sink = .err then s.err else sink }
  | .redirect true sink :: ts, s => simple ts { s with err := if sink = .out then s.out else sink }
  | .redirectFile two :: .word _ :: ts, s =>
    simple ts (if two then { s with err := .null } else { s with out := .null })
  | _ :: ts, s => simple ts s
  | [], s => s

def runSimple (env : Env) (input : String) (status : Nat) (s : Simple) : Exit × Bool :=
  match s.words.map (expand env status) with
  | [] => ({ status := 0 }, false)
  | name :: args =>
    if name = "exit" then
      let code := match args with
        | a :: _ => (integerArg a).1.toNat % 256
        | [] => status
      ({ status := code }, true)
    else
      let r := match name with
        | ":" => ({} : Exit)
        | "echo" => echo true args
        | _ => (env.command name args input).getD
          { err := "sh: 1: " ++ name ++ ": not found\n", status := 127 }
      let sent (sink : Sink) :=
        (if s.out = sink then r.out else "") ++ (if s.err = sink then r.err else "")
      ({ r with out := sent .out, err := sent .err }, false)

/-- Splits tokens at those that satisfy `p`. -/
def splitAt (p : ShellToken → Bool) : List ShellToken → List (List ShellToken)
  | [] => [[]]
  | t :: ts =>
    match splitAt p ts with
    | part :: parts => if p t then [] :: part :: parts else (t :: part) :: parts
    | [] => [[t]]

/-- Runs the commands of a pipe, each on the output of the one before. -/
def runPipe (env : Env) (status : Nat) : (input err : String) → List (List ShellToken) → Exit × Bool
  | _, err, [] => ({ err, status := 0 }, false)
  | input, err, [c] =>
    let (r, ended) := runSimple env input status (simple c {})
    ({ r with err := err ++ r.err }, ended)
  | input, err, c :: cs =>
    let (r, _) := runSimple env input status (simple c {})
    runPipe env status r.out (err ++ r.err) cs

/-- Runs a pipe unless the status of the last one excludes it. -/
def runStep (env : Env) (s : State) (wanted : Nat → Bool) (ts : List ShellToken) : State :=
  if s.ended || !wanted s.status || ts.isEmpty then s
  else
    let pipes := splitAt (· == .pipe) ts
    let (r, ended) := runPipe env s.status "" "" pipes
    -- In a pipe of several commands an exit only leaves its own.
    { out := s.out ++ r.out, err := s.err ++ r.err, status := r.status,
      ended := ended && pipes.length == 1 }

/-- Runs the steps of a script one after the other. -/
def runAll (env : Env) : (fuel : Nat) → (wanted : Nat → Bool) → List ShellToken → State → State
  | 0, _, _, s => s
  | fuel + 1, wanted, ts, s =>
    let isJoint (t : ShellToken) := t == .sequence || t == .andIf || t == .orIf
    let first := ts.takeWhile (!isJoint ·)
    let s := runStep env s wanted first
    match ts.drop first.length with
    | [] => s
    | joint :: rest =>
      let wanted : Nat → Bool := match joint with
        | .andIf => (· == 0)
        | .orIf => (· != 0)
        | _ => fun _ => true
      runAll env fuel wanted rest s

def run (env : Env) (script : String) : Exit :=
  match tokens (script.length + 1) script.toList with
  | none => { err := "sh: 1: Syntax error: Unterminated quoted string\n", status := 2 }
  | some ts =>
    let s := runAll env (ts.length + 1) (fun _ => true) ts {}
    { out := s.out, err := s.err, status := s.status }

end Shell

end ScriptMachine.Process
