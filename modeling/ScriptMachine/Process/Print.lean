import ScriptMachine.Number.Reading
import ScriptMachine.Text.Blank

/-!
# Printing commands

What the commands `echo` and `printf` write for their arguments. They replace the programs of the host
for the command line.
-/

namespace ScriptMachine.Process

/-- What a command wrote to its two outputs, and its exit status. -/
structure Exit where
  out : String := ""
  err : String := ""
  status : Nat := 0

/-! ## Escapes -/

/-- The value of octal digits, at most `n` of them, and what follows. -/
def octal : (n acc : Nat) → List Char → Nat × List Char
  | n + 1, acc, c :: cs =>
    if '0' ≤ c ∧ c ≤ '7' then octal n (8 * acc + (c.toNat - 48)) cs else (acc, c :: cs)
  | _, acc, cs => (acc, cs)

/-- The value of hexadecimal digits, at most `n` of them, and what follows. -/
def hexadecimal : (n acc : Nat) → List Char → Nat × List Char
  | n + 1, acc, c :: cs =>
    match Number.hexValue? c with
    | some d => hexadecimal n (16 * acc + d) cs
    | none => (acc, c :: cs)
  | _, acc, cs => (acc, cs)

/-- An escape behind its backslash: the character, or `none` for the end of all output, and what
follows. An unknown escape stands for itself. -/
def escape (leadingZero : Bool) : List Char → Option (List Char) × List Char
  | 'a' :: cs => (some ['\x07'], cs)
  | 'b' :: cs => (some ['\x08'], cs)
  | 'c' :: _ => (none, [])
  | 'e' :: cs => (some ['\x1b'], cs)
  | 'f' :: cs => (some ['\x0c'], cs)
  | 'n' :: cs => (some ['\n'], cs)
  | 'r' :: cs => (some ['\r'], cs)
  | 't' :: cs => (some ['\t'], cs)
  | 'v' :: cs => (some ['\x0b'], cs)
  | '\\' :: cs => (some ['\\'], cs)
  | 'x' :: c :: cs =>
    if (Number.hexValue? c).isSome then
      let (n, rest) := hexadecimal 2 0 (c :: cs)
      (some [Char.ofNat n], rest)
    else (some ['\\', 'x'], c :: cs)
  | c :: cs =>
    if '0' ≤ c ∧ c ≤ '7' then
      let digits := if c = '0' && leadingZero then cs else c :: cs
      let (n, rest) := octal 3 0 digits
      (some [Char.ofNat n], rest)
    else (some ['\\', c], cs)
  | [] => (some ['\\'], [])

/-- Replaces escapes. The second component tells whether output goes on. -/
def unescape (leadingZero : Bool) : (fuel : Nat) → List Char → List Char × Bool
  | 0, cs => (cs, true)
  | fuel + 1, cs =>
    match cs with
    | [] => ([], true)
    | '\\' :: rest =>
      match escape leadingZero rest with
      | (none, _) => ([], false)
      | (some xs, rest) =>
        let (more, go) := unescape leadingZero fuel rest
        (xs ++ more, go)
    | c :: rest =>
      let (more, go) := unescape leadingZero fuel rest
      (c :: more, go)

/-! ## Echo -/

/-- Whether an argument of `echo` is made of its options. -/
def isEchoOption (arg : String) : Bool :=
  match arg.toList with
  | '-' :: c :: cs => (c :: cs).all (· ∈ ['n', 'e', 'E'])
  | _ => false

/-- The last of the letters that switch escapes on and off decides. -/
def echoEscapes (options : List Char) (default : Bool) : Bool :=
  match options.reverse.find? fun c => c == 'e' || c == 'E' with
  | some c => c == 'e'
  | none => default

def echo (escapes : Bool) (args : List String) : Exit :=
  let options := (args.takeWhile isEchoOption).flatMap fun a => a.toList.drop 1
  let text := (" ".intercalate (args.dropWhile isEchoOption)).toList
  let (text, go) :=
    if echoEscapes options escapes then unescape true text.length text else (text, true)
  let ending := if options.contains 'n' || !go then [] else ['\n']
  { out := String.ofList (text ++ ending) }

/-! ## Formats -/

structure Conversion where
  flags : List Char
  width : Nat
  precision : Option Nat
  kind : Char

/-- Reads a conversion behind its percent sign. -/
def conversion (cs : List Char) : Option (Conversion × List Char) :=
  let flags := cs.takeWhile (· ∈ ['-', '0', '+', ' ', '#'])
  let cs := cs.drop flags.length
  let number (cs : List Char) : Nat × List Char :=
    let ds := cs.takeWhile Char.isDigit
    ((Text.digitsValue ds).getD 0, cs.drop ds.length)
  let (width, cs) := number cs
  let (precision, cs) := match cs with
    | '.' :: rest =>
      let (n, rest) := number rest
      (some n, rest)
    | cs => (none, cs)
  match cs with
  | kind :: rest => some (⟨flags, width, precision, kind⟩, rest)
  | [] => none

namespace Conversion

def pad (c : Conversion) (sign body : List Char) : List Char :=
  let n := c.width - (sign.length + body.length)
  if c.flags.contains '-' then sign ++ body ++ List.replicate n ' '
  else if c.flags.contains '0' && c.precision.isNone && c.kind ≠ 's' then
    sign ++ List.replicate n '0' ++ body
  else List.replicate n ' ' ++ sign ++ body

/-- An integer in some base, with at least as many digits as the precision asks for. -/
def integer (c : Conversion) (n : Int) (base : Nat) (upper : Bool) : List Char :=
  let digits := Nat.toDigits base n.natAbs
  let digits := if upper then digits.map Char.toUpper else digits
  let digits := List.replicate (c.precision.getD 0 - digits.length) '0' ++ digits
  let sign := if n < 0 then ['-'] else if c.flags.contains '+' then ['+']
    else if c.flags.contains ' ' then [' '] else []
  c.pad sign digits

end Conversion

/-- The integer that an argument stands for, and whether it is one. A leading quote gives the code
of the character behind it. -/
def integerArg (arg : String) : Int × Bool :=
  match arg.toList with
  | [] => (0, true)
  | q :: c :: _ =>
    if q == '\'' || q == '"' then (c.toNat, true)
    else match Number.readIntAnyBase (Text.trimBlank arg.toList) with
      | some n => (n.toInt, true)
      | none => (0, false)
  | cs =>
    match Number.readIntAnyBase cs with
    | some n => (n.toInt, true)
    | none => (0, false)

/-- What one pass over a format writes, which arguments are left, whether all went well, and whether
output goes on. -/
structure Formatted where
  text : List Char := []
  rest : List String
  fine : Bool := true
  go : Bool := true

/-- Writes a conversion of the next argument. -/
def Conversion.write (c : Conversion) (f : Formatted) : Formatted :=
  let arg := f.rest.headD ""
  let f := { f with rest := f.rest.drop 1 }
  let clip (cs : List Char) := match c.precision with
    | some n => cs.take n
    | none => cs
  let signed (base : Nat) (upper : Bool) : Formatted :=
    let (n, ok) := integerArg arg
    let n := if base ≠ 10 && n < 0 then n + UInt64.size else n
    { f with text := f.text ++ c.integer n base upper, fine := f.fine && ok }
  match c.kind with
  | 's' => { f with text := f.text ++ c.pad [] (clip arg.toList) }
  | 'b' =>
    let (cs, go) := unescape true arg.length arg.toList
    { f with text := f.text ++ c.pad [] (clip cs), go }
  | 'c' => { f with text := f.text ++ c.pad [] (arg.toList.take 1) }
  | 'd' | 'i' | 'u' => signed 10 false
  | 'o' => signed 8 false
  | 'x' => signed 16 false
  | 'X' => signed 16 true
  | _ => { f with fine := false, go := false }

def formatPass : (fuel : Nat) → List Char → Formatted → Formatted
  | 0, _, f => f
  | fuel + 1, cs, f =>
    if !f.go then f
    else match cs with
      | [] => f
      | '%' :: '%' :: rest => formatPass fuel rest { f with text := f.text ++ ['%'] }
      | '%' :: rest =>
        match conversion rest with
        | none => { f with fine := false, go := false }
        | some (c, rest) => formatPass fuel rest (c.write f)
      | '\\' :: rest =>
        match escape false rest with
        | (none, _) => { f with go := false }
        | (some xs, rest) => formatPass fuel rest { f with text := f.text ++ xs }
      | c :: rest => formatPass fuel rest { f with text := f.text ++ [c] }

/-- Passes over a format as long as it takes arguments and some are left. -/
def formatAll (format : List Char) : (fuel : Nat) → Formatted → Formatted
  | 0, f => f
  | fuel + 1, f =>
    let g := formatPass (format.length + 1) format f
    if g.go && !g.rest.isEmpty && g.rest.length < f.rest.length then formatAll format fuel g else g

def printf (args : List String) : Exit :=
  match args with
  | [] => { err := "printf: missing operand\n", status := 1 }
  | format :: rest =>
    let f := formatAll format.toList (rest.length + 1) { rest }
    { out := String.ofList f.text, status := if f.fine then 0 else 1 }

end ScriptMachine.Process
