import ScriptMachine.Markup.Cursor
import ScriptMachine.Number.Reading

/-!
# Scalars

The texts of plain, quoted and block scalars. Line breaks inside plain and quoted scalars are
folded: one becomes a space, of several the first is dropped. A result of `none` means that the
scalar is not well formed.
-/

namespace ScriptMachine.Markup

/-! ## Gaps -/

/-- Blanks and line breaks inside a scalar. -/
structure Gap where
  /-- The blanks in front of any line break, last first. -/
  blanks : List Char := []
  /-- The line breaks, last first. -/
  breaks : List Char := []
  /-- Whether a line has ended, be it by a break that is left out. -/
  ended : Bool := false

namespace Gap

/-- Reads a gap. After a line break a tab before column `tabs` is refused. -/
def read (tabs : Nat) : (fuel : Nat) → Cursor → Gap → Option (Gap × Cursor)
  | 0, c, g => some (g, c)
  | fuel + 1, c, g =>
    match c.lineBreak? with
    | some (x, d) =>
      read tabs fuel d { blanks := [], breaks := x :: g.breaks, ended := true }
    | none =>
      match c.rest with
      | x :: _ =>
        if isBlank x then
          if g.ended && x == '\t' && c.col < tabs then none
          else read tabs fuel (c.advance 1)
            (if g.ended then g else { g with blanks := x :: g.blanks })
        else some (g, c)
      | [] => some (g, c)

/-- The text that a gap stands for. -/
def text (g : Gap) : List Char :=
  if g.ended then
    match g.breaks.reverse with
    | '\n' :: [] => [' ']
    | '\n' :: more => more
    | breaks => breaks
  else g.blanks.reverse

end Gap

/-! ## Plain scalars -/

/-- The characters that end a plain scalar in a flow collection. -/
def isFlowIndicator (c : Char) : Bool := c ∈ [',', '?', '[', ']', '\x7b', '\x7d']

/-- The length of the part of a plain scalar that goes on without a gap. -/
def plainLength (flow : Bool) : List Char → Nat
  | [] => 0
  | c :: cs =>
    let colon := c == ':' && (match cs with | x :: _ => isBlank x || isBreak x | [] => true)
    if isBlank c || isBreak c || colon || (flow && isFlowIndicator c) then 0
    else plainLength flow cs + 1

/-- Reads a plain scalar from `text`, what has been read of it, last first, and the gap behind it.
The last component tells whether the scalar ends behind a line break. -/
def plainFrom (flow : Bool) (indent : Nat) :
    (fuel : Nat) → Cursor → (text : List Char) → Gap → Option (List Char × Cursor × Bool)
  | 0, c, text, g => some (text.reverse, c, g.ended)
  | fuel + 1, c, text, g =>
    if c.atDocumentEdge || c.sees '#' then some (text.reverse, c, g.ended)
    else
      let n := plainLength flow c.rest
      let text := if n = 0 then text else (g.text ++ c.rest.take n).reverse ++ text
      let g := if n = 0 then g else {}
      let c := c.advance n
      if !c.atEnd && c.gapAt 0 then
        match Gap.read indent c.rest.length c g with
        | none => none
        | some (g, c) =>
          if !flow && c.col < indent then some (text.reverse, c, g.ended)
          else plainFrom flow indent fuel c text g
      else some (text.reverse, c, g.ended)

def plainScalar (flow : Bool) (indent : Nat) (c : Cursor) : Option (String × Cursor × Bool) :=
  (plainFrom flow indent c.rest.length c [] {}).map fun (cs, c, ended) =>
    (String.ofList cs, c, ended)

/-! ## Quoted scalars -/

/-- The character that a one-letter escape stands for. -/
def escapeOf? : Char → Option Char
  | '0' => some '\x00'
  | 'a' => some '\x07'
  | 'b' => some '\x08'
  | 't' | '\t' => some '\t'
  | 'n' => some '\n'
  | 'v' => some '\x0b'
  | 'f' => some '\x0c'
  | 'r' => some '\r'
  | 'e' => some '\x1b'
  | ' ' => some ' '
  | '"' => some '"'
  | '\'' => some '\''
  | '\\' => some '\\'
  | 'N' => some '\u0085'
  | '_' => some '\u00a0'
  | 'L' => some '\u2028'
  | 'P' => some '\u2029'
  | _ => none

/-- The number of digits of an escape by code. -/
def escapeDigits? : Char → Option Nat
  | 'x' => some 2
  | 'u' => some 4
  | 'U' => some 8
  | _ => none

/-- The value of hexadecimal digits, all of which have to be some. -/
def hexCode : List Char → Option Nat
  | [] => some 0
  | cs => cs.foldlM (fun n c => (Number.hexValue? c).map (16 * n + ·)) 0

/-- The character of an escape and the number of characters it takes. -/
def escape (cs : List Char) : Option (Char × Nat) :=
  match cs with
  | [] => none
  | e :: cs =>
    match escapeOf? e with
    | some x => some (x, 2)
    | none => do
      let n ← escapeDigits? e
      if cs.length < n then none
      let code ← hexCode (cs.take n)
      if (0xd800 ≤ code && code ≤ 0xdfff) || 0x10ffff < code then none
      else some (Char.ofNat code, n + 2)

/-- Reads the text of a quoted scalar behind its opening quote. -/
def quotedFrom (single : Bool) : (fuel : Nat) → Cursor → (text : List Char) →
    Option (List Char × Cursor)
  | 0, _, _ => none
  | fuel + 1, c, text =>
    if c.atDocumentEdge then none
    else match c.rest with
      | [] => none
      | x :: rest =>
        if isBlank x || isBreak x then do
          let (g, c) ← Gap.read 0 c.rest.length c {}
          quotedFrom single fuel c (g.text.reverse ++ text)
        else if single then
          if x == '\'' then
            if rest.head? == some '\'' then quotedFrom single fuel (c.advance 2) ('\'' :: text)
            else some (text.reverse, c.advance 1)
          else quotedFrom single fuel (c.advance 1) (x :: text)
        else if x == '"' then some (text.reverse, c.advance 1)
        else if x == '\\' then
          match (c.advance 1).lineBreak? with
          | some (_, d) => do
            let (g, d) ← Gap.read 0 d.rest.length d { ended := true }
            -- The break behind the backslash is left out, so the others all count.
            quotedFrom single fuel d (g.breaks ++ text)
          | none => do
            let (y, n) ← escape rest
            quotedFrom single fuel (c.advance n) (y :: text)
        else quotedFrom single fuel (c.advance 1) (x :: text)

def quotedScalar (single : Bool) (c : Cursor) : Option (String × Cursor) :=
  (quotedFrom single (c.rest.length + 1) (c.advance 1) []).map fun (cs, c) => (String.ofList cs, c)

/-! ## Block scalars -/

/-- What becomes of the line breaks at the end of a block scalar. -/
inductive Chomping where
  | strip | clip | keep
deriving DecidableEq, Repr

def chomping? (c : Cursor) : Option Chomping :=
  if c.sees '+' then some .keep else if c.sees '-' then some .strip else none

/-- The digit of an indentation indicator, zero for none. -/
def indentDigit (c : Cursor) : Option (Nat × Cursor) :=
  match c.rest with
  | x :: _ =>
    if x.isDigit then
      if x == '0' then none else some (x.toNat - 48, c.advance 1)
    else some (0, c)
  | [] => some (0, c)

/-- The header of a block scalar: chomping and indentation, in either order. -/
def blockHeader (c : Cursor) : Option (Chomping × Nat × Cursor) :=
  match chomping? c with
  | some ch => do
    let (n, c) ← indentDigit (c.advance 1)
    return (ch, n, c)
  | none => do
    let (n, c) ← indentDigit c
    match if n = 0 then none else chomping? c with
    | some ch => return (ch, n, c.advance 1)
    | none => return (.clip, n, c)

/-- Passes indentation and empty lines. While the indentation is not known, which is written as
zero, all spaces count; the widest line gives it. -/
def blockGap (indent : Nat) : (fuel : Nat) → Cursor → (widest : Nat) → (breaks : List Char) →
    Option (Nat × List Char × Cursor)
  | 0, c, widest, breaks => some (widest, breaks, c)
  | fuel + 1, c, widest, breaks =>
    let spaces := (c.rest.takeWhile (· == ' ')).length
    let c := c.advance (if indent = 0 then spaces else min spaces (indent - c.col))
    let widest := max widest c.col
    if (indent = 0 || c.col < indent) && c.sees '\t' then none
    else match c.lineBreak? with
      | some (x, c) => blockGap indent fuel c widest (x :: breaks)
      | none => some (widest, breaks, c)

/-- What has been read of a block scalar: its text, last first, the break of the last line, and the
breaks of the empty lines behind it, last first. -/
structure BlockText where
  text : List Char := []
  lastBreak : List Char := []
  breaks : List Char := []
  /-- Whether the last line starts with a blank. -/
  indented : Bool := false

/-- The text in front of a further line. In a folded scalar, the break between two lines that do not
start with a blank is a space, or nothing if empty lines follow. -/
def BlockText.joined (literal blank : Bool) (b : BlockText) : List Char :=
  if !literal && !b.indented && !blank && b.lastBreak == ['\n'] then
    b.breaks ++ (if b.breaks.isEmpty then ' ' :: b.text else b.text)
  else b.breaks ++ b.lastBreak ++ b.text

def blockLines (literal : Bool) (indent : Nat) : (fuel : Nat) → Cursor → BlockText →
    Option (BlockText × Cursor)
  | 0, c, b => some (b, c)
  | fuel + 1, c, b =>
    if c.col = indent && !c.atEnd then do
      let blank := c.has 0 isBlank
      let (line, d) := c.span (!isBreak ·)
      let (last, d) := match d.lineBreak? with
        | some (x, d) => ([x], d)
        | none => ([], d)
      let (_, breaks, d) ← blockGap indent (d.rest.length + 1) d 0 []
      blockLines literal indent fuel d
        { text := line.reverse ++ b.joined literal blank, lastBreak := last, breaks,
          indented := blank }
    else some (b, c)

/-- Reads a block scalar behind its indicator; `indent` is the indentation around it, if there is
some. -/
def blockScalar (literal : Bool) (indent : Option Nat) (c : Cursor) : Option (String × Cursor) := do
  let (chomping, increment, c) ← blockHeader c
  let c := c.skipBlanks
  let c := if c.sees '#' then c.skipLine else c
  if !c.atLineEnd then none
  let c := c.skipBreak
  let given := if increment = 0 then 0 else indent.getD 0 + increment
  let (widest, breaks, c) ← blockGap given (c.rest.length + 1) c 0 []
  let least := match indent with
    | some n => n + 1
    | none => 1
  let width := if given = 0 then max widest (max least 1) else given
  let (b, c) ← blockLines literal width (c.rest.length + 1) c { breaks }
  let tail := match chomping with
    | .strip => []
    | .clip => b.lastBreak
    | .keep => b.breaks ++ b.lastBreak
  return (String.ofList (tail ++ b.text).reverse, c)

end ScriptMachine.Markup
