import ScriptMachine.Tree

/-!
# Reading a text

A cursor in a text, with line and column. Line breaks are carriage return, line feed, the two
together, next line, line separator and paragraph separator; blanks are space and tab.
-/

namespace ScriptMachine.Markup

def isBlank (c : Char) : Bool := c == ' ' || c == '\t'

/-- The breaks that are all read as a line feed. -/
def isPlainBreak (c : Char) : Bool := c == '\n' || c == '\r' || c == '\u0085'

def isBreak (c : Char) : Bool := isPlainBreak c || c == '\u2028' || c == '\u2029'

/-- The mark at the start of a text that tells its encoding. -/
def byteOrderMark : Char := '\ufeff'

/-- The characters that a text may hold. -/
def isAllowed (c : Char) : Bool :=
  let n := c.toNat
  n == 0x09 || n == 0x0a || n == 0x0d || (0x20 ≤ n && n ≤ 0x7e) || n == 0x85
    || (0xa0 ≤ n && n ≤ 0xd7ff) || (0xe000 ≤ n && n ≤ 0xfffd) || 0x10000 ≤ n

/-- A place in a text: what is left of it, the line and column, counted from zero, and the number
of characters passed. -/
structure Cursor where
  rest : List Char
  line : Nat := 0
  col : Nat := 0
  index : Nat := 0
  /-- Whether only blanks were passed since the last line break. -/
  afterBreak : Bool := false

namespace Cursor

/-- The start of a text, behind a mark of its encoding. -/
def start (text : List Char) : Cursor :=
  match text with
  | c :: cs => if c = byteOrderMark then { rest := cs } else { rest := c :: cs }
  | [] => { rest := [] }

/-- The place of a cursor, counted from one. -/
def position (c : Cursor) : Position := ⟨c.line + 1, c.col + 1⟩

def atEnd (c : Cursor) : Bool := c.rest.isEmpty

/-- Whether the character that is `n` places on satisfies `p`. -/
def has (c : Cursor) (n : Nat) (p : Char → Bool) : Bool :=
  match c.rest[n]? with
  | some x => p x
  | none => false

def sees (c : Cursor) (x : Char) : Bool := c.has 0 (· == x)

/-- Whether a blank, a line break or the end is `n` places on. -/
def gapAt (c : Cursor) (n : Nat) : Bool :=
  match c.rest[n]? with
  | some x => isBlank x || isBreak x
  | none => true

def atLineEnd (c : Cursor) : Bool :=
  match c.rest with
  | x :: _ => isBreak x
  | [] => true

/-- Passes `n` characters of a line. -/
def advance (c : Cursor) (n : Nat) : Cursor :=
  { c with rest := c.rest.drop n, col := c.col + n, index := c.index + n,
           afterBreak := c.afterBreak && (c.rest.take n).all isBlank }

/-- Passes the characters of a line that satisfy `p`. -/
def span (c : Cursor) (p : Char → Bool) : List Char × Cursor :=
  let xs := c.rest.takeWhile p
  (xs, c.advance xs.length)

def skipWhile (c : Cursor) (p : Char → Bool) : Cursor := (c.span p).2

def skipBlanks (c : Cursor) : Cursor := c.skipWhile isBlank

def skipLine (c : Cursor) : Cursor := c.skipWhile (!isBreak ·)

/-- Passes a line break of `n` characters. -/
def newLine (c : Cursor) (n : Nat) : Cursor :=
  { rest := c.rest.drop n, line := c.line + 1, col := 0, index := c.index + n, afterBreak := true }

/-- The line break at the cursor, as it is read, and the cursor behind it. -/
def lineBreak? (c : Cursor) : Option (Char × Cursor) :=
  match c.rest with
  | '\r' :: '\n' :: _ => some ('\n', c.newLine 2)
  | x :: _ =>
    if isPlainBreak x then some ('\n', c.newLine 1)
    else if isBreak x then some (x, c.newLine 1)
    else none
  | [] => none

def skipBreak (c : Cursor) : Cursor :=
  match c.lineBreak? with
  | some (_, c) => c
  | none => c

/-- Whether a document starts or ends here: three dashes or dots at the start of a line. -/
def atDocumentMark (c : Cursor) (x : Char) : Bool :=
  c.col == 0 && c.has 0 (· == x) && c.has 1 (· == x) && c.has 2 (· == x) && c.gapAt 3

def atDocumentEdge (c : Cursor) : Bool := c.atDocumentMark '-' || c.atDocumentMark '.'

/-- Passes blanks and a comment behind them, unless it starts further away than comments are looked
for. -/
def skipTrailingComment (c : Cursor) : Cursor :=
  let d := c.skipBlanks
  if d.sees '#' && d.index - c.index < 512 then d.skipLine else c

end Cursor

end ScriptMachine.Markup
