import ScriptMachine.Markup.Scalar
import ScriptMachine.Markup.Token

/-!
# From text to tokens

The scanner follows the indentation of block collections and the brackets of flow collections. A
key needs no mark in front of it: where one may start, its place is kept, and when its colon comes
the token for it is put there. Such a key stands on one line and is not longer than 1024
characters.
-/

namespace ScriptMachine.Markup

/-- A place where a key may have started: the index of its first token, and whether nothing but a
key can stand there. -/
structure OpenKey where
  token : Nat
  required : Bool
  start : Cursor

/-- Whether the colon of a key may still come. -/
def OpenKey.inReach (k : OpenKey) (c : Cursor) : Bool :=
  k.start.line == c.line && c.index ≤ k.start.index + 1024

structure Scanner where
  cursor : Cursor
  tokens : Array Token := #[]
  /-- The columns of the open block collections, innermost first. -/
  indents : List Nat := []
  /-- Whether a key may start at the cursor. -/
  keyAllowed : Bool := true
  /-- The key that may be open at the outer level. -/
  key : Option OpenKey := none
  /-- The keys that may be open in each open flow collection, innermost first. -/
  flow : List (Option OpenKey) := []

namespace Scanner

def inFlow (s : Scanner) : Bool := !s.flow.isEmpty

def indent? (s : Scanner) : Option Nat := s.indents.head?

/-- The least column behind the indentation. -/
def nextIndent (s : Scanner) : Nat :=
  match s.indent? with
  | some n => n + 1
  | none => 0

/-- The key that may be open at the level of the cursor. -/
def openKey (s : Scanner) : Option OpenKey :=
  match s.flow with
  | k :: _ => k
  | [] => s.key

def setOpenKey (s : Scanner) (k : Option OpenKey) : Scanner :=
  match s.flow with
  | _ :: ks => { s with flow := k :: ks }
  | [] => { s with key := k }

def push (s : Scanner) (kind : TokenKind) (start stop : Cursor) : Scanner :=
  { s with tokens := s.tokens.push ⟨kind, start.position, stop.position⟩ }

/-- Appends a token of `n` characters at the cursor and passes it. -/
def take (s : Scanner) (kind : TokenKind) (n : Nat) : Scanner :=
  let c := s.cursor.advance n
  { s with cursor := c }.push kind s.cursor c

/-- Puts a token without extent in front of the token at index `i`. -/
def insertAt (s : Scanner) (i : Nat) (kind : TokenKind) (mark : Cursor) : Scanner :=
  let t : Token := ⟨kind, mark.position, mark.position⟩
  { s with tokens := s.tokens.insertIdxIfInBounds i t }

/-! ## Keys -/

/-- Gives up the key that may be open; one that has to be there is missed. -/
def dropKey (s : Scanner) : Option Scanner :=
  match s.openKey with
  | some k => if k.required then none else some (s.setOpenKey none)
  | none => some s

/-- Notes that a key may start at the cursor. -/
def saveKey (s : Scanner) : Option Scanner :=
  if s.keyAllowed then do
    let t ← s.dropKey
    let required := !s.inFlow && s.indent? == some s.cursor.col
    return t.setOpenKey (some ⟨s.tokens.size, required, s.cursor⟩)
  else some s

/-- The key that is open and in reach. A key that has to be there may not be out of reach. -/
def validKey (s : Scanner) : Option (Option OpenKey) :=
  match s.openKey with
  | some k =>
    if k.inReach s.cursor then some (some k) else if k.required then none else some none
  | none => some none

/-! ## Indentation -/

/-- Collections are not nested deeper than this, block and flow collections each by themselves. -/
def maxNesting : Nat := 10000

/-- Opens a block collection at a column behind the indentation, with its token at index `i`. -/
def roll (s : Scanner) (col i : Nat) (kind : TokenKind) (mark : Cursor) : Option Scanner :=
  if !s.inFlow && s.nextIndent ≤ col then
    if s.indents.length < maxNesting then
      some ({ s with indents := col :: s.indents }.insertAt i kind mark)
    else none
  else some s

/-- Closes the innermost block collections as long as their columns are `deeper`. -/
def unrollWhile (s : Scanner) (deeper : Nat → Bool) : Scanner :=
  let closed := s.indents.takeWhile deeper
  let t : Token := ⟨.blockEnd, s.cursor.position, s.cursor.position⟩
  { s with indents := s.indents.drop closed.length
           tokens := s.tokens ++ Array.replicate closed.length t }

def unroll (s : Scanner) (col : Nat) : Scanner :=
  if s.inFlow then s else s.unrollWhile (col < ·)

def unrollAll (s : Scanner) : Scanner :=
  if s.inFlow then s else s.unrollWhile fun _ => true

/-! ## Between tokens -/

def skipEmptyLines : (fuel : Nat) → Cursor → Cursor
  | 0, c => c
  | fuel + 1, c =>
    let c := c.skipBlanks
    if c.sees '\n' || c.sees '\r' then skipEmptyLines fuel c.skipBreak else c

/-- The cursor behind a comment and further comments on the next lines, which may be indented by
tabs. These are looked for in a limited number of characters. -/
def skipComments : (fuel : Nat) → Cursor → Cursor
  | 0, c => c
  | fuel + 1, c =>
    let c := c.skipLine
    let d := if c.sees '\n' || c.sees '\r' then skipEmptyLines c.rest.length c else c
    if d.sees '#' && d.index - c.index < 512 then skipComments fuel d else c

/-- Passes what may stand between two tokens. -/
def skipGap : (fuel : Nat) → Scanner → Scanner
  | 0, s => s
  | fuel + 1, s =>
    let c := s.cursor
    let c := if c.col == 0 && c.sees byteOrderMark then c.advance 1 else c
    let tabs := s.inFlow || !s.keyAllowed
    let c := c.skipWhile fun x => x == ' ' || (tabs && x == '\t')
    let c := if c.sees '#' then skipComments c.rest.length c else c
    match c.lineBreak? with
    | some (_, c) =>
      skipGap fuel { s with cursor := c, keyAllowed := s.keyAllowed || !s.inFlow }
    | none => { s with cursor := c }

/-! ## Tokens without content -/

def flowStart (s : Scanner) (kind : TokenKind) : Option Scanner := do
  let s ← s.saveKey
  if maxNesting ≤ s.flow.length then none
  return { s with flow := none :: s.flow, keyAllowed := true }.take kind 1

def flowEnd (s : Scanner) (kind : TokenKind) : Option Scanner := do
  let s ← s.dropKey
  return { s with flow := s.flow.drop 1, keyAllowed := false }.take kind 1

def flowEntry (s : Scanner) : Option Scanner := do
  let s ← s.dropKey
  return { s with keyAllowed := true }.take .flowEntry 1

def blockEntry (s : Scanner) : Option Scanner := do
  if !s.inFlow && !s.keyAllowed then none
  let s ← s.roll s.cursor.col s.tokens.size .blockSequenceStart s.cursor
  let s ← s.dropKey
  return { s with keyAllowed := true }.take .blockEntry 1

def explicitKey (s : Scanner) : Option Scanner := do
  if !s.inFlow && !s.keyAllowed then none
  let s ← s.roll s.cursor.col s.tokens.size .blockMappingStart s.cursor
  let s ← s.dropKey
  return { s with keyAllowed := !s.inFlow }.take .key 1

def value (s : Scanner) : Option Scanner := do
  match ← s.validKey with
  | some k =>
    let s := s.insertAt k.token .key k.start
    let s ← s.roll k.start.col k.token .blockMappingStart k.start
    return { s.setOpenKey none with keyAllowed := false }.take .value 1
  | none =>
    if !s.inFlow && !s.keyAllowed then none
    let s ← (s.setOpenKey none).roll s.cursor.col s.tokens.size .blockMappingStart s.cursor
    return { s with keyAllowed := !s.inFlow }.take .value 1

/-- The end of all collections, in front of something that belongs to none. -/
def outermost (s : Scanner) : Option Scanner := do
  let s ← s.unrollAll.dropKey
  return { s with keyAllowed := false }

/-! ## Anchors and tags -/

def isNameChar (c : Char) : Bool := c.isAlphanum || c == '_' || c == '-'

/-- The name of an anchor, which has at least one character and a fitting end. -/
def anchorName (c : Cursor) : Option (String × Cursor) :=
  let (name, d) := (c.advance 1).span isNameChar
  let ends := ['?', ':', ',', ']', '\x7d', '%', '@', '\x60']
  if !name.isEmpty && (d.gapAt 0 || d.has 0 (· ∈ ends)) then some (String.ofList name, d)
  else none

def anchor (s : Scanner) (kind : String → TokenKind) : Option Scanner := do
  let s ← s.saveKey
  let (name, c) ← anchorName s.cursor
  return { s with cursor := c, keyAllowed := false }.push (kind name) s.cursor c

/-- The characters of tags besides those of names. -/
def isTagChar (c : Char) : Bool :=
  isNameChar c || c ∈ [';', '/', '?', ':', '@', '&', '=', '+', '$', '.', ',', '!', '~', '*', '\'',
    '(', ')', '[', ']', '%']

/-- The number of bytes of a character by its first byte, zero if none starts with it. -/
def byteWidth (n : Nat) : Nat :=
  if n < 0x80 then 1
  else if n / 32 = 6 then 2
  else if n / 16 = 14 then 3
  else if n / 8 = 30 then 4
  else 0

/-- An escaped byte of a tag. -/
def tagByte : List Char → Option (Nat × List Char)
  | '%' :: a :: b :: cs => do
    let x ← Number.hexValue? a
    let y ← Number.hexValue? b
    return (16 * x + y, cs)
  | _ => none

/-- The `n` escaped bytes behind the first of a character. -/
def tagTail : (n : Nat) → List Char → Option (List Nat × List Char)
  | 0, cs => some ([], cs)
  | n + 1, cs => do
    let (x, cs) ← tagByte cs
    if x / 64 ≠ 2 then none
    let (xs, cs) ← tagTail n cs
    return (x :: xs, cs)

/-- The escaped character at the start of a text, and what is left of the text. -/
def tagEscape (cs : List Char) : Option (Char × List Char) := do
  let (x, rest) ← tagByte cs
  let w := byteWidth x
  if w = 0 then none
  let (xs, rest) ← tagTail (w - 1) rest
  let lead := if w = 1 then x else x % 1 <<< (7 - w)
  return (Char.ofNat (xs.foldl (fun n y => 64 * n + y % 64) lead), rest)

/-- The text of a tag, with escaped characters, and the cursor behind it. -/
def tagText : (fuel : Nat) → Cursor → Option (List Char × Cursor)
  | 0, c => some ([], c)
  | fuel + 1, c =>
    match c.rest with
    | '%' :: _ => do
      let (x, rest) ← tagEscape c.rest
      let (xs, c) ← tagText fuel (c.advance (c.rest.length - rest.length))
      return (x :: xs, c)
    | x :: _ =>
      if isTagChar x then do
        let (xs, c) ← tagText fuel (c.advance 1)
        return (x :: xs, c)
      else some ([], c)
    | [] => some ([], c)

/-- The handle of a tag: an exclamation mark, a name, and a further mark if there is one. -/
def tagHandle (c : Cursor) : List Char × Cursor :=
  let (name, d) := (c.advance 1).span isNameChar
  if d.sees '!' then ('!' :: name ++ ['!'], d.advance 1) else ('!' :: name, d)

/-- Reads a tag: handle, suffix, and the cursor behind it. The lone mark is a suffix. -/
def readTag (c : Cursor) : Option (String × String × Cursor) :=
  if c.has 1 (· == '<') then do
    let d := c.advance 2
    let (uri, d) ← tagText d.rest.length d
    if uri.isEmpty || !d.sees '>' then none
    else return ("", String.ofList uri, d.advance 1)
  else do
    let (handle, d) := tagHandle c
    let (suffix, e) ← tagText d.rest.length d
    if handle.length > 1 && handle.getLast? == some '!' then
      if suffix.isEmpty then none
      else return (String.ofList handle, String.ofList suffix, e)
    else
      let suffix := handle.drop 1 ++ suffix
      if suffix.isEmpty then return ("", "!", e) else return ("!", String.ofList suffix, e)

def tag (s : Scanner) : Option Scanner := do
  let s ← s.saveKey
  let (handle, suffix, c) ← readTag s.cursor
  if !c.gapAt 0 then none
  return { s with cursor := c, keyAllowed := false }.push (.tag handle suffix) s.cursor c

/-! ## Directives -/

/-- A number of one or two digits. -/
def versionNumber (c : Cursor) : Option (Nat × Cursor) :=
  let (ds, d) := c.span Char.isDigit
  if ds.isEmpty || ds.length > 2 then none
  else some (ds.foldl (fun n x => 10 * n + (x.toNat - 48)) 0, d)

def versionDirective (c : Cursor) : Option (TokenKind × Cursor) := do
  let (major, c) ← versionNumber c.skipBlanks
  if !c.sees '.' then none
  let (minor, c) ← versionNumber (c.advance 1)
  return (.version major minor, c)

def tagDirective (c : Cursor) : Option (TokenKind × Cursor) := do
  let c := c.skipBlanks
  if !c.sees '!' then none
  let (handle, c) := tagHandle c
  if handle.length > 1 && handle.getLast? ≠ some '!' then none
  if !c.has 0 isBlank then none
  let c := c.skipBlanks
  let (uri, c) ← tagText c.rest.length c
  if uri.isEmpty || !c.gapAt 0 then none
  return (.tagDirective (String.ofList handle) (String.ofList uri), c)

def directive (s : Scanner) : Option Scanner := do
  let s ← s.outermost
  let (name, c) := (s.cursor.advance 1).span isNameChar
  if !c.gapAt 0 then none
  let (kind, c) ← match String.ofList name with
    | "YAML" => versionDirective c
    | "TAG" => tagDirective c
    | _ => none
  let d := c.skipBlanks
  let d := if d.sees '#' then d.skipLine else d
  if !d.atLineEnd then none
  return { s with cursor := d.skipBreak }.push kind s.cursor c

/-! ## Scalars -/

def flowScalar (s : Scanner) (single : Bool) : Option Scanner := do
  let s ← s.saveKey
  let (text, c) ← quotedScalar single s.cursor
  let style := if single then Style.single else .double
  return { s with cursor := c, keyAllowed := false }.push (.scalar text style) s.cursor c

def plain (s : Scanner) : Option Scanner := do
  let s ← s.saveKey
  let (text, c, ended) ← plainScalar s.inFlow s.nextIndent s.cursor
  return { s with cursor := c, keyAllowed := ended }.push (.scalar text .plain) s.cursor c

def block (s : Scanner) (literal : Bool) : Option Scanner := do
  let s ← s.dropKey
  let (text, c) ← blockScalar literal s.indent? (s.cursor.advance 1)
  let style := if literal then Style.literal else .folded
  return { s with cursor := c, keyAllowed := true }.push (.scalar text style) s.cursor c

/-- The characters that start no plain scalar, or one only in some places. -/
def isIndicator (c : Char) : Bool :=
  c ∈ ['-', '?', ':', ',', '[', ']', '\x7b', '\x7d', '#', '&', '*', '!', '|', '>', '\'', '"', '%',
    '@', '\x60']

def plainStarts (s : Scanner) : Bool :=
  let c := s.cursor
  (!c.gapAt 0 && !c.has 0 isIndicator)
    || (c.sees '-' && !c.has 1 isBlank)
    || (!s.inFlow && (c.sees '?' || c.sees ':') && !c.gapAt 1)

/-! ## All tokens -/

/-- Reads the token at the cursor, which belongs to a document. -/
def content (s : Scanner) : Option Scanner :=
  let c := s.cursor
  match c.rest with
  | '[' :: _ => s.flowStart .flowSequenceStart
  | '\x7b' :: _ => s.flowStart .flowMappingStart
  | ']' :: _ => s.flowEnd .flowSequenceEnd
  | '\x7d' :: _ => s.flowEnd .flowMappingEnd
  | ',' :: _ => s.flowEntry
  | '*' :: _ => s.anchor .reference
  | '&' :: _ => s.anchor .anchor
  | '!' :: _ => s.tag
  | '\'' :: _ => s.flowScalar true
  | '"' :: _ => s.flowScalar false
  | x :: _ =>
    if x == '-' && c.gapAt 1 then s.blockEntry
    else if x == '?' && (s.inFlow || c.gapAt 1) then s.explicitKey
    else if x == ':' && (s.inFlow || c.gapAt 1) then s.value
    else if x == '|' && !s.inFlow then s.block true
    else if x == '>' && !s.inFlow then s.block false
    else if s.plainStarts then s.plain
    else none
  | [] => none

/-- Passes a comment behind a token on its line. The dash of an entry has none. -/
def skipTrailing (s : Scanner) : Scanner :=
  let isEntry := match s.tokens.back? with
    | some t => t.kind == .blockEntry
    | none => false
  if isEntry || s.cursor.afterBreak then s else { s with cursor := s.cursor.skipTrailingComment }

/-- Reads the next token and those that its indentation brings. -/
def next (s : Scanner) : Option Scanner :=
  let s := skipGap (s.cursor.rest.length + 1) s
  let s := s.unroll s.cursor.col
  let c := s.cursor
  if c.atEnd then do
    let s ← s.outermost
    -- The end counts as the start of a line.
    let c := if c.col == 0 then c else { c with line := c.line + 1, col := 0 }
    return s.push .streamEnd c c
  else if c.col == 0 && c.sees '%' then s.directive
  else if c.atDocumentMark '-' then return (← s.outermost).take .documentStart 3
  else if c.atDocumentMark '.' then return (← s.outermost).take .documentEnd 3
  else s.content.map skipTrailing

end Scanner

/-- The tokens of a text up to its end, or up to something that is no token. -/
structure Tokens where
  tokens : Array Token
  /-- Whether the end was reached. -/
  complete : Bool

namespace Tokens

/-- Reads tokens. Each takes at least one character. -/
def read : (fuel : Nat) → Scanner → Tokens
  | 0, s => ⟨s.tokens, false⟩
  | fuel + 1, s =>
    match s.next with
    | none => ⟨s.tokens, false⟩
    | some t =>
      if (t.tokens.back?.map (·.kind)) == some .streamEnd then ⟨t.tokens, true⟩
      else read fuel t

/-- The tokens of a text; none at all if it holds a character that it may not. -/
def ofText (text : String) : Tokens :=
  let cs := text.toList
  if cs.all isAllowed then read (cs.length + 2) { cursor := .start cs } else ⟨#[], false⟩

end Tokens

end ScriptMachine.Markup
