import ScriptMachine.Number.Reading
import ScriptMachine.Pattern.Syntax

/-!
# Tokens of patterns

Cuts the text of a pattern into tokens. A text that cannot be cut further ends with a token that
holds the error, so that whoever reads the tokens in order meets the first error first.
-/

namespace ScriptMachine.Pattern

open ScriptMachine.Number (hexValue?)
open ScriptMachine.Text (digitValue? isScript)

/-- The switches that a group can set. -/
inductive Flag where
  | fold | multiLine | dotAll | swapGreed
deriving DecidableEq, Repr

/-- A piece of a pattern. -/
inductive Token where
  | char (c : Nat)
  | any
  | lineStart
  | lineEnd
  | assert (a : Assertion)
  | set (items : List Item) (negate : Bool)
  /-- A group: whether it captures, and the switches it sets inside. -/
  | openGroup (captures : Bool) (flags : List (Flag × Bool))
  | setFlags (flags : List (Flag × Bool))
  | close
  | bar
  /-- A repetition and how it was written. -/
  | repeated (min : Nat) (max : Option Nat) (counted : Bool) (written : List Char)
  /-- Something written that stands for nothing. -/
  | nothing
  | bad (e : Error)
deriving Repr

def maxCode : Nat := 0x10FFFF

/-- What `all` holds before its end part `rest`. -/
def before (all rest : List Char) : List Char := all.take (all.length - rest.length)

/-! ## Escapes -/

/-- Octal digits, at most `n` of them. -/
def readOctal : (n : Nat) → List Char → Nat → Nat × List Char
  | n + 1, c :: r, v =>
    if '0' ≤ c ∧ c ≤ '7' then readOctal n r (8 * v + (c.toNat - 48)) else (v, c :: r)
  | _, r, v => (v, r)

/-- Hexadecimal digits up to a closing brace: the value, or where reading stopped. -/
def readBraced : List Char → (value count : Nat) → Except (List Char) (Nat × List Char)
  | [], _, _ => .error []
  | c :: r, v, n =>
    if c = '\x7d' then (if n = 0 then .error r else .ok (v, r))
    else match hexValue? c with
      | some d => if maxCode < 16 * v + d then .error r else readBraced r (16 * v + d) (n + 1)
      | none => .error r

/-- The control characters that letters stand for. -/
def controlCode? : Char → Option Nat
  | 'a' => some 7
  | 'f' => some 12
  | 'n' => some 10
  | 'r' => some 13
  | 't' => some 9
  | 'v' => some 11
  | _ => none

/-- After a backslash: the code point named, or the rest after what is no escape. -/
def readEscape : List Char → Except (List Char) (Nat × List Char)
  | [] => .error []
  | c :: r =>
    if '1' ≤ c ∧ c ≤ '7' then
      match r with
      | d :: _ =>
        if '0' ≤ d ∧ d ≤ '7' then .ok (readOctal 2 r (c.toNat - 48)) else .error r
      | [] => .error r
    else if c = '0' then .ok (readOctal 2 r 0)
    else if c = 'x' then
      match r with
      | [] => .error r
      | '\x7b' :: r => readBraced r 0 0
      | [_] => .error []
      | d :: e :: r =>
        match hexValue? d, hexValue? e with
        | some x, some y => .ok (16 * x + y, r)
        | _, _ => .error r
    else match controlCode? c with
      | some n => .ok (n, r)
      | none => if c.toNat < 0x80 ∧ ¬ c.isAlphanum then .ok (c.toNat, r) else .error r

/-- An escape, given with its backslash. -/
def escapeAt (cs : List Char) : Except Error (Nat × List Char) :=
  match cs.drop 1 with
  | [] => .error ⟨.trailingBackslash, []⟩
  | r => match readEscape r with
    | .ok x => .ok x
    | .error rest => .error ⟨.escape, before cs rest⟩

/-! ## Classes -/

/-- The ranges of ASCII classes by letter or word. -/
def digitRanges : List (Nat × Nat) := [(0x30, 0x39)]
def spaceRanges : List (Nat × Nat) := [(0x9, 0xA), (0xC, 0xD), (0x20, 0x20)]
def wordRanges : List (Nat × Nat) := [(0x30, 0x39), (0x41, 0x5A), (0x5F, 0x5F), (0x61, 0x7A)]

/-- The classes that a letter stands for after a backslash. -/
def letterClass? : Char → Option Item
  | 'd' => some (.ranges digitRanges false)
  | 'D' => some (.ranges digitRanges true)
  | 's' => some (.ranges spaceRanges false)
  | 'S' => some (.ranges spaceRanges true)
  | 'w' => some (.ranges wordRanges false)
  | 'W' => some (.ranges wordRanges true)
  | _ => none

/-- The classes that a word stands for between `[:` and `:]`. -/
def wordClass? : String → Option (List (Nat × Nat))
  | "alnum" => some [(0x30, 0x39), (0x41, 0x5A), (0x61, 0x7A)]
  | "alpha" => some [(0x41, 0x5A), (0x61, 0x7A)]
  | "ascii" => some [(0x0, 0x7F)]
  | "blank" => some [(0x9, 0x9), (0x20, 0x20)]
  | "cntrl" => some [(0x0, 0x1F), (0x7F, 0x7F)]
  | "digit" => some digitRanges
  | "graph" => some [(0x21, 0x7E)]
  | "lower" => some [(0x61, 0x7A)]
  | "print" => some [(0x20, 0x7E)]
  | "punct" => some [(0x21, 0x2F), (0x3A, 0x40), (0x5B, 0x60), (0x7B, 0x7E)]
  | "space" => some [(0x9, 0xD), (0x20, 0x20)]
  | "upper" => some [(0x41, 0x5A)]
  | "word" => some wordRanges
  | "xdigit" => some [(0x30, 0x39), (0x41, 0x46), (0x61, 0x66)]
  | _ => none

/-- The codes of categories and of their groups that patterns know. -/
def categoryCodes : List String :=
  ["C", "L", "M", "N", "P", "S", "Z"] ++ ((Text.Category.all.filter (· != .cn)).map (·.code))

def named? (name : String) : Option Named :=
  if name = "Any" then some .any
  else if categoryCodes.contains name then some (.category name)
  else if isScript name then some (.script name)
  else none

/-- Splits a text before the first place where `stop` begins. -/
def splitAt? (stop : List Char) : List Char → Option (List Char × List Char)
  | [] => if stop.isEmpty then some ([], []) else none
  | c :: r =>
    if stop.isPrefixOf (c :: r) then some ([], c :: r)
    else (splitAt? stop r).map fun (a, b) => (c :: a, b)

/-- A class by name after `\p` or `\P`: the item and the rest. -/
def unicodeClass (cs : List Char) : Except Error (Item × List Char) :=
  let negate := cs[1]? == some 'P'
  let pick (seq name rest : List Char) : Except Error (Item × List Char) :=
    let (neg, name) := match name with
      | '^' :: n => (!negate, n)
      | n => (negate, n)
    match named? (String.ofList name) with
    | some n => .ok (Item.named n neg, rest)
    | none => .error ⟨.charRange, seq⟩
  match cs.drop 2 with
  | [] => .error ⟨.charRange, cs⟩
  | '\x7b' :: r =>
    match splitAt? ['\x7d'] r with
    | none => .error ⟨.charRange, cs⟩
    | some (name, rest) => pick (before cs (rest.drop 1)) name (rest.drop 1)
  | c :: r => pick (before cs r) [c] r

/-- A class by word at the front of `[:word:]`; `none` if the text does not close it. -/
def posixClass? (cs : List Char) : Option (Except Error (Item × List Char)) :=
  match splitAt? [':', ']'] (cs.drop 2) with
  | none => none
  | some (word, rest) =>
    let rest := rest.drop 2
    let (negate, word) := match word with
      | '^' :: w => (true, w)
      | w => (false, w)
    match wordClass? (String.ofList word) with
    | some rs => some (.ok (.ranges rs negate, rest))
    | none => some (.error ⟨.charRange, before cs rest⟩)

/-- One end of a range inside the class `whole`. -/
def classChar (whole : List Char) : List Char → Except Error (Nat × List Char)
  | [] => .error ⟨.missingBracket, whole⟩
  | '\\' :: r => escapeAt ('\\' :: r)
  | c :: r => .ok (c.toNat, r)

/-- A character or a range inside the class `whole`. -/
def classRange (whole cs : List Char) : Except Error (Item × List Char) :=
  match classChar whole cs with
  | .error e => .error e
  | .ok (lo, r) =>
    match r with
    | '-' :: d :: r' =>
      if d = ']' then .ok (.single lo lo, r)
      else match classChar whole (d :: r') with
        | .error e => .error e
        | .ok (hi, rest) =>
          if hi < lo then .error ⟨.charRange, before cs rest⟩ else .ok (.single lo hi, rest)
    | _ => .ok (.single lo lo, r)

/-- One item inside the class `whole`. -/
def classItem (whole cs : List Char) : Except Error (Item × List Char) :=
  match cs with
  | '[' :: ':' :: _ :: _ =>
    match posixClass? cs with
    | some r => r
    | none => classRange whole cs
  | '\\' :: c :: r =>
    if c = 'p' ∨ c = 'P' then unicodeClass cs
    else match letterClass? c with
      | some i => .ok (i, r)
      | none => classRange whole cs
  | _ => classRange whole cs

/-- The items of a class up to its closing bracket, which may itself come first. -/
def classItems (whole : List Char) : (fuel : Nat) → (first : Bool) → List Char → List Item →
    Except Error (List Item × List Char)
  | 0, _, _, _ => .error ⟨.missingBracket, whole⟩
  | fuel + 1, first, cs, acc =>
    match first, cs with
    | false, ']' :: r => .ok (acc, r)
    | _, _ =>
      match classItem whole cs with
      | .error e => .error e
      | .ok (i, r) => classItems whole fuel false r (acc ++ [i])

/-- A class, given with its opening bracket. -/
def classAt (cs : List Char) : Except Error (Token × List Char) :=
  let (negate, r) := match cs.drop 1 with
    | '^' :: r => (true, r)
    | r => (false, r)
  match classItems cs (r.length + 1) true r [] with
  | .error e => .error e
  | .ok (items, rest) => .ok (.set items negate, rest)

/-! ## Repetitions and groups -/

/-- A count: digits without leading zeros. Numbers beyond the limit come out as `none`. -/
def readCount? (cs : List Char) : Option (Option Nat × List Char) :=
  let ds := cs.takeWhile Char.isDigit
  match ds with
  | [] => none
  | '0' :: _ :: _ => none
  | _ =>
    let n := (Text.digitsValue (ds.take 9)).getD 0
    some (if ds.length < 10 then some n else none, cs.drop ds.length)

/-- The counts of `{n}`, `{n,}` or `{n,m}`: the least, the most if there is one, and the rest. A
number too large to be read is `none` inside. -/
def readCounts? (cs : List Char) : Option (Option Nat × Option (Option Nat) × List Char) :=
  match readCount? (cs.drop 1) with
  | none => none
  | some (lo, r) =>
    match r with
    | '\x7d' :: r => some (lo, some lo, r)
    | ',' :: '\x7d' :: r => some (lo, none, r)
    | ',' :: r =>
      match readCount? r with
      | some (hi, '\x7d' :: r) => some (lo, some hi, r)
      | _ => none
    | _ => none

def maxCount : Nat := 1000

/-- A repetition and the question mark that may follow it. -/
def repeatAt (cs after : List Char) (min : Nat) (max : Option Nat) (counted : Bool) :
    Token × List Char :=
  let rest := match after with
    | '?' :: r => r
    | r => r
  (.repeated min max counted (before cs rest), rest)

/-- Counts between braces; without them the brace stands for itself. -/
def braceAt (cs : List Char) : Token × List Char :=
  match readCounts? cs with
  | none => (.char 0x7B, cs.drop 1)
  | some (lo, hi, after) =>
    let tooLarge := (.bad ⟨.repeatCount, before cs after⟩, after)
    match lo, hi with
    | some lo, none => if maxCount < lo then tooLarge else repeatAt cs after lo none true
    | some lo, some (some hi) =>
      if maxCount < lo ∨ maxCount < hi ∨ hi < lo then tooLarge
      else repeatAt cs after lo (some hi) true
    | _, _ => tooLarge

def isNameChar (c : Char) : Bool := c.isAlphanum || c == '_'

/-- The switches of a group: what was read so far, whether a minus was seen, and whether a switch
followed it. -/
def readFlags : List Char → (flags : List (Flag × Bool)) → (minus saw : Bool) →
    Except (List Char) (Token × List Char)
  | [], _, _, _ => .error []
  | c :: r, flags, minus, saw =>
    let set (f : Flag) := readFlags r (flags ++ [(f, !minus)]) minus true
    match c with
    | 'i' => set .fold
    | 'm' => set .multiLine
    | 's' => set .dotAll
    | 'U' => set .swapGreed
    | '-' => if minus then .error r else readFlags r flags true false
    | ':' => if minus ∧ ¬ saw then .error r else .ok (.openGroup false flags, r)
    | ')' => if minus ∧ ¬ saw then .error r else .ok (.setFlags flags, r)
    | _ => .error r

/-- A group with a name, which starts after `skip` characters. -/
def namedGroup (cs : List Char) (skip : Nat) : Token × List Char :=
  match splitAt? ['>'] cs with
  | none => (.bad ⟨.namedCapture, cs⟩, [])
  | some (front, rest) =>
    let name := front.drop skip
    if name.isEmpty ∨ ¬ name.all isNameChar then
      (.bad ⟨.namedCapture, front ++ ['>']⟩, [])
    else (.openGroup true [], rest.drop 1)

/-- A group that starts with `(?`. -/
def specialGroup (cs : List Char) : Token × List Char :=
  match cs.drop 2 with
  | 'P' :: '<' :: _ :: _ => namedGroup cs 4
  | '<' :: _ :: _ => namedGroup cs 3
  | r => match readFlags r [] false false with
    | .ok x => x
    | .error rest => (.bad ⟨.perlSyntax, before cs rest⟩, [])

/-! ## Cutting a pattern -/

/-- The tokens at the front of a non-empty text, and the rest. -/
def frontTokens (cs : List Char) : List Token × List Char :=
  let one (x : Token × List Char) : List Token × List Char := ([x.1], x.2)
  let tried (x : Except Error (Token × List Char)) : List Token × List Char :=
    match x with
    | .ok x => one x
    | .error e => ([.bad e], [])
  match cs with
  | [] => ([], [])
  | '(' :: '?' :: _ => one (specialGroup cs)
  | '(' :: r => ([.openGroup true []], r)
  | '|' :: r => ([.bar], r)
  | ')' :: r => ([.close], r)
  | '^' :: r => ([.lineStart], r)
  | '$' :: r => ([.lineEnd], r)
  | '.' :: r => ([.any], r)
  | '[' :: _ => tried (classAt cs)
  | '*' :: r => one (repeatAt cs r 0 none false)
  | '+' :: r => one (repeatAt cs r 1 none false)
  | '?' :: r => one (repeatAt cs r 0 (some 1) false)
  | '\x7b' :: _ => one (braceAt cs)
  | '\\' :: 'A' :: r => ([.assert .beginText], r)
  | '\\' :: 'b' :: r => ([.assert .wordBoundary], r)
  | '\\' :: 'B' :: r => ([.assert .noWordBoundary], r)
  | '\\' :: 'C' :: _ => ([.bad ⟨.escape, ['\\', 'C']⟩], [])
  | '\\' :: 'Q' :: r =>
    match splitAt? ['\\', 'E'] r with
    | some (lit, rest) => (.nothing :: lit.map (.char ·.toNat), rest.drop 2)
    | none => (.nothing :: r.map (.char ·.toNat), [])
  | '\\' :: 'z' :: r => ([.assert .endText], r)
  | '\\' :: c :: r =>
    if c = 'p' ∨ c = 'P' then tried ((unicodeClass cs).map fun (i, r) => (.set [i] false, r))
    else match letterClass? c with
      | some i => ([.set [i] false], r)
      | none => tried ((escapeAt cs).map fun (n, r) => (.char n, r))
  | '\\' :: [] => tried ((escapeAt cs).map fun (n, r) => (.char n, r))
  | c :: r => ([.char c.toNat], r)

/-- The tokens of a text; each takes at least one character. -/
def tokensOf : (fuel : Nat) → List Char → List Token
  | 0, _ => []
  | fuel + 1, cs =>
    if cs.isEmpty then []
    else
      let (ts, r) := frontTokens cs
      ts ++ tokensOf fuel r

def tokens (cs : List Char) : List Token := tokensOf cs.length cs

end ScriptMachine.Pattern
