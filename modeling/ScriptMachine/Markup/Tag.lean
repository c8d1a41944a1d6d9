import ScriptMachine.Number.Reading

/-!
# Tags

The type of a node. A plain scalar without a tag gets one by its text: null, truth values, integers
with or without a base, floating point numbers, dates and times; all else is a string.
-/

namespace ScriptMachine.Markup

/-- The tags that are told apart. -/
inductive Tag where
  | null | bool | int | float | str | timestamp | merge | seq | map
  | other (name : String)
deriving DecidableEq, Repr

namespace Tag

def render : Tag → String
  | null => "!!null"
  | bool => "!!bool"
  | int => "!!int"
  | float => "!!float"
  | str => "!!str"
  | timestamp => "!!timestamp"
  | merge => "!!merge"
  | seq => "!!seq"
  | map => "!!map"
  | other name => name

/-- The start of the full names of the common tags. -/
def commonStart : String := "tag:yaml.org,2002:"

def ofName (name : String) : Tag :=
  let short := if name.startsWith commonStart then
    "!!" ++ (name.drop commonStart.length).toString else name
  match short with
  | "!!null" => null
  | "!!bool" => bool
  | "!!int" => int
  | "!!float" => float
  | "!!str" => str
  | "!!timestamp" => timestamp
  | "!!merge" => merge
  | "!!seq" => seq
  | "!!map" => map
  | name => other name

/-! ## Dates and times -/

/-- The leading digits of a text, at most `n`, and the rest. -/
def leadingDigits : (n : Nat) → List Char → List Char × List Char
  | n + 1, c :: cs =>
    if c.isDigit then
      let (ds, rest) := leadingDigits n cs
      (c :: ds, rest)
    else ([], c :: cs)
  | _, cs => ([], cs)

/-- A number of one or two digits at the start of a text, up to `limit`. -/
def shortNumber (limit : Nat) (cs : List Char) : Option (Nat × List Char) := do
  let (ds, rest) := leadingDigits 2 cs
  if ds.isEmpty then none
  let n ← Text.digitsValue ds
  if n ≤ limit then return (n, rest) else none

/-- A number of exactly `width` digits at the start of a text. -/
def fixedNumber (width : Nat) (cs : List Char) : Option (Nat × List Char) := do
  let (ds, rest) := leadingDigits width cs
  if ds.length = width then return (← Text.digitsValue ds, rest) else none

def isLeap (year : Nat) : Bool := year % 4 == 0 && (year % 100 != 0 || year % 400 == 0)

def daysIn (year month : Nat) : Nat :=
  if month == 2 then (if isLeap year then 29 else 28)
  else if month ∈ [4, 6, 9, 11] then 30 else 31

def pass (c : Char) : List Char → Option (List Char)
  | x :: cs => if x = c then some cs else none
  | [] => none

def date (cs : List Char) : Option (List Char) := do
  let (year, cs) ← fixedNumber 4 cs
  let (month, cs) ← shortNumber 12 (← pass '-' cs)
  let (day, cs) ← shortNumber 31 (← pass '-' cs)
  if month = 0 || day = 0 || daysIn year month < day then none else return cs

/-- A time of day at the start of a text, with or without a fraction of a second. -/
def clock (cs : List Char) : Option (List Char) := do
  let (_, cs) ← shortNumber 23 cs
  let (_, cs) ← shortNumber 59 (← pass ':' cs)
  let (_, cs) ← shortNumber 59 (← pass ':' cs)
  match cs with
  | mark :: x :: rest =>
    if (mark == '.' || mark == ',') && x.isDigit then return rest.dropWhile Char.isDigit
    else return cs
  | _ => return cs

/-- An offset from the common time: a sign, hours and minutes. -/
def offset (cs : List Char) : Option (List Char) := do
  let cs ← (pass '+' cs) <|> (pass '-' cs)
  let (hours, cs) ← fixedNumber 2 cs
  let (minutes, cs) ← fixedNumber 2 (← pass ':' cs)
  if hours ≤ 24 && minutes ≤ 60 then return cs else none

/-- Whether a text is a zone: the letter for the common time, or an offset from it. -/
def isZone (cs : List Char) : Bool := cs == ['Z'] || offset cs == some []

/-- Whether a text is a date, alone or with a time: with a zone after a `T`, without one after a
space. -/
def isTimestamp (cs : List Char) : Bool :=
  match date cs with
  | none => false
  | some [] => true
  | some (sep :: rest) =>
    match clock rest with
    | none => false
    | some zone => if sep == ' ' then zone.isEmpty else (sep == 'T' || sep == 't') && isZone zone

/-! ## Plain scalars -/

/-- Passes digits, of which there has to be one. -/
def digits1 (cs : List Char) : Option (List Char) :=
  if cs.head?.any Char.isDigit then some (cs.dropWhile Char.isDigit) else none

/-- Whether a text is an exponent or empty. -/
def isExponent : List Char → Bool
  | [] => true
  | e :: cs =>
    let ds := match cs with
      | '+' :: ds | '-' :: ds => ds
      | ds => ds
    (e == 'e' || e == 'E') && digits1 ds == some []

/-- Whether a text has the form of a decimal number, with a sign, a point and an exponent at
most. -/
def isDecimal (cs : List Char) : Bool :=
  let cs := match cs with
    | '+' :: ds | '-' :: ds => ds
    | ds => ds
  match cs with
  | '.' :: ds => (digits1 ds).any isExponent
  | ds =>
    match digits1 ds with
    | none => false
    | some ('.' :: more) => isExponent (more.dropWhile Char.isDigit)
    | some more => isExponent more

end Tag

/-- What a plain scalar stands for. -/
inductive Plain where
  | null
  | bool (b : Bool)
  | int (n : Int)
  | float (x : Float)
  | timestamp
  | merge
  | str

namespace Plain

def tag : Plain → Tag
  | null => .null
  | bool _ => .bool
  | int _ => .int
  | float _ => .float
  | timestamp => .timestamp
  | merge => .merge
  | str => .str

/-- A number in base two or eight behind its mark, where the sign may stand on either side of
it. -/
def marked (cs : List Char) : Option Int :=
  let signed (base : Nat) (ds : List Char) := (Number.readIntBase base ds).map Int64.toInt
  let unsigned (base : Nat) (ds : List Char) := (Number.readNatBase base ds).map Int.ofNat
  match cs with
  | '0' :: 'b' :: ds => (signed 2 ds).or (unsigned 2 ds)
  | '0' :: 'o' :: ds => (signed 8 ds).or (unsigned 8 ds)
  | '-' :: '0' :: 'b' :: ds => signed 2 ('-' :: ds)
  | '-' :: '0' :: 'o' :: ds => signed 8 ('-' :: ds)
  | _ => none

/-- An integer of at most 64 bits, with or without a base. -/
def integer (cs : List Char) : Option Int :=
  ((Number.readIntAnyBase cs).map Int64.toInt).or ((Number.readNatAnyBase cs).map Int.ofNat)

/-- A decimal number that is not too large. -/
def decimal (cs : List Char) : Option Float :=
  if Tag.isDecimal cs then Number.readFloat cs else none

/-- A text that starts with a digit or a sign. Underscores count for nothing. -/
def ofNumeral (text : List Char) : Plain :=
  if Tag.isTimestamp text then timestamp
  else
    let cs := text.filter (· != '_')
    match integer cs, decimal cs, marked cs with
    | some n, _, _ => int n
    | none, some x, _ => float x
    | none, none, some n => int n
    | none, none, none => str

def ofText (text : String) : Plain :=
  match text with
  | "" | "~" | "null" | "Null" | "NULL" => null
  | "true" | "True" | "TRUE" => bool true
  | "false" | "False" | "FALSE" => bool false
  | ".nan" | ".NaN" | ".NAN" => float Binary64.nan
  | ".inf" | ".Inf" | ".INF" | "+.inf" | "+.Inf" | "+.INF" => float (Binary64.infinity false)
  | "-.inf" | "-.Inf" | "-.INF" => float (Binary64.infinity true)
  | "<<" => merge
  | text =>
    match text.toList with
    | [] => null
    | c :: cs =>
      if c.isDigit || c == '+' || c == '-' then ofNumeral (c :: cs)
      else if c == '.' then
        match Number.readFloat (c :: cs) with
        | some x => float x
        | none => str
      else str

end Plain

/-- The tag of a plain scalar without one. -/
def Tag.ofPlain (text : String) : Tag := (Plain.ofText text).tag

end ScriptMachine.Markup
