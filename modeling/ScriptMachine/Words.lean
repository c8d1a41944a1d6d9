import ScriptMachine.Text.Blank

/-!
# Words of a command line

Splits a line at white space into words. Quotes keep white space in a word; single quotes keep all
of their text, and in double quotes a backslash escapes only a double quote or a backslash. Outside
of quotes a backslash escapes any character. Empty words are dropped.
-/

namespace ScriptMachine.Words

/-- Why a line cannot be split. -/
inductive Problem where
  | noClosingQuote
  | noEscaped
deriving DecidableEq, Repr

def Problem.message : Problem → String
  | noClosingQuote => "No closing quotation"
  | noEscaped => "No escaped character"

inductive Quote where
  | single | double
deriving DecidableEq, Repr

def Quote.char : Quote → Char
  | single => '\''
  | double => '"'

def Quote.ofChar? (c : Char) : Option Quote :=
  if c = '\'' then some single else if c = '"' then some double else none

/-- How the next character is read. -/
inductive Mode where
  | plain
  | quoted (q : Quote)
  /-- After a backslash outside of quotes. -/
  | escaped
  /-- After a backslash in double quotes. -/
  | escapedInQuotes
deriving DecidableEq, Repr

/-- The word that ends with the given characters, last first, in front of further words. -/
def close (word : List Char) (rest : List String) : List String :=
  if word.isEmpty then rest else String.ofList word.reverse :: rest

/-- Splits the rest of a line, where `word` is the word at hand, last character first. -/
def splitFrom : (mode : Mode) → (word : List Char) → List Char → Except Problem (List String)
  | .plain, word, [] => .ok (close word [])
  | .quoted _, _, [] => .error .noClosingQuote
  | .escaped, _, [] | .escapedInQuotes, _, [] => .error .noEscaped
  | .plain, word, c :: cs =>
    if Text.isBlank c then (splitFrom .plain [] cs).map (close word)
    else if c = '\\' then splitFrom .escaped word cs
    else match Quote.ofChar? c with
      | some q => splitFrom (.quoted q) word cs
      | none => splitFrom .plain (c :: word) cs
  | .quoted q, word, c :: cs =>
    if c = q.char then splitFrom .plain word cs
    else if c = '\\' ∧ q = .double then splitFrom .escapedInQuotes word cs
    else splitFrom (.quoted q) (c :: word) cs
  | .escaped, word, c :: cs => splitFrom .plain (c :: word) cs
  | .escapedInQuotes, word, c :: cs =>
    let word := if c = '\\' ∨ c = '"' then word else '\\' :: word
    splitFrom (.quoted .double) (c :: word) cs

def split (line : String) : Except Problem (List String) := splitFrom .plain [] line.toList

end ScriptMachine.Words
