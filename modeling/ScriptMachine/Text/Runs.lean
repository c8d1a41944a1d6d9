import ScriptMachine.Text.Decimal

/-!
# Properties of code points as runs

A property that is constant on long stretches of code points is kept as a text of runs, each a
name followed by the number of code points that carry it, in ascending order from zero. `ofText`
reads such a text and `find?` looks a code point up by bisection.
-/

namespace ScriptMachine.Text

/-- Cuts a text at white space; empty pieces are left out. -/
def blankSeparated (cs : List Char) : List (List Char) :=
  (cs.foldr (fun c acc =>
    if c.isWhitespace then [] :: acc
    else match acc with
      | w :: ws => (c :: w) :: ws
      | [] => [[c]]) [[]]).filter (! ·.isEmpty)

/-- Runs of code points: each entry is the first code point of a run and what the run carries. -/
structure RunTable (α : Type) where
  runs : Array (Nat × α)

namespace RunTable

/-- Reads runs written as a name and a length, where `label` gives the meaning of a name. -/
def ofText {α : Type} (label : String → α) (text : String) : RunTable α :=
  let step (acc : Nat × Array (Nat × α)) (w : List Char) : Nat × Array (Nat × α) :=
    let name := w.takeWhile (! ·.isDigit)
    let len := (digitsValue (w.dropWhile (! ·.isDigit))).getD 0
    (acc.1 + len, acc.2.push (acc.1, label (String.ofList name)))
  ⟨((blankSeparated text.toList).foldl step (0, #[])).2⟩

/-- The last index in `[lo, hi)` whose run starts at or below `c`, if run `lo` does. -/
def bisect {α : Type} (runs : Array (Nat × α)) (c lo hi : Nat) : Nat :=
  if lo + 1 < hi then
    let mid := (lo + hi) / 2
    if (runs[mid]?.map (fun r => decide (r.1 ≤ c))).getD false then bisect runs c mid hi
    else bisect runs c lo mid
  else lo
termination_by hi - lo

/-- What the run around code point `c` carries. -/
def find? {α : Type} (t : RunTable α) (c : Nat) : Option α :=
  t.runs[bisect t.runs c 0 t.runs.size]?.map (·.2)

end RunTable

end ScriptMachine.Text
