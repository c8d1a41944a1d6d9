import ScriptMachine.Code.Program

/-!
# Scopes

Which names stand for which registers while a function is lowered. A closure body has names of its
own; a name that it takes from outside is captured on first use, in every closure on the way.
-/

namespace ScriptMachine

/-- Names and their registers, each name once. -/
abbrev Names := List (String × Reg)

namespace Names

def get? (ns : Names) (name : String) : Option Reg := ns.lookup name

/-- Lets a name stand for a register, whatever it stood for before. -/
def bind (ns : Names) (name : String) (r : Reg) : Names := (name, r) :: ns.filter (·.1 != name)

/-- The names that do not stand for the same register as before, in order. -/
def changed (ns before : Names) : List String :=
  ((ns.filter fun (name, r) => before.get? name != some r).map (·.1)).mergeSort (· ≤ ·)

end Names

/-- A closure whose body is being lowered: the names where it is created, the names it captured
with the registers that receive them, and the captures in order. -/
structure Enclosure where
  outer : Names
  bound : Names := []
  captures : List (Capture Value) := []

def Enclosure.capture (e : Enclosure) (name : String) (v : Value) (r : Reg) : Enclosure :=
  { e with bound := e.bound.bind name r, captures := e.captures ++ [⟨v, r⟩] }

/-- The register of a name: among the names at hand, among what the innermost closure captured, or
from outside of it. In that case each closure between captures it, the outermost first, into a new
register of the function. -/
def resolve (name : String) (f : Func) (names : Names) :
    List Enclosure → Option Reg × Func × List Enclosure
  | [] => (names.get? name, f, [])
  | e :: es =>
    match (names.get? name).or (e.bound.get? name) with
    | some r => (some r, f, e :: es)
    | none =>
      match resolve name f e.outer es with
      | (none, f, es) => (none, f, e :: es)
      | (some outer, f, es) =>
        let (f, r) := f.newReg
        (some r, f, e.capture name (.reg outer) r :: es)

end ScriptMachine
