import ScriptMachine.Lowering.Build

/-!
# Branches

Code that may or may not run stands in blocks of its own. A name that such a branch binds anew is
joined behind it: it gets one register, set to the old value before the branching instruction and
moved to at the end of each branch that binds the name.
-/

namespace ScriptMachine

/-- A branch: its block, the register of its value, the names at its end, and the name that it
keeps to itself, empty if there is none. -/
structure Branch where
  block : BlockId
  last : Option Reg
  names : Names
  own : String

/-- The value in a register; null where there is none. -/
def operand : Option Reg → Value
  | some r => .reg r
  | none => .null

namespace Branch

/-- The names that are joined behind a branch. -/
def rebound (br : Branch) (before : Names) : List String :=
  (br.names.changed before).filter (· != br.own)

/-- The end of a branch: the values it bound are moved to the registers of their names, and its
value is handed on. -/
def ending (br : Branch) (before joins : Names) : List Instr :=
  (br.rebound before).filterMap (fun name => do
    let j ← joins.get? name
    let r ← br.names.get? name
    return .move j r) ++ [.leave .yield (operand br.last)]

end Branch

/-- The instruction that sets the register of a joined name to the old value, or to null if there is
none. -/
def joinStart (j : Reg) : Option Reg → Instr
  | some r => .move j r
  | none => .load j .null

namespace Build

/-- Lowers a branch into a new block, with `own` bound to `caught` for it alone. -/
def branch (own : String) (caught : Reg) (body : BlockId → Build (Option Reg)) : Build Branch := do
  let b ← newBlock
  let (last, names) ← isolated do
    if own ≠ "" then bind own caught
    body b
  return ⟨b, last, names, own⟩

/-- The branches that reach their end. -/
def openBranches : List Branch → Build (List Branch)
  | [] => return []
  | br :: brs => do
    let rest ← openBranches brs
    return if ← terminated br.block then rest else br :: rest

/-- The register of a name before a branch, where `before` are the names at hand. -/
def lookupBefore (before : Names) (name : String) : Build (Option Reg) :=
  match before.get? name with
  | some r => return some r
  | none => lookup name

/-- A register for each joined name, set to the old value. -/
def startJoins (b : BlockId) (before : Names) : List String → Build Names
  | [] => return []
  | name :: rest => do
    let j ← newReg
    let old ← lookupBefore before name
    emit b (joinStart j old)
    let joins ← startJoins b before rest
    return (name, j) :: joins

def closeBranches (before : Names) (joins : Names) : List Branch → Build Unit
  | [] => return
  | br :: brs => do
    emitAll br.block (br.ending before joins)
    closeBranches before joins brs

/-- Ends the branches that reach their end, and joins the names they bound. `b` is the block of the
branching instruction, and `before` are the names in front of it. -/
def join (b : BlockId) (before : Names) (brs : List Branch) : Build Unit := do
  let brs ← openBranches brs
  let names := (brs.flatMap (·.rebound before)).eraseDups.mergeSort (· ≤ ·)
  let joins ← startJoins b before names
  closeBranches before joins brs
  bindAll (joins.map (·.1)) (joins.map (·.2))

end Build

end ScriptMachine
