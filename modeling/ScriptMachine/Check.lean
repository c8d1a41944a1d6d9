import ScriptMachine.BitSet
import ScriptMachine.Code.Program
import ScriptMachine.WorkList

/-!
# Structural checks

The checker finds code that the machine could not run: blocks without an end, references to
registers and blocks that do not exist, skips out of their block, yields with nobody to yield to,
and registers that are read but written nowhere.

It visits the blocks of a function from the entry along references, always the block with the
least number first, and reports each further way into a block that it has already visited. Blocks
it never visits are unreachable.
-/

namespace ScriptMachine

open Text (decimal)

inductive Issue where
  | noMain
  | undefinedInOrder (name : String)
  | paramCount (params regs : Nat)
  | noEntry
  | enteredAgain
  | emptyBlock
  | unterminated
  | earlyTerminator (t : Terminator)
  | regOutside (r : Reg) (size : Int)
  | neverWritten (r : Reg)
  | skipOutside (n : Int64)
  | strayYield
  | closureParams (regs names : Nat)
  | missingBlock (b : BlockId)
  | entryReference
  | noCaughtReg
deriving DecidableEq, Repr

def Issue.message : Issue → String
  | noMain => "no " ++ mainName ++ " function"
  | undefinedInOrder name => "function " ++ name ++ " is in order but not defined"
  | paramCount params regs =>
    decimal params ++ " params but " ++ decimal regs ++ " param registers"
  | noEntry => "entry block doesn't exist"
  | enteredAgain => "block entered from more than one place"
  | emptyBlock => "empty block"
  | unterminated => "block is not terminated"
  | earlyTerminator t => t.typeName ++ " before the end of block"
  | regOutside r size => "register " ++ r.render ++ " out of range [0, " ++ decimal size ++ ")"
  | neverWritten r => r.render ++ " is read but never written"
  | skipOutside n => "skip " ++ decimal n.toInt ++ " leaves the block"
  | strayYield => "yield outside of a nested block"
  | closureParams regs names =>
    "closure: " ++ decimal regs ++ " param registers but " ++ decimal names ++ " names"
  | missingBlock b => "reference to missing block " ++ decimal b.index
  | entryReference => "reference to entry block"
  | noCaughtReg => "catch block without catch register"

/-- An issue with its place. A problem of the whole program has no function, one of a whole
function no block, and one of a whole block a negative instruction. -/
structure Problem where
  func : String
  block : BlockId
  instr : Int
  issue : Issue
deriving DecidableEq, Repr

def Problem.text (p : Problem) : String :=
  let msg := p.issue.message
  if p.func = "" then msg
  else if p.block = .none then p.func ++ ": " ++ msg
  else if p.instr < 0 then p.func ++ "." ++ p.block.render ++ ": " ++ msg
  else p.func ++ "." ++ p.block.render ++ ":" ++ decimal p.instr ++ ": " ++ msg

def Problem.texts (ps : List Problem) : String := "\n".intercalate (ps.map Problem.text)

namespace Check

open Instr (Entry BlockRef)

/-! ## One instruction -/

/-- A register that the function does not have. -/
def regIssues (f : Func) (r : Reg) : List Issue :=
  if r.index < 0 ∨ f.numRegs ≤ r.index then [.regOutside r f.numRegs] else []

/-- A reference to a block that does not exist, or to the entry. -/
def refIssues (f : Func) (r : BlockRef) : List Issue :=
  if (f.block? r.block).isNone then [.missingBlock r.block]
  else if r.block = f.entry then [.entryReference]
  else []

/-- A skip that leaves its block. The sum wraps like a 64-bit integer. -/
def skipIssues (i len : Nat) (n : Int64) : List Issue :=
  if n < 0 ∨ Int64.ofNat len ≤ Int64.ofNat i + n + 1 then [.skipOutside n] else []

/-- An operand: registers have to exist and to be written somewhere. -/
def operandIssues (f : Func) (written : BitSet) (v : Value) : List Issue :=
  match v.reg? with
  | some r => regIssues f r ++ (if written.contains r.index then [] else [.neverWritten r])
  | none => []

/-- A terminator stands at the end of its block and nowhere else. -/
def endIssues (last : Bool) (x : Instr) : List Issue :=
  match x, last with
  | .leave .., true => []
  | .leave t _, false => [.earlyTerminator t]
  | _, true => [.unterminated]
  | _, false => []

/-- The issues that only some instructions can have. -/
def ownIssues (f : Func) (entry : Entry) (i len : Nat) : Instr → List Issue
  | .circuit _ _ _ _ n => skipIssues i len n
  | .leave .yield _ => if entry = .nested then [] else [.strayYield]
  | x@(.closureCreate _ _ _ params names) =>
    (if params.length = names.length then [] else [.closureParams params.length names.length])
      ++ params.flatMap (regIssues f) ++ x.refs.flatMap (refIssues f)
  | .guarded _ g =>
    refIssues f ⟨g.body, .nested⟩
      ++ (if g.handler ≠ .none ∧ g.caught = .none then [.noCaughtReg] else [])
      ++ (Instr.optional g.handler).flatMap (refIssues f)
      ++ (Instr.optional g.cleanup).flatMap (refIssues f)
  | x => x.refs.flatMap (refIssues f)

/-- All issues of the instruction at index `i` of a block of length `len`. -/
def instrIssues (f : Func) (written : BitSet) (entry : Entry) (i len : Nat) (x : Instr) :
    List Issue :=
  endIssues (i + 1 == len) x
    ++ (if x.out = .none then [] else regIssues f x.out)
    ++ x.ins.flatMap (operandIssues f written)
    ++ ownIssues f entry i len x

/-! ## One block -/

def blockProblems (f : Func) (written : BitSet) (entry : Entry) (b : Block) : List Problem :=
  if b.code.isEmpty then [⟨f.name, b.id, -1, .emptyBlock⟩]
  else b.code.toList.zipIdx.flatMap fun (x, i) =>
    (instrIssues f written entry i b.code.size x).map (⟨f.name, b.id, i, ·⟩)

def blockRefs (b : Block) : List BlockRef := b.code.toList.flatMap Instr.refs

/-! ## One function -/

/-- The registers written anywhere in a function: those of the parameters, and the destinations,
captures, closure parameters and caught values of all instructions. Of the latter, negative ones are
left out. -/
def writtenKeys (f : Func) : List Int :=
  let rs := f.blocks.toList.flatMap fun b => b.code.toList.flatMap Instr.writes
  f.paramRegs.map (·.index) ++ (rs.map (·.index)).filter (0 ≤ ·)

/-- The set of the registers written anywhere in a function. -/
def writtenRegs (f : Func) : Except Crash BitSet := do
  let room ← BitSet.withRoom f.numRegs
  match room.insertAll (writtenKeys f) with
  | (s, none) => .ok s
  | (_, some c) => .error c

/-- The blocks visited and the problems found so far. The set of the former has room for all blocks of
the function from the start. -/
structure Visit where
  seen : BitSet
  problems : List Problem := []

/-- The key by which blocks wait for their visit. -/
def waitKey (r : BlockRef) : Int := r.block.index

/-- Visits waiting blocks until none is left. Each block is checked on its first visit only, so the
number of references bounds the number of visits. -/
def visitAll (f : Func) (written : BitSet) : (fuel : Nat) → WorkList BlockRef → Visit → Visit
  | 0, _, v => v
  | fuel + 1, jobs, v =>
    match jobs.pop? waitKey with
    | none => v
    | some (j, jobs) =>
      match f.block? j.block with
      | none => visitAll f written fuel jobs v
      | some b =>
        if v.seen.contains j.block.index then
          let again := ⟨f.name, j.block, -1, .enteredAgain⟩
          visitAll f written fuel jobs { v with problems := v.problems ++ [again] }
        else
          let found := blockProblems f written j.entry b
          let refs := (blockRefs b).filter fun r => (f.block? r.block).isSome
          visitAll f written fuel (refs.foldl (WorkList.push waitKey) jobs)
            { seen := v.seen.insertNat j.block.index.toNat, problems := v.problems ++ found }

/-- More visits than this never happen: one for the entry and one for each reference. -/
def visitBound (f : Func) : Nat :=
  f.blocks.foldl (fun n b => n + (blockRefs b).length) 2

def unvisited (f : Func) (seen : BitSet) : List BlockId :=
  if seen.size = f.blocks.size then []
  else (f.blocks.toList.map (·.id)).filter fun b => !seen.contains b.index

/-- The problems and the unreachable blocks of a function. -/
def function (f : Func) : Except Crash (List Problem × List BlockId) := do
  let params :=
    if f.paramRegs.length = f.params.length then []
    else [⟨f.name, .none, -1, .paramCount f.params.length f.paramRegs.length⟩]
  let written ← writtenRegs f
  if (f.block? f.entry).isNone then
    return (params ++ [⟨f.name, f.entry, -1, .noEntry⟩], [])
  let jobs := ({} : WorkList BlockRef).push waitKey ⟨f.entry, .function⟩
  let v := visitAll f written (visitBound f) jobs { seen := ⟨#[], true⟩ }
  return (params ++ v.problems, unvisited f v.seen)

/-! ## The program -/

/-- The outcome of a check: the problems, and the unreachable blocks of each function that has
some. -/
structure Report where
  problems : List Problem := []
  unreachable : List (String × List BlockId) := []

/-- Records the unreachable blocks of a function, once for each name. -/
def Report.addUnreachable (r : Report) (name : String) (bs : List BlockId) : Report :=
  if bs.isEmpty then r
  else { r with unreachable := r.unreachable.filter (·.1 != name) ++ [(name, bs)] }

/-- The functions with unreachable blocks, by name. -/
def Report.sortedUnreachable (r : Report) : List (String × List BlockId) :=
  r.unreachable.mergeSort fun a b => a.1 ≤ b.1

/-- Checks the function that the order of the program names. -/
def named (p : Program) (r : Report) (name : String) : Except Crash Report :=
  match p.func? name with
  | none =>
    .ok { r with problems := r.problems ++ [⟨"", .none, -1, .undefinedInOrder name⟩] }
  | some f => do
    let (problems, unreachable) ← function f
    return { r with problems := r.problems ++ problems }.addUnreachable name unreachable

def program (p : Program) : Except Crash Report :=
  let start : Report := { problems := if p.main?.isSome then [] else [⟨"", .none, -1, .noMain⟩] }
  p.order.foldlM (named p) start

end Check

end ScriptMachine
