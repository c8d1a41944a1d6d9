import ScriptMachine.Code.Program

/-!
# Listings

The text form of programs, functions and instructions: a header for each function, a label for each
block, and a line that starts with a tab for each instruction.
-/

namespace ScriptMachine

open Text (decimal quoted)

/-- What a listing shows besides the code: how the name of an instruction is decorated, and which
blocks of which functions are marked as unreachable. -/
structure ListingOptions where
  opcode : String → String := id
  unreachable : List (String × List BlockId) := []

/-- Why a program has no listing. -/
inductive ListingError where
  | noFunction (name : String)
  | unsupported (type : String)
  | inBlock (block : BlockId) (instr : Nat) (e : ListingError)
  | inFunc (name : String) (e : ListingError)

def ListingError.message : ListingError → String
  | noFunction name => "no function " ++ name
  | unsupported type => "unsupported instruction: " ++ type
  | inBlock b i e => b.render ++ ":" ++ decimal i ++ ": " ++ e.message
  | inFunc name e => "func " ++ name ++ ": " ++ e.message

namespace Listing

def commas (items : List String) : String := ", ".intercalate items

def opcode : BinOp → String
  | .arith .add => "add"
  | .arith .sub => "sub"
  | .arith .mul => "mul"
  | .arith .div => "div"
  | .arith .mod => "mod"
  | .arith .pow => "pow"
  | .eq => "eq"
  | .ne => "ne"
  | .order .lt => "lt"
  | .order .le => "le"
  | .order .gt => "gt"
  | .order .ge => "ge"
  | .bits .and => "and"
  | .bits .or => "or"
  | .bits .xor => "xor"
  | .bits .shl => "shl"
  | .bits .shr => "shr"

def arguments (args : List Value) : String := "(" ++ commas (args.map Value.render) ++ ")"

/-- The parameters of a closure, with their names as far as there are any. -/
def closureParams : List Reg → List String → List String
  | [], _ => []
  | r :: rs, [] => r.render :: closureParams rs []
  | r :: rs, n :: ns => (n ++ " " ++ r.render) :: closureParams rs ns

def captures (cs : List (Capture Value)) : String :=
  if cs.isEmpty then ""
  else " captures" ++
    ",".intercalate (cs.map fun c => " " ++ c.reg.render ++ " = " ++ c.value.render)

/-- A reference that may be left out, with a word before it. -/
def optionalBlock (word : String) (b : BlockId) : String :=
  if b = .none then "" else word ++ b.render

/-- The name of an instruction in listings and the text after it. What is no instruction has
neither. -/
def parts : Instr → Except Stray (String × String)
  | .binary op _ l r => .ok (opcode op, " " ++ l.render ++ ", " ++ r.render)
  | .load _ v => .ok ("load", " " ++ v.render)
  | .move _ src => .ok ("move", " " ++ src.render)
  | .regex _ l r negate =>
    .ok (if negate then "not_regex" else "regex", " " ++ l.render ++ ", " ++ r.render)
  | .circuit kind _ left _ skip =>
    .ok (match kind with | .and => "and_sc" | .or => "or_sc",
      " " ++ left.render ++ " skip " ++ decimal skip.toInt)
  | .call _ func args => .ok ("call", " " ++ func ++ arguments args)
  | .closureCall _ c args => .ok ("call_closure", " " ++ c.render ++ arguments args)
  | .command _ name args => .ok ("exec", " " ++ quoted name ++ arguments args)
  | .closureCreate _ block caps params names =>
    .ok ("closure", " " ++ block.render ++ " (" ++ commas (closureParams params names) ++ ")"
      ++ captures caps)
  | .dispatch _ scrutinee arms default =>
    .ok ("match", " " ++ scrutinee.render ++ " ["
      ++ commas (arms.map fun a => a.pattern.render ++ ": " ++ a.block.render) ++ "]"
      ++ optionalBlock " default " default)
  | .guarded _ g =>
    .ok ("try", " " ++ g.body.render
      ++ optionalBlock (" catch " ++ g.caught.render ++ " ") g.handler
      ++ optionalBlock " finally " g.cleanup)
  | .leave how v =>
    .ok (match how with
      | .ret => "return"
      | .closureRet => "closure_return"
      | .yield => "yield"
      | .throw => "throw", " " ++ v.render)
  | .stray what => .error what

/-- The register that a line assigns, if it assigns one. -/
def destination (r : Reg) : String := if r = .none then "" else r.render ++ " = "

def instr (opts : ListingOptions) (x : Instr) : Except ListingError String :=
  match parts x with
  | .ok (name, rest) => .ok ("\t" ++ destination x.out ++ opts.opcode name ++ rest ++ "\n")
  | .error what => .error (.unsupported what.typeName)

/-- The lines of a list of instructions, the first of which has the index `i`. -/
def code (opts : ListingOptions) (b : BlockId) : (i : Nat) → List Instr →
    Except ListingError String
  | _, [] => .ok ""
  | i, x :: xs =>
    match instr opts x with
    | .error e => .error (.inBlock b i e)
    | .ok line => (code opts b (i + 1) xs).map (line ++ ·)

/-- The parameters of a function, with their registers as far as there are any. -/
def funcParams : List String → List Reg → List String
  | [], _ => []
  | n :: ns, [] => n :: funcParams ns []
  | n :: ns, r :: rs => (n ++ " " ++ r.render) :: funcParams ns rs

def label (opts : ListingOptions) (f : Func) (b : BlockId) : String :=
  let unreachable := (opts.unreachable.find? (·.1 == f.name)).map (·.2)
  b.render ++ ":" ++
    (if b = f.entry then " // entry"
     else if (unreachable.getD []).contains b then " // unreachable"
     else "") ++ "\n"

def blocks (opts : ListingOptions) (f : Func) : List Block → Except ListingError String
  | [] => .ok ""
  | b :: bs =>
    match code opts b.id 0 b.code.toList with
    | .error e => .error e
    | .ok body => (blocks opts f bs).map ((label opts f b.id ++ body) ++ ·)

def func (opts : ListingOptions) (f : Func) : Except ListingError String :=
  (blocks opts f f.blocks.toList).map fun body =>
    "func " ++ f.name ++ "(" ++ commas (funcParams f.params f.paramRegs) ++ ") regs "
      ++ decimal f.numRegs ++ " \x7b\n" ++ body ++ "\x7d\n"

/-- The listing of the function with a given name; there is nothing to list where there is none. -/
def named (opts : ListingOptions) (p : Program) (name : String) :
    Except Crash (Except ListingError String) :=
  match p.func? name with
  | some f => .ok (func opts f)
  | none => .error .nothingThere

/-- The listings of functions in order, with a blank line between them. -/
def funcs (opts : ListingOptions) (p : Program) (first : Bool) : List String →
    Except ListingError String
  | [] => .ok ""
  | name :: names =>
    match p.func? name with
    | none => .error (.noFunction name)
    | some f =>
      match func opts f with
      | .error e => .error (.inFunc name e)
      | .ok text =>
        (funcs opts p false names).map (((if first then "" else "\n") ++ text) ++ ·)

def program (opts : ListingOptions) (p : Program) : Except ListingError String :=
  funcs opts p true p.order

end Listing

end ScriptMachine
