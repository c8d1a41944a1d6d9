import ScriptMachine.Pattern.Token

/-!
# Reading patterns

Builds an expression from tokens with a stack of open groups. The first token that does not fit is
the error.
-/

namespace ScriptMachine.Pattern

/-- The switches in force. -/
structure Flags where
  fold : Bool := false
  multiLine : Bool := false
  dotAll : Bool := false

def Flags.set (f : Flags) : Flag × Bool → Flags
  | (.fold, b) => { f with fold := b }
  | (.multiLine, b) => { f with multiLine := b }
  | (.dotAll, b) => { f with dotAll := b }
  | (.swapGreed, _) => f

/-- An expression with the height of its tree. -/
structure Part where
  expr : Expr
  height : Nat

/-- The expressions one after the other. -/
def sequence : List Part → Part
  | [] => ⟨.empty, 1⟩
  | [p] => p
  | p :: ps => ⟨ps.foldl (fun a q => .seq a q.expr) p.expr,
      1 + ps.foldl (fun h q => Nat.max h q.height) p.height⟩

/-- One of the expressions. -/
def choice : List Part → Part
  | [] => ⟨.empty, 1⟩
  | [p] => p
  | p :: ps => ⟨ps.foldl (fun a q => .alt a q.expr) p.expr,
      1 + ps.foldl (fun h q => Nat.max h q.height) p.height⟩

/-- An open group: whether it captures, the switches outside it, the choices before the last bar,
and the sequence after it, last part first. -/
structure Group where
  captures : Bool := false
  outer : Flags := {}
  choices : List Part := []
  current : List Part := []

/-- The sequence after the last bar. -/
def Group.last (g : Group) : Part := sequence g.current.reverse

def Group.close (g : Group) : Part := choice (g.choices ++ [g.last])

/-- How far a pattern has been read. -/
structure Reader where
  flags : Flags := {}
  /-- The innermost open group; at the bottom stands the whole pattern. -/
  group : Group := {}
  outside : List Group := []
  /-- How the repetition just before was written. -/
  repeated : List Char := []

namespace Reader

/-- Trees may not be higher than this. -/
def maxHeight : Nat := 1000

def push (r : Reader) (p : Part) : Reader :=
  { r with group := { r.group with current := p :: r.group.current } }

def leaf (r : Reader) (e : Expr) : Reader := r.push ⟨e, 1⟩

def again (r : Reader) (min : Nat) (max : Option Nat) (counted : Bool) (written : List Char) :
    Except Error Reader :=
  if ¬ r.repeated.isEmpty then .error ⟨.nestedRepeat, r.repeated ++ written⟩
  else match r.group.current with
    | [] => .error ⟨.missingArgument, written⟩
    | p :: ps =>
      let e := Expr.loop p.expr min max counted
      if counted ∧ maxCount < e.weight then .error ⟨.repeatCount, written⟩
      else .ok { r with group := { r.group with current := ⟨e, p.height + 1⟩ :: ps } }

/-- Closes the innermost group of the pattern `whole`. -/
def close (whole : List Char) (r : Reader) : Except Error Reader :=
  match r.outside with
  | [] => .error ⟨.unexpectedParen, whole⟩
  | g :: gs =>
    let inner := r.group.close
    let p := if r.group.captures then ⟨inner.expr, inner.height + 1⟩ else inner
    if maxHeight < p.height then .error ⟨.nesting, whole⟩
    else .ok ({ r with flags := r.group.outer, group := g, outside := gs }.push p)

/-- The expressions for the ends of lines and for any character depend on the switches. -/
def step (whole : List Char) (r : Reader) (t : Token) : Except Error Reader :=
  let plain := { r with repeated := [] }
  match t with
  | .char c => .ok (plain.leaf (.chars ⟨[.single c c], false, r.flags.fold⟩))
  | .any =>
    .ok (plain.leaf (.chars (if r.flags.dotAll then ⟨[], true, false⟩
      else ⟨[.single 10 10], true, false⟩)))
  | .lineStart =>
    .ok (plain.leaf (.assert (if r.flags.multiLine then .beginLine else .beginText)))
  | .lineEnd => .ok (plain.leaf (.assert (if r.flags.multiLine then .endLine else .endText)))
  | .assert a => .ok (plain.leaf (.assert a))
  | .set items negate => .ok (plain.leaf (.chars ⟨items, negate, r.flags.fold⟩))
  | .openGroup captures flags =>
    .ok { plain with
      flags := flags.foldl Flags.set r.flags
      group := { captures, outer := r.flags }
      outside := r.group :: r.outside }
  | .setFlags flags => .ok { plain with flags := flags.foldl Flags.set r.flags }
  | .close => plain.close whole
  | .bar =>
    .ok { plain with group := { r.group with
      choices := r.group.choices ++ [r.group.last], current := [] } }
  | .repeated min max counted written =>
    (r.again min max counted written).map ({ · with repeated := written })
  | .nothing => .ok plain
  | .bad e => .error e

end Reader

def parse (pattern : String) : Except Error Expr :=
  let whole := pattern.toList
  match (tokens whole).foldlM (Reader.step whole) {} with
  | .error e => .error e
  | .ok r =>
    if r.outside.isEmpty then .ok r.group.close.expr else .error ⟨.missingParen, whole⟩

end ScriptMachine.Pattern
