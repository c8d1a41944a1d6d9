import ScriptMachine.Markup.Node
import ScriptMachine.Markup.Scan

/-!
# Documents

Reads the first document of a text. What follows it is not read, except that the scanner is always
two tokens ahead, so these have to be tokens.
-/

namespace ScriptMachine.Markup

/-- A reader of documents: the index of the next token, the anchors with their nodes, where a node
that is still being read has none, and the meanings of tag handles. -/
structure Reader where
  next : Nat := 0
  anchors : List (String × Option Node) := []
  handles : List (String × String) := []

/-- A step in reading the tokens of a text. -/
abbrev Read := ReaderT Tokens (StateT Reader Option)

namespace Read

def peek : Read Token := do
  let ts ← read
  let i := (← get).next
  if ts.complete || i + 2 < ts.tokens.size then
    match ts.tokens[i]? with
    | some t => return t
    | none => return ⟨.streamEnd, {}, {}⟩
  else failure

def skip : Read Unit := modify fun s => { s with next := s.next + 1 }

/-- Whether the token at hand is of one of some kinds. -/
def sees (kinds : List TokenKind) : Read Bool := return kinds.contains (← peek).kind

def expect (kind : TokenKind) : Read Unit := do
  if (← peek).kind == kind then skip else failure

/-! ## Properties -/

/-- The anchor and the tag in front of a node. -/
structure Properties where
  start : Option Position := none
  anchor : Option String := none
  tag : Option (String × String) := none

/-- An anchor and a tag in either order, each once at most. -/
def properties : (fuel : Nat) → Properties → Read Properties
  | 0, p => return p
  | fuel + 1, p => do
    let t ← peek
    let start := p.start.or (some t.start)
    match t.kind with
    | .anchor name =>
      if p.anchor.isSome then return p
      skip
      properties fuel { p with start, anchor := some name }
    | .tag handle suffix =>
      if p.tag.isSome then return p
      skip
      properties fuel { p with start, tag := some (handle, suffix) }
    | _ => return p

/-- The full name of a tag; an unknown handle has none. -/
def tagName : Option (String × String) → Read (Option String)
  | none => return none
  | some (handle, suffix) => do
    if handle = "" then return some suffix
    match (← get).handles.lookup handle with
    | some start => return some (start ++ suffix)
    | none => failure

/-- The tag of a full name. The lone mark asks for the tag that the node has by itself. -/
def explicitTag (name : Option String) : Option Tag :=
  match name with
  | none | some "" | some "!" => none
  | some name => some (Tag.ofName name)

def setAnchor (name : Option String) (n : Option Node) : Read Unit := do
  match name with
  | some name => modify fun s => { s with anchors := (name, n) :: s.anchors }
  | none => return

/-- Notes a collection under its anchor when it has been read, unless its items took the anchor. -/
def closeAnchor (name : Option String) (n : Node) : Read Unit := do
  match name with
  | some a =>
    match (← get).anchors.lookup a with
    | some none => setAnchor name (some n)
    | _ => return
  | none => return

/-! ## Nodes -/

/-- The node of an alias, which has to be known. -/
def aliased (pos : Position) (name : String) : Read Node := do
  match (← get).anchors.lookup name with
  | some (some n) => return .reference pos name n
  | some none => return .loop pos name
  | none => failure

mutual

/-- Reads a node. `block` tells whether block collections may stand here, `indentless` whether a
block sequence needs no indentation. -/
def node (block indentless : Bool) : (fuel : Nat) → Read Node
  | 0 => failure
  | fuel + 1 => do
    let t ← peek
    if let .reference name := t.kind then
      skip
      return ← aliased t.start name
    let p ← properties 2 {}
    let t ← peek
    let pos := p.start.getD t.start
    let name ← tagName p.tag
    let tag := explicitTag name
    match t.kind with
    | .scalar text style =>
      skip
      let n := Node.ofScalar pos tag text style
      setAnchor p.anchor (some n)
      return n
    | .flowSequenceStart =>
      skip
      setAnchor p.anchor none
      let n := Node.sequence pos (tag.getD .seq) (← flowSequence true fuel)
      closeAnchor p.anchor n
      return n
    | .flowMappingStart =>
      skip
      setAnchor p.anchor none
      let n := Node.mapping pos (tag.getD .map) (← flowMapping true fuel)
      closeAnchor p.anchor n
      return n
    | kind =>
      if kind == .blockEntry && indentless then
        setAnchor p.anchor none
        let n := Node.sequence pos (tag.getD .seq) (← indentlessSequence fuel)
        closeAnchor p.anchor n
        return n
      else if kind == .blockSequenceStart && block then
        skip
        setAnchor p.anchor none
        let n := Node.sequence pos (tag.getD .seq) (← blockSequence fuel)
        closeAnchor p.anchor n
        return n
      else if kind == .blockMappingStart && block then
        skip
        setAnchor p.anchor none
        let n := Node.mapping pos (tag.getD .map) (← blockMapping fuel)
        closeAnchor p.anchor n
        return n
      else if p.anchor.isSome || name.any (· != "") then
        let n := Node.ofScalar pos tag "" .plain
        setAnchor p.anchor (some n)
        return n
      else failure

def blockSequence : (fuel : Nat) → Read (List Node)
  | 0 => failure
  | fuel + 1 => do
    let t ← peek
    if t.kind == .blockEntry then
      skip
      let x ← if ← sees [.blockEntry, .blockEnd] then pure (Node.empty t.stop)
        else node true false fuel
      return x :: (← blockSequence fuel)
    else
      expect .blockEnd
      return []

/-- Reads the entries of a block sequence that is a value at the indentation of its key. -/
def indentlessSequence : (fuel : Nat) → Read (List Node)
  | 0 => failure
  | fuel + 1 => do
    let t ← peek
    if t.kind == .blockEntry then
      skip
      let x ← if ← sees [.blockEntry, .key, .value, .blockEnd] then pure (Node.empty t.stop)
        else node true false fuel
      return x :: (← indentlessSequence fuel)
    else return []

def blockMapping : (fuel : Nat) → Read (List Entry)
  | 0 => failure
  | fuel + 1 => do
    let t ← peek
    if t.kind == .key then
      skip
      let k ← if ← sees [.key, .value, .blockEnd] then pure (Node.empty t.stop)
        else node true true fuel
      let v ← blockValue fuel
      return .mk k v :: (← blockMapping fuel)
    else
      expect .blockEnd
      return []

/-- Reads the value of a block mapping, which may be left out. -/
def blockValue : (fuel : Nat) → Read Node
  | 0 => failure
  | fuel + 1 => do
    let t ← peek
    if t.kind == .value then
      skip
      if ← sees [.key, .value, .blockEnd] then return Node.empty t.stop
      node true true fuel
    else return Node.empty t.start

def flowSequence (first : Bool) : (fuel : Nat) → Read (List Node)
  | 0 => failure
  | fuel + 1 => do
    if ← sees [.flowSequenceEnd] then
      skip
      return []
    if !first then expect .flowEntry
    let t ← peek
    match t.kind with
    | .flowSequenceEnd =>
      skip
      return []
    | .key =>
      skip
      let e ← flowPair fuel
      let x := Node.mapping t.start .map [e]
      return x :: (← flowSequence false fuel)
    | _ =>
      let x ← node false false fuel
      return x :: (← flowSequence false fuel)

/-- Reads the only entry of a mapping without braces in a flow sequence. Where its key is left out,
the token in its place is passed. -/
def flowPair : (fuel : Nat) → Read Entry
  | 0 => failure
  | fuel + 1 => do
    let t ← peek
    let k ←
      if ← sees [.value, .flowEntry, .flowSequenceEnd] then do
        skip
        pure (Node.empty t.stop)
      else node false false fuel
    let t ← peek
    if t.kind == .value then
      skip
      if ← sees [.flowEntry, .flowSequenceEnd] then return .mk k (Node.empty t.start)
      return .mk k (← node false false fuel)
    else return .mk k (Node.empty t.start)

def flowMapping (first : Bool) : (fuel : Nat) → Read (List Entry)
  | 0 => failure
  | fuel + 1 => do
    if ← sees [.flowMappingEnd] then
      skip
      return []
    if !first then expect .flowEntry
    let t ← peek
    match t.kind with
    | .flowMappingEnd =>
      skip
      return []
    | .key =>
      skip
      let t ← peek
      let k ← if ← sees [.value, .flowEntry, .flowMappingEnd] then pure (Node.empty t.start)
        else node false false fuel
      let v ← flowValue fuel
      return .mk k v :: (← flowMapping false fuel)
    | _ =>
      let k ← node false false fuel
      let v := Node.empty (← peek).start
      return .mk k v :: (← flowMapping false fuel)

/-- Reads the value of a flow mapping, which may be left out. -/
def flowValue : (fuel : Nat) → Read Node
  | 0 => failure
  | fuel + 1 => do
    if ← sees [.value] then
      skip
      let t ← peek
      if ← sees [.flowEntry, .flowMappingEnd] then return Node.empty t.start
      node false false fuel
    else return Node.empty (← peek).start

end

/-! ## Documents -/

/-- The handles that every document knows. -/
def commonHandles : List (String × String) := [("!", "!"), ("!!", Tag.commonStart)]

/-- Reads directives: one version at most, which has to be 1.1, and no handle twice. -/
def directives : (fuel : Nat) → (versions : Nat) → Read Unit
  | 0, _ => return
  | fuel + 1, versions => do
    match (← peek).kind with
    | .version major minor =>
      if versions ≠ 0 || major ≠ 1 || minor ≠ 1 then failure
      skip
      directives fuel 1
    | .tagDirective handle uri =>
      if ((← get).handles.lookup handle).isSome then failure
      modify fun s => { s with handles := (handle, uri) :: s.handles }
      skip
      directives fuel versions
    | _ => return

/-- Whether the token at hand cannot belong to a document without a start. -/
def atDocumentEdge : Read Bool := do
  match (← peek).kind with
  | .version .. | .tagDirective .. | .documentStart | .documentEnd | .streamEnd => return true
  | _ => return false

/-- Reads the first document; there is none if the text holds no content. -/
def document (fuel : Nat) : Read (Option Node) := do
  match (← peek).kind with
  | .streamEnd => return none
  | .version .. | .tagDirective .. | .documentStart =>
    directives fuel 0
    expect .documentStart
    modify fun s => { s with handles := s.handles ++ commonHandles }
    let t ← peek
    let n ← if ← atDocumentEdge then pure (Node.empty t.start) else node true false fuel
    let _ ← peek
    return some n
  | _ =>
    modify fun s => { s with handles := commonHandles }
    let n ← node true false fuel
    let _ ← peek
    return some n

end Read

/-- The root of the first document of a text, if it has a document; `none` if the text is not well
formed. -/
def parse? (text : String) : Option (Option Node) :=
  let ts := Tokens.ofText text
  ((Read.document (4 * ts.tokens.size + 4)).run ts |>.run {}).map (·.1)

end ScriptMachine.Markup
