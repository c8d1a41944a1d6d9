import ScriptMachine.Proofs.Tree.Grammar

/-!
# Commands in trees

Where the commands of a tree come from, and which of them can be issued. A command needs a name or a
line that is not empty; if it is written as a mapping this is checked, if it is written as a line it
is not.

1. The parts of what a markup node is read as are absent, or they are read from markup in that node
   (`allGive_parts`), so all that a tree contains is (`sourced_of_contains`).
2. Of the kinds only `command` is read as a command, and an empty line is the one payload that gives
   it neither a name nor a line (`Formed`).
-/

namespace ScriptMachine

/-! ## Parts of trees -/

def Case.parts : Case → List Node
  | mk pattern body => [pattern, body]

def Clause.parts : Clause → List Node
  | mk _ pattern body => [pattern, body]

namespace Node

/-- The nodes right inside a node. -/
def parts : Node → List Node
  | absent | number .. | string .. | word .. | other .. => []
  | program _ xs | list _ xs | command _ _ xs _ | invoke _ _ xs => xs
  | func _ _ _ x | assign _ _ x | closure _ _ _ x | ret _ x | throw _ x => [x]
  | call _ callee xs => callee :: xs
  | binary _ left _ right => [left, right]
  | choice _ scrutinee cases default => scrutinee :: default :: cases.flatMap Case.parts
  | guarded _ body clauses cleanup => body :: cleanup :: clauses.flatMap Clause.parts

/-- `x.Contains y`: the node `y` is `x`, or it stands in it at some depth. -/
inductive Contains : Node → Node → Prop
  | self (x : Node) : Contains x x
  | part {x y z} (mem : y ∈ x.parts) (contains : Contains y z) : Contains x z

def isCommand : Node → Bool
  | command .. => true
  | _ => false

end Node

/-- A scalar without text. -/
def Markup.Node.IsEmptyText : Markup.Node → Prop
  | .scalar _ _ text _ => text = ""
  | _ => False

namespace Decode

open Markup (Entry)

/-- `y` is absent, or some markup in `n` is read as `y`. -/
def Sourced (n : Markup.Node) (y : Node) : Prop := y = .absent ∨ ∃ m, n.Holds m ∧ node m = .ok y

theorem Sourced.of_holds {n m : Markup.Node} {y : Node} (h : Sourced m y) (hm : n.Holds m) :
    Sourced n y := by
  obtain rfl | ⟨l, hl, hread⟩ := h
  · exact .inl rfl
  · exact .inr ⟨l, hm.trans hl, hread⟩

/-! ## Reading payloads -/

section

variable {α : Type} {n : Markup.Node} {P : α → Prop}

theorem allGive_within {r : Decoded α} {step : DecodeStep} (h : AllGive r P) :
    AllGive (r.within step) P :=
  fun a ha => h a (Grammar.within_eq_ok.mp ha)

theorem allGive_within_bind {β : Type} {r : Decoded β} {step : DecodeStep} {k : β → Decoded α}
    (h : AllGive (r >>= k) P) : AllGive (r.within step >>= k) P := by
  simpa only [AllGive, bind_eq_ok_iff, Grammar.within_eq_ok] using h

theorem allGive_node {m : Markup.Node} (hm : n.Holds m) : AllGive (payload m).node (Sourced n) :=
  fun _ hy => .inr ⟨m, hm, hy⟩

theorem allGive_each {one : Nat → Payload → Decoded α} {all : Nat → List Payload → Decoded (List α)}
    (hall : ReadsEach one all) {ns : List Markup.Node}
    (h : ∀ m ∈ ns, ∀ i, AllGive (one i (payload m)) P) (i : Nat) :
    AllGive (all i (ns.map payload)) fun as => ∀ a ∈ as, P a := by
  induction ns generalizing i with
  | nil =>
    rw [List.map_nil, hall.nil]
    exact allGive_ok (by simp)
  | cons m ns ih =>
    obtain ⟨hm, hns⟩ := List.forall_mem_cons.mp h
    rw [List.map_cons, hall.cons]
    exact (hm i).bind fun a ha => (ih hns (i + 1)).bind fun as has =>
      allGive_ok (List.forall_mem_cons.mpr ⟨ha, has⟩)

theorem allGive_nodes {ns : List Markup.Node} (h : ∀ m ∈ ns, n.Holds m) (i : Nat) :
    AllGive (Payload.nodes i (ns.map payload)) fun ys => ∀ y ∈ ys, Sourced n y :=
  allGive_each readsEach_nodes (fun m hm _ => allGive_within (allGive_node (h m hm))) i

theorem allGive_list : AllGive (payload n).list fun ys => ∀ y ∈ ys, Sourced n y := by
  have hone : AllGive ((payload n).node.map ([·])) fun ys => ∀ y ∈ ys, Sourced n y :=
    allGive_map ((allGive_node (.self n)).mono fun y hy => by simpa using hy)
  cases n with
  | sequence pos tag ns =>
    rw [payload, payloads_eq]
    exact allGive_nodes (fun m hm => .item hm (.self m)) 0
  | _ => exact hone

theorem allGive_items {problem : DecodeProblem} {k : List Payload → Decoded α}
    (hk : ∀ ns : List Markup.Node, (∀ m ∈ ns, n.Holds m) → AllGive (k (ns.map payload)) P) :
    AllGive ((payload n).items problem >>= k) P := by
  cases n with
  | sequence pos tag ns =>
    rw [payload, payloads_eq]
    exact hk ns fun m hm => .item hm (.self m)
  | _ => exact allGive_error

theorem allGive_fields {known : List String} {k : Fields → Decoded α}
    (hk : ∀ es : List Entry, (∀ e ∈ es, n.Holds e.value) → AllGive (k (fields es)) P) :
    AllGive ((payload n).fields known >>= k) P := by
  cases n with
  | mapping pos tag es =>
    refine allGive_bind fun fs hfs => ?_
    obtain ⟨rfl, -⟩ := fields_mapping_eq_ok.mp hfs
    exact hk es fun e he => .value he (.self e.value)
  | _ => exact allGive_error

end

section

variable {n : Markup.Node} {es : List Entry} (hes : ∀ e ∈ es, n.Holds e.value) (name : String)

include hes

theorem holds_get? {p : Payload} (h : (fields es).get? name = some p) :
    ∃ m, n.Holds m ∧ p = payload m := by
  rw [get?_fields] at h
  obtain ⟨v, hv, rfl⟩ := Option.map_eq_some_iff.mp h
  obtain ⟨e, he, -, rfl⟩ := Markup.mem_of_value? hv
  exact ⟨e.value, hes e he, rfl⟩

theorem allGive_fieldNode : AllGive ((fields es).node name) (Sourced n) := by
  unfold Fields.node Fields.required
  cases h : (fields es).get? name with
  | none => exact allGive_error
  | some p =>
    obtain ⟨m, hm, rfl⟩ := holds_get? hes name h
    exact allGive_within (allGive_node hm)

theorem allGive_fieldNodeD (step : DecodeStep) :
    AllGive ((fields es).nodeD name step) (Sourced n) := by
  unfold Fields.nodeD
  cases h : (fields es).get? name with
  | none => exact allGive_ok (.inl rfl)
  | some p =>
    obtain ⟨m, hm, rfl⟩ := holds_get? hes name h
    exact allGive_within (allGive_node hm)

theorem allGive_fieldNodes : AllGive ((fields es).nodes name) fun ys => ∀ y ∈ ys, Sourced n y := by
  unfold Fields.nodes
  cases h : (fields es).get? name with
  | none => exact allGive_ok (by simp)
  | some p =>
    obtain ⟨m, hm, rfl⟩ := holds_get? hes name h
    refine allGive_items fun ns hns => allGive_within (allGive_nodes (fun l hl => ?_) 0)
    exact hm.trans (hns l hl)

end

/-! ## Reading kinds -/

/-- What the payload `v` of a kind may be read as: a node whose parts come from the payload. It is a
command only if the kind is, and has then a name or a line unless the payload is an empty line. -/
structure Formed (kind : String) (pos : Position) (v : Markup.Node) (x : Node) : Prop where
  parts : ∀ y ∈ x.parts, Sourced v y
  command : ∀ p name args line, x = .command p name args line →
    kind = "command" ∧ p = pos ∧ (name ≠ "" ∨ line ≠ "" ↔ ¬ v.IsEmptyText)

section

variable {v : Markup.Node} {kind : String} {pos : Position}

theorem Formed.of_not_isCommand {x : Node} (hx : x.isCommand = false)
    (hparts : ∀ y ∈ x.parts, Sourced v y) : Formed kind pos v x :=
  ⟨hparts, fun _ _ _ _ h => by rw [h] at hx; cases hx⟩

theorem allGive_func : AllGive (func pos (payload v)) (Formed kind pos v) :=
  allGive_fields fun _ hes => allGive_bind fun _ _ => allGive_bind fun _ _ =>
    (allGive_fieldNodeD hes _ _).bind fun _ hbody =>
      allGive_ok (.of_not_isCommand rfl (by simpa [Node.parts] using hbody))

theorem allGive_call : AllGive (call pos (payload v)) (Formed kind pos v) :=
  allGive_fields fun _ hes => (allGive_fieldNode hes _).bind fun _ hcallee =>
    (allGive_fieldNodes hes _).bind fun _ hargs =>
      allGive_ok (.of_not_isCommand rfl (List.forall_mem_cons.mpr ⟨hcallee, hargs⟩))

theorem allGive_assign : AllGive (assign pos (payload v)) (Formed kind pos v) :=
  allGive_fields fun _ hes => allGive_bind fun _ _ =>
    (allGive_fieldNodeD hes _ _).bind fun _ hvalue =>
      allGive_ok (.of_not_isCommand rfl (by simpa [Node.parts] using hvalue))

theorem allGive_closure : AllGive (closure pos (payload v)) (Formed kind pos v) :=
  allGive_fields fun _ hes => allGive_bind fun _ _ => allGive_bind fun _ _ =>
    (allGive_fieldNodeD hes _ _).bind fun _ hbody =>
      allGive_ok (.of_not_isCommand rfl (by simpa [Node.parts] using hbody))

theorem allGive_binary : AllGive (binary pos (payload v)) (Formed kind pos v) :=
  allGive_fields fun _ hes => allGive_bind fun _ _ =>
    (allGive_fieldNode hes _).bind fun _ hleft => (allGive_fieldNode hes _).bind fun _ hright =>
      allGive_ok (.of_not_isCommand rfl (by simpa [Node.parts] using ⟨hleft, hright⟩))

theorem allGive_invoke : AllGive (invoke pos (payload v)) (Formed kind pos v) :=
  allGive_fields fun _ hes => allGive_bind fun _ _ =>
    (allGive_fieldNodes hes _).bind fun _ hargs => allGive_ok (.of_not_isCommand rfl hargs)

theorem allGive_case (i : Nat) : AllGive (case i (payload v)) fun c => ∀ y ∈ c.parts, Sourced v y :=
  allGive_within_bind <| allGive_fields fun _ hes =>
    (allGive_within (allGive_fieldNode hes _)).bind fun _ hpattern =>
      (allGive_fieldNodeD hes _ _).bind fun _ hbody =>
        allGive_ok (by simpa [Case.parts] using ⟨hpattern, hbody⟩)

theorem allGive_clause (i : Nat) :
    AllGive (clause i (payload v)) fun c => ∀ y ∈ c.parts, Sourced v y :=
  allGive_within_bind <| allGive_fields fun _ hes => allGive_bind fun _ _ =>
    (allGive_within (allGive_fieldNodeD hes _ _)).bind fun _ hpattern =>
      (allGive_fieldNodeD hes _ _).bind fun _ hbody =>
        allGive_ok (by simpa [Clause.parts] using ⟨hpattern, hbody⟩)

/-- The parts of a choice or of a guarded section. -/
theorem sourced_branches {α : Type} {as : List α} {parts : α → List Node} {x y : Node}
    (hx : Sourced v x) (hy : Sourced v y) (has : ∀ a ∈ as, ∀ z ∈ parts a, Sourced v z) :
    ∀ z ∈ x :: y :: as.flatMap parts, Sourced v z := by
  refine List.forall_mem_cons.mpr ⟨hx, List.forall_mem_cons.mpr ⟨hy, fun z hz => ?_⟩⟩
  obtain ⟨a, ha, hz⟩ := List.mem_flatMap.mp hz
  exact has a ha z hz

theorem allGive_choice : AllGive (choice pos (payload v)) (Formed kind pos v) :=
  allGive_fields fun es hes => (allGive_fieldNode hes _).bind fun scrutinee hscrutinee =>
    (allGive_fieldNodeD hes _ _).bind fun default hdefault => by
    cases h : (fields es).get? "arms" with
    | none => exact allGive_ok (.of_not_isCommand rfl (sourced_branches hscrutinee hdefault (by simp)))
    | some p =>
      obtain ⟨m, hm, rfl⟩ := holds_get? hes _ h
      refine allGive_items fun ns hns => AllGive.bind ?_ fun cs hcs =>
        allGive_ok (.of_not_isCommand rfl (sourced_branches hscrutinee hdefault hcs))
      refine allGive_each readsEach_cases (fun l hl i => ?_) 0
      exact (allGive_case i).mono fun c hc y hy => (hc y hy).of_holds (hm.trans (hns l hl))

theorem allGive_guarded : AllGive (guarded pos (payload v)) (Formed kind pos v) :=
  allGive_fields fun es hes => (allGive_fieldNodeD hes _ _).bind fun body hbody =>
    (allGive_fieldNodeD hes _ _).bind fun cleanup hcleanup => by
    cases h : (fields es).get? "catches" with
    | none => exact allGive_ok (.of_not_isCommand rfl (sourced_branches hbody hcleanup (by simp)))
    | some p =>
      obtain ⟨m, hm, rfl⟩ := holds_get? hes _ h
      refine allGive_items fun ns hns => AllGive.bind ?_ fun cs hcs =>
        allGive_ok (.of_not_isCommand rfl (sourced_branches hbody hcleanup hcs))
      refine allGive_each readsEach_clauses (fun l hl i => ?_) 0
      exact (allGive_clause i).mono fun c hc y hy => (hc y hy).of_holds (hm.trans (hns l hl))

/-- A line is taken as it is; a mapping is refused if it has neither a name nor a line. -/
theorem allGive_command : AllGive (command pos (payload v)) (Formed "command" pos v) := by
  cases v with
  | scalar p tag text style =>
    refine allGive_ok ⟨by simp [Node.parts], fun _ _ _ _ h => ?_⟩
    obtain ⟨rfl, rfl, -, rfl⟩ := Node.command.inj h
    simp [Markup.Node.IsEmptyText]
  | mapping p tag es =>
    refine allGive_fields fun es hes => allGive_bind fun name _ => allGive_bind fun line _ => ?_
    by_cases hempty : name = "" ∧ line = ""
    · simp only [hempty, and_self, if_true]
      exact allGive_error
    · simp only [hempty, if_false]
      refine (allGive_fieldNodes hes _).bind fun args hargs => allGive_ok ⟨hargs, fun _ _ _ _ h => ?_⟩
      obtain ⟨rfl, rfl, -, rfl⟩ := Node.command.inj h
      exact ⟨rfl, rfl, iff_of_true (Decidable.not_and_iff_or_not.mp hempty) id⟩
  | _ => exact allGive_error

theorem allGive_ofKind? :
    ∀ read ∈ ofKind? pos kind, AllGive (read (payload v)) (Formed kind pos v) := by
  have hpart : AllGive (payload v).node fun y => ∀ z ∈ [y], Sourced v z :=
    (allGive_node (.self v)).mono fun y hy => by simpa using hy
  unfold ofKind?
  split
  case h_17 => simp
  all_goals simp only [Option.mem_some_iff, forall_eq']
  case h_1 | h_2 => exact allGive_map (allGive_list.mono fun ys hys => .of_not_isCommand rfl hys)
  case h_3 => exact allGive_func
  case h_4 => exact allGive_call
  case h_5 | h_6 | h_7 =>
    exact allGive_map fun s _ => .of_not_isCommand rfl (by simp [Node.parts])
  case h_8 => exact allGive_assign
  case h_9 => exact allGive_closure
  case h_10 => exact allGive_binary
  case h_11 => exact allGive_choice
  case h_12 => exact allGive_guarded
  case h_13 | h_14 => exact allGive_map (hpart.mono fun y hy => .of_not_isCommand rfl hy)
  case h_15 => exact allGive_command
  case h_16 => exact allGive_invoke

end

/-! ## Reading nodes -/

theorem allGive_mapping (pos : Position) (tag : Markup.Tag) (es : List Entry) :
    AllGive (node (.mapping pos tag es)) fun x =>
      ∃ key v, es = [.mk key v] ∧ Formed key.name pos v x := by
  rw [node, payload, Payload.node]
  rcases es with _ | ⟨⟨key, v⟩, _ | ⟨⟨key', v'⟩, es⟩⟩
  · exact allGive_error
  · rw [fields, fields, mapping]
    cases hkind : ofKind? pos key.name with
    | none => exact allGive_error
    | some read =>
      exact allGive_within ((allGive_ofKind? read hkind).mono fun x hx => ⟨key, v, rfl, hx⟩)
  · exact allGive_error

theorem scalar_parts (pos : Position) (tag : Markup.Tag) (text : String) (quoted : Bool) :
    (scalar pos tag text quoted).parts = [] ∧ (scalar pos tag text quoted).isCommand = false := by
  unfold scalar
  split
  · exact ⟨rfl, rfl⟩
  · split <;> exact ⟨rfl, rfl⟩

theorem allGive_parts (n : Markup.Node) : AllGive (node n) fun x => ∀ y ∈ x.parts, Sourced n y := by
  cases n with
  | scalar pos tag text style =>
    refine allGive_ok ?_
    rw [(scalar_parts ..).1]
    simp
  | sequence pos tag ns =>
    rw [node, payload, payloads_eq]
    exact allGive_map (allGive_nodes (fun m hm => .item hm (.self m)) 0)
  | mapping pos tag es =>
    refine (allGive_mapping pos tag es).mono ?_
    rintro x ⟨key, v, rfl, hformed⟩ y hy
    exact (hformed.parts y hy).of_holds (.value (List.mem_singleton_self _) (.self v))
  | _ => exact allGive_error

/-- Whatever a tree contains is absent or read from markup in the node that the tree is read from. -/
theorem sourced_of_contains {n : Markup.Node} {x y : Node} (h : node n = .ok x)
    (hy : x.Contains y) : Sourced n y := by
  induction hy generalizing n with
  | self x => exact .inr ⟨n, .self n, h⟩
  | part mem contains ih =>
    obtain rfl | ⟨m, hm, hread⟩ := allGive_parts n _ h _ mem
    · cases contains with
      | self => exact .inl rfl
      | part mem' => cases mem'
    · exact (ih hread).of_holds hm

section

variable {n : Markup.Node} {pos : Position} {name line : String} {args : List Node}

theorem mapping_of_command (h : node n = .ok (.command pos name args line)) :
    ∃ tag key v, n = .mapping pos tag [.mk key v] ∧ key.name = "command" ∧
      (name ≠ "" ∨ line ≠ "" ↔ ¬ v.IsEmptyText) := by
  cases n with
  | scalar p tag text style =>
    have hscalar := (scalar_parts p tag text (style == .single || style == .double)).2
    rw [Except.ok.inj h] at hscalar
    cases hscalar
  | sequence p tag ns =>
    have hlist : AllGive (node (.sequence p tag ns)) fun x => x.isCommand = false :=
      allGive_map fun _ _ => rfl
    cases hlist _ h
  | mapping p tag es =>
    obtain ⟨key, v, rfl, hformed⟩ := allGive_mapping p tag es _ h
    obtain ⟨hkind, rfl, hrunnable⟩ := hformed.command _ _ _ _ rfl
    exact ⟨tag, key, v, rfl, hkind, hrunnable⟩
  | _ => cases h

/-- Every command in a tree that is read comes from a mapping in the markup with the key `command`,
at the command's place, and it has a name or a line just if the payload is not an empty line. -/
theorem runnable_iff_of_contains {x : Node} (h : node n = .ok x)
    (hc : x.Contains (.command pos name args line)) :
    ∃ tag key v, n.Holds (.mapping pos tag [.mk key v]) ∧ key.name = "command" ∧
      node (.mapping pos tag [.mk key v]) = .ok (.command pos name args line) ∧
      (name ≠ "" ∨ line ≠ "" ↔ ¬ v.IsEmptyText) := by
  obtain habsent | ⟨m, hm, hread⟩ := sourced_of_contains h hc
  · cases habsent
  · obtain ⟨tag, key, v, rfl, hkey, hrunnable⟩ := mapping_of_command hread
    exact ⟨tag, key, v, hm, hkey, hread, hrunnable⟩

end

/-- Two commands, one written as a mapping and one as a line. -/
def bothForms : Markup.Node :=
  .sequence ⟨1, 1⟩ .seq
    [.mapping ⟨1, 3⟩ .map [.mk (Grammar.plain "command")
      (.mapping ⟨1, 12⟩ .map [.mk (Grammar.plain "line") (Grammar.plain "ls")])],
    .mapping ⟨2, 3⟩ .map [.mk (Grammar.plain "command") (Grammar.plain "pwd")]]

/-- The tree of `bothForms`. -/
def bothCommands : Node := .list ⟨1, 1⟩ [.command ⟨1, 3⟩ "" [] "ls", .command ⟨2, 3⟩ "" [] "pwd"]

theorem bothCommands_contains : bothCommands.Contains (.command ⟨2, 3⟩ "" [] "pwd") :=
  .part (.tail _ (.head _)) (.self _)

theorem bothForms_runnable_iff : node bothForms = .ok bothCommands ∧
    ∃ tag key v, bothForms.Holds (.mapping ⟨2, 3⟩ tag [.mk key v]) ∧ key.name = "command" ∧
      node (.mapping ⟨2, 3⟩ tag [.mk key v]) = .ok (.command ⟨2, 3⟩ "" [] "pwd") ∧
      ("" ≠ "" ∨ "pwd" ≠ "" ↔ ¬ v.IsEmptyText) :=
  ⟨rfl, runnable_iff_of_contains rfl bothCommands_contains⟩

/-- A command that is written as an empty line. -/
def emptyLine : Markup.Node :=
  .mapping ⟨1, 3⟩ .map
    [.mk (.scalar ⟨1, 3⟩ .str "command" .plain) (.scalar ⟨1, 12⟩ .str "" .single)]

/-- An empty line is read as a command with neither a name nor a line. -/
theorem emptyLine_not_runnable : node emptyLine = .ok (.command ⟨1, 3⟩ "" [] "") ∧
    ¬ ∀ n x, node n = .ok x → ∀ pos name args line,
      x.Contains (.command pos name args line) → name ≠ "" ∨ line ≠ "" := by
  refine ⟨rfl, fun h => ?_⟩
  have hrunnable := h emptyLine _ rfl ⟨1, 3⟩ "" [] "" (.self _)
  simp at hrunnable

end Decode

end ScriptMachine
