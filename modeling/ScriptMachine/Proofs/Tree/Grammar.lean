import ScriptMachine.Proofs.Results
import ScriptMachine.Proofs.Tree.Payloads

/-!
# The grammar of trees

Which markup nodes are read as trees. Every kind of node says in which role its payload stands: as a
text, a node, a list, or a mapping with fields that have roles of their own. `Accepted` is the
grammar that follows from this table, and `Decode.node` succeeds on what it accepts and on nothing
else:

1. every way to read a field succeeds just if the field is filled as its role says;
2. so every kind reads just the payloads that fill the role of the kind (`succeeds_ofKind?`);
3. the payload of a mapping is smaller than the mapping, which is the induction.
-/

namespace ScriptMachine.Grammar

open Markup (Entry value?)

/-! ## Roles -/

mutual

/-- How a part of a tree is written. -/
inductive Role where
  | text
  | node
  | list (item : Role)
  | fields (fs : List Field)
  /-- A line, or a mapping with a name or a line. -/
  | command

inductive Field where
  | required (name : String) (role : Role)
  | optional (name : String) (role : Role)

end

namespace Field

def name : Field → String
  | required name _ | optional name _ => name

def role : Field → Role
  | required _ role | optional _ role => role

def IsRequired : Field → Prop
  | required .. => True
  | optional .. => False

@[simp] theorem name_required {name role} : (required name role).name = name := rfl

@[simp] theorem name_optional {name role} : (optional name role).name = name := rfl

@[simp] theorem role_required {name role} : (required name role).role = role := rfl

@[simp] theorem role_optional {name role} : (optional name role).role = role := rfl

@[simp] theorem isRequired_required {name role} : (required name role).IsRequired := trivial

@[simp] theorem not_isRequired_optional {name role} : ¬ (optional name role).IsRequired := id

end Field

namespace Role

def func : Role :=
  fields [.required "name" text, .optional "params" (list text), .optional "body" node]

def call : Role := fields [.required "callee" node, .optional "args" (list node)]

def assign : Role := fields [.required "name" text, .optional "value" node]

def closure : Role :=
  fields [.optional "params" (list text), .optional "captures" (list text), .optional "body" node]

def binary : Role := fields [.required "left" node, .required "op" text, .required "right" node]

def arm : Role := fields [.required "pattern" node, .optional "body" node]

def choice : Role :=
  fields [.required "scrutinee" node, .optional "arms" (list arm), .optional "default" node]

def clause : Role :=
  fields [.optional "var" text, .optional "pattern" node, .optional "body" node]

def guarded : Role :=
  fields [.optional "body" node, .optional "catches" (list clause), .optional "finally" node]

/-- A command that is not a line. -/
def words : Role :=
  fields [.optional "name" text, .optional "args" (list node), .optional "line" text]

def invoke : Role := fields [.required "name" text, .optional "args" (list node)]

/-- The role of the payload of a kind. -/
def ofKind? : String → Option Role
  | "program" | "block" | "return" | "throw" => some node
  | "number" | "string" | "word" => some text
  | "func" => some func
  | "call" => some call
  | "assign" => some assign
  | "closure" => some closure
  | "binary" => some binary
  | "match" => some choice
  | "try" => some guarded
  | "command" => some command
  | "macro" => some invoke
  | _ => none

end Role

/-! ## The grammar -/

/-- A text that is not empty stands under a name. -/
def HasText (es : List Entry) (name : String) : Prop :=
  ∃ key pos tag text style,
    .mk key (.scalar pos tag text style) ∈ es ∧ key.name = name ∧ text ≠ ""

mutual

/-- The markup nodes that are nodes of a tree. -/
inductive Accepted : Markup.Node → Prop
  | scalar {pos tag text style} : Accepted (.scalar pos tag text style)
  | sequence {pos tag items} (items_accepted : ∀ n ∈ items, Accepted n) :
      Accepted (.sequence pos tag items)
  | kind {pos tag key payload role} (named : Role.ofKind? key.name = some role)
      (filled : Fills role payload) : Accepted (.mapping pos tag [.mk key payload])

/-- The markup nodes that stand in a role. -/
inductive Fills : Role → Markup.Node → Prop
  | text {pos tag text style} : Fills .text (.scalar pos tag text style)
  | node {n} (accepted : Accepted n) : Fills .node n
  | list {role pos tag items} (filled : ∀ n ∈ items, Fills role n) :
      Fills (.list role) (.sequence pos tag items)
  | fields {fs pos tag entries}
      (known : ∀ e ∈ entries, ∃ f ∈ fs, f.name = e.key.name)
      (filled : ∀ e ∈ entries, ∀ f ∈ fs, f.name = e.key.name → Fills f.role e.value)
      (complete : ∀ f ∈ fs, f.IsRequired → ∃ e ∈ entries, e.key.name = f.name) :
      Fills (.fields fs) (.mapping pos tag entries)
  | line {pos tag text style} : Fills .command (.scalar pos tag text style)
  | words {pos tag entries} (filled : Fills .words (.mapping pos tag entries))
      (named : HasText entries "name" ∨ HasText entries "line") :
      Fills .command (.mapping pos tag entries)

end

theorem accepted_sequence {pos tag items} :
    Accepted (.sequence pos tag items) ↔ ∀ n ∈ items, Accepted n :=
  ⟨fun | .sequence h => h, .sequence⟩

theorem accepted_mapping {pos tag key payload} :
    Accepted (.mapping pos tag [.mk key payload]) ↔
      ∃ role, Role.ofKind? key.name = some role ∧ Fills role payload :=
  ⟨fun | .kind named filled => ⟨_, named, filled⟩, fun ⟨_, named, filled⟩ => .kind named filled⟩

theorem fills_node {n : Markup.Node} : Fills .node n ↔ Accepted n :=
  ⟨fun | .node h => h, .node⟩

theorem fills_list {role : Role} {pos tag items} :
    Fills (.list role) (.sequence pos tag items) ↔ ∀ n ∈ items, Fills role n :=
  ⟨fun | .list h => h, .list⟩

/-- A field is filled if its value is, and if it is there when it is required. -/
structure Has (es : List Entry) (f : Field) : Prop where
  filled : ∀ v, value? es f.name = some v → Fills f.role v
  complete : f.IsRequired → (value? es f.name).isSome

/-- Under distinct keys a mapping has its fields one by one. -/
theorem fills_fields {fs : List Field} {pos tag} {es : List Entry} (hes : es.Pairwise Entry.Apart)
    (hfs : ∀ f ∈ fs, f.name ≠ "") :
    Fills (.fields fs) (.mapping pos tag es) ↔
      (∀ e ∈ es, e.key.name ∈ fs.map Field.name) ∧ ∀ f ∈ fs, Has es f := by
  simp only [List.mem_map]
  constructor
  · intro h
    cases h with
    | fields known filled complete =>
      refine ⟨known, fun f hf => ⟨fun v hv => ?_, fun hreq => ?_⟩⟩
      · obtain ⟨e, he, hname, rfl⟩ := Markup.mem_of_value? hv
        exact filled e he f hf hname.symm
      · exact Markup.isSome_value?.mpr (complete f hf hreq)
  · rintro ⟨known, has⟩
    refine .fields known (fun e he f hf hname => ?_) fun f hf hreq => ?_
    · have hvalue := Markup.value?_key hes he (hname ▸ hfs f hf)
      exact (has f hf).filled e.value (hname ▸ hvalue)
    · exact Markup.isSome_value?.mp ((has f hf).complete hreq)

/-! ## Reading fields -/

open Decode (payload)

variable {α : Type} {step : DecodeStep}

@[simp] theorem within_eq_ok {r : Decoded α} {a : α} : r.within step = .ok a ↔ r = .ok a := by
  cases r with
  | error e => exact iff_of_false (fun h => by cases h) (fun h => by cases h)
  | ok b => exact Iff.rfl

@[simp] theorem succeeds_within {r : Decoded α} : Succeeds (r.within step) ↔ Succeeds r := by
  simp [Succeeds]

theorem succeeds_within_bind {α β : Type} {r : Decoded α}
    {k : α → Decoded β} : Succeeds (r.within step >>= k) ↔ Succeeds (r >>= k) := by
  simp [succeeds_bind]

theorem succeeds_text {n : Markup.Node} {problem : DecodeProblem} :
    Succeeds ((payload n).text problem) ↔ Fills .text n := by
  cases n with
  | scalar => simpa [payload, Payload.text] using Fills.text
  | _ =>
    simp only [payload, Payload.text, not_succeeds_error, false_iff]
    exact fun h => by cases h

theorem succeeds_each {one : Nat → Payload → Decoded α} {all : Nat → List Payload → Decoded (List α)}
    (hall : Decode.ReadsEach one all) {ns : List Markup.Node} {P : Markup.Node → Prop}
    (h : ∀ n ∈ ns, ∀ i, (Succeeds (one i (payload n)) ↔ P n)) (i : Nat) :
    Succeeds (all i (ns.map payload)) ↔ ∀ n ∈ ns, P n := by
  induction ns generalizing i with
  | nil => simp [hall.nil]
  | cons n ns ih =>
    obtain ⟨hn, hns⟩ := List.forall_mem_cons.mp h
    simp [hall.cons, succeeds_bind, exists_eq_ok, hn, ih hns]

theorem succeeds_nodes (i : Nat) (ns : List Markup.Node) :
    Succeeds (Payload.nodes i (ns.map payload)) ↔ ∀ n ∈ ns, Succeeds (Decode.node n) :=
  succeeds_each Decode.readsEach_nodes (fun _ _ _ => succeeds_within) i

/-- A payload that is read as a sequence, each item in its role. -/
theorem succeeds_items {n : Markup.Node} {role : Role} {problem : DecodeProblem}
    {k : List Payload → Decoded α}
    (hk : ∀ pos tag items, n = .sequence pos tag items →
      (Succeeds (k (items.map payload)) ↔ ∀ m ∈ items, Fills role m)) :
    Succeeds ((payload n).items problem >>= k) ↔ Fills (.list role) n := by
  cases n with
  | sequence pos tag items =>
    rw [fills_list, ← hk pos tag items rfl, payload, Decode.payloads_eq]
    rfl
  | _ =>
    simp only [payload, Payload.items, succeeds_bind, reduceCtorEq, false_and, exists_false,
      false_iff]
    exact fun h => by cases h

theorem succeeds_fields_bind {pos tag} {es : List Entry} {known : List String}
    {k : Fields → Decoded α} :
    Succeeds ((payload (.mapping pos tag es)).fields known >>= k) ↔
      (∀ e ∈ es, e.key.name ∈ known) ∧ Succeeds (k (Decode.fields es)) := by
  simp [succeeds_bind, Decode.fields_mapping_eq_ok, and_assoc]

/-- What stands in `n` is read just if the grammar accepts it: the hypothesis of the induction. -/
structure Settled (n : Markup.Node) : Prop where
  distinct : n.DistinctKeys
  agrees : ∀ m, n.Holds m → (Succeeds (Decode.node m) ↔ Accepted m)

theorem Settled.of_holds {n m : Markup.Node} (h : Settled n) (hm : n.Holds m) : Settled m :=
  ⟨h.distinct.of_holds hm, fun l hl => h.agrees l (hm.trans hl)⟩

/-- The values of entries are settled. -/
def SettledValues (es : List Entry) : Prop := ∀ e ∈ es, Settled e.value

theorem Settled.values {n : Markup.Node} (hn : Settled n) {pos tag es}
    (h : n = .mapping pos tag es) : SettledValues es :=
  fun e he => hn.of_holds (h ▸ .value he (.self e.value))

/-- A payload that is read as a mapping, each field in its role. -/
theorem succeeds_fields {n : Markup.Node} {fs : List Field} {known : List String}
    {k : Fields → Decoded α} (hn : Settled n) (hfs : ∀ f ∈ fs, f.name ≠ "")
    (hknown : fs.map Field.name = known)
    (hk : ∀ es, SettledValues es → (Succeeds (k (Decode.fields es)) ↔ ∀ f ∈ fs, Has es f)) :
    Succeeds ((payload n).fields known >>= k) ↔ Fills (.fields fs) n := by
  cases n with
  | mapping pos tag es =>
    have hes := hn.distinct pos tag es (.self _)
    rw [succeeds_fields_bind, fills_fields hes hfs, ← hk es (hn.values rfl), hknown]
  | _ =>
    simp only [payload, Payload.fields, succeeds_bind, reduceCtorEq, false_and, exists_false,
      false_iff]
    exact fun h => by cases h

theorem SettledValues.value? {es : List Entry} (hes : SettledValues es) {name : String}
    {v : Markup.Node} (h : value? es name = some v) : Settled v := by
  obtain ⟨e, he, -, rfl⟩ := Markup.mem_of_value? h
  exact hes e he

theorem Settled.node {n : Markup.Node} (h : Settled n) :
    Succeeds (payload n).node ↔ Fills .node n :=
  (h.agrees n (.self n)).trans fills_node.symm

/-- What reads a field succeeds just if the field is filled. -/
theorem has_iff {es : List Entry} {f : Field} (name : String) (hname : f.name = name) {r : Decoded α}
    (hsome : ∀ v, value? es name = some v → (Succeeds r ↔ Fills f.role v))
    (hnone : value? es name = none → (Succeeds r ↔ ¬ f.IsRequired)) : Succeeds r ↔ Has es f := by
  subst hname
  cases h : value? es f.name with
  | none =>
    rw [hnone h]
    exact ⟨fun hopt => ⟨fun v hv => by simp [h] at hv, fun hreq => absurd hreq hopt⟩,
      fun hf hreq => by simpa [h] using hf.complete hreq⟩
  | some v =>
    rw [hsome v h]
    exact ⟨fun hv => ⟨fun w hw => Option.some.inj (h.symm.trans hw) ▸ hv, fun _ => by simp [h]⟩,
      fun hf => hf.filled v h⟩

section

open Decode (get?_fields)

variable {es : List Entry} (name : String)

theorem text_iff : Succeeds ((Decode.fields es).text name) ↔ Has es (.required name .text) := by
  refine has_iff name rfl (fun v h => ?_) fun h => ?_
  · simp [Fields.text, Fields.required, get?_fields, h, succeeds_bind, succeeds_text]
  · simp [Fields.text, Fields.required, Fields.missing, get?_fields, h, succeeds_bind]

theorem textD_iff : Succeeds ((Decode.fields es).textD name) ↔ Has es (.optional name .text) := by
  refine has_iff name rfl (fun v h => ?_) fun h => ?_
  · simp [Fields.textD, get?_fields, h, succeeds_text]
  · simp [Fields.textD, get?_fields, h]

theorem texts_iff :
    Succeeds ((Decode.fields es).texts name) ↔ Has es (.optional name (.list .text)) := by
  refine has_iff name rfl (fun v h => ?_) fun h => ?_
  · rw [Fields.texts, get?_fields, h]
    exact succeeds_items fun _ _ items _ => by simp [succeeds_mapM, succeeds_text]
  · simp [Fields.texts, get?_fields, h]

variable (hes : SettledValues es)

include hes

theorem node_iff : Succeeds ((Decode.fields es).node name) ↔ Has es (.required name .node) := by
  refine has_iff name rfl (fun v h => ?_) fun h => ?_
  · simp [Fields.node, Fields.required, get?_fields, h, succeeds_bind, (hes.value? h).node]
  · simp [Fields.node, Fields.required, Fields.missing, get?_fields, h, succeeds_bind]

theorem nodeD_iff (step : DecodeStep) :
    Succeeds ((Decode.fields es).nodeD name step) ↔ Has es (.optional name .node) := by
  refine has_iff name rfl (fun v h => ?_) fun h => ?_
  · simp [Fields.nodeD, get?_fields, h, (hes.value? h).node]
  · simp [Fields.nodeD, get?_fields, h]

/-- A sequence that may be left out, whose items are settled when they are read. -/
theorem parts_iff (role : Role) {α : Type} {read : List Payload → Decoded α} {absent : Decoded α}
    {problem : DecodeProblem} (habsent : Succeeds absent)
    (hread : ∀ ns : List Markup.Node, (∀ n ∈ ns, Settled n) →
      (Succeeds (read (ns.map payload)) ↔ ∀ n ∈ ns, Fills role n)) :
    Succeeds (match (Decode.fields es).get? name with
      | none => absent
      | some p => p.items problem >>= read) ↔ Has es (.optional name (.list role)) := by
  refine has_iff name rfl (fun v h => ?_) fun h => ?_
  · rw [get?_fields, h]
    refine succeeds_items fun _ _ items hseq => hread items fun m hm => ?_
    exact (hes.value? h).of_holds (hseq ▸ .item hm (.self m))
  · simp [get?_fields, h, habsent]

theorem nodes_iff :
    Succeeds ((Decode.fields es).nodes name) ↔ Has es (.optional name (.list .node)) := by
  refine has_iff name rfl (fun v h => ?_) fun h => ?_
  · rw [Fields.nodes, get?_fields, h]
    refine succeeds_items fun _ _ items hseq => ?_
    rw [succeeds_within, succeeds_nodes]
    exact forall₂_congr fun m hm => ((hes.value? h).of_holds (hseq ▸ .item hm (.self m))).node
  · simp [Fields.nodes, get?_fields, h]

end

/-! ## Reading kinds -/

section

variable {n : Markup.Node} (hn : Settled n) (pos : Position)

include hn

theorem succeeds_func : Succeeds (Decode.func pos (payload n)) ↔ Fills .func n :=
  succeeds_fields hn (by simp) rfl fun es hes => by
    simp [text_iff, texts_iff, nodeD_iff _ hes, succeeds_bind, exists_eq_ok]

theorem succeeds_call : Succeeds (Decode.call pos (payload n)) ↔ Fills .call n :=
  succeeds_fields hn (by simp) rfl fun es hes => by
    simp [node_iff _ hes, nodes_iff _ hes, succeeds_bind, exists_eq_ok]

theorem succeeds_assign : Succeeds (Decode.assign pos (payload n)) ↔ Fills .assign n :=
  succeeds_fields hn (by simp) rfl fun es hes => by
    simp [text_iff, nodeD_iff _ hes, succeeds_bind, exists_eq_ok]

theorem succeeds_closure : Succeeds (Decode.closure pos (payload n)) ↔ Fills .closure n :=
  succeeds_fields hn (by simp) rfl fun es hes => by
    simp [texts_iff, nodeD_iff _ hes, succeeds_bind, exists_eq_ok]

theorem succeeds_binary : Succeeds (Decode.binary pos (payload n)) ↔ Fills .binary n :=
  succeeds_fields hn (by simp) rfl fun es hes => by
    simp [text_iff, node_iff _ hes, succeeds_bind, exists_eq_ok, and_left_comm]

theorem succeeds_case (i : Nat) : Succeeds (Decode.case i (payload n)) ↔ Fills .arm n := by
  rw [Decode.case, succeeds_within_bind]
  exact succeeds_fields hn (by simp) rfl fun es hes => by
    simp [node_iff _ hes, nodeD_iff _ hes, succeeds_bind, exists_eq_ok]

theorem succeeds_choice : Succeeds (Decode.choice pos (payload n)) ↔ Fills .choice n :=
  succeeds_fields hn (by simp) rfl fun es hes => by
    refine (succeeds_bind_and fun _ => succeeds_bind_and fun _ =>
      parts_iff "arms" hes .arm (by simp) fun ns hns => ?_).trans ?_
    · have harms := succeeds_each Decode.readsEach_cases (fun m hm => succeeds_case (hns m hm)) 0
      simpa using harms
    · simp [node_iff _ hes, nodeD_iff _ hes, and_comm]

theorem succeeds_clause (i : Nat) : Succeeds (Decode.clause i (payload n)) ↔ Fills .clause n := by
  rw [Decode.clause, succeeds_within_bind]
  exact succeeds_fields hn (by simp) rfl fun es hes => by
    simp [textD_iff, nodeD_iff _ hes, succeeds_bind, exists_eq_ok]

theorem succeeds_guarded : Succeeds (Decode.guarded pos (payload n)) ↔ Fills .guarded n :=
  succeeds_fields hn (by simp) rfl fun es hes => by
    refine (succeeds_bind_and fun _ => succeeds_bind_and fun _ =>
      parts_iff "catches" hes .clause (by simp) fun ns hns => ?_).trans ?_
    · have hclauses := succeeds_each Decode.readsEach_clauses (fun m hm => succeeds_clause (hns m hm)) 0
      simpa using hclauses
    · simp [nodeD_iff _ hes, and_comm]

theorem succeeds_invoke : Succeeds (Decode.invoke pos (payload n)) ↔ Fills .invoke n :=
  succeeds_fields hn (by simp) rfl fun es hes => by
    simp [text_iff, nodes_iff _ hes, succeeds_bind, exists_eq_ok]

end

section

variable {es : List Entry} {name s : String}

theorem textD_eq_ok : (Decode.fields es).textD name = .ok s ↔
    value? es name = none ∧ s = "" ∨
      ∃ pos tag style, value? es name = some (.scalar pos tag s style) := by
  rw [Fields.textD, Decode.get?_fields]
  cases value? es name with
  | none => simp [eq_comm]
  | some v => cases v <;> simp [payload, Payload.text]

/-- The text that is read under a name is empty unless the entries have one. -/
theorem textD_ne_empty_iff (hes : es.Pairwise Entry.Apart) (hname : name ≠ "")
    (h : (Decode.fields es).textD name = .ok s) : s ≠ "" ↔ HasText es name := by
  constructor
  · intro hs
    obtain ⟨-, rfl⟩ | ⟨pos, tag, style, hvalue⟩ := textD_eq_ok.mp h
    · exact absurd rfl hs
    · obtain ⟨⟨key, _⟩, he, hkey, rfl⟩ := Markup.mem_of_value? hvalue
      exact ⟨key, pos, tag, s, style, he, hkey, hs⟩
  · rintro ⟨key, pos, tag, text, style, he, rfl, htext⟩
    have hvalue := Markup.value?_key hes he hname
    have hread := textD_eq_ok.mpr (.inr ⟨pos, tag, style, hvalue⟩)
    exact Except.ok.inj (h.symm.trans hread) ▸ htext

theorem not_both_empty_iff (hes : es.Pairwise Entry.Apart) {line : String}
    (hname : (Decode.fields es).textD "name" = .ok name)
    (hline : (Decode.fields es).textD "line" = .ok line) :
    ¬ (name = "" ∧ line = "") ↔ HasText es "name" ∨ HasText es "line" := by
  rw [← textD_ne_empty_iff hes (by simp) hname, ← textD_ne_empty_iff hes (by simp) hline]
  exact Decidable.not_and_iff_or_not

end

theorem fills_command {pos tag} {es : List Entry} :
    Fills .command (.mapping pos tag es) ↔
      Fills .words (.mapping pos tag es) ∧ (HasText es "name" ∨ HasText es "line") :=
  ⟨fun | .words filled named => ⟨filled, named⟩, fun ⟨filled, named⟩ => .words filled named⟩

/-- Of the two texts of a command at least one is not empty, which no other kind asks of a field. -/
theorem succeeds_command {n : Markup.Node} (hn : Settled n) (pos : Position) :
    Succeeds (Decode.command pos (payload n)) ↔ Fills .command n := by
  cases n with
  | scalar => simpa [payload, Decode.command] using Fills.line
  | mapping pos' tag es =>
    have hes := hn.distinct pos' tag es (.self _)
    have hvalues : SettledValues es := hn.values rfl
    change Succeeds ((payload (.mapping pos' tag es)).fields _ >>= _) ↔ _
    rw [succeeds_fields_bind, fills_command, Role.words, fills_fields hes (by simp)]
    simp only [List.forall_mem_cons, List.not_mem_nil, false_implies, implies_true, and_true,
      ← textD_iff, ← nodes_iff _ hvalues]
    constructor
    · rintro ⟨known, hbody⟩
      obtain ⟨name, hname, hbody⟩ := succeeds_bind.mp hbody
      obtain ⟨line, hline, hbody⟩ := succeeds_bind.mp hbody
      by_cases hempty : name = "" ∧ line = ""
      · simp [hempty, succeeds_bind] at hbody
      · have hargs : Succeeds ((Decode.fields es).nodes "args") := by simpa [hempty] using hbody
        have htext := (not_both_empty_iff hes hname hline).mp hempty
        exact ⟨⟨known, ⟨name, hname⟩, hargs, ⟨line, hline⟩⟩, htext⟩
    · rintro ⟨⟨known, ⟨name, hname⟩, hargs, ⟨line, hline⟩⟩, htext⟩
      have hempty := (not_both_empty_iff hes hname hline).mpr htext
      refine ⟨known, succeeds_bind.mpr ⟨name, hname, succeeds_bind.mpr ⟨line, hline, ?_⟩⟩⟩
      simpa [hempty] using hargs
  | _ =>
    simp only [payload, Decode.command, Payload.fields, succeeds_bind, reduceCtorEq, false_and,
      exists_false, false_iff]
    exact fun h => by cases h

/-! ## Reading nodes -/

theorem succeeds_list (n : Markup.Node) :
    Succeeds (payload n).list ↔ Succeeds (payload n).node := by
  cases n <;> simp [payload, Payload.list, Payload.node]

/-- A payload is read by its kind just if it stands in the role of the kind. -/
theorem succeeds_ofKind? {n : Markup.Node} (hn : Settled n) (pos : Position) (kind : String) :
    (∃ read, Decode.ofKind? pos kind = some read ∧ Succeeds (read (payload n))) ↔
      ∃ role, Role.ofKind? kind = some role ∧ Fills role n := by
  unfold Decode.ofKind?
  split
  case h_17 =>
    have hrole : Role.ofKind? kind = none := by
      unfold Role.ofKind?
      split <;> simp_all
    simp [hrole]
  all_goals
    simp [Role.ofKind?, succeeds_list, hn.node, Decode.leaf, succeeds_text, succeeds_func hn,
      succeeds_call hn, succeeds_assign hn, succeeds_closure hn, succeeds_binary hn,
      succeeds_choice hn, succeeds_guarded hn, succeeds_command hn, succeeds_invoke hn]

theorem succeeds_mapping {pos tag} {es : List Entry} (hes : SettledValues es) :
    Succeeds (Decode.node (.mapping pos tag es)) ↔ Accepted (.mapping pos tag es) := by
  rw [Decode.node, payload, Payload.node]
  rcases es with _ | ⟨⟨key, v⟩, _ | ⟨⟨key', v'⟩, es⟩⟩
  · simp only [Decode.fields, Decode.mapping, not_succeeds_error, false_iff]
    exact fun h => by cases h
  · have hv : Settled v := hes _ (.head _)
    rw [accepted_mapping, ← succeeds_ofKind? hv pos]
    cases h : Decode.ofKind? pos key.name with
    | none => simp [Decode.fields, Decode.mapping, h]
    | some read => simp [Decode.fields, Decode.mapping, h]
  · simp only [Decode.fields, Decode.mapping, not_succeeds_error, false_iff]
    exact fun h => by cases h

theorem succeeds_node_iff {n : Markup.Node} (hn : n.DistinctKeys) :
    Succeeds (Decode.node n) ↔ Accepted n := by
  match n, hn with
  | .scalar .., _ => exact iff_of_true succeeds_ok .scalar
  | .sequence pos tag items, hn =>
    have ih : ∀ m ∈ items, (Succeeds (Decode.node m) ↔ Accepted m) := fun m hm =>
      succeeds_node_iff (hn.of_holds (.item hm (.self m)))
    rw [accepted_sequence, Decode.node, payload, Payload.node, succeeds_map, Decode.payloads_eq,
      succeeds_nodes]
    exact forall₂_congr ih
  | .mapping pos tag es, hn =>
    refine succeeds_mapping fun e he => ?_
    have hvalue : (Markup.Node.mapping pos tag es).Holds e.value := .value he (.self e.value)
    -- a payload is read in depth, so the induction is needed for all that stands in it
    have ih : ∀ m, e.value.Holds m → (Succeeds (Decode.node m) ↔ Accepted m) := fun m hm =>
      succeeds_node_iff (hn.of_holds (hvalue.trans hm))
    exact ⟨hn.of_holds hvalue, ih⟩
  | .reference .., _ => exact iff_of_false not_succeeds_error fun h => by cases h
  | .loop .., _ => exact iff_of_false not_succeeds_error fun h => by cases h
termination_by sizeOf n
decreasing_by
  · exact Markup.Node.sizeOf_item_lt hm
  · exact Nat.lt_of_le_of_lt hm.sizeOf_le (Markup.Node.sizeOf_value_lt he)

/-! ## Aliases -/

section

variable {role : Role} {pos : Position} {tag : Markup.Tag}

theorem Fills.item {items : List Markup.Node} (h : Fills role (.sequence pos tag items))
    {m : Markup.Node} (hm : m ∈ items) : ∃ role, Fills role m := by
  cases h with
  | node accepted => exact ⟨.node, .node (accepted_sequence.mp accepted m hm)⟩
  | list filled => exact ⟨_, filled m hm⟩

theorem Fills.field {fs : List Field} {es : List Entry}
    (h : Fills (.fields fs) (.mapping pos tag es)) {e : Entry} (he : e ∈ es) :
    ∃ role, Fills role e.value := by
  cases h with
  | fields known filled complete =>
    obtain ⟨f, hf, hname⟩ := known e he
    exact ⟨f.role, filled e he f hf hname⟩

theorem Fills.value {es : List Entry} (h : Fills role (.mapping pos tag es)) {e : Entry}
    (he : e ∈ es) : ∃ role, Fills role e.value := by
  cases h with
  | node accepted =>
    cases accepted with
    | kind named filled =>
      obtain rfl := List.mem_singleton.mp he
      exact ⟨_, filled⟩
  | fields known filled complete =>
    have h : Fills _ (.mapping pos tag es) := .fields known filled complete
    exact h.field he
  | words filled named => exact filled.field he

theorem Fills.not_isAlias {n : Markup.Node} (h : Fills role n) : ¬ n.IsAlias := by
  cases n with
  | reference | loop =>
    cases h with
    | node accepted => cases accepted
  | _ => exact id

/-- What stands in a role, or in anything that does, is not an alias. -/
theorem Fills.not_isAlias_of_holds {n m : Markup.Node} (h : Fills role n) (hm : n.Holds m) :
    ¬ m.IsAlias := by
  induction hm generalizing role with
  | self => exact h.not_isAlias
  | item mem _ ih =>
    obtain ⟨role, h⟩ := h.item mem
    exact ih h
  | value mem _ ih =>
    obtain ⟨role, h⟩ := h.value mem
    exact ih h

end

/-- A markup node with distinct keys is read as a node of a tree just if the grammar accepts it, and
no alias stands in it then. -/
theorem node_reads_grammar {n : Markup.Node} (hn : n.DistinctKeys) :
    ((∃ x, Decode.node n = .ok x) ↔ Accepted n) ∧
      (Accepted n → ∀ m, n.Holds m → ¬ m.IsAlias) :=
  ⟨succeeds_node_iff hn, fun h _ hm => (Fills.node h).not_isAlias_of_holds hm⟩

/-- A scalar that is not quoted. -/
def plain (text : String) : Markup.Node := .scalar {} .str text .plain

/-- A guarded line with one clause, in which the fields stand out of order. -/
def guardedLine : Markup.Node :=
  .mapping {} .map [.mk (plain "try") (.mapping {} .map
    [.mk (plain "catches") (.sequence {} .seq [.mapping {} .map
      [.mk (plain "body") (plain "x"), .mk (plain "var") (plain "x")]]),
    .mk (plain "body") (.mapping {} .map [.mk (plain "command") (plain "ls")])])]

theorem guardedLine_distinctKeys : guardedLine.DistinctKeys := by
  simp [guardedLine, plain, Entry.Apart, Entry.key, Entry.value, Markup.Node.name]

theorem guardedLine_accepted : guardedLine.DistinctKeys ∧ Accepted guardedLine :=
  ⟨guardedLine_distinctKeys, (node_reads_grammar guardedLine_distinctKeys).1.mp ⟨_, rfl⟩⟩

end ScriptMachine.Grammar
