import Mathlib.Data.List.Forall2
import ScriptMachine.Proofs.Tree.Grammar

/-!
# The order of fields

Markup nodes that differ in nothing but the order of the entries of their mappings, at any depth, are
read as the same tree, or neither of them is read.

1. Under distinct keys an entry is found by its name wherever it stands (`value?_perm`), and what is
   found in both nodes differs in order only (`value?_reordered`).
2. So every way to read a field has the same result for both (`TwinEntries`), and so has every kind
   (`sameResult_ofKind?`), whose fields are read in an order of its own.
3. The induction is on the size of the node: a kind is read in depth, so it is needed for all that
   stands in the payload (`Twins`).
-/

namespace ScriptMachine

theorem SameResult.mapM {ε α β : Type} {f f' : α → Except ε β} {as as' : List α}
    (h : List.Forall₂ (fun a a' => SameResult (f a) (f' a')) as as') :
    SameResult (as.mapM f) (as'.mapM f') := by
  induction h with
  | nil => exact .refl _
  | cons ha _ ih =>
    rw [List.mapM_cons, List.mapM_cons]
    exact ha.bind fun b => ih.bind fun bs => .refl _

/-- What relates the elements of two lists may depend on their being there. -/
theorem forall₂_of_mem {α β : Type} {R S : α → β → Prop} {as : List α} {bs : List β}
    (h : List.Forall₂ R as bs) (hRS : ∀ a ∈ as, ∀ b, R a b → S a b) : List.Forall₂ S as bs :=
  ((List.forall₂_and_left as bs).mpr ⟨hRS, h⟩).imp fun _ b hab => hab.1 b hab.2

namespace Markup

/-! ## Nodes in another order -/

mutual

/-- `n.Reordered m`: the node `m` is `n`, except that the entries of mappings may stand in another
order, at any depth. Every node keeps its place. -/
inductive Node.Reordered : Node → Node → Prop
  | scalar {pos tag text style} :
      Node.Reordered (.scalar pos tag text style) (.scalar pos tag text style)
  | sequence {pos tag items items'} (items_reordered : List.Forall₂ Node.Reordered items items') :
      Node.Reordered (.sequence pos tag items) (.sequence pos tag items')
  | mapping {pos tag entries between entries'} (perm : entries.Perm between)
      (entries_reordered : List.Forall₂ Entry.Reordered between entries') :
      Node.Reordered (.mapping pos tag entries) (.mapping pos tag entries')
  | reference {pos name target target'} (target_reordered : Node.Reordered target target') :
      Node.Reordered (.reference pos name target) (.reference pos name target')
  | loop {pos name} : Node.Reordered (.loop pos name) (.loop pos name)

/-- An entry whose key and value are reordered. -/
inductive Entry.Reordered : Entry → Entry → Prop
  | mk {key key' value value'} (key_reordered : Node.Reordered key key')
      (value_reordered : Node.Reordered value value') :
      Entry.Reordered (.mk key value) (.mk key' value')

end

theorem Node.Reordered.name_eq {n m : Node} (h : n.Reordered m) : n.name = m.name := by
  cases h <;> rfl

namespace Entry.Reordered

variable {e e' : Entry}

theorem name_eq (h : e.Reordered e') : e.key.name = e'.key.name := by
  cases h with
  | mk hkey _ => exact hkey.name_eq

theorem value (h : e.Reordered e') : e.value.Reordered e'.value := by
  cases h with
  | mk _ hvalue => exact hvalue

end Entry.Reordered

section

variable {es es' : List Entry} {name : String}

theorem value?_eq_some_iff (h : es.Pairwise Entry.Apart) (hname : name ≠ "") {v : Node} :
    value? es name = some v ↔ ∃ e ∈ es, e.key.name = name ∧ e.value = v := by
  refine ⟨mem_of_value?, ?_⟩
  rintro ⟨e, he, rfl, rfl⟩
  exact value?_key h he hname

/-- Under distinct keys the order of entries does not matter. -/
theorem value?_perm (h : es.Pairwise Entry.Apart) (hperm : es.Perm es') (hname : name ≠ "") :
    value? es name = value? es' name := by
  have h' : es'.Pairwise Entry.Apart := hperm.pairwise h (Std.Symm.symm _ _)
  ext v
  rw [value?_eq_some_iff h hname, value?_eq_some_iff h' hname]
  simp only [hperm.mem_iff]

theorem value?_reordered (h : List.Forall₂ Entry.Reordered es es') (name : String) :
    value? es name = none ∧ value? es' name = none ∨
      ∃ v v', value? es name = some v ∧ value? es' name = some v' ∧ v.Reordered v' := by
  unfold value?
  have hrev := List.rel_reverse h
  generalize es.reverse = fs at hrev
  generalize es'.reverse = fs' at hrev
  induction hrev with
  | nil => exact .inl ⟨rfl, rfl⟩
  | @cons e e' fs fs' he _ ih =>
    rw [List.find?_cons, List.find?_cons, he.name_eq]
    cases e'.key.name == name with
    | true => exact .inr ⟨e.value, e'.value, rfl, rfl, he.value⟩
    | false => exact ih

theorem forall_name_iff (h : List.Forall₂ Entry.Reordered es es') (P : String → Prop) :
    (∀ e ∈ es, P e.key.name) ↔ ∀ e ∈ es', P e.key.name := by
  induction h with
  | nil => simp
  | cons he _ ih => simp only [List.forall_mem_cons, he.name_eq, ih]

end

end Markup

namespace Decode

open Markup (Entry)

/-! ## Twins -/

/-- `m` is `n` in another order, and all that stands in `n` is read in another order with the same
result: the hypothesis of the induction. -/
structure Twins (n m : Markup.Node) : Prop where
  distinct : n.DistinctKeys
  reordered : n.Reordered m
  same : ∀ n' m', n.Holds n' → n'.Reordered m' → SameResult (node n') (node m')

/-- Entries with the same names, under which stand twins. -/
structure TwinEntries (es es' : List Entry) : Prop where
  known_iff : ∀ known : List String,
    (∀ e ∈ es, e.key.name ∈ known) ↔ ∀ e ∈ es', e.key.name ∈ known
  get? : ∀ {name}, name ≠ "" → (fields es).get? name = none ∧ (fields es').get? name = none ∨
    ∃ v v', (fields es).get? name = some (payload v) ∧ (fields es').get? name = some (payload v') ∧
      Twins v v'

namespace Twins

variable {n m n' m' : Markup.Node} {pos pos' : Position} {tag tag' : Markup.Tag}

theorem of_holds (h : Twins n m) (hn : n.Holds n') (hm : n'.Reordered m') : Twins n' m' :=
  ⟨h.distinct.of_holds hn, hm, fun l l' hl => h.same l l' (hn.trans hl)⟩

theorem items {ns ms : List Markup.Node} (h : Twins (.sequence pos tag ns) (.sequence pos' tag' ms)) :
    List.Forall₂ Twins ns ms := by
  cases h.reordered with
  | sequence items_reordered =>
    exact forall₂_of_mem items_reordered fun n hn m => h.of_holds (.item hn (.self n))

theorem entries {es es' : List Entry} (h : Twins (.mapping pos tag es) (.mapping pos' tag' es')) :
    TwinEntries es es' := by
  cases h.reordered with
  | @mapping _ _ _ between _ perm entries_reordered =>
    refine ⟨fun known => ?_, fun {name} hname => ?_⟩
    · rw [← Markup.forall_name_iff entries_reordered (· ∈ known)]
      simp only [perm.mem_iff]
    · have hdistinct := h.distinct _ _ _ (.self _)
      have hvalues := Markup.value?_reordered entries_reordered name
      rw [← Markup.value?_perm hdistinct perm hname] at hvalues
      rw [get?_fields, get?_fields]
      obtain ⟨hv, hv'⟩ | ⟨v, v', hv, hv', hvv'⟩ := hvalues
      · exact .inl ⟨by rw [hv, Option.map_none], by rw [hv', Option.map_none]⟩
      · obtain ⟨e, he, -, rfl⟩ := Markup.mem_of_value? hv
        have htwins := h.of_holds (.value he (.self e.value)) hvv'
        exact .inr ⟨e.value, v', by rw [hv, Option.map_some], by rw [hv', Option.map_some], htwins⟩

end Twins

/-! ## Reading payloads -/

section

variable {α β : Type} {r r' : Decoded α} (step : DecodeStep)

theorem sameResult_within (h : SameResult r r') : SameResult (r.within step) (r'.within step) := by
  cases h with
  | ok a => exact .ok a
  | error e e' => exact .error _ _

theorem sameResult_within_bind {k k' : α → Decoded β} (h : SameResult (r >>= k) (r' >>= k')) :
    SameResult (r.within step >>= k) (r'.within step >>= k') := by
  simpa only [sameResult_iff, bind_eq_ok_iff, Grammar.within_eq_ok] using h

end

section

variable {α : Type} {n m : Markup.Node} (h : Twins n m)

include h

theorem Twins.node : SameResult (payload n).node (payload m).node :=
  h.same n m (.self n) h.reordered

theorem Twins.text (problem : DecodeProblem) :
    SameResult ((payload n).text problem) ((payload m).text problem) := by
  cases h.reordered with
  | scalar => exact .ok _
  | _ => exact .error _ _

theorem sameResult_items {problem : DecodeProblem} {k : List Payload → Decoded α}
    (hk : ∀ ns ms, List.Forall₂ Twins ns ms →
      SameResult (k (ns.map payload)) (k (ms.map payload))) :
    SameResult ((payload n).items problem >>= k) ((payload m).items problem >>= k) := by
  cases h.reordered with
  | sequence =>
    rw [payload, payload, payloads_eq, payloads_eq]
    exact hk _ _ h.items
  | _ => exact .error _ _

theorem sameResult_fields {known : List String} {k : Fields → Decoded α}
    (hk : ∀ es es', TwinEntries es es' → SameResult (k (fields es)) (k (fields es'))) :
    SameResult ((payload n).fields known >>= k) ((payload m).fields known >>= k) := by
  cases h.reordered with
  | @mapping pos tag es _ es' =>
    have hes := h.entries
    by_cases hknown : ∀ e ∈ es, e.key.name ∈ known
    · rw [fields_mapping_eq_ok.mpr ⟨rfl, hknown⟩,
        fields_mapping_eq_ok.mpr ⟨rfl, (hes.known_iff known).mp hknown⟩]
      exact hk es es' hes
    · -- both have a field that is not known, maybe not the same one first
      refine sameResult_of_not_succeeds ?_ ?_
      · exact fun hread => hknown (Grammar.succeeds_fields_bind.mp hread).1
      · exact fun hread => hknown ((hes.known_iff known).mpr (Grammar.succeeds_fields_bind.mp hread).1)
  | _ => exact .error _ _

end

theorem sameResult_each {α : Type} {one : Nat → Payload → Decoded α}
    {all : Nat → List Payload → Decoded (List α)} (hall : ReadsEach one all) {ns ms : List Markup.Node}
    (h : List.Forall₂ (fun n m => ∀ i, SameResult (one i (payload n)) (one i (payload m))) ns ms)
    (i : Nat) : SameResult (all i (ns.map payload)) (all i (ms.map payload)) := by
  induction h generalizing i with
  | nil =>
    rw [List.map_nil, hall.nil]
    exact .ok []
  | cons hone _ ih =>
    rw [List.map_cons, List.map_cons, hall.cons, hall.cons]
    exact (hone i).bind fun a => (ih (i + 1)).bind fun as => .refl _

theorem sameResult_nodes (i : Nat) {ns ms : List Markup.Node}
    (h : List.Forall₂ (fun n m => SameResult (node n) (node m)) ns ms) :
    SameResult (Payload.nodes i (ns.map payload)) (Payload.nodes i (ms.map payload)) :=
  sameResult_each readsEach_nodes (h.imp fun _ _ hnode i => sameResult_within (.item i) hnode) i

theorem sameResult_list {n m : Markup.Node} (h : Twins n m) :
    SameResult (payload n).list (payload m).list := by
  cases h.reordered with
  | sequence =>
    rw [payload, payload, payloads_eq, payloads_eq]
    exact sameResult_nodes 0 (h.items.imp fun _ _ hnm => hnm.node)
  | _ => exact h.node.map ([·])

namespace TwinEntries

variable {es es' : List Entry} (h : TwinEntries es es') {name : String} (hname : name ≠ "")

include h hname

/-- A field is missing in both mappings, or its values in both are twins. -/
@[elab_as_elim]
theorem get?_cases {motive : Option Payload → Option Payload → Prop} (missing : motive none none)
    (present : ∀ v v', Twins v v' → motive (some (payload v)) (some (payload v'))) :
    motive ((fields es).get? name) ((fields es').get? name) := by
  obtain ⟨hv, hv'⟩ | ⟨v, v', hv, hv', htwins⟩ := h.get? hname
  · rw [hv, hv']
    exact missing
  · rw [hv, hv']
    exact present v v' htwins

theorem text : SameResult ((fields es).text name) ((fields es').text name) := by
  unfold Fields.text Fields.required
  exact h.get?_cases hname (.refl _) fun _ _ htwins => htwins.text _

theorem textD : SameResult ((fields es).textD name) ((fields es').textD name) := by
  unfold Fields.textD
  exact h.get?_cases hname (.refl _) fun _ _ htwins => htwins.text _

theorem texts : SameResult ((fields es).texts name) ((fields es').texts name) := by
  unfold Fields.texts
  refine h.get?_cases hname (.refl _) fun _ _ htwins =>
    sameResult_items htwins fun ns ms hns => .mapM ?_
  rw [List.forall₂_map_left_iff, List.forall₂_map_right_iff]
  exact hns.imp fun _ _ hnm => hnm.text _

theorem node : SameResult ((fields es).node name) ((fields es').node name) := by
  unfold Fields.node Fields.required
  exact h.get?_cases hname (.refl _) fun _ _ htwins => sameResult_within _ htwins.node

theorem nodeD (step : DecodeStep) :
    SameResult ((fields es).nodeD name step) ((fields es').nodeD name step) := by
  unfold Fields.nodeD
  exact h.get?_cases hname (.refl _) fun _ _ htwins => sameResult_within _ htwins.node

theorem nodes : SameResult ((fields es).nodes name) ((fields es').nodes name) := by
  unfold Fields.nodes
  refine h.get?_cases hname (.refl _) fun _ _ htwins =>
    sameResult_items htwins fun ns ms hns => sameResult_within _ (sameResult_nodes 0 ?_)
  exact hns.imp fun _ _ hnm => hnm.node

end TwinEntries

/-! ## Reading kinds -/

section

variable {n m : Markup.Node} (h : Twins n m) (pos : Position)

include h

theorem sameResult_func : SameResult (func pos (payload n)) (func pos (payload m)) :=
  sameResult_fields h fun _ _ hes =>
    (hes.text (by simp)).bind fun _ => (hes.texts (by simp)).bind fun _ =>
      (hes.nodeD (by simp) _).bind fun _ => .refl _

theorem sameResult_call : SameResult (call pos (payload n)) (call pos (payload m)) :=
  sameResult_fields h fun _ _ hes =>
    (hes.node (by simp)).bind fun _ => (hes.nodes (by simp)).bind fun _ => .refl _

theorem sameResult_assign : SameResult (assign pos (payload n)) (assign pos (payload m)) :=
  sameResult_fields h fun _ _ hes =>
    (hes.text (by simp)).bind fun _ => (hes.nodeD (by simp) _).bind fun _ => .refl _

theorem sameResult_closure : SameResult (closure pos (payload n)) (closure pos (payload m)) :=
  sameResult_fields h fun _ _ hes =>
    (hes.texts (by simp)).bind fun _ => (hes.texts (by simp)).bind fun _ =>
      (hes.nodeD (by simp) _).bind fun _ => .refl _

theorem sameResult_binary : SameResult (binary pos (payload n)) (binary pos (payload m)) :=
  sameResult_fields h fun _ _ hes =>
    (hes.text (by simp)).bind fun _ => (hes.node (by simp)).bind fun _ =>
      (hes.node (by simp)).bind fun _ => .refl _

theorem sameResult_invoke : SameResult (invoke pos (payload n)) (invoke pos (payload m)) :=
  sameResult_fields h fun _ _ hes =>
    (hes.text (by simp)).bind fun _ => (hes.nodes (by simp)).bind fun _ => .refl _

theorem sameResult_case (i : Nat) : SameResult (case i (payload n)) (case i (payload m)) :=
  sameResult_within_bind _ <| sameResult_fields h fun _ _ hes =>
    (sameResult_within _ (hes.node (by simp))).bind fun _ =>
      (hes.nodeD (by simp) _).bind fun _ => .refl _

theorem sameResult_clause (i : Nat) : SameResult (clause i (payload n)) (clause i (payload m)) :=
  sameResult_within_bind _ <| sameResult_fields h fun _ _ hes =>
    (sameResult_within _ (hes.textD (by simp))).bind fun _ =>
      (sameResult_within _ (hes.nodeD (by simp) _)).bind fun _ =>
        (hes.nodeD (by simp) _).bind fun _ => .refl _

theorem sameResult_choice : SameResult (choice pos (payload n)) (choice pos (payload m)) :=
  sameResult_fields h fun _ _ hes =>
    (hes.node (by simp)).bind fun _ => (hes.nodeD (by simp) _).bind fun _ => by
    refine hes.get?_cases (show "arms" ≠ "" by simp) (.refl _) fun _ _ htwins =>
      sameResult_items htwins fun ns ms hns => .bind ?_ fun _ => .refl _
    exact sameResult_each readsEach_cases (hns.imp fun _ _ hnm => sameResult_case hnm) 0

theorem sameResult_guarded : SameResult (guarded pos (payload n)) (guarded pos (payload m)) :=
  sameResult_fields h fun _ _ hes =>
    (hes.nodeD (by simp) _).bind fun _ => (hes.nodeD (by simp) _).bind fun _ => by
    refine hes.get?_cases (show "catches" ≠ "" by simp) (.refl _) fun _ _ htwins =>
      sameResult_items htwins fun ns ms hns => .bind ?_ fun _ => .refl _
    exact sameResult_each readsEach_clauses (hns.imp fun _ _ hnm => sameResult_clause hnm) 0

theorem sameResult_command : SameResult (command pos (payload n)) (command pos (payload m)) := by
  cases h.reordered with
  | scalar => exact .ok _
  | mapping =>
    refine sameResult_fields h fun _ _ hes =>
      (hes.textD (by simp)).bind fun name => (hes.textD (by simp)).bind fun line => ?_
    by_cases hempty : name = "" ∧ line = ""
    · simp only [hempty, and_self, if_true]
      exact .error _ _
    · simp only [hempty, if_false]
      exact (hes.nodes (by simp)).bind fun _ => .refl _
  | _ => exact .error _ _

theorem sameResult_ofKind? (kind : String) :
    ∀ read ∈ ofKind? pos kind, SameResult (read (payload n)) (read (payload m)) := by
  unfold ofKind?
  split
  case h_17 => simp
  all_goals simp only [Option.mem_some_iff, forall_eq']
  case h_1 | h_2 => exact (sameResult_list h).map _
  case h_3 => exact sameResult_func h pos
  case h_4 => exact sameResult_call h pos
  case h_5 | h_6 | h_7 => exact (h.text _).map _
  case h_8 => exact sameResult_assign h pos
  case h_9 => exact sameResult_closure h pos
  case h_10 => exact sameResult_binary h pos
  case h_11 => exact sameResult_choice h pos
  case h_12 => exact sameResult_guarded h pos
  case h_13 | h_14 => exact h.node.map _
  case h_15 => exact sameResult_command h pos
  case h_16 => exact sameResult_invoke h pos

end

/-! ## Reading nodes -/

theorem mapping_eq_error {pos : Position} {fs : Fields} (h : fs.length ≠ 1) :
    mapping pos fs = .error (.here pos (.keyCount fs.length)) := by
  rcases fs with _ | ⟨f, _ | ⟨f', fs⟩⟩
  · rfl
  · exact absurd rfl h
  · rfl

/-- Only a mapping with one key is a node, and one entry has one order. -/
theorem sameResult_mapping (pos : Position) {es between es' : List Entry} (perm : es.Perm between)
    (entries_reordered : List.Forall₂ Entry.Reordered between es')
    (htwins : ∀ e ∈ es, ∀ m, e.value.Reordered m → Twins e.value m) :
    SameResult (mapping pos (fields es)) (mapping pos (fields es')) := by
  have hlength : es.length = es'.length := perm.length_eq.trans entries_reordered.length_eq
  by_cases hone : es.length = 1
  · obtain ⟨e, rfl⟩ := List.length_eq_one_iff.mp hone
    obtain rfl := List.singleton_perm.mp perm
    obtain ⟨e', rfl⟩ := List.length_eq_one_iff.mp (hlength.symm.trans hone)
    have he : e.Reordered e' := (List.forall₂_cons.mp entries_reordered).1
    have hvalue : Twins e.value e'.value := htwins e (List.mem_singleton_self e) _ he.value
    rw [fields_eq, fields_eq, List.map_singleton, List.map_singleton, mapping, mapping, he.name_eq]
    cases hkind : ofKind? pos e'.key.name with
    | none => exact .error _ _
    | some read => exact sameResult_within _ (sameResult_ofKind? hvalue pos _ read hkind)
  · have hfields : ∀ fs : List Entry, (fields fs).length = fs.length := by simp [fields_eq]
    rw [mapping_eq_error (by rwa [hfields]), mapping_eq_error (by rwa [hfields, ← hlength])]
    exact .error _ _

/-- The order of entries never matters: nodes with distinct keys that differ in nothing else, at any
depth, are read as the very same tree with the very same places, or neither is read. -/
theorem node_sameResult_of_reordered {n m : Markup.Node} (hn : n.DistinctKeys)
    (h : n.Reordered m) : SameResult (node n) (node m) := by
  induction hsize : sizeOf n using Nat.strongRecOn generalizing n m with
  | _ size ih =>
    subst hsize
    -- what stands in a part of the node is smaller than the node
    have htwins : ∀ n', n.Holds n' → sizeOf n' < sizeOf n → ∀ m', n'.Reordered m' → Twins n' m' :=
      fun n' hn' hlt m' hm' => ⟨hn.of_holds hn', hm', fun l l' hl hll' =>
        ih _ (Nat.lt_of_le_of_lt hl.sizeOf_le hlt) (hn.of_holds (hn'.trans hl)) hll' rfl⟩
    cases h with
    | scalar => exact .ok _
    | @sequence pos tag ns ms items_reordered =>
      have hitems : List.Forall₂ (fun n' m' => SameResult (node n') (node m')) ns ms :=
        forall₂_of_mem items_reordered fun n' hn' m' hm' =>
          (htwins n' (.item hn' (.self n')) (Markup.Node.sizeOf_item_lt hn') m' hm').node
      rw [node, node, payload, payload, payloads_eq, payloads_eq]
      exact (sameResult_nodes 0 hitems).map _
    | mapping perm entries_reordered =>
      exact sameResult_mapping _ perm entries_reordered fun e he =>
        htwins e.value (.value he (.self e.value)) (Markup.Node.sizeOf_value_lt he)
    | reference | loop => exact .error _ _

/-- A word at a place. -/
def wordAt (line col : Int) (text : String) : Markup.Node := .scalar ⟨line, col⟩ .str text .plain

/-- A choice whose arms stand first, and in its arm the body. -/
def armsFirst : Markup.Node :=
  .mapping ⟨1, 1⟩ .map [.mk (wordAt 1 1 "match") (.mapping ⟨2, 3⟩ .map
    [.mk (wordAt 2 3 "arms") (.sequence ⟨2, 9⟩ .seq [.mapping ⟨2, 10⟩ .map
      [.mk (wordAt 2 11 "body") (wordAt 2 17 "y"), .mk (wordAt 2 20 "pattern") (wordAt 2 29 "x")]]),
    .mk (wordAt 3 3 "scrutinee") (wordAt 3 14 "z")])]

/-- The same nodes, but the scrutinee stands first, and in the arm the pattern. -/
def scrutineeFirst : Markup.Node :=
  .mapping ⟨1, 1⟩ .map [.mk (wordAt 1 1 "match") (.mapping ⟨2, 3⟩ .map
    [.mk (wordAt 3 3 "scrutinee") (wordAt 3 14 "z"),
    .mk (wordAt 2 3 "arms") (.sequence ⟨2, 9⟩ .seq [.mapping ⟨2, 10⟩ .map
      [.mk (wordAt 2 20 "pattern") (wordAt 2 29 "x"), .mk (wordAt 2 11 "body") (wordAt 2 17 "y")]])])]

theorem armsFirst_distinctKeys : armsFirst.DistinctKeys := by
  simp [armsFirst, wordAt, Entry.Apart, Entry.key, Entry.value, Markup.Node.name]

theorem armsFirst_reordered : armsFirst.Reordered scrutineeFirst := by
  have hword : ∀ line col text, (wordAt line col text).Reordered (wordAt line col text) :=
    fun _ _ _ => .scalar
  refine .mapping (.refl _) (.cons (.mk (hword ..) (.mapping (.swap _ _ _) (.cons ?_ (.cons ?_ .nil))))
    .nil)
  · exact .mk (hword ..) (hword ..)
  · refine .mk (hword ..) (.sequence (.cons (.mapping (.swap _ _ _) (.cons ?_ (.cons ?_ .nil))) .nil))
    · exact .mk (hword ..) (hword ..)
    · exact .mk (hword ..) (hword ..)

theorem armsFirst_sameResult : armsFirst.DistinctKeys ∧ armsFirst.Reordered scrutineeFirst ∧
    Succeeds (node armsFirst) ∧ SameResult (node armsFirst) (node scrutineeFirst) :=
  ⟨armsFirst_distinctKeys, armsFirst_reordered, ⟨_, rfl⟩,
    node_sameResult_of_reordered armsFirst_distinctKeys armsFirst_reordered⟩

end Decode

end ScriptMachine
