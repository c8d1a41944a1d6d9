import Mathlib.Data.List.Pairwise
import ScriptMachine.Tree.Decode

/-!
# The payload of a markup node

What stands in a markup node, what it means that its mappings have distinct keys, and how the parts
of its payload are the payloads of its parts.
-/

namespace ScriptMachine

namespace Markup

/-! ## Values -/

/-- `n.Holds m`: the node `m` is `n`, or it stands in it as an item of a sequence or as the value of
an entry. What an alias stands for is not in the node. -/
inductive Node.Holds : Node → Node → Prop
  | self (n : Node) : Holds n n
  | item {pos tag items m l} (mem : m ∈ items) (holds : Holds m l) :
      Holds (.sequence pos tag items) l
  | value {pos tag entries e l} (mem : e ∈ entries) (holds : Holds e.value l) :
      Holds (.mapping pos tag entries) l

theorem Node.Holds.trans {n m l : Node} (h : n.Holds m) (h' : m.Holds l) : n.Holds l := by
  induction h with
  | self => exact h'
  | item mem _ ih => exact .item mem (ih h')
  | value mem _ ih => exact .value mem (ih h')

theorem Node.sizeOf_item_lt {pos tag items} {m : Node} (h : m ∈ items) :
    sizeOf m < sizeOf (Node.sequence pos tag items) := by
  have := List.sizeOf_lt_of_mem h
  simp only [Node.sequence.sizeOf_spec]
  omega

theorem Node.sizeOf_value_lt {pos tag entries} {e : Entry} (h : e ∈ entries) :
    sizeOf e.value < sizeOf (Node.mapping pos tag entries) := by
  have := List.sizeOf_lt_of_mem h
  have : sizeOf e.value < sizeOf e := by
    cases e with
    | mk k v => simp +arith [Entry.value]
  simp only [Node.mapping.sizeOf_spec]
  omega

theorem Node.Holds.sizeOf_le {n m : Node} (h : n.Holds m) : sizeOf m ≤ sizeOf n := by
  induction h with
  | self => exact Nat.le_refl _
  | item mem _ ih => exact Nat.le_trans ih (Nat.le_of_lt (sizeOf_item_lt mem))
  | value mem _ ih => exact Nat.le_trans ih (Nat.le_of_lt (sizeOf_value_lt mem))

/-- An alias, whether or not it stands for a node that can be read. -/
def Node.IsAlias : Node → Prop
  | .reference .. | .loop .. => True
  | _ => False

/-! ## Keys -/

/-- The keys have different names. Keys that are sequences or mappings have the empty name, which
names nothing, and may be several. -/
def Entry.Apart (e e' : Entry) : Prop := e.key.name = e'.key.name → e.key.name = ""

instance : Std.Symm Entry.Apart where
  symm _ _ h hname := hname ▸ h hname.symm

/-- The keys are distinct in every mapping that a node holds. -/
def Node.DistinctKeys (n : Node) : Prop :=
  ∀ pos tag es, n.Holds (.mapping pos tag es) → es.Pairwise Entry.Apart

theorem Node.DistinctKeys.of_holds {n m : Node} (h : n.DistinctKeys) (hm : n.Holds m) :
    m.DistinctKeys :=
  fun pos tag es hes => h pos tag es (hm.trans hes)

namespace Node

variable {pos : Position} {tag : Tag}

@[simp] theorem distinctKeys_scalar {text style} : (scalar pos tag text style).DistinctKeys := by
  intro pos' tag' es h
  cases h

@[simp] theorem distinctKeys_sequence {items} :
    (sequence pos tag items).DistinctKeys ↔ ∀ m ∈ items, m.DistinctKeys := by
  refine ⟨fun h m hm => h.of_holds (.item hm (.self m)), fun h pos' tag' es hes => ?_⟩
  cases hes with
  | item mem holds => exact h _ mem pos' tag' es holds

@[simp] theorem distinctKeys_mapping {entries} : (mapping pos tag entries).DistinctKeys ↔
    entries.Pairwise Entry.Apart ∧ ∀ e ∈ entries, e.value.DistinctKeys := by
  constructor
  · exact fun h => ⟨h pos tag entries (.self _), fun e he => h.of_holds (.value he (.self e.value))⟩
  · rintro ⟨hentries, h⟩ pos' tag' es hes
    cases hes with
    | self => exact hentries
    | value mem holds => exact h _ mem pos' tag' es holds

end Node

/-- The value of the entry with a name, of several the last. -/
def value? (es : List Entry) (name : String) : Option Node :=
  (es.reverse.find? fun e => e.key.name == name).map Entry.value

variable {es : List Entry} {name : String}

theorem mem_of_value? {v : Node} (h : value? es name = some v) :
    ∃ e ∈ es, e.key.name = name ∧ e.value = v := by
  obtain ⟨e, he, rfl⟩ := Option.map_eq_some_iff.mp h
  have hname := List.find?_some he
  exact ⟨e, List.mem_reverse.mp (List.mem_of_find?_eq_some he), by simpa using hname, rfl⟩

theorem isSome_value? : (value? es name).isSome ↔ ∃ e ∈ es, e.key.name = name := by
  simp [value?]

theorem value?_key (h : es.Pairwise Entry.Apart) {e : Entry} (he : e ∈ es)
    (hname : e.key.name ≠ "") : value? es e.key.name = some e.value := by
  obtain ⟨v, hv⟩ := Option.isSome_iff_exists.mp (isSome_value?.mpr ⟨e, he, rfl⟩)
  obtain ⟨e', he', hkey, rfl⟩ := mem_of_value? hv
  -- the entry that is found and `e` have the same name, so they are the same
  have hsame : e' = e := by
    by_contra hne
    exact hname (hkey ▸ h.forall he' he hne hkey)
  rw [hv, hsame]

end Markup

/-! ## Parts of a payload -/

open Markup (value?)

namespace Decode

theorem payloads_eq (ns : List Markup.Node) : payloads ns = ns.map payload := by
  induction ns with
  | nil => rfl
  | cons n ns ih => rw [payloads, ih, List.map_cons]

theorem fields_eq (es : List Markup.Entry) :
    fields es = es.map fun e => (e.key.name, e.key.position, payload e.value) := by
  induction es with
  | nil => rfl
  | cons e es ih =>
    obtain ⟨k, v⟩ := e
    rw [fields, ih, List.map_cons, Markup.Entry.key, Markup.Entry.value]

theorem get?_fields (es : List Markup.Entry) (name : String) :
    (fields es).get? name = (value? es name).map payload := by
  rw [Fields.get?, fields_eq, ← List.map_reverse, value?, Option.map_map]
  induction es.reverse with
  | nil => rfl
  | cons e es ih =>
    rw [List.map_cons, List.lookup_cons, List.find?_cons, Bool.beq_comm (a := name)]
    cases e.key.name == name with
    | true => rfl
    | false => exact ih

/-- A mapping is read with its fields if all of them are known. -/
theorem fields_mapping_eq_ok {pos tag} {es : List Markup.Entry} {known : List String} {fs : Fields} :
    (payload (.mapping pos tag es)).fields known = .ok fs ↔
      fs = fields es ∧ ∀ e ∈ es, e.key.name ∈ known := by
  have hknown : ((fields es).find? fun f => !known.contains f.1) = none ↔
      ∀ e ∈ es, e.key.name ∈ known := by
    simp [fields_eq]
  simp only [payload, Payload.fields]
  split
  next hfind =>
    refine iff_of_false (fun h => by cases h) fun h => ?_
    rw [hknown.mpr h.2] at hfind
    cases hfind
  next hfind =>
    exact ⟨fun h => ⟨(Except.ok.inj h).symm, hknown.mp hfind⟩, fun h => congrArg Except.ok h.1.symm⟩

/-- `all` reads payloads one after another by `one`, each with its number. -/
structure ReadsEach {α : Type} (one : Nat → Payload → Decoded α)
    (all : Nat → List Payload → Decoded (List α)) : Prop where
  nil : ∀ i, all i [] = .ok []
  cons : ∀ i p ps, all i (p :: ps) = do
    let a ← one i p
    let as ← all (i + 1) ps
    return a :: as

theorem readsEach_nodes : ReadsEach (fun i p => p.node.within (.item i)) Payload.nodes :=
  ⟨fun _ => rfl, fun _ _ _ => rfl⟩

theorem readsEach_cases : ReadsEach case cases := ⟨fun _ => rfl, fun _ _ _ => rfl⟩

theorem readsEach_clauses : ReadsEach clause clauses := ⟨fun _ => rfl, fun _ _ _ => rfl⟩

end Decode

end ScriptMachine
