import Mathlib.Data.Finset.Sort
import Mathlib.Data.List.TakeWhile
import ScriptMachine.Proofs.BitSet

/-!
# Bit sets as finite sets

A bit set stands for the finite set of its keys (`BitSet.keys`).

1. The loop that takes the lowest bit out of a word, again and again, hands out the bits of the word
   in ascending order (`visitWord_eq`), and so the loop over all words hands out the keys in
   ascending order (`visit_eq`), until it is told to stop.
2. The number of bits in all words is the number of keys (`size_eq_card`).
3. Whatever keys are put in and in whichever way, the set behaves like the finite set of these keys, up
   to those that no set can grow to (`perform_refines`).
-/

namespace ScriptMachine.BitSet

/-! ## The bits of a word in order -/

theorem bit_clearBit (w : UInt64) {i j : Nat} (hi : i < 64) (hj : j < 64) :
    bit (clearBit w j) i = (bit w i && !decide (i = j)) := by
  rw [bit_eq_getLsbD _ hi, bit_eq_getLsbD _ hi, clearBit, UInt64.toBitVec_and, UInt64.toBitVec_not,
    BitVec.getLsbD_and, BitVec.getLsbD_not, toBitVec_one_shiftLeft hj, BitVec.getLsbD_twoPow]
  simp [hi, hj, eq_comm]

/-- The bits of a word in ascending order. -/
def bits (w : UInt64) : List Nat := (List.range 64).filter (bit w)

theorem bits_eq_nil {w : UInt64} (h : lowestBit? w = none) : bits w = [] :=
  List.filter_eq_nil_iff.mpr fun i hi => by simpa using List.find?_eq_none.mp h i hi

/-- The lowest bit is the first one, and the others are those that are left when it is cleared. -/
theorem bits_eq_cons {w : UInt64} {j : Nat} (h : lowestBit? w = some j) :
    bits w = j :: bits (clearBit w j) := by
  obtain ⟨hbit, below, above, hrange, hbelow⟩ := List.find?_eq_some_iff_append.mp h
  have hnodup : (below ++ j :: above).Nodup := hrange ▸ List.nodup_range
  have hlt : ∀ i ∈ below ++ j :: above, i < 64 := fun i hi => List.mem_range.mp (hrange ▸ hi)
  have hj : j < 64 := hlt j (by simp)
  have hcleared : ∀ i ∈ below ++ j :: above, bit (clearBit w j) i = (bit w i && !decide (i = j)) :=
    fun i hi => bit_clearBit w (hlt i hi) hj
  have hnone : ∀ v : UInt64, (∀ i ∈ below, bit v i = false) → below.filter (bit v) = [] :=
    fun v hv => List.filter_eq_nil_iff.mpr fun i hi => by simp [hv i hi]
  have hold : below.filter (bit w) = [] := hnone w fun i hi => by simpa using hbelow i hi
  have hnew : below.filter (bit (clearBit w j)) = [] := hnone _ fun i hi => by
    have : bit w i = false := by simpa using hbelow i hi
    rw [hcleared i (by simp [hi]), this, Bool.false_and]
  have habove : above.filter (bit (clearBit w j)) = above.filter (bit w) := by
    refine List.filter_congr fun i hi => ?_
    have hne : i ≠ j := by
      rintro rfl
      simp [List.nodup_append, hi] at hnodup
    simp [hcleared i (by simp [hi]), hne]
  have hgone : bit (clearBit w j) j = false := by simp [bit_clearBit w hj hj]
  rw [bits, bits, hrange, List.filter_append, List.filter_append, hold, hnew,
    List.filter_cons_of_pos hbit, List.filter_cons_of_neg (by simp [hgone]), habove]
  rfl

/-- Handing out keys one after the other until the answer is false. -/
def handOut {m : Type → Type} [Monad m] (go : Nat → m Bool) : List Nat → m Bool
  | [] => return true
  | k :: ks => do
    if ← go k then handOut go ks else return false

section
variable {m : Type → Type} [Monad m] (go : Nat → m Bool)

theorem handOut_append [LawfulMonad m] (ks ls : List Nat) : handOut go (ks ++ ls) =
    (do if ← handOut go ks then handOut go ls else return false) := by
  induction ks with
  | nil => simp [handOut]
  | cons k ks ih =>
    simp only [List.cons_append, handOut, bind_assoc, ih]
    refine bind_congr fun more => ?_
    cases more <;> simp

theorem visitWord_eq (i : Nat) (w : UInt64) :
    visitWord go i w = handOut go ((bits w).map (64 * i + ·)) := by
  fun_induction visitWord go i w with
  | case1 w h => rw [bits_eq_nil h, List.map_nil, handOut]
  | case2 w j h ih =>
    rw [bits_eq_cons h, List.map_cons, handOut]
    refine bind_congr fun more => ?_
    cases more <;> simp [ih]

end

/-! ## The keys of a set in order -/

/-- The keys of words in ascending order, where the first word has the index `i`. -/
def keysFrom (i : Nat) : List UInt64 → List Nat
  | [] => []
  | w :: ws => (bits w).map (64 * i + ·) ++ keysFrom (i + 1) ws

theorem mem_bits {w : UInt64} {j : Nat} : j ∈ bits w ↔ j < 64 ∧ bit w j = true := by
  simp [bits]

theorem mem_keysFrom {i k : Nat} {ws : List UInt64} :
    k ∈ keysFrom i ws ↔ 64 * i ≤ k ∧ ws[k / 64 - i]?.any (bit · (k % 64)) = true := by
  induction ws generalizing i with
  | nil => simp [keysFrom]
  | cons w ws ih =>
    have hword : k ∈ (bits w).map (64 * i + ·) ↔ k / 64 = i ∧ bit w (k % 64) = true := by
      simp only [List.mem_map, mem_bits]
      constructor
      · rintro ⟨j, ⟨hj, hbit⟩, rfl⟩
        rw [show (64 * i + j) / 64 = i by omega, show (64 * i + j) % 64 = j by omega]
        exact ⟨rfl, hbit⟩
      · rintro ⟨rfl, hbit⟩
        exact ⟨k % 64, ⟨Nat.mod_lt k (by decide), hbit⟩, Nat.div_add_mod k 64⟩
    rw [keysFrom, List.mem_append, hword, ih]
    rcases Nat.lt_trichotomy (k / 64) i with hlt | rfl | hgt
    · have h₁ : ¬ 64 * i ≤ k := by omega
      have h₂ : ¬ 64 * (i + 1) ≤ k := by omega
      simp [h₁, h₂, Nat.ne_of_lt hlt]
    · have h₁ : 64 * (k / 64) ≤ k := by omega
      have h₂ : ¬ 64 * (k / 64 + 1) ≤ k := by omega
      simp [h₁, h₂]
    · have h₁ : 64 * i ≤ k := by omega
      have h₂ : 64 * (i + 1) ≤ k := by omega
      rw [show k / 64 - i = k / 64 - (i + 1) + 1 by omega, List.getElem?_cons_succ]
      simp [h₁, h₂, Nat.ne_of_gt hgt]

theorem pairwise_keysFrom (i : Nat) (ws : List UInt64) : (keysFrom i ws).Pairwise (· < ·) := by
  induction ws generalizing i with
  | nil => exact List.Pairwise.nil
  | cons w ws ih =>
    rw [keysFrom, List.pairwise_append]
    refine ⟨?_, ih (i + 1), fun k hk l hl => ?_⟩
    · refine List.Pairwise.map _ (fun a b hab => ?_) (List.pairwise_lt_range.filter (bit w))
      exact Nat.add_lt_add_left hab _
    · obtain ⟨j, hj, rfl⟩ := List.mem_map.mp hk
      have hj := (mem_bits.mp hj).1
      have hl := (mem_keysFrom.mp hl).1
      omega

theorem length_keysFrom (i n : Nat) (ws : List UInt64) :
    ws.foldl (fun n w => n + bitCount w) n = n + (keysFrom i ws).length := by
  induction ws generalizing i n with
  | nil => rfl
  | cons w ws ih =>
    have hbits : bitCount w = (bits w).length := List.countP_eq_length_filter
    rw [List.foldl_cons, ih (i + 1), keysFrom, List.length_append, List.length_map, hbits]
    omega

theorem visitWords_eq {m : Type → Type} [Monad m] [LawfulMonad m] (go : Nat → m Bool) (i : Nat)
    (ws : List UInt64) : visitWords go i ws = handOut go (keysFrom i ws) := by
  induction ws generalizing i with
  | nil => rfl
  | cons w ws ih => rw [visitWords, keysFrom, handOut_append, visitWord_eq, ih]

/-! ## The finite set of the keys -/

variable (s : BitSet)

/-- The keys of a set. -/
def keys : Finset Nat := (keysFrom 0 s.words.toList).toFinset

@[simp] theorem mem_keys {k : Nat} : k ∈ s.keys ↔ s.containsNat k = true := by
  rw [keys, List.mem_toFinset, mem_keysFrom, containsNat, Array.getElem?_toList]
  cases s.words[k / 64 - 0]? <;> simp

theorem sort_keys : s.keys.sort = keysFrom 0 s.words.toList := by
  have hlt := pairwise_keysFrom 0 s.words.toList
  exact (List.toFinset_sort (· ≤ ·) (hlt.imp Nat.ne_of_lt)).mpr (hlt.imp Nat.le_of_lt)

theorem size_eq_card : s.size = s.keys.card := by
  rw [← Finset.length_sort (· ≤ ·), sort_keys, size, ← Array.foldl_toList, length_keysFrom 0,
    Nat.zero_add]

theorem visit_eq {m : Type → Type} [Monad m] [LawfulMonad m] (go : Nat → m Bool) :
    s.visit go = handOut go s.keys.sort := by
  rw [visit, visitWords_eq, sort_keys]

/-- The keys visited are those up to and with the first on which `more` is false. -/
theorem visited_eq (more : Nat → Bool) : s.visited more =
    s.keys.sort.takeWhile more ++ (s.keys.sort.dropWhile more).take 1 := by
  have hnote : ∀ (ks : List Nat) (a : Array Nat), ((handOut (note more) ks).run a).2.toList =
      a.toList ++ (ks.takeWhile more ++ (ks.dropWhile more).take 1) := by
    intro ks
    induction ks with
    | nil => exact fun a => (List.append_nil _).symm
    | cons k ks ih =>
      intro a
      have hstep : (handOut (note more) (k :: ks)).run a =
          if more k then (handOut (note more) ks).run (a.push k) else (false, a.push k) := by
        cases hk : more k with
        | true => simp [handOut, note, hk]
        | false =>
          simp only [handOut, note, hk]
          rfl
      rw [hstep]
      cases hk : more k with
      | true => simp [ih, hk]
      | false => simp [hk]
  rw [visited, visit_eq, hnote]
  rfl

theorem contains_eq_true_iff (k : Int) : s.contains k = true ↔ ∃ n ∈ s.keys, (n : Int) = k := by
  cases k with
  | ofNat n =>
    refine ⟨fun h => ⟨n, s.mem_keys.mpr h, rfl⟩, ?_⟩
    rintro ⟨i, hi, heq⟩
    obtain rfl := Int.ofNat.inj heq
    exact s.mem_keys.mp hi
  | negSucc n => simp [contains]

/-- A set of `n` keys, all of them below `n`, has every key below `n`. -/
theorem contains_of_size {s : BitSet} {n : Nat} (hlt : ∀ k, s.containsNat k = true → k < n)
    (hsize : s.size = n) {k : Nat} (hk : k < n) : s.containsNat k = true := by
  have hsub : s.keys ⊆ Finset.range n := fun i hi =>
    Finset.mem_range.mpr (hlt i (s.mem_keys.mp hi))
  have hall : s.keys = Finset.range n := Finset.eq_of_subset_of_card_le hsub (by
    rw [Finset.card_range, ← size_eq_card, hsize])
  exact s.mem_keys.mp (hall ▸ Finset.mem_range.mpr hk)

@[simp] theorem keys_insertNat (k : Nat) : (s.insertNat k).keys = Insert.insert k s.keys := by
  ext j
  simp

theorem keys_zeros (n : Nat) (allocated : Bool) :
    (⟨Array.replicate n 0, allocated⟩ : BitSet).keys = ∅ := by
  ext k
  rw [mem_keys, containsNat, Array.getElem?_replicate]
  split
  · rename_i w hw
    split at hw
    · simp [← Option.some.inj hw, bit_zero]
    · cases hw
  · simp

/-! ## Calls on a set -/

/-- The keys that are put in: those in front of the first that no set can grow to. -/
def takenKeys (ks : List Nat) : List Nat := ks.takeWhile (· < 64 * maxWords)

theorem takenKeys_of_fits {ks : List Nat} (h : ∀ k ∈ ks, k < 64 * maxWords) : takenKeys ks = ks := by
  simpa [takenKeys, List.takeWhile_eq_self_iff] using h

theorem lt_of_mem_takenKeys {k : Nat} {ks : List Nat} (h : k ∈ takenKeys ks) : k < 64 * maxWords := by
  simpa using List.mem_takeWhile_imp h

/-- Keys are refused just if there is one among them that no set can grow to. -/
def refusal (ks : List Nat) : Option Crash :=
  if ∀ k ∈ ks, k < 64 * maxWords then none else some .growthOutside

theorem keyCrash?_natCast (k : Nat) : keyCrash? k = refusal [k] := by
  have hdiv : canHave (Int.tdiv k 64 + 1) = true ↔ k < 64 * maxWords := by
    rw [canHave_iff, Int.tdiv_eq_ediv_of_nonneg (Int.natCast_nonneg k)]
    omega
  simp only [keyCrash?, if_neg (Int.not_lt.mpr (Int.natCast_nonneg k)), hdiv, refusal,
    List.forall_mem_singleton]

theorem insertAll_natCast (ks : List Nat) : ∃ t,
    s.insertAll (ks.map fun k : Nat => (k : Int)) = (t, refusal ks) ∧
      t.keys = (takenKeys ks).toFinset ∪ s.keys := by
  induction ks generalizing s with
  | nil => exact ⟨s, rfl, (Finset.empty_union _).symm⟩
  | cons k ks ih =>
    have hcrash := keyCrash?_natCast k
    rw [List.map_cons]
    by_cases hk : k < 64 * maxWords
    · obtain ⟨t, ht, hkeys⟩ := ih (s.insertNat k)
      refine ⟨t, ?_, by simp [hkeys, takenKeys, hk]⟩
      rw [insertAll_cons_of_fits (by simp [hcrash, refusal, hk]), Int.toNat_natCast, ht]
      simp only [refusal, List.forall_mem_cons, hk, true_and]
    · refine ⟨{ s with allocated := true }, ?_, ?_⟩
      · rw [insertAll_cons_of_crash (c := .growthOutside) (by simp [hcrash, refusal, hk])]
        simp only [refusal, List.forall_mem_cons, hk, false_and, if_false]
      · simp only [takenKeys, List.takeWhile_cons, hk, decide_false, Bool.false_eq_true, if_false]
        exact (Finset.empty_union s.keys).symm

theorem insert_natCast (k : Nat) : ∃ t,
    s.insert k = (t, refusal [k]) ∧ t.keys = (takenKeys [k]).toFinset ∪ s.keys := by
  obtain ⟨t, ht, hkeys⟩ := s.insertAll_natCast [k]
  refine ⟨t, ?_, hkeys⟩
  rw [← ht, List.map_cons, List.map_nil, insertAll]
  split <;> simp_all [insertAll]

def unlessCrash {α : Type} (a : α) : Option Crash → Except Crash α
  | none => .ok a
  | some c => .error c

theorem add_natCast (hs : ∀ k ∈ s.keys, k < 64 * maxWords) (k : Nat) : ∃ t,
    s.add k = (t, unlessCrash (decide (k ∉ s.keys)) (refusal [k])) ∧
      t.keys = (takenKeys [k]).toFinset ∪ s.keys := by
  by_cases hin : k ∈ s.keys
  · refine ⟨s, ?_, by simp [takenKeys, hs k hin, hin]⟩
    rw [add, show s.contains k = true from s.mem_keys.mp hin]
    simp [hin, refusal, hs k hin, unlessCrash]
  · obtain ⟨t, ht, hkeys⟩ := s.insert_natCast k
    refine ⟨t, ?_, hkeys⟩
    rw [add, if_neg (show ¬ s.contains k = true from mt s.mem_keys.mpr hin), ht, decide_eq_true hin]
    cases refusal [k] <;> rfl

/-- A call that puts keys into a set. -/
inductive Call where
  | insert (k : Nat)
  | insertAll (ks : List Nat)
  | add (k : Nat)

namespace Call

/-- The keys that a call is to put in. -/
def keys : Call → List Nat
  | insert k | add k => [k]
  | insertAll ks => ks

/-- The set behind a call, and its answer. Only `add` has something to tell. -/
def on : Call → BitSet → BitSet × Except Crash (Option Bool)
  | insert k, s => ((s.insert k).1, unlessCrash none (s.insert k).2)
  | insertAll ks, s =>
    let r := s.insertAll (ks.map fun k : Nat => (k : Int))
    (r.1, unlessCrash none r.2)
  | add k, s => ((s.add k).1, (s.add k).2.map some)

/-- What a finite set tells of a call. -/
def tells (K : Finset Nat) : Call → Option Bool
  | add k => some (decide (k ∉ K))
  | insert _ | insertAll _ => none

/-- The answer of a finite set to a call. -/
def answer (K : Finset Nat) (c : Call) : Except Crash (Option Bool) :=
  unlessCrash (c.tells K) (refusal c.keys)

/-- The keys that a call does put in. -/
def taken (c : Call) : List Nat := takenKeys c.keys

end Call

/-- Calls one after the other, with their answers. -/
def perform : List Call → BitSet → BitSet × List (Except Crash (Option Bool))
  | [], s => (s, [])
  | c :: cs, s => ((perform cs (c.on s).1).1, (c.on s).2 :: (perform cs (c.on s).1).2)

/-- The answers of a finite set to calls one after the other. -/
def answers : List Call → Finset Nat → List (Except Crash (Option Bool))
  | [], _ => []
  | c :: cs, K => c.answer K :: answers cs (c.taken.toFinset ∪ K)

section
variable {s} (hs : ∀ k ∈ s.keys, k < 64 * maxWords)
include hs

theorem on_eq (c : Call) :
    ∃ t, c.on s = (t, c.answer s.keys) ∧ t.keys = c.taken.toFinset ∪ s.keys := by
  cases c with
  | insert k =>
    obtain ⟨t, ht, hkeys⟩ := s.insert_natCast k
    exact ⟨t, by rw [Call.on, ht]; rfl, hkeys⟩
  | insertAll ks =>
    obtain ⟨t, ht, hkeys⟩ := s.insertAll_natCast ks
    exact ⟨t, by rw [Call.on, ht]; rfl, hkeys⟩
  | add k =>
    obtain ⟨t, ht, hkeys⟩ := s.add_natCast hs k
    refine ⟨t, ?_, hkeys⟩
    rw [Call.on, ht, Call.answer, Call.keys]
    cases refusal [k] <;> rfl

theorem perform_eq (cs : List Call) : ∃ t, perform cs s = (t, answers cs s.keys) ∧
    t.keys = (cs.flatMap Call.taken).toFinset ∪ s.keys := by
  induction cs generalizing s with
  | nil => exact ⟨s, rfl, by simp⟩
  | cons c cs ih =>
    obtain ⟨t, ht, hkeys⟩ := on_eq hs c
    have ht' : ∀ k ∈ t.keys, k < 64 * maxWords := fun k hk => by
      rw [hkeys, Finset.mem_union, List.mem_toFinset] at hk
      exact hk.elim lt_of_mem_takenKeys (hs k)
    obtain ⟨u, hu, hkeys'⟩ := ih ht'
    refine ⟨u, ?_, ?_⟩
    · rw [perform, ht, hu, answers, hkeys]
    · rw [hkeys', hkeys, List.flatMap_cons, List.toFinset_append, Finset.union_assoc,
        Finset.union_left_comm]

end

theorem exists_ok_of_mem_answers {cs : List Call} (h : ∀ c ∈ cs, ∀ k ∈ c.keys, k < 64 * maxWords)
    {K : Finset Nat} {a : Except Crash (Option Bool)} (ha : a ∈ answers cs K) : ∃ b, a = .ok b := by
  induction cs generalizing K with
  | nil => cases ha
  | cons c cs ih =>
    rw [List.forall_mem_cons] at h
    rcases List.mem_cons.mp ha with rfl | ha
    · exact ⟨c.tells K, by rw [Call.answer, refusal, if_pos h.1]; rfl⟩
    · exact ih h.2 ha

/-! ## Refinement -/

/-- A set as it is made: without room, with room for some keys, or of zero words. -/
inductive Fresh : BitSet → Prop
  | empty : Fresh empty
  | withRoom {size : Int} {s : BitSet} (h : withRoom size = .ok s) : Fresh s
  | zeros (n : Nat) : Fresh ⟨Array.replicate n 0, true⟩

theorem Fresh.keys_eq {s : BitSet} (h : Fresh s) : s.keys = ∅ := by
  cases h with
  | empty => exact keys_zeros 0 false
  | withRoom h => rw [withRoom_eq_ok h]; exact keys_zeros 0 true
  | zeros n => exact keys_zeros n true

/-- A bit set behaves like a finite set: it contains just its keys, tells whether a key is new,
counts its keys, hands them out in ascending order until it is told to stop, and refuses keys that are
negative or that no set can grow to. -/
structure Models (K : Finset Nat) : Prop where
  contains : ∀ k : Int, s.contains k = true ↔ ∃ n ∈ K, (n : Int) = k
  add : ∀ k < 64 * maxWords, (s.add (k : Nat)).2 = .ok (decide (k ∉ K))
  size : s.size = K.card
  visit : ∀ (m : Type → Type) [Monad m] [LawfulMonad m] (go : Nat → m Bool),
    s.visit go = handOut go K.sort
  visited : ∀ more : Nat → Bool,
    s.visited more = K.sort.takeWhile more ++ (K.sort.dropWhile more).take 1
  refuses : ∀ k : Int, k < 0 ∨ 64 * maxWords ≤ k → s.contains k = false ∧ ∃ c t,
    s.insert k = (t, some c) ∧ s.add k = (t, .error c) ∧ ∀ j, t.contains j = s.contains j

theorem models_keys (hs : ∀ k ∈ s.keys, k < 64 * maxWords) : s.Models s.keys where
  contains := s.contains_eq_true_iff
  add k hk := by
    obtain ⟨t, ht, -⟩ := s.add_natCast hs k
    rw [ht, refusal, if_pos (by simpa using hk)]
    rfl
  size := s.size_eq_card
  visit _ _ _ go := s.visit_eq go
  visited := s.visited_eq
  refuses k hk := by
    have hcrash : keyCrash? k ≠ none := fun h => by
      have := keyCrash?_eq_none_iff.mp h
      omega
    obtain ⟨c, hc⟩ := Option.ne_none_iff_exists'.mp hcrash
    have hout : s.contains k = false := by
      refine Bool.eq_false_iff.mpr fun h => ?_
      obtain ⟨n, hn, rfl⟩ := (s.contains_eq_true_iff k).mp h
      have := hs n hn
      omega
    refine ⟨hout, c, _, insert_of_crash hc s, ?_, fun j => by cases j <;> rfl⟩
    rw [add, hout, insert_of_crash hc s]
    rfl

/-- Calls on a new set answer as they do on a finite set, and behind them the set behaves like the
finite set of all keys that were put in. If a set can grow to all keys, then no call crashes and all
of them were put in. -/
theorem perform_refines {s : BitSet} (hs : Fresh s) (cs : List Call) :
    ∃ t, perform cs s = (t, answers cs ∅) ∧ t.Models (cs.flatMap Call.taken).toFinset ∧
      ((∀ c ∈ cs, ∀ k ∈ c.keys, k < 64 * maxWords) →
        (∀ a ∈ answers cs ∅, ∃ b, a = .ok b) ∧ cs.flatMap Call.taken = cs.flatMap Call.keys) := by
  obtain ⟨t, ht, hkeys⟩ := perform_eq (s := s) (by simp [hs.keys_eq]) cs
  rw [hs.keys_eq, Finset.union_empty] at hkeys
  have hbound : ∀ k ∈ t.keys, k < 64 * maxWords := fun k hk => by
    rw [hkeys, List.mem_toFinset, List.mem_flatMap] at hk
    obtain ⟨c, -, hk⟩ := hk
    exact lt_of_mem_takenKeys hk
  exact ⟨t, hs.keys_eq ▸ ht, hkeys ▸ t.models_keys hbound, fun h =>
    ⟨fun a ha => exists_ok_of_mem_answers h ha,
      List.flatMap_congr fun c hc => takenKeys_of_fits (h c hc)⟩⟩

/-- Keys on both sides of a word's end, one of them twice. -/
def crossing : List Call := [.insertAll [64, 3], .add 63, .add 64]

theorem crossing_refines : Fresh ⟨#[], true⟩ ∧ ∃ t, perform crossing ⟨#[], true⟩ =
    (t, [.ok none, .ok (some true), .ok (some false)]) ∧ t.Models {64, 3, 63, 64} := by
  have hfresh : Fresh ⟨#[], true⟩ := .withRoom (@withRoom_of_le 65 (by decide) (by decide))
  obtain ⟨t, ht, hmodels, -⟩ := perform_refines hfresh crossing
  exact ⟨hfresh, t, ht, hmodels⟩

end ScriptMachine.BitSet
