import ScriptMachine.Fault

/-!
# Bit sets

A set of small natural numbers as a list of 64-bit words, word `i` holding the keys from `64 * i`
to `64 * i + 63`. A set that never had room for a word is told apart from an empty one.
-/

namespace ScriptMachine

/-- A set of natural numbers as bits of words. -/
structure BitSet where
  words : Array UInt64
  allocated : Bool

namespace BitSet

/-- The set that has no room yet. -/
def empty : BitSet := ⟨#[], false⟩

/-- The number of words that memory has addresses for. -/
def maxWords : Nat := 1 <<< 45

/-- Whether a set can have `n` words, be it from the start or one after the other. -/
def canHave (n : Int) : Bool := n ≤ maxWords

/-- An empty set with room for the keys below `size`. Sizes wrap like 64-bit integers, and the room
itself is not part of the set. -/
def withRoom (size : Int) : Except Crash BitSet :=
  let n := Int.tdiv (Int.bmod (size + 63) UInt64.size) 64
  if canHave n then .ok ⟨#[], true⟩ else .error .sizeOutside

/-- Whether bit `j` of a word is set, for `j < 64`. -/
def bit (w : UInt64) (j : Nat) : Bool := w &&& (1 <<< UInt64.ofNat j) != 0

def setBit (w : UInt64) (j : Nat) : UInt64 := w ||| (1 <<< UInt64.ofNat j)

def containsNat (s : BitSet) (k : Nat) : Bool :=
  match s.words[k / 64]? with
  | some w => bit w (k % 64)
  | none => false

/-- Whether `k` is in the set; negative numbers never are. -/
def contains (s : BitSet) (k : Int) : Bool :=
  match k with
  | .ofNat k => s.containsNat k
  | .negSucc _ => false

/-- Words up to index `i`, zeros where there were none. -/
def extend (words : Array UInt64) (i : Nat) : Array UInt64 :=
  words ++ Array.replicate (i + 1 - words.size) 0

/-- The set with `k` in it, where it can have a word for `k`. -/
def insertNat (s : BitSet) (k : Nat) : BitSet :=
  ⟨(extend s.words (k / 64)).modify (k / 64) (setBit · (k % 64)), true⟩

/-- The crash that a negative key leads to: first the word is looked for, then the bit. -/
def badKey (k : Int) : Crash :=
  if Int.tdiv k 64 < 0 then .indexOutside (Int.tdiv k 64) else .negativeShift

/-- What a key crashes with: a negative one, or one that no set can grow to. -/
def keyCrash? (k : Int) : Option Crash :=
  if k < 0 then some (badKey k)
  else if canHave (Int.tdiv k 64 + 1) then none
  else some .growthOutside

/-- Puts `k` into the set. A key that crashes is not put in, but the set has room afterwards. -/
def insert (s : BitSet) (k : Int) : BitSet × Option Crash :=
  match keyCrash? k with
  | none => (s.insertNat k.toNat, none)
  | some c => ({ s with allocated := true }, some c)

/-- Puts keys into the set up to the first that crashes. -/
def insertAll (s : BitSet) : List Int → BitSet × Option Crash
  | [] => (s, none)
  | k :: ks => match s.insert k with
    | (t, none) => t.insertAll ks
    | (t, some c) => (t, some c)

/-- Puts `k` into the set and tells whether it is new. -/
def add (s : BitSet) (k : Int) : BitSet × Except Crash Bool :=
  if s.contains k then (s, .ok false)
  else match s.insert k with
    | (t, none) => (t, .ok true)
    | (t, some c) => (t, .error c)

/-! ## Keys in order -/

def clearBit (w : UInt64) (j : Nat) : UInt64 := w &&& ~~~(1 <<< UInt64.ofNat j)

def lowestBit? (w : UInt64) : Option Nat := (List.range 64).find? (bit w)

theorem clearBit_lt {w : UInt64} {j : Nat} (h : bit w j = true) :
    (clearBit w j).toNat < w.toNat := by
  have hle : (clearBit w j).toNat ≤ w.toNat := by
    rw [clearBit, UInt64.toNat_and]
    exact Nat.and_le_left
  refine Nat.lt_of_le_of_ne hle fun heq => ?_
  have hsame : clearBit w j = w := UInt64.toNat_inj.mp heq
  have hzero : w &&& (1 <<< UInt64.ofNat j) = 0 := by
    rw [← hsame, clearBit, UInt64.and_assoc, UInt64.not_and_self, UInt64.and_zero]
  simp [bit, hzero] at h

section
variable {m : Type → Type} [Monad m]

/-- Hands the keys of the word at index `i` to `go`, taking the lowest bit out of the word each time,
until `go` answers false. -/
def visitWord (go : Nat → m Bool) (i : Nat) (w : UInt64) : m Bool :=
  match h : lowestBit? w with
  | none => return true
  | some j => do
    if ← go (64 * i + j) then visitWord go i (clearBit w j) else return false
termination_by w.toNat
decreasing_by exact clearBit_lt (List.find?_some h)

/-- Hands the keys of words to `go`, the first of which has the index `i`. -/
def visitWords (go : Nat → m Bool) (i : Nat) : List UInt64 → m Bool
  | [] => return true
  | w :: ws => do
    if ← visitWord go i w then visitWords go (i + 1) ws else return false

/-- Hands the keys to `go` in ascending order until it answers false. The answer tells whether it was
given all of them. -/
def visit (s : BitSet) (go : Nat → m Bool) : m Bool := visitWords go 0 s.words.toList

end

/-- Notes a key and answers whether to go on. -/
def note (more : Nat → Bool) (k : Nat) : StateM (Array Nat) Bool := do
  modify (·.push k)
  return more k

/-- The keys that are visited until the first on which `more` is false. -/
def visited (s : BitSet) (more : Nat → Bool) : List Nat := ((s.visit (note more)).run #[]).2.toList

/-- The keys in ascending order. -/
def toList (s : BitSet) : List Nat := s.visited fun _ => true

def bitCount (w : UInt64) : Nat := (List.range 64).countP (bit w)

def size (s : BitSet) : Nat := s.words.foldl (fun n w => n + bitCount w) 0

end BitSet

end ScriptMachine
