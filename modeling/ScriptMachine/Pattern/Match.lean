import ScriptMachine.Pattern.Parse

/-!
# Matching

A set of places in a text is a table of one truth value for each place from its beginning to its
end. `ends e` sends the places where a match of `e` may start to those where it may end. A pattern
matches a text if some match starts and ends anywhere.
-/

namespace ScriptMachine.Pattern

/-- A set of places in a text. -/
abbrev Places := Array Bool

/-- Letters, digits and the underscore make words. -/
def isWordCode (c : Nat) : Bool := inRanges wordRanges c

/-- Whether one of the two characters around a place belongs to a word. -/
def wordAt (text : Array Nat) (i : Nat) : Bool := (text[i]?.map isWordCode).getD false

def Assertion.holds (text : Array Nat) (i : Nat) : Assertion → Bool
  | beginText => i == 0
  | endText => i == text.size
  | beginLine => i == 0 || text[i - 1]? == some 10
  | endLine => i == text.size || text[i]? == some 10
  | wordBoundary => (i != 0 && wordAt text (i - 1)) != wordAt text i
  | noWordBoundary => (i != 0 && wordAt text (i - 1)) == wordAt text i

namespace Places

/-- The places of a text of length `n` that satisfy a predicate. -/
def ofPred (n : Nat) (p : Nat → Bool) : Places := Array.ofFn fun i : Fin (n + 1) => p i.val

def has (s : Places) (i : Nat) : Bool := s[i]?.getD false

def union (s t : Places) : Places := s.zipWith (· || ·) t

/-- The places of `s` that are not in `t`. -/
def minus (s t : Places) : Places := s.zipWith (fun a b => a && !b) t

def isEmpty (s : Places) : Bool := !s.any id

end Places

def repeatN (f : Places → Places) : Nat → Places → Places
  | 0, s => s
  | n + 1, s => repeatN f n (f s)

/-- The places reached from `s` by at most `n` further applications of `f`; only places that are
new are followed up. -/
def reach (f : Places → Places) : (n : Nat) → (fresh all : Places) → Places
  | 0, _, all => all
  | n + 1, fresh, all =>
    if fresh.isEmpty then all
    else
      let next := (f fresh).minus all
      reach f n next (all.union next)

/-- The places where matches end that start at a given place. -/
def Expr.ends (text : Array Nat) : Expr → Places → Places
  | empty, s => s
  | chars c, s =>
    Places.ofPred text.size fun i =>
      i != 0 && s.has (i - 1) && (text[i - 1]?.map c.holds).getD false
  | assert a, s => Places.ofPred text.size fun i => s.has i && a.holds text i
  | seq a b, s => b.ends text (a.ends text s)
  | alt a b, s => (a.ends text s).union (b.ends text s)
  | loop e min max _, s =>
    let start := repeatN (e.ends text) min s
    match max with
    | some m => reach (e.ends text) (m - min) start start
    | none => reach (e.ends text) (text.size + 1) start start

/-- Whether a match starts and ends somewhere in the text. -/
def Expr.matchesIn (e : Expr) (text : String) : Bool :=
  let codes := (text.toList.map Char.toNat).toArray
  !(e.ends codes (Places.ofPred codes.size fun _ => true)).isEmpty

/-- Whether a text matches a pattern; an error if it is none. -/
def search (pattern text : String) : Except Error Bool :=
  (parse pattern).map (·.matchesIn text)

end ScriptMachine.Pattern
