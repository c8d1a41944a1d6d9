/-!
# Work lists

A binary heap in an array: the children of index `i` stand at `2 * i + 1` and `2 * i + 2`, and no
child is less than its parent. `pop` takes out a least element. Among elements that are not less
than each other the order is the one that sifting leaves.
-/

namespace ScriptMachine

/-- A heap ordered by a key. -/
structure WorkList (α : Type) where
  items : Array α := #[]

namespace WorkList

variable {α : Type}

/-- Whether the element at `i` has a smaller key than the one at `j`. -/
def lessAt (key : α → Int) (d : Array α) (i j : Nat) : Bool :=
  match d[i]?, d[j]? with
  | some a, some b => key a < key b
  | _, _ => false

/-- Moves the element at `i` towards the root while it is less than its parent. -/
def siftUp (key : α → Int) (d : Array α) (i : Nat) : Array α :=
  if h : 0 < i then
    let parent := (i - 1) / 2
    if lessAt key d i parent then siftUp key (d.swapIfInBounds i parent) parent else d
  else d
termination_by i
decreasing_by omega

/-- The lesser child of `i`, the left one unless the right one is less. -/
def lesserChild (key : α → Int) (d : Array α) (i : Nat) : Nat :=
  if lessAt key d (2 * i + 2) (2 * i + 1) then 2 * i + 2 else 2 * i + 1

theorem lesserChild_gt (key : α → Int) (d : Array α) (i : Nat) : i < lesserChild key d i := by
  unfold lesserChild
  split <;> omega

/-- Moves the element at `i` away from the root while a child is less than it. -/
def siftDown (key : α → Int) (d : Array α) (i : Nat) : Array α :=
  if 2 * i + 1 < d.size then
    let j := lesserChild key d i
    if lessAt key d j i then siftDown key (d.swapIfInBounds i j) j else d
  else d
termination_by d.size - i
decreasing_by
  have := lesserChild_gt key d i
  simp only [Array.size_swapIfInBounds]
  omega

def push (key : α → Int) (w : WorkList α) (a : α) : WorkList α :=
  ⟨siftUp key (w.items.push a) w.items.size⟩

/-- Takes out a least element; the last one is put at the root and sifted down. -/
def pop? (key : α → Int) (w : WorkList α) : Option (α × WorkList α) :=
  match w.items[0]?, w.items.back? with
  | some first, some last =>
    let rest := w.items.pop
    some (first, ⟨if rest.isEmpty then rest else siftDown key (rest.set! 0 last) 0⟩)
  | _, _ => none

end WorkList

end ScriptMachine
