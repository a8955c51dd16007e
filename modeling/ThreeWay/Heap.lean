/-!
# Binary heaps

A priority queue in an array. The element at position `i` has its children at positions `2 * i + 1` and
`2 * i + 2`, and no child comes before its parent. Elements of one rank leave the queue in an order that
the moves of the heap decide, so these moves are part of what the queue promises: a new element rises
only past elements that it comes before, and of two children of one rank the left one rises.

## Main definitions

* `Heap`: A queue.
* `Heap.insert`, `Heap.pop`: Putting an element in, taking the first one out.
* `Heap.drain`: The elements in the order in which they leave.
-/

namespace ThreeWay

/-- A priority queue. -/
structure Heap (α : Type) where
  elements : Array α

namespace Heap

variable {α : Type}

/-- A queue without elements. -/
def empty : Heap α :=
  ⟨#[]⟩

/-- The number of elements. -/
def size (h : Heap α) : Nat :=
  h.elements.size

/-- Let the element at a position rise past the elements that it comes before. -/
def rise (before : α → α → Bool) (a : Array α) (i : Nat) (hi : i < a.size) : Array α :=
  if hz : i = 0 then a
  else
    have hp : (i - 1) / 2 < a.size := by omega
    if before a[i] a[(i - 1) / 2] then
      rise before (a.swap i ((i - 1) / 2)) ((i - 1) / 2) (by rw [Array.size_swap]; exact hp)
    else a
termination_by i
decreasing_by omega

/-- The child that would rise: the left one, unless the right one comes before it. -/
def child (before : α → α → Bool) (a : Array α) (i : Nat) : Nat :=
  if h : 2 * i + 2 < a.size then
    if before a[2 * i + 2] a[2 * i + 1] then 2 * i + 2 else 2 * i + 1
  else 2 * i + 1

theorem lt_child (before : α → α → Bool) (a : Array α) (i : Nat) : i < child before a i := by
  unfold child
  split
  · split <;> omega
  · omega

/-- Let the element at a position sink below the children that come before it. -/
def sink (before : α → α → Bool) (a : Array α) (i : Nat) : Array α :=
  have down := lt_child before a i
  if h : child before a i < a.size then
    if before a[child before a i] a[i] then
      sink before (a.swap i (child before a i)) (child before a i)
    else a
  else a
termination_by a.size - i
decreasing_by rw [Array.size_swap]; omega

/-- Put an element in. -/
def insert (before : α → α → Bool) (h : Heap α) (x : α) : Heap α :=
  ⟨rise before (h.elements.push x) h.elements.size (by simp)⟩

/-- Take the first element out. -/
def pop (before : α → α → Bool) (h : Heap α) : Option (α × Heap α) :=
  if hs : 0 < h.elements.size then
    let first := h.elements[0]
    let last := h.elements[h.elements.size - 1]
    -- The last element takes the first place and sinks from there.
    some (first, ⟨sink before (h.elements.set 0 last).pop 0⟩)
  else none

/-- At most `n` elements in the order in which they leave. -/
def drainUpTo (before : α → α → Bool) : Nat → Heap α → List α
  | 0, _ => []
  | n + 1, h =>
    match h.pop before with
    | none => []
    | some (x, rest) => x :: drainUpTo before n rest

/-- The elements in the order in which they leave. -/
def drain (before : α → α → Bool) (h : Heap α) : List α :=
  drainUpTo before h.size h

end Heap

end ThreeWay
