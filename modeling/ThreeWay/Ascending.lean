/-!
# Lists in ascending order of a key

Listings, snapshots and reports are lists that a key orders, with one element for each key. These
functions put an element where its key belongs and leave the rest alone.

## Main definitions

* `insertAt`: Put an element at its key's place; it replaces an element with the same key.
* `insertNew`: The same, but an element that is already there stays.
* `ascending`, `ascendingNew`: A list put in order one element after the other.
-/

namespace ThreeWay

section

variable {α κ : Type} [LT κ] [DecidableLT κ] [DecidableEq κ]

/-- Put an element at its key's place; it replaces an element with the same key. -/
def insertAt (key : α → κ) (x : α) : List α → List α
  | [] => [x]
  | y :: ys =>
    if key x < key y then x :: y :: ys
    else if key x = key y then x :: ys
    else y :: insertAt key x ys

/-- Put an element at its key's place, unless the key is taken. -/
def insertNew (key : α → κ) (x : α) : List α → List α
  | [] => [x]
  | y :: ys =>
    if key x < key y then x :: y :: ys
    else if key x = key y then y :: ys
    else y :: insertNew key x ys

/-- The elements of a list in ascending order of their keys, the last one of each key. -/
def ascending (key : α → κ) (xs : List α) : List α :=
  xs.foldl (fun acc x => insertAt key x acc) []

/-- The elements of a list in ascending order of their keys, the first one of each key. -/
def ascendingNew (key : α → κ) (xs : List α) : List α :=
  xs.foldl (fun acc x => insertNew key x acc) []

end

end ThreeWay
