import ThreeWay.Variant

/-!
# Joining two listings

Two listings in ascending order of names are joined in one pass: the smaller name goes first, and equal
names make a pair. The join looks at names only, so it is a plain function of the two listings, and
what happens to each pairing is decided afterwards.

Nothing is sorted. On listings out of order the pairs are other ones, but still each member of each
side occurs once, in the order of its listing.

## Main definitions

* `Pairing`: A member of the left listing, of the right listing, or one of each.
* `Pairing.join`: The pairings of two listings.
-/

namespace ThreeWay

/-- A member of one listing, or one member of each. -/
inductive Pairing (α : Type) where
  | left (a : α)
  | right (b : α)
  | both (a b : α)
deriving DecidableEq

namespace Pairing

/-- The member of the left listing, if any. -/
def left? : Pairing α → Option α
  | .left a => some a
  | .right _ => none
  | .both a _ => some a

/-- The member of the right listing, if any. -/
def right? : Pairing α → Option α
  | .left _ => none
  | .right b => some b
  | .both _ b => some b

/-- The pairing with its sides exchanged. -/
def swap : Pairing α → Pairing α
  | .left a => .right a
  | .right b => .left b
  | .both a b => .both b a

/-- The pairings of two listings: the smaller name first, equal names together. -/
def join (name : α → String) : List α → List α → List (Pairing α)
  | [], rs => rs.map .right
  | ls, [] => ls.map .left
  | l :: ls, r :: rs =>
    if name l = name r then .both l r :: join name ls rs
    -- In ascending listings nothing further right can have this name.
    else if name l < name r then .left l :: join name ls (r :: rs)
    else .right r :: join name (l :: ls) rs
termination_by ls rs => ls.length + rs.length

end Pairing

end ThreeWay
