import ThreeWay.Variant

/-!
# Difference trees

What differs between two hierarchies, as a tree. A node holds the sides that it relates, without their
members: those are its children.

## Main definitions

* `DiffKind`: How a node relates its sides.
* `DiffNode`: A node and the differences below it.
* `DiffNode.size`: The number of nodes below a node.
* `DiffNode.walk`: The nodes below a node with their depths, each before what lies below it.
-/

namespace ThreeWay

/-- How a node relates its left side to its right side. -/
inductive DiffKind where
  | addition
  | deletion
  | change
deriving DecidableEq, Inhabited

/-- The kind seen from the other side. -/
def DiffKind.flip : DiffKind → DiffKind
  | .addition => .deletion
  | .deletion => .addition
  | .change => .change

/-- A difference and the differences below it. -/
structure DiffNode where
  left : Option Variant
  right : Option Variant
  kind : DiffKind
  children : List DiffNode
deriving Inhabited

namespace DiffNode

/-- A node for two sides; the sides leave their members behind. -/
def make (left right : Option Variant) (kind : DiffKind) (children : List DiffNode) : DiffNode :=
  ⟨left.map Variant.detach, right.map Variant.detach, kind, children⟩

/-- The left side, or the right side where there is no left one. -/
def side? (n : DiffNode) : Option Variant :=
  n.left <|> n.right

/-- The name of a node, taken from the left side first. -/
def name (n : DiffNode) : String :=
  (n.side?.map Variant.name).getD ""

/-- The place of a node, taken from the left side first. -/
def path? (n : DiffNode) : Option Path :=
  n.side?.map Variant.path

/-- Whether a node stands for a folder, judged by the left side first. -/
def isTree (n : DiffNode) : Bool :=
  n.side?.any Variant.isTree

/-- Whether nothing below a node differs. -/
def isEmpty (n : DiffNode) : Bool :=
  n.children.isEmpty

mutual

/-- The number of nodes below a node. -/
def size : DiffNode → Nat
  | ⟨_, _, _, children⟩ => sizeList children

/-- The number of nodes at and below the nodes of a list. -/
def sizeList : List DiffNode → Nat
  | [] => 0
  | n :: rest => 1 + n.size + sizeList rest

end

mutual

/-- The nodes below a node, each with its depth and before what lies below it. -/
def walkFrom (depth : Nat) : DiffNode → List (Nat × DiffNode)
  | ⟨_, _, _, children⟩ => walkList depth children

/-- The nodes at and below the nodes of a list, those of the list at the given depth. -/
def walkList (depth : Nat) : List DiffNode → List (Nat × DiffNode)
  | [] => []
  -- A node stands before what lies below it, as a report lists them.
  | n :: rest => (depth, n) :: walkFrom (depth + 1) n ++ walkList depth rest

end

/-- The nodes below a node with their depths, the children at depth zero. -/
def walk (n : DiffNode) : List (Nat × DiffNode) :=
  walkFrom 0 n

end DiffNode

end ThreeWay
