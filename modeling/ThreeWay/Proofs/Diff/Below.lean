import ThreeWay.Proofs.Diff.Law
import ThreeWay.Synchronizer

/-!
# Nodes Below a Node

A walk lists the nodes below a node with their depths. For what differs only the nodes matter: a node without
children stands for a path at which the sides differ, and it is found wherever it hangs.

The walk lists a child before what is below it, and each level with a depth of its own. To say that a node is
found without saying where, `DiffNode.Below` asks for some depth, whatever depth the walk starts with. So it goes
on from child to parent although their depths differ.

## Main definitions

* `DiffNode.Below`: A node of the walk.
* `DiffNode.HasLeaf`: A path at which a node, or a node below it, has no further differences.

## Theorems

* `mem_walkList_self`, `mem_walkList_below`: A walk of children meets each of them and what is below it.
* `below_of_mem`, `Below.of_child`: What hangs below a node is walked.
* `HasLeaf.of_child`: What a child has below it, its parent has.
* `mem_changedPaths`: The paths of all leaves are found.
-/

namespace ThreeWay

namespace DiffNode

variable {n m child : DiffNode} {p : Path}

/-- A node of the walk below another, at whatever depth the walk starts to count. -/
def Below (n m : DiffNode) : Prop :=
  ∀ depth, ∃ d, (d, m) ∈ walkFrom depth n

/-- A node at or below another, at a path, without differences below it. -/
def HasLeaf (n : DiffNode) (p : Path) : Prop :=
  ∃ m, (m = n ∨ n.Below m) ∧ m.isEmpty = true ∧ m.path? = some p

theorem mem_walkList_self {ns : List DiffNode} (h : n ∈ ns) (depth : Nat) :
    (depth, n) ∈ walkList depth ns := by
  -- Over the children in front of this one, each with all that is below it.
  induction ns with
  | nil => exact absurd h List.not_mem_nil
  | cons m ns ih =>
      rw [walkList]
      rcases List.mem_cons.mp h with rfl | h
      · exact List.mem_cons_self
      · exact List.mem_cons_of_mem _ (List.mem_append_right _ (ih h))

theorem mem_walkList_below {ns : List DiffNode} (h : n ∈ ns) {depth : Nat} {e : Nat × DiffNode}
    (he : e ∈ walkFrom (depth + 1) n) : e ∈ walkList depth ns := by
  induction ns with
  | nil => exact absurd h List.not_mem_nil
  | cons m ns ih =>
      rw [walkList]
      rcases List.mem_cons.mp h with rfl | h
      · exact List.mem_cons_of_mem _ (List.mem_append_left _ he)
      · exact List.mem_cons_of_mem _ (List.mem_append_right _ (ih h))

theorem walkFrom_eq (n : DiffNode) (depth : Nat) : walkFrom depth n = walkList depth n.children := by
  rcases n with ⟨left, right, kind, children⟩
  rw [walkFrom]

theorem below_of_mem (h : child ∈ n.children) : n.Below child := by
  intro depth
  rw [walkFrom_eq]
  exact ⟨depth, mem_walkList_self h depth⟩

theorem Below.of_child (h : child ∈ n.children) (hb : child.Below m) : n.Below m := by
  intro depth
  rcases hb (depth + 1) with ⟨d, hd⟩
  rw [walkFrom_eq]
  exact ⟨d, mem_walkList_below h hd⟩

/-- What a child has below it, its parent has. -/
theorem HasLeaf.of_child (h : child ∈ n.children) (hl : child.HasLeaf p) : n.HasLeaf p := by
  rcases hl with ⟨m, rfl | hb, hm⟩
  · exact ⟨m, Or.inr (below_of_mem h), hm⟩
  · exact ⟨m, Or.inr (hb.of_child h), hm⟩

end DiffNode

/-- The paths of all leaves below a node are found. -/
theorem Synchronizer.mem_changedPaths {n : DiffNode} {p : Path} (hl : n.HasLeaf p)
    (hp : n.path? ≠ some p) : p ∈ changedPaths n := by
  -- The leaf is not the root, or it would have the path of the root.
  rcases hl with ⟨m, rfl | hb, hempty, hpath⟩
  · exact absurd hpath hp
  · rcases hb 0 with ⟨d, hd⟩
    rw [changedPaths, List.mem_filterMap]
    refine ⟨(d, m), hd, ?_⟩
    simp only [hempty, if_true, hpath]

end ThreeWay
