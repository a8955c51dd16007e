import ThreeWay.Proofs.Diff.Build
import ThreeWay.Proofs.Diff.Files

/-!
# The Nodes of an Answer

A difference tree is built from the bottom up, and what is known of its root is known of every node: each
node was an answer itself, one level further down, and below the root it was an answer for members that have
been checked. So a property of nodes is shown for the root of an answer, once for an expanded variant and once
for a change, and `DiffNode.forall_nodes` carries it to all others.

The induction is on nodes and not on hierarchies, because the tree that was built is what is at hand: the
hierarchies below it may be deferred, and listings of them may not be in order. Nothing here asks for the law of a
difference, and so nothing asks for ordered listings.

## Main definitions

* `DiffNode.Formed`: A node whose sides go with its kind and exist.
* `DiffNode.Bare`: A node whose sides list no members.
* `Differ.Expanded`, `Differ.Answers`: A node that is an answer for valid members.

## Theorems

* `DiffNode.forall_nodes`: What a node hands on to its children holds of all nodes below it.
* `exists_child_of_mem_walk`: What is met on a walk is at or below a child.
* `present_of_make`, `bare_make`: What a node keeps of the variants that it was made of.
* `Expanded.children`, `Answers.children`: Every node of an answer is an answer.
* `exists_oneSided_of_mem_expand`: Every node of an expanded tree stands for one side.
* `formed_of_compare`, `formed_of_answers`: Such nodes are formed.
* `named_of_answers`: Below the root they have names.
* `bare_of_expand`, `bare_of_compare`: They are bare.
-/

namespace ThreeWay

namespace DiffNode

/-- What a node hands on to its children holds of all nodes below it. -/
theorem forall_nodes {P : DiffNode → Prop} (step : ∀ n, P n → ∀ m ∈ n.children, P m) (n : DiffNode)
    (h : P n) : ∀ m ∈ n.nodes, P m := by
  intro m hm
  rw [nodes_eq] at hm
  rcases List.mem_cons.mp hm with rfl | hm
  · exact h
  · rcases List.mem_flatMap.mp hm with ⟨child, hchild, hm⟩
    -- A child is smaller than its node, which is what the recursion goes by.
    have smaller : sizeOf child < sizeOf n := by
      rcases n with ⟨left, right, kind, children⟩
      change child ∈ children at hchild
      have hlt := List.sizeOf_lt_of_mem hchild
      simp only [DiffNode.mk.sizeOf_spec]
      omega
    exact forall_nodes step child (step n h child hchild) m hm
termination_by sizeOf n

/-- What is met on a walk is at or below a child. -/
theorem exists_child_of_mem_walk {n : DiffNode} {e : Nat × DiffNode} (he : e ∈ n.walk) :
    ∃ child ∈ n.children, e.2 ∈ child.nodes := by
  have hm := List.mem_map_of_mem (f := Prod.snd) he
  rw [walk, map_snd_walkFrom] at hm
  exact List.mem_flatMap.mp hm

/-- A node whose sides go with its kind and exist. Below a node of one side all nodes are of its kind. -/
structure Formed (n : DiffNode) : Prop where
  left_iff : n.left.isSome ↔ n.kind ≠ .deletion
  right_iff : n.right.isSome ↔ n.kind ≠ .addition
  present : ∀ v, n.left = some v ∨ n.right = some v → v.present = true
  below : n.kind ≠ .change → ∀ m ∈ n.nodes, m.kind = n.kind

/-- A node whose sides list no members. -/
def Bare (n : DiffNode) : Prop :=
  ∀ v, n.left = some v ∨ n.right = some v → v.members? = none

/-- The sides of a node exist if those that it was made of do. -/
theorem present_of_make {left right : Option Variant} {kind : DiffKind} {children : List DiffNode}
    (h : ∀ v, left = some v ∨ right = some v → v.present = true) (v : Variant)
    (hv : (make left right kind children).left = some v ∨ (make left right kind children).right = some v) :
    v.present = true := by
  have detached : ∀ u : Variant, u.detach.present = u.present := fun u => by cases u <;> rfl
  rcases hv with hv | hv
  · rcases Option.map_eq_some_iff.mp hv with ⟨u, hu, rfl⟩
    rw [detached, h u (Or.inl hu)]
  · rcases Option.map_eq_some_iff.mp hv with ⟨u, hu, rfl⟩
    rw [detached, h u (Or.inr hu)]

/-- A node leaves behind what its sides list. -/
theorem bare_make (left right : Option Variant) (kind : DiffKind) (children : List DiffNode) :
    (make left right kind children).Bare := by
  have detached : ∀ u : Variant, u.detach.members? = none := fun u => by cases u <;> rfl
  rintro v (hv | hv)
  · rcases Option.map_eq_some_iff.mp hv with ⟨u, _, rfl⟩
    exact detached u
  · rcases Option.map_eq_some_iff.mp hv with ⟨u, _, rfl⟩
    exact detached u

end DiffNode

namespace Differ

open Run

variable {d : Differ} {levels : Nat} {kind : DiffKind} {l r v : Variant} {node : DiffNode}

/-- A node that is an answer to the expansion of a valid member. -/
def Expanded (d : Differ) (kind : DiffKind) (n : DiffNode) : Prop :=
  ∃ levels v, ValidMember v ∧ Returns (d.expand levels kind v) n

/-- A node that is an answer for valid members, for one of them alone or for two of one name. -/
def Answers (d : Differ) (n : DiffNode) : Prop :=
  (∃ kind, kind ≠ .change ∧ d.Expanded kind n) ∨
    ∃ levels l r, ValidMember l ∧ ValidMember r ∧ l.name = r.name ∧ Returns (d.compare levels l r) n

/-- The sides and the kind of an answer. -/
theorem eq_oneSided_of_expand (h : Returns (d.expand levels kind v) node) :
    ∃ children, node = oneSided v kind children := by
  rcases returns_expand h with ⟨b, rfl, rfl⟩ | ⟨_, _, _, _, _, _, rfl, _, _, _, rfl⟩
  · exact ⟨_, rfl⟩
  · exact ⟨_, rfl⟩

theorem eq_make_of_compare (h : Returns (d.compare levels l r) node) :
    ∃ children, node = .make (some l) (some r) .change children := by
  rcases returns_compare h with ⟨_, rfl⟩ | ⟨_, _, _, _, _, _, _, _, _, rfl, rfl, _, _, _, _, _, rfl⟩
  · exact ⟨_, rfl⟩
  · exact ⟨_, rfl⟩

theorem children_oneSided (v : Variant) (kind : DiffKind) (children : List DiffNode) :
    (oneSided v kind children).children = children := by
  cases kind <;> rfl

theorem kind_oneSided (v : Variant) (kind : DiffKind) (children : List DiffNode) :
    (oneSided v kind children).kind = kind := by
  cases kind <;> rfl

theorem bare_oneSided (v : Variant) (kind : DiffKind) (children : List DiffNode) :
    (oneSided v kind children).Bare := by
  cases kind with
  | addition => exact DiffNode.bare_make _ _ _ _
  | deletion => exact DiffNode.bare_make _ _ _ _
  | change => exact DiffNode.bare_make _ _ _ _

/-! ### Answers All the Way Down -/

/-- The children of an expanded node are expanded members. -/
theorem children_of_expand (h : Returns (d.expand levels kind v) node) :
    ∀ m ∈ node.children, d.Expanded kind m := by
  rcases returns_expand h with ⟨b, rfl, rfl⟩ | ⟨_, _, _, _, _, _, rfl, _, valid, below, rfl⟩
  · rw [children_oneSided]
    exact fun m hm => absurd hm List.not_mem_nil
  · rw [children_oneSided]
    intro m hm
    rcases below.exists_mem_of_mem_right hm with ⟨u, hu, hn⟩
    exact ⟨_, u, valid u hu, hn⟩

theorem Expanded.children (h : d.Expanded kind node) : ∀ m ∈ node.children, d.Expanded kind m := by
  rcases h with ⟨_, _, _, hn⟩
  exact children_of_expand hn

/-- The children of a change are answers for members of its two listings. -/
theorem children_of_compare (h : Returns (d.compare levels l r) node) :
    ∀ m ∈ node.children, d.Answers m := by
  rcases returns_compare h with
    ⟨_, rfl⟩ | ⟨fewer, _, _, _, _, ls, rs, found, _, rfl, rfl, _, _, validL, validR, answers, rfl⟩
  · exact fun m hm => absurd hm List.not_mem_nil
  · intro m hm
    rcases answers.exists_mem_of_mem_right (mem_filterMap_id.mp hm) with ⟨p, hp, answered⟩
    have sides := Pairing.sides_of_mem_join hp
    -- Each pairing has its own kind of answer, and all of them are for members that were checked.
    cases answered with
    | addition a _ answer =>
        exact Or.inl ⟨.addition, DiffKind.noConfusion, fewer, a, validL a (sides.1 a rfl), answer⟩
    | deletion b _ answer =>
        exact Or.inl ⟨.deletion, DiffKind.noConfusion, fewer, b, validR b (sides.2 b rfl), answer⟩
    | kept a b _ _ answer _ =>
        exact Or.inr ⟨fewer, a, b, validL a (sides.1 a rfl), validR b (sides.2 b rfl),
          Pairing.name_eq_of_mem_join hp rfl rfl, answer⟩
    | unequal a b _ _ _ answer =>
        exact Or.inr ⟨fewer, a, b, validL a (sides.1 a rfl), validR b (sides.2 b rfl),
          Pairing.name_eq_of_mem_join hp rfl rfl, answer⟩

theorem Answers.children (h : d.Answers node) : ∀ m ∈ node.children, d.Answers m := by
  rcases h with ⟨kind, hkind, h⟩ | ⟨_, _, _, _, _, _, hn⟩
  · exact fun m hm => Or.inl ⟨kind, hkind, h.children m hm⟩
  · exact children_of_compare hn

/-! ### What Is Known of Answers -/

/-- Every node of an expanded tree stands for one side and has the kind of the root. -/
theorem exists_oneSided_of_mem_expand (h : Returns (d.expand levels kind v) node) :
    ∀ m ∈ node.nodes, ∃ u children, m = oneSided u kind children := by
  -- Below an expanded node everything is expanded, so the root is all that has to be looked at.
  have step : ∀ n, (∃ levels v, Returns (d.expand levels kind v) n) →
      ∀ m ∈ n.children, ∃ levels v, Returns (d.expand levels kind v) m := by
    rintro n ⟨levels, v, hn⟩ m hm
    rcases children_of_expand hn m hm with ⟨fewer, u, _, hu⟩
    exact ⟨fewer, u, hu⟩
  intro m hm
  rcases DiffNode.forall_nodes step node ⟨levels, v, h⟩ m hm with ⟨_, u, hu⟩
  exact ⟨u, eq_oneSided_of_expand hu⟩

theorem formed_of_expand (hkind : kind ≠ .change) (present : v.present = true)
    (h : Returns (d.expand levels kind v) node) : node.Formed := by
  -- The kind is handed down unchanged, and each node has a side that goes with it.
  have below : ∀ m ∈ node.nodes, m.kind = kind := by
    intro m hm
    rcases exists_oneSided_of_mem_expand h m hm with ⟨u, _, rfl⟩
    exact kind_oneSided u kind _
  rcases eq_oneSided_of_expand h with ⟨children, rfl⟩
  rw [← kind_oneSided v kind children] at below
  cases kind with
  | addition =>
      refine ⟨by simp [oneSided, DiffNode.make], by simp [oneSided, DiffNode.make], ?_, fun _ => below⟩
      exact DiffNode.present_of_make fun u hu => by
        rcases hu with hu | hu
        · cases hu
          exact present
        · cases hu
  | deletion =>
      refine ⟨by simp [oneSided, DiffNode.make], by simp [oneSided, DiffNode.make], ?_, fun _ => below⟩
      exact DiffNode.present_of_make fun u hu => by
        rcases hu with hu | hu
        · cases hu
        · cases hu
          exact present
  | change => exact absurd rfl hkind

theorem formed_of_compare (presentL : l.present = true) (presentR : r.present = true)
    (h : Returns (d.compare levels l r) node) : node.Formed := by
  rcases eq_make_of_compare h with ⟨children, rfl⟩
  refine ⟨by simp [DiffNode.make], by simp [DiffNode.make], ?_, fun hk => absurd rfl hk⟩
  refine DiffNode.present_of_make ?_
  rintro u (hu | hu)
  · cases hu
    exact presentL
  · cases hu
    exact presentR

theorem formed_of_answers (h : d.Answers node) : node.Formed := by
  rcases h with ⟨kind, hkind, _, v, hv, hn⟩ | ⟨_, l, r, hl, hr, _, hn⟩
  · exact formed_of_expand hkind hv.present hn
  · exact formed_of_compare hl.present hr.present hn

/-- An answer for valid members has a name, and there is no slash in it. -/
theorem named_of_answers (h : d.Answers node) : node.name ≠ "" ∧ '/' ∉ node.name.toList := by
  -- The name of a node is the name of a member, and members with other names are refused.
  rcases h with ⟨kind, hkind, _, v, hv, hn⟩ | ⟨_, l, r, hl, hr, _, hn⟩
  · rw [whole_name (expand_whole hn)]
    exact ⟨hv.named, hv.single⟩
  · rcases eq_make_of_compare hn with ⟨children, rfl⟩
    have hname : (DiffNode.make (some l) (some r) .change children).name = l.name := detach_name l
    rw [hname]
    exact ⟨hl.named, hl.single⟩

/-- No node of an answer lists members. -/
theorem bare_of_expand (h : Returns (d.expand levels kind v) node) : ∀ m ∈ node.nodes, m.Bare := by
  intro m hm
  rcases exists_oneSided_of_mem_expand h m hm with ⟨u, children, rfl⟩
  exact bare_oneSided u kind children

theorem bare_of_answers (h : d.Answers node) : node.Bare := by
  rcases h with ⟨kind, _, _, v, _, hn⟩ | ⟨_, l, r, _, _, _, hn⟩
  · exact bare_of_expand hn node (List.mem_cons_self ..)
  · rcases eq_make_of_compare hn with ⟨children, rfl⟩
    exact DiffNode.bare_make _ _ _ _

theorem bare_of_compare (h : Returns (d.compare levels l r) node) : ∀ m ∈ node.nodes, m.Bare := by
  intro m hm
  rw [DiffNode.nodes_eq] at hm
  rcases List.mem_cons.mp hm with rfl | hm
  · rcases eq_make_of_compare h with ⟨children, rfl⟩
    exact DiffNode.bare_make _ _ _ _
  · rcases List.mem_flatMap.mp hm with ⟨child, hchild, hm⟩
    have answers := children_of_compare h child hchild
    exact bare_of_answers (DiffNode.forall_nodes (fun _ hn => hn.children) child answers m hm)

end Differ

end ThreeWay
