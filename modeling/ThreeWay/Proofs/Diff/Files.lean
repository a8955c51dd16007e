import Mathlib.Data.List.Nodup
import ThreeWay.Proofs.Diff.Build
import ThreeWay.Proofs.Path.Names

/-!
# The Files of a Difference

A difference tree has nodes for folders and nodes for files. Read as a list of changes, a node counts if it
has a file on one of its sides, and the folders are only the way there.

`Tells` says what such a list has to be. It is a statement about chains of names: below a place, the tree
tells the changes that some predicate asks for, and each of them once. A folder tells what its children tell,
which is where the order of the children comes in: different names lead to different paths, so what one child
tells no other child tells again.

## Main definitions

* `DiffNode.nodes`: A node and the nodes below it.
* `DiffNode.fileChanges`: What the nodes with files stand for.
* `DiffNode.Tells`: A node tells certain changes, each of them once.

## Theorems

* `map_snd_walkFrom`, `map_snd_walkList`: The nodes below a node, without their depths.
* `nodes_eq`, `fileChanges_eq`: The list of a node is made from the lists of its children.
* `Tells.congr`: What is asked for counts only at and below the place.
* `tells_file`, `tells_folder`: What a node for a file, and one for a folder, tells.
-/

namespace ThreeWay

open Scanner ThreeWay.Path

/-- What becomes of a file at a node of a kind. -/
def DiffKind.changeKind : DiffKind → ChangeKind
  | .addition => .addition
  | .deletion => .deletion
  | .change => .modification

namespace DiffNode

/-- Whether a node has a file on one of its sides. -/
def hasFile (n : DiffNode) : Bool :=
  n.left.any (!·.isTree) || n.right.any (!·.isTree)

/-- The change that a node with a file stands for. -/
def change? (n : DiffNode) : Option Change :=
  if n.hasFile then n.path?.map fun path => ⟨path, n.kind.changeKind⟩ else none

/-- A node and the nodes below it. -/
def nodes (n : DiffNode) : List DiffNode :=
  n :: n.walk.map Prod.snd

/-- The changes that the nodes with files stand for. -/
def fileChanges (n : DiffNode) : List Change :=
  n.nodes.filterMap change?

mutual

/-- The nodes below a node are those at and below its children. -/
theorem map_snd_walkFrom (depth : Nat) (n : DiffNode) :
    (walkFrom depth n).map Prod.snd = n.children.flatMap nodes := by
  rcases n with ⟨left, right, kind, children⟩
  rw [walkFrom, map_snd_walkList]

theorem map_snd_walkList (depth : Nat) (ns : List DiffNode) :
    (walkList depth ns).map Prod.snd = ns.flatMap nodes := by
  rcases ns with _ | ⟨n, ns⟩
  · rw [walkList, List.map_nil, List.flatMap_nil]
  · -- At whatever depth a walk starts to count, the nodes are the same.
    rw [walkList, List.cons_append, List.map_cons, List.map_append, map_snd_walkFrom (depth + 1) n,
      map_snd_walkList depth ns, List.flatMap_cons, nodes, walk, map_snd_walkFrom 0 n, List.cons_append]

end

theorem nodes_eq (n : DiffNode) : n.nodes = n :: n.children.flatMap nodes := by
  rw [nodes, walk, map_snd_walkFrom]

theorem fileChanges_eq (n : DiffNode) :
    n.fileChanges = n.change?.toList ++ n.children.flatMap fileChanges := by
  -- What the nodes below stand for is made from the lists of the children.
  have hbelow : (n.children.flatMap nodes).filterMap change? = n.children.flatMap fileChanges :=
    List.filterMap_flatMap
  rw [fileChanges, nodes_eq, List.filterMap_cons, hbelow]
  cases n.change? <;> rfl

/-- At and below a place, a node tells the changes that are asked for, and each of them once. -/
structure Tells (n : DiffNode) (above : List Bytes) (P : List Bytes → ChangeKind → Prop) : Prop where
  once : n.fileChanges.Nodup
  mem_iff : ∀ p k, ⟨p, k⟩ ∈ n.fileChanges ↔
    ∃ more, p = pathOf (above ++ more) ∧ P (above ++ more) k

variable {n : DiffNode} {above : List Bytes} {P Q : List Bytes → ChangeKind → Prop}

/-- What is asked for counts only at and below the place. -/
theorem Tells.congr (h : n.Tells above P)
    (same : ∀ more k, P (above ++ more) k ↔ Q (above ++ more) k) : n.Tells above Q where
  once := h.once
  mem_iff p k := by
    rw [h.mem_iff]
    simp only [same]

/-- A node for a file tells its own change. -/
theorem tells_file (kind : ChangeKind) (hchange : n.change? = some ⟨pathOf above, kind⟩)
    (hchildren : n.children = [])
    (asked : ∀ more k, P (above ++ more) k ↔ more = [] ∧ k = kind) : n.Tells above P := by
  -- The list is the change alone, so there is nothing that could be told twice.
  have hfiles : n.fileChanges = [⟨pathOf above, kind⟩] := by
    rw [fileChanges_eq, hchange, hchildren]
    rfl
  refine ⟨?_, fun p k => ?_⟩
  · rw [hfiles]
    exact List.nodup_singleton _
  · simp only [hfiles, asked, List.mem_singleton, Change.mk.injEq]
    constructor
    · rintro ⟨hp, hk⟩
      exact ⟨[], by rw [List.append_nil, hp], rfl, hk⟩
    · rintro ⟨more, hp, rfl, hk⟩
      rw [List.append_nil] at hp
      exact ⟨hp, hk⟩

/-- A node for a folder tells what its children tell. Every child speaks about one name, and every name
    about which there is something to say has a child. -/
theorem tells_folder (hchange : n.change? = none) (ordered : Ascending DiffNode.name n.children)
    (named : ∀ names k, P names k → ∀ name ∈ names, IsName name)
    (here : ∀ k, ¬ P above k)
    (told : ∀ m ∈ n.children, m.Tells (above ++ [Utf8.encode m.name]) P)
    (complete : ∀ name more k, P (above ++ name :: more) k →
      ∃ m ∈ n.children, Utf8.encode m.name = name) : n.Tells above P := by
  have hfiles : n.fileChanges = n.children.flatMap fileChanges := by
    rw [fileChanges_eq, hchange]
    rfl
  refine ⟨?_, fun p k => ?_⟩
  · rw [hfiles, List.nodup_flatMap]
    refine ⟨fun m hm => (told m hm).once, ordered.imp_of_mem fun {a b} ha hb hlt => ?_⟩
    -- A change that two children tell has a path with two names at one place.
    rintro ⟨p, k⟩ hpa hpb
    rcases ((told a ha).mem_iff p k).mp hpa with ⟨xs, hxs, askedA⟩
    rcases ((told b hb).mem_iff p k).mp hpb with ⟨ys, hys, askedB⟩
    have hchains := pathOf_injective (named _ k askedA) (named _ k askedB) (hxs.symm.trans hys)
    rw [List.append_assoc, List.append_assoc, List.append_cancel_left_eq] at hchains
    have hname : a.name = b.name := Utf8.encode_injective (List.cons.inj hchains).1
    rw [hname] at hlt
    exact lt_irrefl _ hlt
  · rw [hfiles, List.mem_flatMap]
    constructor
    · rintro ⟨m, hm, hmem⟩
      rcases ((told m hm).mem_iff p k).mp hmem with ⟨more, hp, asked⟩
      rw [List.append_assoc] at hp asked
      exact ⟨_, hp, asked⟩
    · rintro ⟨more, hp, asked⟩
      cases more with
      | nil =>
          rw [List.append_nil] at asked
          exact absurd asked (here k)
      | cons name more =>
          -- What is asked for below has a child for the first name, and that child tells it.
          rcases complete name more k asked with ⟨m, hm, rfl⟩
          refine ⟨m, hm, ((told m hm).mem_iff p k).mpr ⟨more, ?_, ?_⟩⟩
          · rw [List.append_assoc]
            exact hp
          · rw [List.append_assoc]
            exact asked

end DiffNode

end ThreeWay
