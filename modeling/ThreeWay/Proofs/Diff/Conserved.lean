import ThreeWay.Proofs.Diff.Nodes

/-!
# Members That a Difference Uses Up

A difference of two hierarchies is built by one pass over two listings. If these are in order, every name is
met on both sides at once; if they are not, or if a name comes twice, the pass pairs what happens to stand at
the heads, and the difference need not be the smallest one. It is a difference still: the pass takes one
member off the left listing, off the right one, or one off each, and it ends when both are empty.

`Conserves` says so of a change, all the way down. Its children in their order, together with the pairs of one
name that were found equal and have no child, use up both listings from the front. Such a statement holds of
any answer, and there is an answer for all hierarchies of valid members that go down only so far.

## Main definitions

* `Conserves`: A change below which no member is lost or used twice.
* `UsesUp`: Two listings used up by the children of a change.

## Theorems

* `usesUp_of_answered`: Answers for all pairings use up both sides of them.
* `conserves_of_compare`: An answer conserves the members of all listings.
* `diff_conserves`: Two valid hierarchies have a difference that conserves all members.
-/

namespace ThreeWay

mutual

/-- The difference of two variants below which no member is lost or used twice. -/
inductive Conserves (c : Comparator) : Variant → Variant → DiffNode → Prop
  | flat (l r : Variant) (flat : ¬ (l.isTree ∧ r.isTree)) :
      Conserves c l r (.make (some l) (some r) .change [])
  | folders (f g : Folder) (fs gs : Option (List Variant)) (ls rs : List Variant)
      (children : List DiffNode)
      (left : c.store.listed f fs = .ok ls) (right : c.store.listed g gs = .ok rs)
      (used : UsesUp c ls rs children) :
      Conserves c (.tree f fs) (.tree g gs)
        (.make (some (.tree f fs)) (some (.tree g gs)) .change children)

/-- Two listings used up from the front. A member alone is a child with everything below it, and a pair of
    members of one name is a child with the difference of the two, or no child if they were found equal. Two
    folders that only their place makes equal are told apart by what is found below them, and all other
    pairs by a comparison. -/
inductive UsesUp (c : Comparator) : List Variant → List Variant → List DiffNode → Prop
  | nil : UsesUp c [] [] []
  | addition (l : Variant) (ls rs : List Variant) (n : DiffNode) (children : List DiffNode)
      (whole : Whole c.store .addition l n) (rest : UsesUp c ls rs children) :
      UsesUp c (l :: ls) rs (n :: children)
  | deletion (r : Variant) (ls rs : List Variant) (n : DiffNode) (children : List DiffNode)
      (whole : Whole c.store .deletion r n) (rest : UsesUp c ls rs children) :
      UsesUp c ls (r :: rs) (n :: children)
  | change (l r : Variant) (ls rs : List Variant) (n : DiffNode) (children : List DiffNode)
      (same : l.name = r.name) (below : Conserves c l r n)
      (found : Differ.equalByPlace l r = true → n.children ≠ [])
      (unequal : Differ.equalByPlace l r = false → c.equal (some l) (some r) = .ok false)
      (rest : UsesUp c ls rs children) : UsesUp c (l :: ls) (r :: rs) (n :: children)
  | equalBelow (l r : Variant) (ls rs : List Variant) (n : DiffNode) (children : List DiffNode)
      (same : l.name = r.name) (place : Differ.equalByPlace l r = true) (below : Conserves c l r n)
      (nothing : n.children = []) (rest : UsesUp c ls rs children) :
      UsesUp c (l :: ls) (r :: rs) children
  | equal (l r : Variant) (ls rs : List Variant) (children : List DiffNode) (same : l.name = r.name)
      (place : Differ.equalByPlace l r = false) (judged : c.equal (some l) (some r) = .ok true)
      (rest : UsesUp c ls rs children) : UsesUp c (l :: ls) (r :: rs) children

end

namespace Differ

open Run

variable {d : Differ} {levels : Nat} {l r : Variant} {node : DiffNode}

/-- Answers for all pairings use up both sides of them. -/
theorem usesUp_of_answered {ps : List (Pairing Variant)} {found : List (Option DiffNode)}
    (answers : List.Forall₂ (Answered d levels) ps found)
    (same : ∀ l r, .both l r ∈ ps → l.name = r.name)
    (below : ∀ l r n, Returns (d.compare levels l r) n → Conserves d.comparator l r n) :
    UsesUp d.comparator (ps.filterMap Pairing.left?) (ps.filterMap Pairing.right?)
      (found.filterMap id) := by
  induction answers with
  | nil => exact UsesUp.nil
  | cons answered _ ih =>
      have rest := ih fun l r hm => same l r (List.mem_cons_of_mem _ hm)
      -- One case for each way in which a pairing is answered, with the members that it takes off the listings.
      cases answered with
      | addition l n answer => exact UsesUp.addition l _ _ n _ (expand_whole answer) rest
      | deletion r n answer => exact UsesUp.deletion r _ _ n _ (expand_whole answer) rest
      | kept l r n place answer found =>
          -- Where the place decides, the node was kept for its children. The other reason to keep one does not apply.
          refine UsesUp.change l r _ _ n _ (same l r List.mem_cons_self) (below l r n answer)
            (fun _ => found) (fun hp => ?_) rest
          cases place.symm.trans hp
      | dropped l r n place answer nothing =>
          exact UsesUp.equalBelow l r _ _ n _ (same l r List.mem_cons_self) place (below l r n answer)
            nothing rest
      | unequal l r n place judged answer =>
          refine UsesUp.change l r _ _ n _ (same l r List.mem_cons_self) (below l r n answer)
            (fun hp => ?_) (fun _ => judged) rest
          cases place.symm.trans hp
      | equal l r place judged =>
          exact UsesUp.equal l r _ _ _ (same l r List.mem_cons_self) place judged rest

/-- An answer conserves the members of all listings, in whatever order they are. -/
theorem conserves_of_compare (h : Returns (d.compare levels l r) node) :
    Conserves d.comparator l r node := by
  induction levels using Nat.strongRecOn generalizing l r node with
  | ind levels ih =>
      rcases returns_compare h with
        ⟨flat, rfl⟩ | ⟨fewer, f, fs, g, gs, ls, rs, found, rfl, rfl, rfl, left, right, _, _, answers, rfl⟩
      · exact Conserves.flat l r flat
      · refine Conserves.folders f g fs gs ls rs _ left right ?_
        -- The pairings were made from the listings, so what their sides hold in order are the listings.
        have used := usesUp_of_answered answers
          (fun l r hm => Pairing.name_eq_of_mem_join hm rfl rfl)
          (fun l r n hn => ih fewer fewer.lt_succ_self hn)
        rwa [Pairing.filterMap_left?_join, Pairing.filterMap_right?_join] at used

/-- Two existing hierarchies of valid members, in whatever order they are listed, have a difference. It uses up
    all members of all listings that it compares, every node of it is formed, and below the root every node
    has a name without a slash. -/
theorem diff_conserves (d : Differ) (quiet : Signal.IsQuiet d.signal) {levels n : Nat} (deep : n ≤ levels)
    {l r : Variant} (presentL : l.present = true) (presentR : r.present = true)
    (hl : ValidBelow d.comparator.store n l) (hr : ValidBelow d.comparator.store n r)
    (readable : ReadableBelow d.comparator l r) :
    ∃ node, (d.diff levels l r).outcome = .ok node ∧ Conserves d.comparator l r node ∧
      (∀ m ∈ node.nodes, m.Formed) ∧ ∀ e ∈ node.walk, e.2.name ≠ "" ∧ '/' ∉ e.2.name.toList := by
  rcases exists_gives_compare quiet deep hl hr readable with ⟨node, hnode⟩
  -- Both roots exist, so the difference is the comparison of the two.
  have hdiff : Gives (d.diff levels l r) (.ok node) := by
    rw [diff, requirePresent, if_pos presentL, requirePresent, if_pos presentR]
    exact (Gives.ofExcept (.ok ())).bind ((Gives.ofExcept (.ok ())).bind hnode)
  -- Below the root every node is an answer for members.
  have answers : ∀ child ∈ node.children, ∀ m ∈ child.nodes, d.Answers m := fun child hchild =>
    DiffNode.forall_nodes (fun _ hm => hm.children) child (children_of_compare hnode.returns child hchild)
  refine ⟨node, hdiff.outcome, conserves_of_compare hnode.returns, fun m hm => ?_, fun e he => ?_⟩
  · rw [DiffNode.nodes_eq] at hm
    rcases List.mem_cons.mp hm with rfl | hm
    · exact formed_of_compare presentL presentR hnode.returns
    · rcases List.mem_flatMap.mp hm with ⟨child, hchild, hm⟩
      exact formed_of_answers (answers child hchild m hm)
  · rcases DiffNode.exists_child_of_mem_walk he with ⟨child, hchild, hm⟩
    exact named_of_answers (answers child hchild _ hm)

namespace Sample

/-- A root that lists names out of order and one of them twice. -/
def scrambledLeft : Variant :=
  .tree (folder "" .index) (some [file "c" "1", file "b" "1", file "a" "1", file "a" "2",
    .tree (folder "d" .index) none])

/-- A root that has one of these names in its place, and the others elsewhere. -/
def scrambledRight : Variant :=
  .tree (folder "" .workingTree) (some [file "c" "1", file "a" "1", .tree (folder "d" .workingTree) none,
    file "a" "2"])

/-- A deferred folder lists one file. -/
theorem validBelow_folder (name : String) (revision : Revision) :
    ValidBelow store 1 (.tree (folder name revision) none) := by
  refine ValidBelow.tree 0 _ none _ rfl (fun v hv => ?_) fun v hv => ?_
  · rw [List.mem_singleton.mp hv]
    exact ⟨rfl, (by decide : "x" ≠ ""), (by decide : '/' ∉ "x".toList)⟩
  · rw [List.mem_singleton.mp hv]
    exact ValidBelow.blob 0 _

theorem validBelow_scrambledLeft : ValidBelow store 2 scrambledLeft := by
  refine ValidBelow.tree 1 _ _ _ rfl (by decide) ?_
  simp [validBelow_folder, file, ValidBelow.blob]

theorem validBelow_scrambledRight : ValidBelow store 2 scrambledRight := by
  refine ValidBelow.tree 1 _ _ _ rfl (by decide) ?_
  simp [validBelow_folder, file, ValidBelow.blob]

/-- Files with ids are told apart without reading them. -/
theorem readable_file (n m x y : String) : Readable differ.comparator (file n x) (file m y) :=
  Readable.contents _ _ (ContentId.mk x = ContentId.mk y) rfl

theorem readableBelow_scrambled : ReadableBelow differ.comparator scrambledLeft scrambledRight := by
  intro ls rs hls hrs l hl r hr _
  cases Except.ok.inj hls
  cases Except.ok.inj hrs
  have left : (∃ n x, l = file n x) ∨ l = .tree (folder "d" .index) none := by
    simp only [List.mem_cons, List.not_mem_nil, or_false] at hl
    rcases hl with rfl | rfl | rfl | rfl | rfl
    exacts [Or.inl ⟨_, _, rfl⟩, Or.inl ⟨_, _, rfl⟩, Or.inl ⟨_, _, rfl⟩, Or.inl ⟨_, _, rfl⟩, Or.inr rfl]
  have right : (∃ m y, r = file m y) ∨ r = .tree (folder "d" .workingTree) none := by
    simp only [List.mem_cons, List.not_mem_nil, or_false] at hr
    rcases hr with rfl | rfl | rfl | rfl
    exacts [Or.inl ⟨_, _, rfl⟩, Or.inl ⟨_, _, rfl⟩, Or.inr rfl, Or.inl ⟨_, _, rfl⟩]
  -- The ids of all files are known, and the folders list one file each.
  rcases left with ⟨n, x, rfl⟩ | rfl
  · rcases right with ⟨m, y, rfl⟩ | rfl
    · exact readable_file n m x y
    · exact Readable.kinds _ _ Bool.false_ne_true
  · rcases right with ⟨m, y, rfl⟩ | rfl
    · exact Readable.kinds _ _ Bool.noConfusion
    · refine Readable.folders _ _ _ _ _ _ rfl rfl fun a ha b hb _ => ?_
      rw [List.mem_singleton.mp ha, List.mem_singleton.mp hb]
      exact readable_file _ _ _ _

end Sample

open Differ.Sample in
/-- What is out of order is taken alone on both sides, and nothing is lost. -/
theorem diff_conserves_scrambled :
    (scrambledLeft.present = true ∧ scrambledRight.present = true ∧ ValidBelow store 2 scrambledLeft ∧
      ValidBelow store 2 scrambledRight ∧ ReadableBelow differ.comparator scrambledLeft scrambledRight) ∧
    ∃ node, (differ.diff 2 scrambledLeft scrambledRight).outcome = .ok node ∧
      Conserves differ.comparator scrambledLeft scrambledRight node ∧
      node.children.map (fun m => (m.kind, m.name)) = [(.deletion, "a"), (.addition, "b"),
        (.addition, "a"), (.addition, "a"), (.change, "d"), (.deletion, "a")] := by
  refine ⟨⟨rfl, rfl, validBelow_scrambledLeft, validBelow_scrambledRight, readableBelow_scrambled⟩, ?_⟩
  rcases diff_conserves differ (fun _ h => nomatch h) le_rfl rfl rfl validBelow_scrambledLeft
    validBelow_scrambledRight readableBelow_scrambled with ⟨node, hnode, conserved, _, _⟩
  refine ⟨node, hnode, conserved, ?_⟩
  have evaluated : ((differ.diff 2 scrambledLeft scrambledRight).outcome.map fun node =>
      node.children.map fun m => (m.kind, m.name)) = .ok [(.deletion, "a"), (.addition, "b"),
        (.addition, "a"), (.addition, "a"), (.change, "d"), (.deletion, "a")] := by
    decide +kernel
  rw [hnode] at evaluated
  exact Except.ok.inj evaluated

end Differ

end ThreeWay
