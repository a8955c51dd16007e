import ThreeWay.Checkout.Content
import ThreeWay.Proofs.Diff.Hierarchy
import ThreeWay.Proofs.Run

/-!
# Listings of a Revision

The hierarchy that a checkout lists for a revision is the tree of its commit. Where the names of the tree are
ordinary and differ, every folder of the tree is listed with its members under their own paths, and the
listings are what a difference asks for: valid members, in ascending order, as deep as the tree is. The order in
which the tree has its entries does not matter.

Submodules are no members, so a listing may be shorter than the folder that it lists.

A tree is a table from chains of names to entries, and a listing reads one folder of it. So a listing is told by
the function `Checkout.member` that shows what a chain of names leads to, and a member of a listing is a chain
with one name more. The same is done for the disk and for the index, with other functions, and what follows from
it for a difference is proved once for all of them.

## Main definitions

* `Tree.WellNamed`: The names of a tree are ordinary and differ.
* `Checkout.folderAt`, `Checkout.fileAt`: A folder and a file of a revision, by their names.
* `Checkout.memberOf`, `Checkout.membersOf`: What an entry, and a folder, are listed as.
* `Checkout.member`: What a chain of names is listed as.

## Theorems

* `Tree.wellNamed_ofLeaves`: Trees are made that way.
* `Tree.WellNamed.of_find?`: What leads to an entry has ordinary names, and so has what is below it.
* `Tree.WellNamed.mem_leaves_iff`: The leaves of a tree are what its chains of names lead to.
* `namedMember_eq`, `namedTree_of_find?`: The two steps of a listing.
* `listed_folderAt`: A folder of the tree is listed with its members.
* `member_of_mem`, `mem_of_member`: Its members are what its names lead to.
* `hierarchy_member`: A revision is listed as its tree.
* `wellListed_folderAt`: The hierarchy below a folder is well listed.
-/

namespace ThreeWay

open ThreeWay.Path Scanner

/-- The names of a tree are ordinary, and differ within each folder. -/
structure Tree.WellNamed (t : Tree) : Prop where
  named : t.members.AllNames fun name => IsName name ∧ 0 ∉ name
  distinct : t.members.Distinct

/-- A tree that is made of leaves with ordinary names is well named. -/
theorem Tree.wellNamed_ofLeaves {leaves : List (List Bytes × Leaf)}
    (h : ∀ e ∈ leaves, ∀ name ∈ e.1, IsName name ∧ 0 ∉ name) : (Tree.ofLeaves leaves).WellNamed :=
  ⟨Tree.allNames_ofLeaves h, (Tree.sorted_ofLeaves leaves).distinct⟩

/-- What holds of the names of a tree holds on the way to an entry and below it. -/
theorem Tree.WellNamed.of_find? {t : Tree} (h : t.WellNamed) {names : List Bytes} {entry : TreeEntry}
    (hf : t.find? names = some entry) :
    (∀ name ∈ names, IsName name ∧ 0 ∉ name) ∧
      entry.members.AllNames fun name => IsName name ∧ 0 ∉ name :=
  h.named.of_lookup_folder hf

/-- The leaves of a tree are what its chains of names lead to. -/
theorem Tree.WellNamed.mem_leaves_iff {t : Tree} (h : t.WellNamed) {names : List Bytes} (leaf : Leaf) :
    (names, leaf) ∈ t.leaves ↔ t.find? names = some (.leaf leaf) := by
  rw [Tree.leaves, Forest.mem_leaves_iff h.distinct]
  exact (Forest.Entry.lookup_folder_eq_leaf_iff t.id t.members).symm

namespace Checkout

/-- A folder of a revision, by its names. -/
def folderAt (spec : String) (names : List Bytes) (id : ObjectId) : Folder :=
  { Folder.at (pathOf names) (.named spec) with treeId := some ⟨id.hex⟩ }

/-- A file of a revision, by its names. -/
def fileAt (spec : String) (names : List Bytes) (id : ObjectId) : Blob :=
  { Blob.at (pathOf names) (.named spec) with contentId := some ⟨id.hex⟩ }

/-- What an entry of a tree is listed as. -/
def memberOf (spec : String) (names : List Bytes) : TreeEntry → Option Variant
  | .folder id _ => some (.ofFolder (folderAt spec names id))
  | .leaf leaf => if leaf.mode.isFile then some (.blob (fileAt spec names leaf.id)) else none

/-- What a folder of a tree is listed as. -/
def membersOf (spec : String) (above : List Bytes) (members : Forest Leaf ObjectId) : List Variant :=
  ascending Variant.name (members.entries.filterMap fun e => memberOf spec (above ++ [e.1]) e.2)

/-- What a tree is listed with at a chain of names. -/
def member (spec : String) (t : Tree) (names : List Bytes) : Option Variant :=
  (t.find? names).bind (memberOf spec names)

variable {c : Checkout} {spec : String}

/-- What is listed exists, and stands at the path of its names. -/
theorem sides_of_memberOf {names : List Bytes} {entry : TreeEntry} {v : Variant}
    (h : memberOf spec names entry = some v) :
    v.present = true ∧ v.path = pathOf names ∧ v.name = (pathOf names).fileName := by
  cases entry with
  | folder id members =>
      rw [memberOf, Option.some.injEq] at h
      rw [← h]
      simp only [Variant.ofFolder, Variant.present, Variant.path, Variant.name, folderAt, Folder.at,
        and_self]
  | leaf leaf =>
      rw [memberOf] at h
      split_ifs at h
      rw [Option.some.injEq] at h
      rw [← h]
      simp only [Variant.present, Variant.path, Variant.name, fileAt, Blob.at, and_self]

/-- An entry is listed under the name that it has. -/
theorem namedMember_eq {above : List Bytes} (ha : ∀ name ∈ above, IsName name) {name : Bytes}
    (hn : IsName name) (entry : TreeEntry) : namedMember (pathOf above) spec name entry =
      (memberOf spec (above ++ [name]) entry).map fun v => (v.name, v) := by
  rcases hn with ⟨s, rfl, plain⟩
  have hjoin := @join_pathOf above ha s ⟨s, rfl, plain⟩
  have hname : ∀ v, memberOf spec (above ++ [Utf8.encode s]) entry = some v → v.name = s := fun v hv =>
    (sides_of_memberOf hv).2.2.trans (fileName_pathOf ha ⟨s, rfl, plain⟩)
  simp only [namedMember, Utf8.decode?_encode, Option.bind_eq_bind, Option.bind_some, hjoin]
  -- The name that was read is the last name of the path, so the member is listed under its own name.
  cases entry with
  | folder id members => exact congrArg (fun name => some (name, _)) (hname _ rfl).symm
  | leaf leaf =>
      rw [memberOf] at hname ⊢
      dsimp only
      by_cases hmode : leaf.mode.isFile = true
      · rw [if_pos hmode] at hname ⊢
        rw [if_pos hmode]
        exact congrArg (fun name => some (name, _)) (hname _ rfl).symm
      · rw [if_neg hmode, if_neg hmode]
        rfl

/-- A folder of the listing is a folder of the tree. -/
theorem folder_of_memberOf {names : List Bytes} {entry : TreeEntry} {g : Folder}
    {ms : Option (List Variant)} (h : memberOf spec names entry = some (.tree g ms)) :
    ∃ id members, entry = .folder id members ∧ g = folderAt spec names id ∧ ms = none := by
  -- A leaf is listed as a file or not at all.
  cases entry with
  | folder id members =>
      cases h
      exact ⟨id, members, rfl, rfl, rfl⟩
  | leaf leaf =>
      rw [memberOf] at h
      split_ifs at h
      cases h

/-- The entries of a tree are shown as what they are listed as. -/
theorem shows_memberOf (spec : String) : Shows (memberOf spec) where
  sides := sides_of_memberOf
  folder h := by
    rcases folder_of_memberOf h with ⟨id, members, he, _⟩
    exact ⟨id, members, he⟩
  above _ id members := ⟨_, none, rfl⟩

/-- A folder of the tree is the tree that is found for its path. -/
theorem namedTree_of_find? {start : Commit} (hspec : c.repository.resolveCommit spec = .ok (some start))
    {folder : Path} {above : List Bytes} (hnames : folder.treeNames = .ok above) {id : ObjectId}
    {members : Forest Leaf ObjectId} (hf : start.tree.find? above = some (.folder id members)) :
    c.namedTree spec folder = .ok ⟨id, members⟩ := by
  simp only [namedTree, hspec, hnames, pure_bind, Run.ok_bind, hf]
  rfl

section

variable {start : Commit} (hspec : c.repository.resolveCommit spec = .ok (some start))
  (ht : start.tree.WellNamed)

include hspec ht

theorem namedTree_eq {above : List Bytes} {id : ObjectId} {members : Forest Leaf ObjectId}
    (hf : start.tree.find? above = some (.folder id members)) :
    c.namedTree spec (pathOf above) = .ok ⟨id, members⟩ :=
  namedTree_of_find? hspec (treeNames_pathOf (ht.of_find? hf).1) hf

/-- A folder of the tree is listed with its members. -/
theorem listed_folderAt {above : List Bytes} {id : ObjectId} {members : Forest Leaf ObjectId}
    (hf : start.tree.find? above = some (.folder id members)) :
    c.store.listed (folderAt spec above id) none = .ok (membersOf spec above members) := by
  rcases ht.of_find? hf with ⟨habove, hall⟩
  -- Entry by entry, the listing makes what the tree shows.
  have hmembers : (members.entries.filterMap fun e => namedMember (pathOf above) spec e.1 e.2) =
      (members.entries.filterMap fun e => memberOf spec (above ++ [e.1]) e.2).map fun v => (v.name, v) := by
    rw [List.map_filterMap]
    refine List.filterMap_congr fun e he => ?_
    have hname : IsName e.1 := (hall.of_mem_firstNames (List.mem_map_of_mem he)).1
    exact namedMember_eq (fun name hm => (habove name hm).1) hname e.2
  -- The order is that of the names read, which are the names of the members.
  have hlisting : c.namedMembers (pathOf above) spec = .ok (membersOf spec above members) := by
    rw [namedMembers, namedTree_eq hspec ht hf, Run.ok_bind, membersOf, ← map_snd_ascending, ← hmembers]
    rfl
  exact hlisting

omit hspec in
/-- The members of a folder are what its names lead to. -/
theorem mem_membersOf_iff {above : List Bytes} {id : ObjectId} {members : Forest Leaf ObjectId}
    (hf : start.tree.find? above = some (.folder id members)) {v : Variant} :
    v ∈ membersOf spec above members ↔ ∃ name entry, start.tree.find? (above ++ [name]) = some entry ∧
      memberOf spec (above ++ [name]) entry = some v :=
  (shows_memberOf spec).mem_iff (ht.named.imp fun _ h => h.1) ht.distinct hf

omit hspec in
/-- A member of a folder is listed under its own name. -/
theorem member_of_mem {above : List Bytes} {id : ObjectId} {members : Forest Leaf ObjectId}
    (hf : start.tree.find? above = some (.folder id members)) {v : Variant}
    (hv : v ∈ membersOf spec above members) :
    member spec start.tree (above ++ [Utf8.encode v.name]) = some v := by
  rcases (mem_membersOf_iff ht hf).mp hv with ⟨name, entry, he, hm⟩
  have hname := (shows_memberOf spec).name_eq (fun n hn => ((ht.of_find? he).1 n hn).1) hm
  rw [hname, member, he, Option.bind_some, hm]

omit hspec in
theorem mem_of_member {above : List Bytes} {id : ObjectId} {members : Forest Leaf ObjectId}
    (hf : start.tree.find? above = some (.folder id members)) {name : Bytes} {v : Variant}
    (hv : member spec start.tree (above ++ [name]) = some v) :
    v ∈ membersOf spec above members ∧ Utf8.encode v.name = name := by
  rcases Option.bind_eq_some_iff.mp hv with ⟨entry, he, hm⟩
  exact ⟨(mem_membersOf_iff ht hf).mpr ⟨name, entry, he, hm⟩,
    (shows_memberOf spec).name_eq (fun n hn => ((ht.of_find? he).1 n hn).1) hm⟩

/-- A revision is listed as its tree. -/
theorem hierarchy_member :
    Hierarchy c.store start.tree.members.depth (member spec start.tree) := by
  refine (shows_memberOf spec).hierarchy (ht.named.imp fun _ h => h.1) ht.distinct ?_
  -- A folder that is shown is one of the tree, and it is listed with its members.
  intro above id members g ms hf hview
  rcases folder_of_memberOf hview with ⟨_, _, he, rfl, rfl⟩
  cases he
  exact listed_folderAt hspec ht hf

/-- The hierarchy below a folder is well listed, as deep as the tree is. -/
theorem wellListed_folderAt {n : Nat} {above : List Bytes} {id : ObjectId}
    {members : Forest Leaf ObjectId} (hf : start.tree.find? above = some (.folder id members))
    (deep : start.tree.members.depth < above.length + n) :
    WellListed c.store n (.ofFolder (folderAt spec above id)) := by
  have hv : member spec start.tree above = some (.ofFolder (folderAt spec above id)) := by
    rw [member, hf]
    rfl
  exact (hierarchy_member hspec ht).wellListed hv deep

end

end Checkout

end ThreeWay
