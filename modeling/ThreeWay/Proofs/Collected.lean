import ThreeWay.Proofs.Changed
import ThreeWay.Proofs.Checkout.Scan
import ThreeWay.Proofs.Diff.Childless

/-!
# The Paths That Are Collected

The pending paths are collected by two searches before anything is asked about them. The scan finds files, of
the working tree or of the source. The difference finds what it ends in, and these are files as well, of the
source or of the target, unless it ends in a folder.

All of them are ordinary paths below the root, so each of them can be looked up on every side.

That a path is ordinary has to be known before anything can be looked up, since a path is a text, and a name that
holds a separator or a zero byte would be found nowhere. It is known for three reasons: what the walk finds has
names that the disk allows, what a snapshot knows has names that are asked of a tree, and the same is asked of the
trees that a difference is made from.

## Main definitions

* `Synchronizer.RecordedAt`: A file of the source or of the target.
* `Synchronizer.HollowAt`: A folder at which the difference of source and target ends.

## Theorems

* `collected_of_scanned`, `collected_of_changed`: What the two searches find.
* `Changes.endsIn`: Where the difference of source and target ends.
* `HollowAt.not_recorded`: Neither revision has a file where the difference ends in a folder.
-/

namespace ThreeWay

open ThreeWay.Path Scanner Run Checkout

namespace Synchronizer

/-- The source or the target records a file. -/
def RecordedAt (s : Synchronizer) (names : List Bytes) : Prop :=
  s.HasFileAt s.settings.source names ∨
    ∃ target, s.settings.target = some target ∧ s.HasFileAt target names

/-- A place at which the difference of source and target ends in a folder. -/
def HollowAt (s : Synchronizer) (names : List Bytes) : Prop :=
  ∃ target l r, s.settings.target = some target ∧
    s.checkout.repository.resolveCommit s.settings.source = .ok l ∧
    s.checkout.repository.resolveCommit target = .ok r ∧
    Hollow s.comparator (memberAt s.settings.source l) (memberAt target r) names

variable {s : Synchronizer} {members : Forest FileEntry Unit} {names : List Bytes} {p : Path}

/-- Neither revision has a file where the difference ends in a folder. -/
theorem HollowAt.not_recorded (h : s.HollowAt names) : ¬ s.RecordedAt names := by
  -- A file that is recorded is shown as a file there, and a hollow place shows none on either side.
  rcases h with ⟨target, l, r, ht, hl, hr, hollow⟩
  rintro (⟨leaf, hleaf⟩ | ⟨other, hother, leaf, hleaf⟩)
  · exact hollow.not_blob ⟨_, Or.inl ((memberAt_blob_iff hl).mpr ⟨leaf, hleaf, rfl⟩)⟩
  · rw [ht, Option.some.injEq] at hother
    rw [← hother] at hleaf
    exact hollow.not_blob ⟨_, Or.inr ((memberAt_blob_iff hr).mpr ⟨leaf, hleaf, rfl⟩)⟩

section

variable (namedS : s.checkout.WellNamed s.settings.source)

include namedS

/-- The scan finds files of the working tree and of the source. -/
theorem collected_of_scanned (tree : s.checkout.disk.IsWorkingTree s.checkout.root members)
    {found : Outcome} (h : Returns s.scan found) {change : Change} (hc : change ∈ found.changes) :
    change.path.IsAddress ∧ ((∃ value, members.lookup change.path.names = some (.leaf value)) ∨
      s.HasFileAt s.settings.source change.path.names) := by
  rcases returns_scan h with ⟨reference, hsnapshot, hscan⟩
  -- A change is about a file that the walk met, or about one that only the reference knows.
  rcases file_or_known_of_mem tree hscan hc with ⟨value, names, _, hl, hp⟩ | ⟨e, he, hp⟩
  · have named : ∀ name ∈ names, IsName name ∧ 0 ∉ name := fun name hm =>
      have hname := (tree.named.of_lookup hl).1 name hm
      ⟨hname.1, hname.2.1⟩
    have hne : names ≠ [] := by
      rintro rfl
      cases hl
    rw [← hp, List.nil_append, names_pathOf fun name hm => (named name hm).1]
    exact ⟨isAddress_pathOf named hne, Or.inl ⟨value, hl⟩⟩
  · rcases records_of_mem_snapshot namedS hsnapshot he with ⟨names, leaf, hpath, named, hleaf⟩
    have hne : names ≠ [] := by
      rcases hleaf with ⟨_, _, hfile⟩
      exact hfile.ne_nil
    rw [hp, hpath, names_pathOf fun name hm => (named name hm).1]
    exact ⟨isAddress_pathOf named hne, Or.inr ⟨leaf, hleaf⟩⟩

variable (namedT : ∀ target, s.settings.target = some target → s.checkout.WellNamed target)

include namedT

/-- The difference of source and target ends in files and in hollow places. -/
theorem Changes.endsIn {target : String} {node : DiffNode} (ht : s.settings.target = some target)
    (h : Changes s s.settings.source target node) :
    ∃ l r, s.checkout.repository.resolveCommit s.settings.source = .ok l ∧
      s.checkout.repository.resolveCommit target = .ok r ∧
      node.EndsIn [] (BlobOrHollow s.comparator (memberAt s.settings.source l) (memberAt target r)) := by
  have root : ∀ spec (commit : Commit), memberAt spec (some commit) [] =
      some (.ofFolder (folderAt spec [] commit.tree.id)) := fun _ _ => rfl
  -- One side of the difference may be missing altogether, and then all of the other one is added or deleted.
  cases h with
  | both l r _ hl hr difference =>
      exact ⟨some l, some r, hl, hr, endsIn_of_isDifference (hierarchy_memberAt hl namedS)
        (hierarchy_memberAt hr (namedT target ht)) (root _ l) (root _ r) difference⟩
  | leftOnly l _ hl hr whole =>
      exact ⟨some l, none, hl, hr, endsIn_of_left (hierarchy_memberAt hl namedS)
        (hierarchy_memberAt hr (namedT target ht)) (root _ l) rfl whole⟩
  | rightOnly r _ hl hr whole =>
      exact ⟨none, some r, hl, hr, endsIn_of_right (hierarchy_memberAt hl namedS)
        (hierarchy_memberAt hr (namedT target ht)) rfl (root _ r) whole⟩

/-- The difference of source and target finds files of the two, and folders at which it ends. -/
theorem collected_of_changed {paths : List Path} (h : Returns s.revisionPaths paths) (hp : p ∈ paths) :
    p.IsAddress ∧ (s.RecordedAt p.names ∨ s.HollowAt p.names) := by
  rcases returns_revisionPaths h namedS namedT with ⟨target, ht, ⟨_, _, rfl⟩ | ⟨node, hnode, rfl⟩⟩
  · cases hp
  rcases hnode.endsIn namedS namedT ht with ⟨l, r, hl, hr, ends⟩
  -- The paths that changed are those of the nodes without children.
  rcases mem_changedPaths_iff.mp hp with ⟨m, hm, hempty, hpath⟩
  rcases ends m hm hempty with ⟨names, hne, hnames, hplace⟩
  rw [List.nil_append] at hnames hplace
  rw [hnames, Option.some.injEq] at hpath
  -- One of the two sides has something at the place, and the names of both are ordinary.
  have named : ∀ name ∈ names, IsName name ∧ 0 ∉ name := by
    rcases hplace.exists_side with ⟨v, hv⟩ | ⟨v, hv⟩
    · exact names_of_memberAt hl namedS hv
    · exact names_of_memberAt hr (namedT target ht) hv
  rw [← hpath, names_pathOf fun name hm => (named name hm).1]
  refine ⟨isAddress_pathOf named hne, hplace.imp ?_ fun hollow => ⟨target, l, r, ht, hl, hr, hollow⟩⟩
  rintro ⟨b, hb | hb⟩
  · rcases (memberAt_blob_iff hl).mp hb with ⟨leaf, hleaf, _⟩
    exact Or.inl ⟨leaf, hleaf⟩
  · rcases (memberAt_blob_iff hr).mp hb with ⟨leaf, hleaf, _⟩
    exact Or.inr ⟨target, ht, leaf, hleaf⟩

end

end Synchronizer

end ThreeWay
