import ThreeWay.Proofs.Checkout.Sides
import ThreeWay.Proofs.Checkout.Tree
import ThreeWay.Proofs.Lists

/-!
# Listings of a Working Tree

The hierarchy that a checkout lists for its working tree is the folder on the disk, less what is named like the
repository's folder. That holds where nothing else is hidden. There are two reasons for that: the rules leave
nothing out, and then it does not matter what is tracked, or everything is tracked, whatever the rules say.

A listing reads the disk once more for every file, by the path of the folder and one more name. Below a folder
without links that path leads to the file itself, so its id is that of its content.

`Checkout.Exposes` is the first reason and `Checkout.Lists` is what both reasons give. The listing is proved for
the second one only. In both, paths must be short enough for the system: a folder that lies too deep cannot be
opened, and the listing above it would show a folder whose own listing fails.

## Main definitions

* `Checkout.Lists`: A working tree of which nothing is hidden.
* `Checkout.Exposes`: A working tree of which nothing is left out by the rules.
* `Checkout.workingOf`: What an entry of the disk is listed as.
* `Checkout.working`: What a chain of names is listed as.

## Theorems

* `Exposes.lists`: What the rules do not leave out is not hidden.
* `cases_of_workingOf`, `shows_workingOf`: What an entry is listed as, and that it stands for the entry.
* `working_of_lookup`, `lookup_of_working`: The files that are listed.
* `join_fileOf`: A member is found by the path of the folder and its name.
* `stat_fileOf_eq`, `stat_fileOf_of_short`, `blobId_fileOf_eq`: What the system finds at the end of a chain of
  names.
* `stat_fileOf`: What stands at the end of a chain of names is found by its path.
* `workingMember_eq`: A member is listed as what stands there.
* `listed_working`: A folder of the working tree is listed with its members.
* `hierarchy_working`: The working tree is listed as the folder on the disk.
* `depth_lt_depthBound`: No working tree is deeper than a difference may go.
* `localVariant_folder`: A folder is found at its path.
-/

namespace ThreeWay

open ThreeWay.Path Scanner

namespace Checkout

/-- A working tree of which nothing is left out: no folder lies too deep for the system, and the rules leave
    out nothing but the repository's own folder. -/
structure Exposes (c : Checkout) (members : Forest FileEntry Unit) : Prop where
  tree : c.disk.IsWorkingTree c.root members
  short : ∀ names below, members.lookup names = some (.folder () below) →
    (c.root.join (pathOf names).toRaw).bytes.length < Disk.pathLimit
  kept : ∀ names entry, Utf8.encode gitFolderName ∉ names → members.lookup names = some entry →
    Ignore.isIgnored c.disk c.root (pathOf names) entry.isFolder = .ok false

/-- A working tree that is listed in full: no folder lies too deep for the system, and nothing is hidden but
    the repository's own folder. -/
structure Lists (c : Checkout) (members : Forest FileEntry Unit) : Prop where
  tree : c.disk.IsWorkingTree c.root members
  short : ∀ names below, Utf8.encode gitFolderName ∉ names →
    members.lookup names = some (.folder () below) →
    (c.root.join (pathOf names).toRaw).bytes.length < Disk.pathLimit
  shown : ∀ above name entry, Utf8.encode gitFolderName ∉ above ++ [name] →
    members.lookup (above ++ [name]) = some entry →
    c.isHidden (c.trackedPaths (pathOf above)) (pathOf (above ++ [name])) entry.isFolder = .ok false

/-- What the rules do not leave out is not hidden. -/
theorem Exposes.lists {c : Checkout} {members : Forest FileEntry Unit} (h : c.Exposes members) :
    c.Lists members where
  tree := h.tree
  short names below _ := h.short names below
  shown above name entry outside hl := by
    -- What is not ignored is not hidden, be it tracked or not.
    rw [isHidden, h.kept _ entry outside hl]
    split_ifs <;> rfl

/-- What an entry of the disk is listed as. -/
def workingOf (names : List Bytes) (entry : DiskEntry) : Option Variant :=
  if names.contains (Utf8.encode gitFolderName) then none
  else
    match entry with
    | .folder _ _ => some (.ofFolder (.at (pathOf names) .workingTree))
    | .leaf (.regular content _) => some (.blob (.onDisk (pathOf names) content))
    | .leaf (.link _) => none

theorem workingOf_of_mem {names : List Bytes} (h : Utf8.encode gitFolderName ∈ names)
    (entry : DiskEntry) : workingOf names entry = none :=
  if_pos (List.contains_iff_mem.mpr h)

theorem workingOf_folder {names : List Bytes} (h : Utf8.encode gitFolderName ∉ names) (value : Unit)
    (below : Forest FileEntry Unit) : workingOf names (.folder value below) =
      some (.ofFolder (.at (pathOf names) .workingTree)) :=
  if_neg (mt List.contains_iff_mem.mp h)

theorem workingOf_regular {names : List Bytes} (h : Utf8.encode gitFolderName ∉ names)
    (content : Bytes) (executable : Bool) : workingOf names (.leaf (.regular content executable)) =
      some (.blob (.onDisk (pathOf names) content)) :=
  if_neg (mt List.contains_iff_mem.mp h)

/-- What a folder on the disk is listed with at a chain of names. -/
def working (members : Forest FileEntry Unit) (names : List Bytes) : Option Variant :=
  ((Forest.Entry.folder () members : DiskEntry).lookup names).bind (workingOf names)

/-- An entry that is listed is a folder or a regular file, and no way leads to it through the repository's
    folder. -/
theorem cases_of_workingOf {names : List Bytes} {entry : DiskEntry} {v : Variant}
    (h : workingOf names entry = some v) : Utf8.encode gitFolderName ∉ names ∧
      ((∃ below, entry = .folder () below ∧ v = .ofFolder (.at (pathOf names) .workingTree)) ∨
        ∃ content executable, entry = .leaf (.regular content executable) ∧
          v = .blob (.onDisk (pathOf names) content)) := by
  unfold workingOf at h
  split_ifs at h with hg
  refine ⟨mt List.contains_iff_mem.mpr hg, ?_⟩
  cases entry with
  | folder value below => exact Or.inl ⟨below, rfl, (Option.some.inj h).symm⟩
  | leaf value =>
      cases value with
      | regular content executable =>
          exact Or.inr ⟨content, executable, rfl, (Option.some.inj h).symm⟩
      | link target => cases h

theorem working_root (members : Forest FileEntry Unit) :
    working members [] = some (.ofFolder (.at .root .workingTree)) := rfl

section

variable {members : Forest FileEntry Unit} {names : List Bytes}

/-- A regular file is listed with the id of its content. -/
theorem working_of_lookup {content : Bytes} {executable : Bool}
    (outside : Utf8.encode gitFolderName ∉ names)
    (hl : members.lookup names = some (.leaf (.regular content executable))) :
    working members names = some (.blob (.onDisk (pathOf names) content)) := by
  rw [working, (Forest.Entry.lookup_folder_eq_leaf_iff () members).mpr hl, Option.bind_some,
    workingOf_regular outside]

/-- No other files are listed. -/
theorem lookup_of_working {b : Blob} (hb : working members names = some (.blob b)) :
    Utf8.encode gitFolderName ∉ names ∧ ∃ content executable,
      members.lookup names = some (.leaf (.regular content executable)) ∧
      b = .onDisk (pathOf names) content := by
  rcases Option.bind_eq_some_iff.mp hb with ⟨entry, he, hw⟩
  -- What is listed is a folder or a regular file, and this one is a file.
  rcases cases_of_workingOf hw with ⟨outside, ⟨_, _, hv⟩ | ⟨content, executable, rfl, hv⟩⟩
  · cases hv
  · rw [Forest.Entry.lookup_folder_eq_leaf_iff] at he
    exact ⟨outside, content, executable, he, Variant.blob.inj hv⟩

/-- A folder of the working tree has no id. -/
theorem treeId_of_working {f : Folder} {fs : Option (List Variant)}
    (hf : working members names = some (.tree f fs)) : f.treeId = none := by
  rcases Option.bind_eq_some_iff.mp hf with ⟨entry, _, hw⟩
  rcases cases_of_workingOf hw with ⟨_, ⟨_, _, hv⟩ | ⟨_, _, _, hv⟩⟩
  · cases hv
    rfl
  · cases hv

end

/-- The entries of a disk are shown as what they are listed as. -/
theorem shows_workingOf : Shows workingOf where
  sides h := by
    rcases cases_of_workingOf h with ⟨_, ⟨_, _, rfl⟩ | ⟨_, _, _, rfl⟩⟩
    · simp only [Variant.ofFolder, Variant.present, Variant.path, Variant.name, Folder.at, and_self]
    · simp only [Variant.present, Variant.path, Variant.name, Blob.onDisk, Blob.at, and_self]
  folder h := by
    rcases cases_of_workingOf h with ⟨_, ⟨below, he, _⟩ | ⟨_, _, _, hv⟩⟩
    · exact ⟨(), below, he⟩
    · cases hv
  above h value below := by
    -- A way that avoids the repository folder does so with fewer names as well.
    have hg := fun hm => (cases_of_workingOf h).1 (List.mem_append_left _ hm)
    exact ⟨_, none, workingOf_folder hg value below⟩

/-- A member of a folder is found by the path of the folder and its name. -/
theorem join_fileOf (c : Checkout) {above : List Bytes} (ha : ∀ name ∈ above, IsName name)
    {name : Bytes} (hn : IsName name) :
    (c.fileOf (pathOf above)).join ⟨name⟩ = c.fileOf (pathOf (above ++ [name])) := by
  have hall := isName_concat ha hn
  have hne : above ++ [name] ≠ [] := List.append_ne_nil_of_right_ne_nil _ (List.cons_ne_nil _ _)
  rw [fileOf, fileOf, isRoot_pathOf hall hne, if_neg Bool.false_ne_true]
  -- Below the root there is nothing to join, as the path of the root is empty.
  by_cases hroot : above = []
  · have hempty : (pathOf []).isRoot = true := rfl
    rw [hroot, hempty, if_pos rfl, List.nil_append, toRaw_singleton hn]
  · rw [isRoot_pathOf ha hroot, if_neg Bool.false_ne_true, join_toRaw c.root ha hroot hn]

/-- A folder of the working tree is listed from the disk. -/
theorem listed_at (c : Checkout) (path : Path) :
    c.store.listed (.at path .workingTree) none = c.workingMembers path := rfl

/-- The folder lies on the disk, so it is no deeper, and a difference may list more levels than it has. -/
theorem depth_lt_depthBound_of_holdsFolder {c : Checkout} {members : Forest FileEntry Unit}
    (tree : c.disk.HoldsFolder c.root members) : members.depth < c.depthBound .workingTree := by
  rcases tree.holds with ⟨below, hroot⟩
  have hempty : ([] : Bytes).head? ≠ some RawPath.slash := fun he => nomatch he
  -- The root of the working tree is found on the disk by its own names.
  have hlook := (Disk.resolve_join hroot hempty).1
  rw [Disk.look_place] at hlook
  have hlength := Forest.length_add_depth_le hlook
  rw [depthBound]
  omega

/-- What stands at the end of a chain of names is found by its path, if that is no link and not too long. -/
theorem stat_fileOf_eq {c : Checkout} {members : Forest FileEntry Unit}
    (tree : c.disk.HoldsFolder c.root members) {names : List Bytes} {entry : DiskEntry}
    (hl : (Forest.Entry.folder () members : DiskEntry).lookup names = some entry)
    (direct : ∀ target, entry ≠ .leaf (.link target)) :
    c.disk.stat (c.fileOf (pathOf names)) =
      if names ≠ [] ∧ Disk.pathLimit ≤ (c.root.join (pathOf names).toRaw).bytes.length then
        .error .nameTooLong
      else .ok entry := by
  have named : ∀ n ∈ names, IsName n := fun n hm => ((tree.named.of_lookup_folder hl).1 n hm).1
  -- The root is found without a path to follow, so its length does not count.
  by_cases hne : names = []
  · subst hne
    cases hl
    rw [if_neg fun h => h.1 rfl]
    exact tree.stat_root
  · rw [Forest.Entry.lookup_folder () members hne] at hl
    have hlookup : members.lookup (pathOf names).names = some entry := by rw [names_pathOf named, hl]
    rw [fileOf, isRoot_pathOf named hne, if_neg Bool.false_ne_true,
      tree.stat_join (isOrdinary_pathOf named) hlookup direct]
    simp only [ne_eq, hne, not_false_eq_true, true_and]

/-- Without links it is found wherever its path is not too long. -/
theorem stat_fileOf_of_short {c : Checkout} {members : Forest FileEntry Unit}
    (tree : c.disk.IsWorkingTree c.root members) {names : List Bytes} {entry : DiskEntry}
    (hl : (Forest.Entry.folder () members : DiskEntry).lookup names = some entry)
    (short : names ≠ [] → (c.root.join (pathOf names).toRaw).bytes.length < Disk.pathLimit) :
    c.disk.stat (c.fileOf (pathOf names)) = .ok entry := by
  rw [stat_fileOf_eq tree.holdsTree.holdsFolder hl]
  · exact if_neg fun h => Nat.not_le.mpr (short h.1) h.2
  · rintro target rfl
    exact tree.regular.of_lookup ((Forest.Entry.lookup_folder_eq_leaf_iff () members).mp hl)

/-- A file of a working tree without links has the id of its content. -/
theorem blobId_fileOf_eq {c : Checkout} {members : Forest FileEntry Unit}
    (tree : c.disk.IsWorkingTree c.root members) {names : List Bytes} {value : FileEntry}
    (hl : (Forest.Entry.folder () members : DiskEntry).lookup names = some (.leaf value)) :
    ∃ content executable, value = .regular content executable ∧
      c.disk.blobId (c.fileOf (pathOf names)) = .ok (.ofBlob content) := by
  have hleaf := (Forest.Entry.lookup_folder_eq_leaf_iff () members).mp hl
  have hstat := stat_fileOf_of_short tree hl fun _ => tree.short_of_lookup hleaf
  have hregular := tree.regular.of_lookup hleaf
  -- There are no links, so what is read is the content of this very file.
  cases value with
  | link target => exact absurd hregular id
  | regular content executable =>
      refine ⟨content, executable, rfl, ?_⟩
      rw [Disk.blobId, read_file hstat]

namespace Exposes

variable {c : Checkout} {members : Forest FileEntry Unit} (h : c.Exposes members) {names : List Bytes}

include h

theorem kept_folder {below : Forest FileEntry Unit} (outside : Utf8.encode gitFolderName ∉ names)
    (hl : members.lookup names = some (.folder () below)) :
    Ignore.isIgnored c.disk c.root (pathOf names) true = .ok false := by
  have hkept := h.kept names _ outside hl
  simp only [Forest.Entry.isFolder] at hkept
  exact hkept

theorem kept_file {value : FileEntry} (outside : Utf8.encode gitFolderName ∉ names)
    (hl : members.lookup names = some (.leaf value)) :
    Ignore.isIgnored c.disk c.root (pathOf names) false = .ok false := by
  have hkept := h.kept names _ outside hl
  simp only [Forest.Entry.isFolder] at hkept
  exact hkept

end Exposes

namespace Lists

variable {c : Checkout} {members : Forest FileEntry Unit} (h : c.Lists members)
  {names above : List Bytes} {entry : DiskEntry}

include h

theorem isName (hl : (Forest.Entry.folder () members : DiskEntry).lookup names = some entry) :
    ∀ name ∈ names, IsName name := fun name hm => ((h.tree.named.of_lookup_folder hl).1 name hm).1

/-- What stands at the end of a chain of names is found by its path. -/
theorem stat_fileOf (outside : Utf8.encode gitFolderName ∉ names)
    (hl : (Forest.Entry.folder () members : DiskEntry).lookup names = some entry) :
    c.disk.stat (c.fileOf (pathOf names)) = .ok entry := by
  refine stat_fileOf_of_short h.tree hl fun hne => ?_
  rw [Forest.Entry.lookup_folder () members hne] at hl
  -- The bound on folders is assumed, and the one on files belongs to a working tree.
  cases entry with
  | folder value below => exact h.short names below outside hl
  | leaf value => exact h.tree.short_of_lookup hl

/-- A member of a folder is listed as what stands there, under the name that it has. -/
theorem workingMember_eq {name : Bytes}
    (hl : (Forest.Entry.folder () members : DiskEntry).lookup (above ++ [name]) = some entry)
    (hg : Utf8.encode gitFolderName ∉ above) :
    c.workingMember (c.trackedPaths (pathOf above)) (pathOf above) (c.fileOf (pathOf above)) name entry =
      .ok ((workingOf (above ++ [name]) entry).map fun v => (v.name, v)) := by
  have hall := h.isName hl
  have ha : ∀ n ∈ above, IsName n := fun n hm => hall n (List.mem_append_left _ hm)
  have hn : IsName name := hall name (List.mem_append_right _ List.mem_cons_self)
  have hfile := join_fileOf c ha hn
  rcases hn with ⟨text, rfl, plain⟩
  have hpath := @join_pathOf above ha text ⟨text, rfl, plain⟩
  have hname : ∀ v, workingOf (above ++ [Utf8.encode text]) entry = some v → v.name = text := fun v hv =>
    (shows_workingOf.sides hv).2.2.trans (fileName_pathOf ha ⟨text, rfl, plain⟩)
  simp only [workingMember, Utf8.decode?_encode, hpath, hfile]
  -- The repository folder is passed over by its name, before any rule is asked.
  by_cases hgit : text = gitFolderName
  · have hmem : Utf8.encode gitFolderName ∈ above ++ [Utf8.encode text] :=
      hgit ▸ List.mem_append_right _ List.mem_cons_self
    rw [if_pos hgit, workingOf_of_mem hmem]
    rfl
  · have hmem : Utf8.encode gitFolderName ∉ above ++ [Utf8.encode text] := by
      rw [List.mem_append, not_or, List.mem_singleton]
      exact ⟨hg, fun he => hgit (Utf8.encode_injective he.symm)⟩
    have hlookup := hl
    rw [Forest.Entry.lookup_folder () members
      (List.append_ne_nil_of_right_ne_nil _ (List.cons_ne_nil _ _))] at hlookup
    simp only [if_neg hgit, h.shown _ _ entry hmem hlookup, Run.ok_bind, Bool.false_eq_true, if_false]
    -- Nothing else is hidden, so a folder is listed as it is and a file with the id of its content.
    cases entry with
    | folder value below =>
        rw [workingOf_folder hmem, Option.map_some, hname _ (workingOf_folder hmem value below)]
        rfl
    | leaf value =>
        rcases blobId_fileOf_eq h.tree hl with ⟨content, executable, rfl, hid⟩
        simp only [hid]
        rw [workingOf_regular hmem, Option.map_some, hname _ (workingOf_regular hmem content executable)]
        rfl

/-- A folder of the working tree is listed with its members. -/
theorem listed_working {below : Forest FileEntry Unit}
    (hf : (Forest.Entry.folder () members : DiskEntry).lookup above = some (.folder () below))
    (hg : Utf8.encode gitFolderName ∉ above) :
    c.store.listed (.at (pathOf above) .workingTree) none =
      .ok (ascending Variant.name (below.entries.filterMap fun e => workingOf (above ++ [e.1]) e.2)) := by
  have hlist : c.disk.list (c.fileOf (pathOf above)) = .ok below := by
    rw [Disk.list, h.stat_fileOf hg hf]
    rfl
  -- Each member has an answer, so the listing has one, in the order of the names.
  have hmembers : ∀ e ∈ below.entries,
      c.workingMember (c.trackedPaths (pathOf above)) (pathOf above) (c.fileOf (pathOf above)) e.1 e.2 =
        .ok ((workingOf (above ++ [e.1]) e.2).map fun v => (v.name, v)) := by
    rintro ⟨name, entry⟩ he
    exact h.workingMember_eq ((Forest.mem_entries_iff_lookup h.tree.distinct hf).mp he) hg
  have hlisting : c.workingMembers (pathOf above) =
      .ok (ascending Variant.name (below.entries.filterMap fun e => workingOf (above ++ [e.1]) e.2)) := by
    simp only [workingMembers, hlist]
    rw [List.mapM_eq_ok hmembers, Run.ok_bind, List.filterMap_map, ← map_snd_ascending Variant.name,
      List.map_filterMap]
    rfl
  exact (listed_at c (pathOf above)).trans hlisting

/-- The working tree is listed as the folder on the disk. -/
theorem hierarchy_working : Hierarchy c.store members.depth (working members) := by
  refine shows_workingOf.hierarchy (h.tree.named.imp fun _ hn => hn.1) h.tree.distinct ?_
  -- A folder that is shown lies outside of the repository, and all of those are listed.
  intro above value below g ms hf hview
  rcases cases_of_workingOf hview with ⟨hg, ⟨_, _, hv⟩ | ⟨_, _, _, hv⟩⟩
  · cases hv
    exact h.listed_working hf hg
  · cases hv

/-- The difference may list more levels than the working tree has. -/
theorem depth_lt_depthBound : members.depth < c.depthBound .workingTree :=
  depth_lt_depthBound_of_holdsFolder h.tree.holdsTree.holdsFolder

/-- A folder is found at its path, and so is the root. -/
theorem localVariant_folder {below : Forest FileEntry Unit} (outside : Utf8.encode gitFolderName ∉ names)
    (hl : (Forest.Entry.folder () members : DiskEntry).lookup names = some (.folder () below))
    (folder : Bool) : c.localVariant (pathOf names) folder =
      .ok (some (.ofFolder (.at (pathOf names) .workingTree))) := by
  simp only [localVariant, h.stat_fileOf outside hl]

theorem localVariant_root (folder : Bool) :
    c.localVariant .root folder = .ok (some (.ofFolder (.at .root .workingTree))) :=
  h.localVariant_folder (List.not_mem_nil (a := Utf8.encode gitFolderName)) rfl folder

end Lists

end Checkout

end ThreeWay
