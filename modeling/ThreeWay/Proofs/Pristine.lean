import ThreeWay.Proofs.Checkout.Scan
import ThreeWay.Proofs.Checkout.Tracked
import ThreeWay.Proofs.Checkout.Working
import ThreeWay.Proofs.Classify.Verdict
import ThreeWay.Proofs.Diff.Coincide
import ThreeWay.Proofs.Recorded
import ThreeWay.Proofs.Refusal
import ThreeWay.Proofs.Workspace.Staging

/-!
# A Working Tree Without Changes

Where the working tree and the index are what the source records, and the target records the same, nothing is
to be reported. That is asked for in four ways which read different things: the status hashes one file, the
difference lists the working tree folder by folder, the scan walks it and prunes what is ignored, and the
pending paths join two of these.

None of them may be misled by ignore rules. A file that is tracked stays in the listing although it matches a
rule, and so do the folders above it. The scan does not enter an ignored folder, but then it forgets what the
source has there. An ignore file that is left in an ignored folder is compared on its own. So the rules are no
assumption here: whatever they say, they hide nothing on one side only.

All four are carried by one fact about places. At every place the working tree and the tree of the source have the
same file, or both have a folder, or there is nothing that the checkout shows (`Pristine.cases_of_place`). The two
differences, the scan and the status each follow from it with the law of what they do: two sides that coincide at
all places give a node without children, a reference that knows what the walk finds gives an empty report, and
three sides of equal content are in sync.

What is compared are contents, by their ids or by their bytes. The comparison by bytes reads what a revision has
from the object database, so there the contents have to be in it. Everything else holds whether bytes are compared
or not, and is proved for both at once.

The target may be another revision than the source, as long as it records the same tree. Their histories play no
part: a verdict on three equal sides does not look at them.

## Main definitions

* `Tree.IsCheckedOut`: A folder on the disk with what a tree records.
* `Synchronizer.Pristine`: A working tree, an index and two revisions that are the same.

## Theorems

* `status_of_unchanged`: Three sides of equal content, whatever their last changes are.
* `Pristine.regular_of_leaf`: What is recorded is on the disk, with its content.
* `Pristine.cases_of_place`: What is on the disk and in the tree at one place.
* `Pristine.isHidden_eq`, `Pristine.short`: What is there is tracked, and its path is short enough.
* `Pristine.lists`: A listing of the working tree hides nothing, whatever the rules say.
* `Pristine.shows_onDisk`, `Pristine.shows_atRevision`, `Pristine.shows_fileAt`: The variants of a file, each
  known by one content.
* `Pristine.coincide_working`: What the working tree is listed as, place by place.
* `Pristine.coincide_target`: What the two revisions have, place by place.
* `Pristine.diff_working`, `Pristine.diff_target`: The two differences are empty.
* `Pristine.exists_known`, `Pristine.fileAt_of_known`: The snapshot knows the files that are there, and no others.
* `Pristine.scan_empty`: The scan finds nothing.
* `Pristine.pending_empty`: Nothing is pending.
* `Pristine.status_of_find?`: Every path of the tree is in sync.
* `pristine_neutral`: All of it together.
* `neutral_of_ignored`: A commit of which nearly everything is left out by its own rules.
-/

namespace ThreeWay

open ThreeWay.Path Scanner Run Checkout

/-- A folder on the disk has what a tree records, beside the repository's own folder. -/
structure Tree.IsCheckedOut (t : Tree) (members : Forest FileEntry Unit) : Prop where
  files : ∀ names leaf, t.members.lookup names = some (.leaf leaf) ↔
    Utf8.encode gitFolderName ∉ names ∧
      ∃ file, members.lookup names = some (.leaf file) ∧ leaf = file.leaf
  folders : ∀ names, (∃ id below, t.members.lookup names = some (.folder id below)) ↔
    Utf8.encode gitFolderName ∉ names ∧ ∃ below, members.lookup names = some (.folder () below)

namespace Synchronizer

theorem changedPaths_of_childless {node : DiffNode} (h : node.children = []) : changedPaths node = [] := by
  cases node with
  | mk left right kind children =>
      rw [show children = [] from h]
      rfl

/-- Three sides of equal content make a path that is in sync. -/
theorem status_of_unchanged {s : Synchronizer} {target : String} {l r : Option Commit}
    (resolves : s.Resolves target l r) {p : Path} {names : List Bytes} (hnames : p.treeNames = .ok names)
    {here base remote : Variant} (hhere : ∀ folder, s.checkout.localVariant p folder = .ok (some here))
    (hbase : s.checkout.namedVariant p s.settings.source = .ok (some base))
    (hremote : s.checkout.namedVariant p target = .ok (some remote)) (present : remote.present = true)
    (localSame : s.comparator.equal (some here) (some base) = .ok true)
    (remoteSame : s.comparator.equal (some remote) (some base) = .ok true) :
    ∃ report, s.status p = .ok report ∧ report.status = .inSync := by
  have hb : s.checkout.variant p s.settings.sourceRevision = .ok (some base) := hbase
  have hr : s.checkout.variant p (.named target) = .ok (some remote) := hremote
  have hsides : s.triple p = .ok ⟨some here, some base, some remote⟩ := by
    simp only [triple, hb, resolves.target_eq, hr, Run.ok_bind, hhere]
    rfl
  -- The verdict is that of three sides of equal content. The last changes only go into the report, but they have to
  -- be found, or there would be none.
  have hverdict : classify s.comparator ⟨some here, some base, some remote⟩ = .ok .inSync :=
    Triple.classify_of_unchanged
      ⟨base, here, remote, rfl, rfl, rfl, present, localSame, remoteSame⟩
  rcases exists_lastChange resolves.left hnames with ⟨baseChange, hbaseChange⟩
  rcases exists_lastChange resolves.right hnames with ⟨remoteChange, hremoteChange⟩
  exact ⟨_, status_of_parts hsides hverdict hbaseChange resolves.target_eq hremoteChange, rfl⟩

/-- The working tree and the index are what the source records, and the target records the same. Where bytes
    are compared, the contents are in the object database. -/
structure Pristine (s : Synchronizer) (members : Forest FileEntry Unit) (start remote : Commit)
    (target : String) : Prop where
  tree : s.checkout.disk.IsWorkingTree s.checkout.root members
  resolved : s.checkout.repository.resolveCommit s.settings.source = .ok (some start)
  chosen : s.settings.target = some target
  reached : s.checkout.repository.resolveCommit target = .ok (some remote)
  level : remote.tree = start.tree
  checkedOut : start.tree.IsCheckedOut members
  wellFormed : s.checkout.repository.index.WellFormed
  plain : ∀ e ∈ s.checkout.repository.index, e.stage = 0
  indexed : s.checkout.repository.index.tree = start.tree
  stored : s.settings.byteCompare = true → ∀ names content executable,
    Utf8.encode gitFolderName ∉ names →
    members.lookup names = some (.leaf (.regular content executable)) →
    s.checkout.repository.objects.blob? (.ofBlob content) = some content
  quiet : Signal.IsQuiet s.signal

namespace Pristine

variable {s : Synchronizer} {members : Forest FileEntry Unit} {start remote : Commit} {target : String}
  (h : s.Pristine members start remote target) {names : List Bytes}

include h

/-! ### What Is Recorded -/

theorem wellNamed_tree : start.tree.WellNamed := by
  rw [← h.indexed]
  exact h.wellFormed.wellNamed_tree

/-- A file of the tree is a regular file of the working tree. -/
theorem regular_of_leaf {leaf : Leaf} (hl : start.tree.members.lookup names = some (.leaf leaf)) :
    ∃ content executable, members.lookup names = some (.leaf (.regular content executable)) ∧
      leaf.id = .ofBlob content ∧ leaf.mode.isFile = true ∧ Utf8.encode gitFolderName ∉ names ∧
      (s.settings.byteCompare = true → s.checkout.repository.objects.HasBlob leaf.id content) := by
  rcases (h.checkedOut.files names leaf).mp hl with ⟨outside, file, hfile, rfl⟩
  have hregular := h.tree.regular.of_lookup hfile
  -- A working tree holds no links, so the file that is found is a regular one.
  cases file with
  | link text => exact absurd hregular id
  | regular content executable =>
      rcases FileEntry.leaf_regular content executable with ⟨hid, isFile⟩
      refine ⟨content, executable, hfile, hid, isFile, outside, fun hbytes => ⟨?_, hid⟩⟩
      rw [hid]
      exact h.stored hbytes names content executable outside hfile

/-- Both revisions record the same files. -/
theorem leaf_of_records {spec : String} (hspec : spec ∈ [s.settings.source, target]) {leaf : Leaf}
    (hleaf : s.checkout.Records spec names leaf) :
    start.tree.members.lookup names = some (.leaf leaf) := by
  have hfile : start.tree.HasFile names leaf := by
    -- The source records it in its own tree, and the target in one that is the same.
    rcases List.mem_pair.mp hspec with rfl | rfl
    · exact hleaf.hasFile h.resolved
    · rw [← h.level]
      exact hleaf.hasFile h.reached
  exact (Forest.Entry.lookup_folder_eq_leaf_iff _ _).mp hfile.1

theorem resolves : s.Resolves target (some start) (some remote) where
  chosen := h.chosen
  left := h.resolved
  right := h.reached
  namedL := wellNamed_of_resolve h.resolved h.wellNamed_tree
  namedR := wellNamed_of_resolve h.reached (h.level ▸ h.wellNamed_tree)
  stored hbytes spec hspec names leaf hleaf := by
    rcases h.regular_of_leaf (h.leaf_of_records hspec hleaf) with ⟨content, _, _, _, _, _, stored⟩
    exact ⟨content, stored hbytes⟩

/-- At every place the working tree and the tree have the same file, or both have a folder, or the working
    tree shows nothing. -/
theorem cases_of_place (names : List Bytes) :
    (∃ leaf content executable, start.tree.members.lookup names = some (.leaf leaf) ∧
      members.lookup names = some (.leaf (.regular content executable)) ∧ leaf.id = .ofBlob content ∧
      leaf.mode.isFile = true ∧ Utf8.encode gitFolderName ∉ names) ∨
    (∃ id inner below, start.tree.members.lookup names = some (.folder id inner) ∧
      members.lookup names = some (.folder () below) ∧ Utf8.encode gitFolderName ∉ names) ∨
    (start.tree.members.lookup names = none ∧
      (Utf8.encode gitFolderName ∈ names ∨ members.lookup names = none)) := by
  -- What the tree has decides, since the disk may have something that the tree has not only in the folder of the
  -- repository.
  cases hl : start.tree.members.lookup names with
  | some entry =>
      cases entry with
      | leaf leaf =>
          rcases h.regular_of_leaf hl with ⟨content, executable, hfile, hid, isFile, outside, _⟩
          exact Or.inl ⟨leaf, content, executable, rfl, hfile, hid, isFile, outside⟩
      | folder id inner =>
          rcases (h.checkedOut.folders names).mp ⟨id, inner, hl⟩ with ⟨outside, below, hfolder⟩
          exact Or.inr (Or.inl ⟨id, inner, below, rfl, hfolder, outside⟩)
  | none =>
      refine Or.inr (Or.inr ⟨rfl, ?_⟩)
      -- Anything else that the disk had here would be in the tree as well.
      by_contra hne
      rw [not_or] at hne
      rcases Option.ne_none_iff_exists'.mp hne.2 with ⟨entry, he⟩
      cases entry with
      | leaf file =>
          cases hl.symm.trans ((h.checkedOut.files names file.leaf).mpr ⟨hne.1, file, he, rfl⟩)
      | folder value below =>
          rcases (h.checkedOut.folders names).mpr ⟨hne.1, below, he⟩ with ⟨id, inner, hf⟩
          cases hl.symm.trans hf

/-! ### The Listing of the Working Tree -/

/-- Every file of the tree is in the index. -/
theorem entry_of_leaf {leaf : Leaf} (hl : start.tree.members.lookup names = some (.leaf leaf)) :
    ∃ e ∈ s.checkout.repository.index, e.names = names := by
  rw [← h.indexed, h.wellFormed.lookup_tree_leaf_iff] at hl
  rcases hl with ⟨e, he, hn, _⟩
  exact ⟨e, (Index.mem_plain.mp he).1, hn⟩

/-- Every folder of the tree has something of the index below it. -/
theorem entry_of_folder {id : ObjectId} {inner : Forest Leaf ObjectId}
    (hl : start.tree.members.lookup names = some (.folder id inner)) :
    ∃ e ∈ s.checkout.repository.index, ∃ name more, e.names = names ++ name :: more := by
  rw [← h.indexed] at hl
  rcases (h.wellFormed.lookup_tree_folder_iff.mp ⟨id, inner, hl⟩).2 with ⟨e, he, below⟩
  exact ⟨e, (Index.mem_plain.mp he).1, below⟩

/-- The listing hides nothing: what is there is tracked. -/
theorem isHidden_eq {above : List Bytes} {name : Bytes} {entry : DiskEntry}
    (outside : Utf8.encode gitFolderName ∉ above ++ [name])
    (hl : members.lookup (above ++ [name]) = some entry) :
    s.checkout.isHidden (s.checkout.trackedPaths (pathOf above)) (pathOf (above ++ [name]))
      entry.isFolder = .ok false := by
  have hn := (h.tree.named.of_lookup hl).1
  rcases Ignore.exists_isIgnored s.checkout.disk s.checkout.root
    (fun name hm => ⟨(hn name hm).1, (hn name hm).2.1⟩) entry.isFolder with ⟨verdict, hverdict⟩
  -- The verdict of the rules is not looked at: tracked is what spares an entry, and all that the tree has is tracked,
  -- files by themselves and folders for what lies in them.
  have tracked : isTracked (s.checkout.trackedPaths (pathOf above)) (pathOf (above ++ [name]))
      entry.isFolder = true := by
    rcases h.cases_of_place (above ++ [name]) with ⟨leaf, content, executable, hleaf, hfile, _⟩ |
      ⟨id, inner, below, hinner, hfolder, _⟩ | ⟨_, hgit | hnone⟩
    · rcases h.entry_of_leaf hleaf with ⟨e, he, hnames⟩
      cases hl.symm.trans hfile
      exact isTracked_entry (h.wellFormed.isName he) he hnames
    · rcases h.entry_of_folder hinner with ⟨e, he, next, more, hnames⟩
      cases hl.symm.trans hfolder
      exact isTracked_above (h.wellFormed.isName he) he hnames
    · exact absurd hgit outside
    · cases hl.symm.trans hnone
  rw [isHidden, hverdict, tracked]
  split_ifs
  · rfl
  · exact congrArg Except.ok (Bool.and_false verdict)

/-- A folder of the tree has a file below it, so its path is short enough. -/
theorem short {below : Forest FileEntry Unit} (outside : Utf8.encode gitFolderName ∉ names)
    (hf : members.lookup names = some (.folder () below)) :
    (s.checkout.root.join (pathOf names).toRaw).bytes.length < Disk.pathLimit := by
  rcases (h.checkedOut.folders names).mpr ⟨outside, below, hf⟩ with ⟨id, inner, hl⟩
  -- The root is no member of itself, so this folder has a name.
  have hne : names ≠ [] := by
    rintro rfl
    cases hl
  rcases h.entry_of_folder hl with ⟨e, he, name, more, hn⟩
  -- A file of the index below this folder is on the disk too, where no path is too long, and the path of the folder
  -- is a part of its path.
  have hleaf : start.tree.members.lookup e.names = some (.leaf ⟨e.mode, e.id⟩) := by
    rw [← h.indexed, h.wellFormed.lookup_tree_leaf_iff]
    exact ⟨e, Index.mem_plain.mpr ⟨he, h.plain e he⟩, rfl, rfl⟩
  rcases h.regular_of_leaf hleaf with ⟨_, _, hfile, _⟩
  exact h.tree.short_of_below hne (hn ▸ hfile)

/-- A listing of the working tree hides nothing, whatever the rules say. -/
theorem lists : s.checkout.Lists members where
  tree := h.tree
  short _ _ outside hf := h.short outside hf
  shown _ _ _ outside hl := h.isHidden_eq outside hl

/-! ### The Differences -/

section

variable {content : Bytes} {executable : Bool} (outside : Utf8.encode gitFolderName ∉ names)
  (hl : members.lookup names = some (.leaf (.regular content executable)))

include outside hl

/-- A file of the working tree is known by its content. -/
theorem shows_onDisk : s.comparator.Shows (.onDisk (pathOf names) content) content := by
  have hstat := h.lists.stat_fileOf outside
    ((Forest.Entry.lookup_folder_eq_leaf_iff () members).mpr hl)
  exact ⟨rfl, rfl, fun _ => (holds_onDisk hstat s.settings.byteCompare).readable⟩

/-- So is a file that a revision has in its place. -/
theorem shows_atRevision (spec : String) (history : Ancestry) :
    s.comparator.Shows (.atRevision (pathOf names) spec (.ofBlob content) history) content := by
  refine ⟨rfl, rfl, fun hbytes => ?_⟩
  exact (holds_atRevision ⟨h.stored hbytes names content executable outside hl, rfl⟩ _ spec history
    s.settings.byteCompare).readable

/-- So it is when it is listed. -/
theorem shows_fileAt (spec : String) :
    s.comparator.Shows (fileAt spec names (.ofBlob content)) content := by
  have alike := alike_atRevision s.checkout s.settings.byteCompare names spec (.ofBlob content) ⟨[], false⟩
  have shows := h.shows_atRevision outside hl spec ⟨[], false⟩
  exact ⟨rfl, rfl, fun hbytes => alike.readable.symm.trans (shows.readable hbytes)⟩

end

/-- What the working tree and the source show at one place. -/
theorem coincide_working (names : List Bytes) : Coincide s.comparator (working members names)
    (member s.settings.source start.tree names) := by
  -- The root is a folder on both sides. It has a tree id on one side only, and then folders are compared by their
  -- members.
  by_cases hroot : names = []
  · subst hroot
    exact .of_treeId_eq_none rfl _ _ _
  have here : (Forest.Entry.folder () members : DiskEntry).lookup names = members.lookup names :=
    Forest.Entry.lookup_folder () members hroot
  have there : start.tree.find? names = start.tree.members.lookup names :=
    Forest.Entry.lookup_folder _ _ hroot
  rcases h.cases_of_place names with ⟨leaf, content, executable, hleaf, hfile, hid, isFile, outside⟩ |
    ⟨id, inner, below, hinner, hfolder, outside⟩ | ⟨hnone, hidden⟩
  · rw [working_of_lookup outside hfile, member, there, hleaf, Option.bind_some, memberOf, if_pos isFile,
      hid]
    exact .files _ _ (Comparator.equal_of_shows (h.shows_onDisk outside hfile)
      (h.shows_fileAt outside hfile s.settings.source))
  · rw [working, here, hfolder, Option.bind_some, workingOf_folder outside, member, there, hinner,
      Option.bind_some, memberOf]
    exact .of_treeId_eq_none rfl _ _ _
  -- Nothing is recorded here. What the disk has lies in the folder of the repository, which is not shown.
  · have shown : working members names = none := by
      rw [working, here]
      rcases hidden with hgit | hmissing
      · exact Option.bind_eq_none_iff.mpr fun entry _ => workingOf_of_mem hgit entry
      · rw [hmissing, Option.bind_none]
    rw [shown, member, there, hnone, Option.bind_none]
    exact .nothing

/-- What the source and the target show at one place. -/
theorem coincide_target (names : List Bytes) : Coincide s.comparator
    (member s.settings.source start.tree names) (member target remote.tree names) := by
  rw [h.level, member, member]
  -- Both sides read one tree, so this is a case analysis on a single entry.
  cases hf : start.tree.find? names with
  | none =>
      rw [Option.bind_none, Option.bind_none]
      exact .nothing
  | some entry =>
      rw [Option.bind_some, Option.bind_some]
      cases entry with
      | folder id inner => exact .folders _ _ _ _ fun x y hx hy => Option.some.inj (hx.symm.trans hy)
      | leaf leaf =>
          have hl := (Forest.Entry.lookup_folder_eq_leaf_iff _ _).mp hf
          rcases h.regular_of_leaf hl with ⟨content, executable, hfile, hid, isFile, outside, _⟩
          rw [memberOf, memberOf, if_pos isFile, if_pos isFile, hid]
          exact .files _ _ (Comparator.equal_of_shows (h.shows_fileAt outside hfile _)
            (h.shows_fileAt outside hfile _))

theorem onSource : Hierarchy s.checkout.store start.tree.members.depth
    (member s.settings.source start.tree) :=
  hierarchy_member h.resolved h.wellNamed_tree

/-- The working tree does not differ from the source. -/
theorem diff_working : ∃ node, Gives (s.diff .root .workingTree s.settings.sourceRevision) (.ok node) ∧
    node.children = [] := by
  have rootL : working members [] = some (.ofFolder (.at .root .workingTree)) := working_root members
  have rootR : member s.settings.source start.tree [] =
      some (.ofFolder (folderAt s.settings.source [] start.tree.id)) := rfl
  -- The comparison goes as deep as the deeper side, and it needs the bound to be above that.
  rcases compare_childless (d := s.differ) h.quiet h.lists.hierarchy_working h.onSource h.coincide_working
    rootL rootR (lt_max_of_lt_left h.lists.depth_lt_depthBound)
    (lt_max_of_lt_right (depth_lt_depthBound h.resolved)) with ⟨node, hnode, childless⟩
  have hleft : Gives (Run.ofExcept (s.checkout.variant .root .workingTree))
      (.ok (some (.ofFolder (.at .root .workingTree)))) := by
    rw [variant, h.lists.localVariant_root]
    exact Gives.ofExcept _
  exact ⟨node, hleft.bind ((gives_root h.resolved).bind
    ((Gives.ofExcept _).bind ((Gives.ofExcept _).bind hnode))), childless⟩

/-- The source does not differ from the target. -/
theorem diff_target : ∃ node, Gives (s.diff .root s.settings.sourceRevision (.named target)) (.ok node) ∧
    node.children = [] := by
  have onTarget : Hierarchy s.checkout.store remote.tree.members.depth (member target remote.tree) :=
    hierarchy_member h.reached (h.level ▸ h.wellNamed_tree)
  have rootL : member s.settings.source start.tree [] =
      some (.ofFolder (folderAt s.settings.source [] start.tree.id)) := rfl
  have rootR : member target remote.tree [] = some (.ofFolder (folderAt target [] remote.tree.id)) := rfl
  rcases compare_childless (d := s.differ) h.quiet h.onSource onTarget h.coincide_target rootL rootR
    (lt_max_of_lt_left (depth_lt_depthBound h.resolved))
    (lt_max_of_lt_right (depth_lt_depthBound h.reached)) with ⟨node, hnode, childless⟩
  exact ⟨node, (gives_root h.resolved).bind ((gives_root h.reached).bind
    ((Gives.ofExcept _).bind ((Gives.ofExcept _).bind hnode))), childless⟩

/-! ### The Scan and the Pending Paths -/

section

variable {reference : Reference} (hs : s.checkout.snapshot s.settings.source = .ok reference) {p : Path}

include hs

/-- The snapshot knows every file of the working tree, with the id of its content. -/
theorem exists_known (file : FileAt members p) :
    ∃ id, reference.lookup p = some id ∧ ¬ s.scanner.Unequal p id := by
  rcases stat_of_fileAt h.tree file with ⟨_, content, executable, hlookup, hstat⟩
  rcases file with ⟨value, names, outside, hl, rfl⟩
  rw [List.nil_append] at hlookup hstat ⊢
  have named : ∀ name ∈ names, IsName name := fun name hm => ((h.tree.named.of_lookup hl).1 name hm).1
  rw [names_pathOf named] at hlookup
  have hleaf : start.tree.members.lookup names = some (.leaf (FileEntry.regular content executable).leaf) :=
    (h.checkedOut.files names _).mpr ⟨outside, _, hlookup, rfl⟩
  rcases FileEntry.leaf_regular content executable with ⟨hid, isFile⟩
  have hrecords : s.checkout.Records s.settings.source names (FileEntry.regular content executable).leaf :=
    ⟨start, h.resolved, (Forest.Entry.lookup_folder_eq_leaf_iff _ _).mpr hleaf, isFile⟩
  -- The id of the snapshot is the one that is recorded, and the scan finds it again by hashing what is on the disk.
  refine ⟨_, ((snapshot_files h.resolves.namedL hs).2 names named _).mpr ⟨_, hrecords, rfl⟩, ?_⟩
  rw [hid, Unequal, not_not]
  exact hash_of_stat hstat

/-- It knows nothing else. -/
theorem fileAt_of_known {id : ContentId} (known : reference.lookup p = some id) : FileAt members p := by
  -- What the snapshot knows is recorded in the tree, so it is a file of the disk.
  rcases records_of_mem_snapshot h.resolves.namedL hs (List.mem_of_lookup known) with
    ⟨names, leaf, hp, _, hleaf⟩
  rcases h.regular_of_leaf (h.leaf_of_records List.mem_cons_self hleaf) with ⟨_, _, hfile, _, _, outside, _⟩
  exact ⟨_, names, outside, hfile, hp.symm⟩

/-- So there is nothing to report, and it does not matter what is hidden or excluded. -/
theorem not_reported (k : ChangeKind) : ¬ Reported s.scanner members reference p k := by
  intro hr
  -- A report is about a file that is unknown, one that is known by another id, or one that is missing. The first two
  -- are ruled out by what is known of a file, and the last by where it is.
  cases hr with
  | new file _ _ unknown =>
      rcases h.exists_known hs file with ⟨id, known, _⟩
      cases unknown.symm.trans known
  | changed id file _ _ known unequal =>
      rcases h.exists_known hs file with ⟨id', known', equal⟩
      cases known.symm.trans known'
      exact equal unequal
  | changedRules id file _ _ known unequal =>
      rcases h.exists_known hs file with ⟨id', known', equal⟩
      cases known.symm.trans known'
      exact equal unequal
  | deleted id missing known => exact missing (h.fileAt_of_known hs known)

end

/-- The scan finds nothing. -/
theorem scan_empty : Gives s.scan (.ok .empty) := by
  have named : s.checkout.WellNamed s.settings.source := h.resolves.namedL
  rcases exists_snapshot named h.resolved with ⟨reference, hs⟩
  -- A file of the repository folder would be known to the source but never met by the walk.
  have outside : ∀ names leaf, s.checkout.Records s.settings.source names leaf →
      Utf8.encode gitFolderName ∉ names := by
    intro names leaf hleaf
    rcases h.regular_of_leaf (h.leaf_of_records List.mem_cons_self hleaf) with ⟨_, _, _, _, _, hout, _⟩
    exact hout
  rcases scan_of_commit h.tree h.quiet named hs outside with ⟨⟨changes, skipped⟩, hfound, clean, _, reported⟩
  -- The report is exact, so without anything to report it is empty.
  have unchanged : changes = [] := List.eq_nil_iff_forall_not_mem.mpr
    fun change hc => h.not_reported hs change.kind ((reported change.path change.kind).mp hc)
  rw [Outcome.empty, ← unchanged, ← clean]
  exact hfound

/-- Nothing is pending. -/
theorem pending_empty : Gives s.pending (.ok ⟨[], []⟩) := by
  rcases h.diff_target with ⟨node, hnode, childless⟩
  -- The paths that changed between the revisions are the nodes below the root of their difference, and there are
  -- none. The scan has none either, so there is nothing left to classify.
  have hchanged : Gives s.revisionPaths (.ok []) := by
    have htarget : Gives (Run.ofExcept s.target) (.ok (.named target)) := by
      rw [h.resolves.target_eq]
      exact Gives.ofExcept _
    have hpaths := hnode.map changedPaths
    rw [changedPaths_of_childless childless] at hpaths
    exact htarget.bind (Gives.tryCatch hpaths)
  exact h.scan_empty.bind (hchanged.bind (Gives.bind (Gives.pure []) (Gives.pure _)))

/-! ### The Status -/

/-- Every path of the tree is in sync, and so is the root. -/
theorem status_of_find? {entry : TreeEntry} (hf : start.tree.find? names = some entry) :
    ∃ report, s.status (pathOf names) = .ok report ∧ report.status = .inSync := by
  have hremote : remote.tree.find? names = some entry := h.level ▸ hf
  have named := (h.wellNamed_tree.of_find? hf).1
  have hnames : (pathOf names).treeNames = .ok names := treeNames_pathOf named
  -- A file is compared by its content on all three sides, and a folder by where it is.
  cases entry with
  | leaf leaf =>
      have hl := (Forest.Entry.lookup_folder_eq_leaf_iff _ _).mp hf
      rcases h.regular_of_leaf hl with ⟨content, executable, hfile, hid, isFile, outside, _⟩
      rcases exists_namedVariant h.resolved hnames with ⟨base, hbase⟩
      rcases exists_namedVariant h.reached hnames with ⟨there, hthere⟩
      rcases namedVariant_of_file h.resolved hnames ⟨hf, isFile⟩ hbase with ⟨older, rfl⟩
      rcases namedVariant_of_file h.reached hnames ⟨hremote, isFile⟩ hthere with ⟨newer, rfl⟩
      rw [hid] at hbase hthere
      have hstat := h.lists.stat_fileOf outside
        ((Forest.Entry.lookup_folder_eq_leaf_iff () members).mpr hfile)
      exact status_of_unchanged h.resolves hnames (localVariant_file hstat) hbase hthere rfl
        (Comparator.equal_of_shows (h.shows_onDisk outside hfile) (h.shows_atRevision outside hfile _ _))
        (Comparator.equal_of_shows (h.shows_atRevision outside hfile _ _)
          (h.shows_atRevision outside hfile _ _))
  | folder id inner =>
      -- A folder of the tree is one of the working tree, and so is the root, which no lookup by names finds.
      have hhere : ∃ below, Utf8.encode gitFolderName ∉ names ∧
          (Forest.Entry.folder () members : DiskEntry).lookup names = some (.folder () below) := by
        by_cases hroot : names = []
        · subst hroot
          exact ⟨members, List.not_mem_nil, rfl⟩
        · rw [Tree.find?, Tree.entry, Forest.Entry.lookup_folder _ _ hroot] at hf
          rcases (h.checkedOut.folders names).mp ⟨id, inner, hf⟩ with ⟨outside, below, hl⟩
          exact ⟨below, outside, (Forest.Entry.lookup_folder () members hroot).trans hl⟩
      rcases hhere with ⟨below, outside, hl⟩
      refine status_of_unchanged h.resolves hnames (h.lists.localVariant_folder outside hl)
        (namedVariant_of_folder h.resolved hnames hf) (namedVariant_of_folder h.reached hnames hremote)
        rfl ?_ ?_
      · -- The working tree has no tree ids, so its folders are known by their place.
        rw [Variant.ofFolder, Variant.ofFolder, Comparator.equal_folders rfl rfl, Verdict.ofFolders]
        exact congrArg Except.ok (decide_eq_true rfl)
      · rw [Variant.ofFolder, Variant.ofFolder, Comparator.equal_folders rfl rfl, Verdict.ofFolders]
        exact congrArg Except.ok (decide_eq_true rfl)

end Pristine

/-- In a working tree without changes nothing is told to have changed, in whichever way it is asked. -/
theorem pristine_neutral {s : Synchronizer} {members : Forest FileEntry Unit} {start remote : Commit}
    {target : String} (h : s.Pristine members start remote target) :
    (∀ names entry, start.tree.find? names = some entry →
      ∃ report, s.status (pathOf names) = .ok report ∧ report.status = .inSync) ∧
    (∃ node, (s.diff .root .workingTree s.settings.sourceRevision).outcome = .ok node ∧
      node.children = []) ∧
    (∃ node, (s.diff .root s.settings.sourceRevision (.named target)).outcome = .ok node ∧
      node.children = []) ∧
    s.pending.outcome = .ok ⟨[], []⟩ := by
  rcases h.diff_working with ⟨here, hhere, childless⟩
  rcases h.diff_target with ⟨there, hthere, childless'⟩
  exact ⟨fun _ _ hf => h.status_of_find? hf, ⟨here, hhere.outcome, childless⟩,
    ⟨there, hthere.outcome, childless'⟩, h.pending_empty.outcome⟩

namespace Sample

/-- A folder and a file that the rules beside them leave out. -/
def hiddenFolder : Bytes := Utf8.encode "d"

def hiddenFile : Bytes := Utf8.encode "f"

def hidingRules : Bytes := Utf8.encode "d/\nf\n"

/-- The two of them on the disk, with the rules. -/
def quieted : Forest FileEntry Unit :=
  .leaf (Utf8.encode ignoreFileName) (.regular hidingRules false)
    (.folder hiddenFolder () (.leaf hiddenFile (.regular [2] true) .nil)
      (.leaf hiddenFile (.regular [1] false) .nil))

/-- All of it is in the index. -/
def forced : Index :=
  [⟨Utf8.encode ignoreFileName, 0, .regular, .ofBlob hidingRules⟩,
    ⟨Utf8.encode "d/f", 0, .executable, .ofBlob [2]⟩, ⟨hiddenFile, 0, .regular, .ofBlob [1]⟩]

/-- A commit of that index. -/
def settled : Commit where
  id := ⟨"settled"⟩
  tree := forced.tree
  parents := []
  author := .make "a" "a" 0 0
  committer := .make "a" "a" 0 0
  message := []

/-- The head and the target stand on the commit. -/
def resting : Synchronizer where
  checkout := {
    disk := ⟨[Utf8.encode "w"], quieted⟩
    root := .ofString "/w"
    repository := {
      objects := [.commit settled]
      index := forced
      references := []
      head := .detached ⟨"settled"⟩
      log := [] }
    settings := { Settings.default with target := some "HEAD" } }
  signal := none

theorem resolve_settled : resting.checkout.repository.resolveCommit "HEAD" = .ok (some settled) :=
  rfl

theorem tree_quieted : resting.checkout.disk.IsWorkingTree resting.checkout.root quieted := by
  have name : IsName (Utf8.encode "w") := by decide
  exact ⟨⟨[], Disk.resolve_place name (by decide) (by decide) quieted⟩, by decide, by decide,
    by decide, by decide⟩

theorem wellFormed_forced : forced.WellFormed :=
  ⟨by decide, by decide, by decide⟩

/-- Below the root there is one folder on the disk. -/
theorem eq_of_folder {names : List Bytes} {below : Forest FileEntry Unit}
    (h : quieted.lookup names = some (.folder () below)) : names = [hiddenFolder] := by
  have noFolder : ∀ name value more, Forest.lookup (.leaf name value .nil) more ≠
      some (.folder () below : DiskEntry) := by
    intro name value more hl
    rcases (@Forest.lookup_cons_eq_some_iff FileEntry Unit name (.leaf value) _ .nil
      List.not_mem_nil more).mp hl with ⟨_, he⟩ | ⟨_, _, hl⟩ | hl
    · cases he
    · exact Forest.not_lookup_nil hl
    · exact Forest.not_lookup_nil hl
  -- The three members are gone through in order: the rules, the folder and the file.
  rcases (@Forest.lookup_cons_eq_some_iff FileEntry Unit _ (.leaf _) _ _ (by decide) names).mp h with
    ⟨_, he⟩ | ⟨_, _, hl⟩ | hl
  · cases he
  · exact absurd hl Forest.not_lookup_nil
  · rcases (@Forest.lookup_cons_eq_some_iff FileEntry Unit _ (.folder () _) _ _ (by decide) names).mp hl
      with ⟨rfl, _⟩ | ⟨more, _, hl⟩ | hl
    · rfl
    · exact absurd hl (noFolder _ _ _)
    · exact absurd hl (noFolder _ _ _)

/-- What is on the disk is in the commit, and nothing else is. -/
theorem checkedOut_settled : settled.tree.IsCheckedOut quieted where
  files names leaf := by
    -- The entries of the index and the files of the disk are the same list, so it is enough to compare what looks
    -- them up.
    have same : forced.plain.map (fun e => (e.names, (⟨e.mode, e.id⟩ : Leaf))) =
        quieted.leaves.map fun e => (e.1, e.2.leaf) := rfl
    have outside : ∀ e ∈ quieted.leaves, Utf8.encode gitFolderName ∉ e.1 := by decide
    have onDisk := Forest.mem_leaves_iff (f := quieted) (by decide)
    rw [show settled.tree = forced.tree from rfl, wellFormed_forced.spans_tree.leaf_iff, same, List.mem_map]
    constructor
    · rintro ⟨⟨_, file⟩, he, heq⟩
      cases heq
      exact ⟨outside _ he, file, (onDisk _ _).mp he, rfl⟩
    · rintro ⟨_, file, hl, rfl⟩
      exact ⟨(names, file), (onDisk _ _).mpr hl, rfl⟩
  folders names := by
    -- A folder of the tree is above an entry. Of the three entries one has two names, so there is one such folder.
    have shapes : ∀ e ∈ forced, e.names.length = 1 ∨ e.names = [hiddenFolder, hiddenFile] := by decide
    rw [show settled.tree = forced.tree from rfl, wellFormed_forced.lookup_tree_folder_iff]
    constructor
    · rintro ⟨hne, e, he, name, more, hn⟩
      have hshape := shapes e (Index.mem_plain.mp he).1
      rw [hn, List.length_append, List.length_cons] at hshape
      rcases names with _ | ⟨first, _ | ⟨second, rest⟩⟩
      · exact absurd rfl hne
      · rcases hshape with hlength | hsplit
        · rw [List.length_singleton] at hlength
          omega
        · rw [(List.cons.inj hsplit).1]
          exact ⟨by decide, _, rfl⟩
      · rcases hshape with hlength | hsplit
        · rw [List.length_cons, List.length_cons] at hlength
          omega
        · have hlength := congrArg List.length hsplit
          simp only [List.length_append, List.length_cons, List.length_nil] at hlength
          omega
    · rintro ⟨_, below, hl⟩
      rw [eq_of_folder hl]
      exact ⟨List.cons_ne_nil _ _, ⟨Utf8.encode "d/f", 0, .executable, .ofBlob [2]⟩,
        Index.mem_plain.mpr ⟨List.mem_cons_of_mem _ List.mem_cons_self, rfl⟩, hiddenFile, [], by decide⟩

theorem pristine_resting : resting.Pristine quieted settled settled "HEAD" where
  tree := tree_quieted
  resolved := resolve_settled
  chosen := rfl
  reached := resolve_settled
  level := rfl
  checkedOut := checkedOut_settled
  wellFormed := wellFormed_forced
  plain := by
    have plain : ∀ e ∈ forced, e.stage = 0 := by decide
    exact plain
  indexed := rfl
  stored h := nomatch h
  quiet _ h := nomatch h

/-- The rules that are asked about the root are those of its ignore file. -/
theorem ruleFiles_quieted : Ignore.ruleFiles resting.checkout.disk resting.checkout.root [] =
    [Ignore.builtIn, IgnoreRule.parse [] hidingRules, []] := by
  have name : IsName (Utf8.encode ignoreFileName) := by decide
  have place : RawPath.mk (Utf8.encode ignoreFileName) = (pathOf [Utf8.encode ignoreFileName]).toRaw :=
    (toRaw_singleton name).symm
  have stat : resting.checkout.disk.stat
      (resting.checkout.root.join (pathOf [Utf8.encode ignoreFileName]).toRaw) =
        .ok (.leaf (.regular hidingRules false)) :=
    tree_quieted.stat_of_lookup (by decide) (by rw [names_pathOf (by decide)]; rfl) (by decide +kernel)
  have listed : Ignore.readRules resting.checkout.disk
      (resting.checkout.root.join (pathOf [Utf8.encode ignoreFileName]).toRaw) [] =
        IgnoreRule.parse [] hidingRules := by
    rw [Ignore.readRules, Disk.read, stat]
    rfl
  have exclude : (resting.checkout.root.join (.ofString gitFolderName)).join (.ofString "info/exclude") =
      resting.checkout.root.join
        (pathOf [Utf8.encode gitFolderName, Utf8.encode "info", Utf8.encode "exclude"]).toRaw := by
    decide +kernel
  -- There is no exclude file, since the working tree has no repository folder at all.
  have missing : quieted.lookup [Utf8.encode gitFolderName, Utf8.encode "info", Utf8.encode "exclude"] =
      none := rfl
  have unlisted := Ignore.readRules_of_none tree_quieted (by decide) (List.cons_ne_nil _ _) missing []
  have folders : Ignore.upwards (Ignore.settleNames []) = [[]] := rfl
  simp only [Ignore.ruleFiles, folders, List.map_cons, List.map_nil, List.flatMap_nil, List.nil_append,
    place, listed, exclude, unlisted, List.cons_append]

/-- They leave out the folder and the file beside it. -/
theorem ignored_quieted :
    Ignore.isIgnored resting.checkout.disk resting.checkout.root (pathOf [hiddenFolder]) true = .ok true ∧
    Ignore.isIgnored resting.checkout.disk resting.checkout.root (pathOf [hiddenFile]) false = .ok true := by
  have left : ∀ isFolder, Ignore.isLeftOut [Ignore.builtIn, IgnoreRule.parse [] hidingRules, []]
      [hiddenFile] isFolder = true := by
    decide +kernel
  have folder : Ignore.isLeftOut [Ignore.builtIn, IgnoreRule.parse [] hidingRules, []]
      [hiddenFolder] true = true := by
    decide +kernel
  have asked : ∀ name ∈ [hiddenFolder, hiddenFile],
      (pathOf [name]).isRoot = false ∧ (pathOf [name]).treeNames = .ok [name] := by
    decide +kernel
  have atFolder := asked hiddenFolder List.mem_cons_self
  have atFile := asked hiddenFile (List.mem_cons_of_mem _ List.mem_cons_self)
  constructor
  · simp only [Ignore.isIgnored, atFolder, Bool.false_eq_true, if_false, Bool.true_or,
      List.dropLast_singleton, ruleFiles_quieted, folder]
  · simp only [Ignore.isIgnored, atFile, Bool.false_eq_true, if_false, List.dropLast_singleton,
      ruleFiles_quieted, left]

end Sample

open Synchronizer.Sample in
/-- The law at a commit of which nearly everything is left out by its own rules. -/
theorem neutral_of_ignored :
    resting.Pristine quieted settled settled "HEAD" ∧
    (Ignore.isIgnored resting.checkout.disk resting.checkout.root (pathOf [hiddenFolder]) true = .ok true ∧
      Ignore.isIgnored resting.checkout.disk resting.checkout.root (pathOf [hiddenFile]) false =
        .ok true) ∧
    (∀ names entry, settled.tree.find? names = some entry →
      ∃ report, resting.status (pathOf names) = .ok report ∧ report.status = .inSync) ∧
    (∃ node, (resting.diff .root .workingTree resting.settings.sourceRevision).outcome = .ok node ∧
      node.children = []) ∧
    (∃ node, (resting.diff .root resting.settings.sourceRevision (.named "HEAD")).outcome = .ok node ∧
      node.children = []) ∧
    resting.pending.outcome = .ok ⟨[], []⟩ :=
  ⟨pristine_resting, ignored_quieted, pristine_neutral pristine_resting⟩

end Synchronizer

end ThreeWay
