import ThreeWay.Proofs.Checkout.Answers
import ThreeWay.Proofs.Checkout.Scan
import ThreeWay.Proofs.Checkout.Working
import ThreeWay.Proofs.Diff.Departs
import ThreeWay.Proofs.Ignore

/-!
# The Scan and the Difference Agree

What changed in the working tree since the source can be asked for in two ways. The scan walks the working
tree once and strikes what it meets off a table of all files of the source. The difference goes down two
hierarchies at once, folder by folder, and expands what only one of them has. Neither knows of the other, and
they read different things: one a snapshot, the other the listings.

Both come down to the same question at every place by itself, which is `Departs`: is there a file on one side
only, or are there two of different content? Where nothing is left out and no file stands in the place of a
folder, the law of a scan says no more than that.

The two have to read a content alike for this. The scan knows a file of the source by its id and hashes the file
on disk, so it sees a change in the ids. A comparison by bytes reads both, and two contents with one id would be
told apart by it alone. `Comparable` rules that out for the contents that are there, and asks it of byte
comparison only.

So both are brought to that form. For the difference this is the law of two aligned hierarchies (`Aligned`), whose
conditions are listings by place, kinds that agree, and comparisons that have an answer. For the scan it is its
own law, read with no folder hidden and no file excluded. What remains is to say the same of a file in both ways:
the snapshot has an entry for it exactly if the source is listed with it, and the id in the entry is that of the
leaf.

## Main definitions

* `Synchronizer.sourceOf`: What the source is listed as.
* `Synchronizer.Comparable`: A working tree and a source without ignored files.

## Theorems

* `source_blob_iff`, `hierarchy_source`: The source is listed with the files that it records.
* `fileAt_iff`: A file of the working tree stands where the listings show one.
* `not_hidden`, `kept_of_working`, `kept_of_source`: The scan passes over nothing.
* `unequal_iff_of_blob`: Both ways find the same files changed.
* `aligned`: The two hierarchies can be compared place by place.
* `diff_tells`: The difference tells where the working tree departs from the source.
* `exists_lookup`, `blob_of_lookup`: What the snapshot knows of the source.
* `departs_of_reported`, `reported_of_departs`: The law of the scan, place by place.
* `scan_tells`: The scan reports where the working tree departs from the source.
* `fileChanges_perm_scan`: The two ways lead to the same changes.
-/

namespace ThreeWay

open ThreeWay.Path Scanner Run Checkout

namespace Synchronizer

/-- What the source is listed as at a chain of names. Before the first commit that is nothing. -/
def sourceOf (s : Synchronizer) (start : Option Commit) (names : List Bytes) : Option Variant :=
  start.bind fun commit => member s.settings.source commit.tree names

theorem sourceOf_some (s : Synchronizer) (commit : Commit) :
    s.sourceOf (some commit) = member s.settings.source commit.tree := rfl

/-- A working tree and a source of which nothing is ignored, and in which no path is a file on one side and a
    folder on the other. Where bytes are compared, a file that both sides have is in the object database under
    the id of its content, and that id is not the one of the other content. -/
structure Comparable (s : Synchronizer) (members : Forest FileEntry Unit) (start : Option Commit) :
    Prop where
  exposed : s.checkout.Exposes members
  resolved : s.checkout.repository.resolveCommit s.settings.source = .ok start
  named : s.checkout.WellNamed s.settings.source
  kept : ∀ names v, s.sourceOf start names = some v →
    Ignore.isIgnored s.checkout.disk s.checkout.root (pathOf names) v.isTree = .ok false
  kinds : ∀ names v w, working members names = some v → s.sourceOf start names = some w →
    v.isTree = w.isTree
  stored : s.settings.byteCompare = true → ∀ names content executable leaf,
    members.lookup names = some (.leaf (.regular content executable)) →
    s.checkout.Records s.settings.source names leaf →
    ∃ recorded, s.checkout.repository.objects.HasBlob leaf.id recorded ∧
      (ObjectId.ofBlob content = ObjectId.ofBlob recorded → content = recorded)
  quiet : Signal.IsQuiet s.signal

namespace Comparable

variable {s : Synchronizer} {members : Forest FileEntry Unit} {start : Option Commit}
  (h : s.Comparable members start) {names : List Bytes} {p : Path} {content : Bytes}
  {executable : Bool} {leaf : Leaf}

include h

/-! ### The Source -/

/-- The source is listed with exactly the files that it records. -/
theorem source_blob_iff {b : Blob} : s.sourceOf start names = some (.blob b) ↔
    ∃ leaf, s.checkout.Records s.settings.source names leaf ∧
      b = fileAt s.settings.source names leaf.id :=
  memberAt_blob_iff h.resolved

/-- The source is listed as the tree of its commit, if it has one. -/
theorem hierarchy_source :
    Hierarchy s.checkout.store ((start.map (·.tree.members.depth)).getD 0) (s.sourceOf start) :=
  hierarchy_memberAt h.resolved h.named

/-- No way in the source leads through the repository's folder, since the rules would leave that out. -/
theorem outside_of_source {v : Variant} (hv : s.sourceOf start names = some v) :
    Utf8.encode gitFolderName ∉ names := by
  have named : ∀ name ∈ names, IsName name ∧ 0 ∉ name := names_of_memberAt h.resolved h.named hv
  -- The rules are asked of each front of the path, and the listing has a member for each.
  have kept : ∀ front, front <+: names → front ≠ [] → ∃ isFolder,
      Ignore.isIgnored s.checkout.disk s.checkout.root (pathOf front) isFolder = .ok false := by
    rintro front ⟨more, rfl⟩ _
    rcases h.hierarchy_source.exists_front hv with ⟨w, hw⟩
    exact ⟨w.isTree, h.kept front w hw⟩
  exact Ignore.gitFolder_not_mem named kept

/-! ### The Working Tree -/

/-- A file of the working tree stands where the working tree is listed with one. -/
theorem fileAt_iff : FileAt members p ↔
    ∃ names b, p = pathOf names ∧ working members names = some (.blob b) := by
  constructor
  · rintro ⟨value, names, outside, hl, hp⟩
    have hregular := h.exposed.tree.regular.of_lookup hl
    -- There are no links in such a tree, so a file on disk is a file of the listing.
    cases value with
    | link target => exact absurd hregular id
    | regular content executable => exact ⟨names, _, hp.symm, working_of_lookup outside hl⟩
  · rintro ⟨names, b, rfl, hb⟩
    rcases lookup_of_working hb with ⟨outside, content, executable, hl, _⟩
    exact ⟨_, names, outside, hl, rfl⟩

/-- The scan passes over nothing, since no folder of the working tree is ignored. -/
theorem not_hidden : ¬ s.scanner.Hidden members p := by
  rintro ⟨folder, ⟨below, names, outside, hl, rfl⟩, hignored, _⟩
  rw [List.nil_append, isIgnored_scanner, h.exposed.kept_folder outside hl] at hignored
  cases hignored

theorem kept_of_working {b : Blob} (hb : working members names = some (.blob b)) :
    Ignore.isIgnored s.checkout.disk s.checkout.root (pathOf names) false = .ok false := by
  rcases lookup_of_working hb with ⟨outside, content, executable, hl, _⟩
  exact h.exposed.kept_file outside hl

theorem kept_of_source {b : Blob} (hb : s.sourceOf start names = some (.blob b)) :
    Ignore.isIgnored s.checkout.disk s.checkout.root (pathOf names) false = .ok false := by
  have hkept := h.kept names _ hb
  simp only [Variant.isTree] at hkept
  exact hkept

/-! ### Both Sides -/

/-- The scan finds that a file was changed by the id of its content. -/
theorem unequal_iff (outside : Utf8.encode gitFolderName ∉ names)
    (hl : members.lookup names = some (.leaf (.regular content executable))) :
    s.scanner.Unequal (pathOf names) ⟨leaf.id.hex⟩ ↔ leaf.id ≠ .ofBlob content := by
  have named := (h.exposed.tree.named.of_lookup hl).1
  have file : FileAt members (pathOf names) := ⟨_, names, outside, hl, rfl⟩
  rcases stat_of_fileAt h.exposed.tree file with ⟨_, content', executable', hl', hstat⟩
  rw [names_pathOf fun name hm => (named name hm).1, hl] at hl'
  cases hl'
  have hhash : s.scanner.hash (s.scanner.root.join (pathOf names).toRaw) =
      .ok ⟨(ObjectId.ofBlob content).hex⟩ := hash_of_stat hstat
  rw [Unequal, hhash, ne_eq, Except.ok.injEq, contentId_inj, eq_comm]

/-- The difference finds it by the same id, or else by the content. -/
theorem equal_eq (hl : members.lookup names = some (.leaf (.regular content executable)))
    (hleaf : s.checkout.Records s.settings.source names leaf) :
    s.comparator.equal (some (.blob (.onDisk (pathOf names) content)))
        (some (.blob (fileAt s.settings.source names leaf.id))) =
      .ok (decide (leaf.id = .ofBlob content)) := by
  -- By ids, the ids are what both know. By bytes, the content of the id is looked up in the database.
  cases hbytes : s.settings.byteCompare with
  | false =>
      rw [Comparator.equal_of_ids hbytes rfl rfl rfl rfl]
      simp only [contentId_inj, eq_comm]
  | true =>
      rcases h.stored hbytes names content executable leaf hl hleaf with ⟨recorded, blob, distinct⟩
      have outside := h.outside_of_source (h.source_blob_iff.mpr ⟨leaf, hleaf, rfl⟩)
      have hstat := h.exposed.lists.stat_fileOf outside
        ((Forest.Entry.lookup_folder_eq_leaf_iff () members).mpr hl)
      have here := holds_onDisk hstat s.settings.byteCompare
      have there := (alike_atRevision s.checkout s.settings.byteCompare names s.settings.source
        leaf.id ⟨[], false⟩).holds (holds_atRevision blob (pathOf names) s.settings.source ⟨[], false⟩
          s.settings.byteCompare)
      have hcontents : content = recorded ↔ leaf.id = .ofBlob content := by
        rw [blob.addressed, eq_comm]
        exact ⟨congrArg _, fun he => (distinct he.symm).symm⟩
      have hequal := Comparator.equal_of_holds here there fun _ => distinct
      simp only [hcontents] at hequal
      exact hequal

/-- The two hierarchies can be compared place by place. -/
theorem aligned : Aligned s.comparator members.depth
    ((start.map (·.tree.members.depth)).getD 0) (working members) (s.sourceOf start) where
  onLeft := h.exposed.lists.hierarchy_working
  onRight := h.hierarchy_source
  kinds := h.kinds
  identical _ _ _ _ _ _ hv _ hx := absurd ((treeId_of_working hv).symm.trans hx) (Option.some_ne_none _).symm

/-- The two ways agree about whether a file was changed. -/
theorem unequal_iff_of_blob {b : Blob} (hb : working members names = some (.blob b))
    (hleaf : s.checkout.Records s.settings.source names leaf) :
    s.scanner.Unequal (pathOf names) ⟨leaf.id.hex⟩ ↔ s.comparator.equal (some (.blob b))
      (some (.blob (fileAt s.settings.source names leaf.id))) = .ok false := by
  rcases lookup_of_working hb with ⟨outside, content, executable, hl, rfl⟩
  rw [h.unequal_iff outside hl, h.equal_eq hl hleaf, Except.ok.injEq, decide_eq_false_iff_not]

/-! ### The Difference -/

/-- The difference may list more levels than the source has. -/
theorem depth_lt_source (levels : Nat) : (start.map (·.tree.members.depth)).getD 0 <
    max levels (s.checkout.depthBound s.settings.sourceRevision) := by
  rw [Settings.sourceRevision, depthBound, Repository.resolveTree, h.resolved, Run.ok_bind]
  -- Before the first commit there is no tree, and one level is enough.
  cases start with
  | none =>
      simp only [pure, Except.pure, Option.map_none, Option.getD_none]
      omega
  | some commit =>
      simp only [pure, Except.pure, Option.map_some, Option.getD_some]
      omega

/-- The difference tells where the working tree departs from the source. -/
theorem diff_tells : ∃ node,
    Gives (s.diff .root .workingTree s.settings.sourceRevision) (.ok node) ∧
      node.Tells [] (Departs s.comparator (working members) (s.sourceOf start)) := by
  have hleft : Gives (Run.ofExcept (s.checkout.variant .root .workingTree))
      (.ok (some (.ofFolder (.at .root .workingTree)))) := by
    rw [variant, h.exposed.lists.localVariant_root]
    exact Gives.ofExcept _
  have deepL : members.depth < max (s.checkout.depthBound .workingTree)
      (s.checkout.depthBound s.settings.sourceRevision) :=
    lt_max_of_lt_left h.exposed.lists.depth_lt_depthBound
  have deepR := h.depth_lt_source (s.checkout.depthBound .workingTree)
  -- Without a commit the working tree is expanded, and every file in it is an addition.
  cases start with
  | none =>
      have hright : s.checkout.variant .root s.settings.sourceRevision = .ok none :=
        namedVariant_none h.resolved
      rcases expand_tells (d := s.differ) h.quiet h.aligned.onLeft (working_root members) deepL with
        ⟨node, hnode, told⟩
      refine ⟨node, hleft.bind ?_, told⟩
      rw [hright]
      exact (Gives.ofExcept _).bind ((Gives.ofExcept _).bind hnode)
  | some commit =>
      have hright : s.checkout.variant .root s.settings.sourceRevision =
          .ok (some (.ofFolder (folderAt s.settings.source [] commit.tree.id))) :=
        namedVariant_root h.resolved
      have comparable : ∀ names a b, working members names = some (.blob a) →
          s.sourceOf (some commit) names = some (.blob b) →
          ∃ same, s.comparator.equal (some (.blob a)) (some (.blob b)) = .ok same := by
        intro names a b ha hb
        rcases lookup_of_working ha with ⟨_, content, executable, hl, rfl⟩
        rcases h.source_blob_iff.mp hb with ⟨leaf, hleaf, rfl⟩
        exact ⟨_, h.equal_eq hl hleaf⟩
      rcases Aligned.compare_tells (d := s.differ) h.quiet h.aligned comparable (working_root members) rfl
        rfl deepL deepR with ⟨node, hnode, told⟩
      refine ⟨node, hleft.bind ?_, told⟩
      rw [hright]
      exact (Gives.ofExcept _).bind ((Gives.ofExcept _).bind ((Gives.ofExcept _).bind hnode))

/-! ### The Scan -/

section

variable {reference : Reference} (hs : s.checkout.snapshot s.settings.source = .ok reference)

include hs

/-- The snapshot knows the files that the source is listed with. -/
theorem exists_lookup {b : Blob} (hb : s.sourceOf start names = some (.blob b)) :
    ∃ leaf, s.checkout.Records s.settings.source names leaf ∧
      b = fileAt s.settings.source names leaf.id ∧
      reference.lookup (pathOf names) = some ⟨leaf.id.hex⟩ := by
  rcases h.source_blob_iff.mp hb with ⟨leaf, hleaf, rfl⟩
  have hn := fun name hm => h.hierarchy_source.named hb name hm
  exact ⟨leaf, hleaf, rfl, ((snapshot_files h.named hs).2 names hn _).mpr ⟨leaf, hleaf, rfl⟩⟩

/-- The snapshot knows no other files. -/
theorem blob_of_lookup {id : ContentId} (known : reference.lookup p = some id) :
    ∃ names leaf, p = pathOf names ∧ s.checkout.Records s.settings.source names leaf ∧
      id = ⟨leaf.id.hex⟩ ∧
      s.sourceOf start names = some (.blob (fileAt s.settings.source names leaf.id)) := by
  rcases records_of_mem_snapshot h.named hs (List.mem_of_lookup known) with ⟨names, _, rfl, hn, _⟩
  rcases ((snapshot_files h.named hs).2 names (fun name hm => (hn name hm).1) id).mp known with
    ⟨leaf, hleaf, hid⟩
  exact ⟨names, leaf, rfl, hleaf, hid, h.source_blob_iff.mpr ⟨leaf, hleaf, rfl⟩⟩

/-- What the scan has to report departs from the source. -/
theorem departs_of_reported {k : ChangeKind} (hr : Reported s.scanner members reference p k) :
    ∃ names, p = pathOf names ∧
      Departs s.comparator (working members) (s.sourceOf start) names k := by
  cases hr with
  | new file _ _ unknown =>
      rcases h.fileAt_iff.mp file with ⟨names, b, rfl, hb⟩
      -- No folder of the source stands here, and a file would be known.
      refine ⟨names, rfl, .added b hb ((h.aligned.right_of_blob hb).resolve_right ?_)⟩
      rintro ⟨b', hb'⟩
      rcases h.exists_lookup hs hb' with ⟨leaf, _, _, known⟩
      cases unknown.symm.trans known
  | changed id file _ _ known unequal =>
      rcases h.fileAt_iff.mp file with ⟨names, b, rfl, hb⟩
      rcases h.blob_of_lookup hs known with ⟨others, leaf, hp, hleaf, rfl, hb'⟩
      cases pathOf_injective (h.aligned.onLeft.named hb) (h.aligned.onRight.named hb') hp
      exact ⟨names, rfl, .changed b _ hb hb' ((h.unequal_iff_of_blob hb hleaf).mp unequal)⟩
  | changedRules id _ hidden => exact absurd hidden h.not_hidden
  | deleted id missing known =>
      rcases h.blob_of_lookup hs known with ⟨names, leaf, rfl, _, _, hb⟩
      refine ⟨names, rfl, .removed _ ((h.aligned.left_of_blob hb).resolve_right ?_) hb⟩
      rintro ⟨b', hb'⟩
      exact missing (h.fileAt_iff.mpr ⟨names, b', rfl, hb'⟩)

/-- What departs from the source the scan has to report. -/
theorem reported_of_departs {k : ChangeKind}
    (hd : Departs s.comparator (working members) (s.sourceOf start) names k) :
    Reported s.scanner members reference (pathOf names) k := by
  cases hd with
  | added b here missing =>
      have file : FileAt members (pathOf names) := h.fileAt_iff.mpr ⟨names, b, rfl, here⟩
      refine .new _ file h.not_hidden (not_excluded_of_kept (h.kept_of_working here)) ?_
      -- A known path is one where the source has a file, and nothing stands there.
      by_contra hne
      rcases Option.ne_none_iff_exists'.mp hne with ⟨id, known⟩
      rcases h.blob_of_lookup hs known with ⟨others, leaf, hp, _, _, hb⟩
      cases pathOf_injective (h.aligned.onLeft.named here) (h.aligned.onRight.named hb) hp
      cases missing.symm.trans hb
  | removed b missing there =>
      rcases h.exists_lookup hs there with ⟨leaf, _, _, known⟩
      refine .deleted _ _ ?_ known (not_excluded_of_kept (h.kept_of_source there)) (Or.inl h.not_hidden)
      intro file
      rcases h.fileAt_iff.mp file with ⟨others, b', hp, hb'⟩
      cases pathOf_injective (h.aligned.onRight.named there) (h.aligned.onLeft.named hb') hp
      cases missing.symm.trans hb'
  | changed a b here there unequal =>
      have file : FileAt members (pathOf names) := h.fileAt_iff.mpr ⟨names, a, rfl, here⟩
      rcases h.exists_lookup hs there with ⟨leaf, hleaf, rfl, known⟩
      exact .changed _ _ file h.not_hidden (not_excluded_of_kept (h.kept_of_working here)) known
        ((h.unequal_iff_of_blob here hleaf).mpr unequal)

end

/-- The scan reports where the working tree departs from the source. -/
theorem scan_tells : ∃ o, Gives s.scan (.ok o) ∧ o.skipped = [] ∧ Ascending Change.path o.changes ∧
    ∀ p k, ⟨p, k⟩ ∈ o.changes ↔
      ∃ names, p = pathOf names ∧ Departs s.comparator (working members) (s.sourceOf start) names k := by
  rcases exists_snapshot h.named h.resolved with ⟨reference, hs⟩
  -- The scan is asked about a source of which nothing lies in the folder of the repository.
  have outside : ∀ names leaf, s.checkout.Records s.settings.source names leaf →
      Utf8.encode gitFolderName ∉ names :=
    fun names leaf hleaf => h.outside_of_source (h.source_blob_iff.mpr ⟨leaf, hleaf, rfl⟩)
  rcases scan_of_commit h.exposed.tree h.quiet h.named hs outside with ⟨o, ho, clean, ordered, reported⟩
  refine ⟨o, ho, clean, ordered, fun p k => ?_⟩
  rw [reported]
  constructor
  · exact h.departs_of_reported hs
  · rintro ⟨names, rfl, hd⟩
    exact h.reported_of_departs hs hd

end Comparable

/-- A scan and a difference of the working tree and the source tell the same changes, and each of them
    once. -/
theorem fileChanges_perm_scan {s : Synchronizer} {members : Forest FileEntry Unit} {start : Option Commit}
    (h : s.Comparable members start) : ∃ node o,
      (s.diff .root .workingTree s.settings.sourceRevision).outcome = .ok node ∧
      s.scan.outcome = .ok o ∧ o.skipped = [] ∧ Ascending Change.path o.changes ∧
      node.fileChanges.Perm o.changes := by
  rcases h.diff_tells with ⟨node, hnode, told⟩
  rcases h.scan_tells with ⟨o, ho, clean, ordered, reported⟩
  refine ⟨node, o, hnode.outcome, ho.outcome, clean, ordered, ?_⟩
  -- Neither has a change twice, so it is enough that they have the same ones.
  rw [List.perm_ext_iff_of_nodup told.once ordered.nodup]
  rintro ⟨p, k⟩
  rw [told.mem_iff, reported]
  simp only [List.nil_append]

namespace Sample

/-- A file in a folder, and a file beside the folder. -/
def edited : Forest FileEntry Unit :=
  .folder (Utf8.encode "d") () (.leaf (Utf8.encode "f") (.regular [2] false) .nil)
    (.leaf (Utf8.encode "e") (.regular [1] false) .nil)

/-- A commit with another content of the file in the folder, and with another file beside it. -/
def original : Commit where
  id := ⟨"original"⟩
  tree := ⟨⟨"tree"⟩,
    .folder (Utf8.encode "d") ⟨"folder"⟩ (.leaf (Utf8.encode "f") ⟨.regular, .ofBlob [1]⟩ .nil)
      (.leaf (Utf8.encode "g") ⟨.regular, .ofBlob [1]⟩ .nil)⟩
  parents := []
  author := .make "a" "a" 0 0
  committer := .make "a" "a" 0 0
  message := []

/-- The head stands on the commit, and files are compared by their bytes. -/
def editor : Synchronizer where
  checkout := {
    disk := ⟨[Utf8.encode "w"], edited⟩
    root := .ofString "/w"
    repository := {
      objects := [.commit original, .blob (.ofBlob [1]) [1]]
      index := []
      references := []
      head := .detached ⟨"original"⟩
      log := [] }
    settings := { Settings.default with byteCompare := true } }
  signal := none

theorem resolve_original :
    editor.checkout.repository.resolveCommit editor.settings.source = .ok (some original) :=
  rfl

theorem wellNamed_original : editor.checkout.WellNamed editor.settings.source := by
  intro start h
  rw [resolve_original, Except.ok.injEq, Option.some.injEq] at h
  rw [← h]
  exact ⟨by decide, by decide⟩

theorem tree_edited : editor.checkout.disk.IsWorkingTree editor.checkout.root edited := by
  have name : IsName (Utf8.encode "w") := by decide
  exact ⟨⟨[], Disk.resolve_place name (by decide) (by decide) edited⟩, by decide, by decide,
    by decide, by decide⟩

/-- There are no ignore files. -/
theorem kept_edited {names : List Bytes} (hn : ∀ name ∈ names, IsName name ∧ 0 ∉ name)
    (outside : Utf8.encode gitFolderName ∉ names) (isFolder : Bool) :
    Ignore.isIgnored editor.checkout.disk editor.checkout.root (pathOf names) isFolder = .ok false :=
  Ignore.isIgnored_of_no_rules tree_edited (by decide) (by decide) hn outside isFolder

/-- The places in the working tree. -/
def places : List (List Bytes) :=
  [[Utf8.encode "d"], [Utf8.encode "d", Utf8.encode "f"], [Utf8.encode "e"]]

theorem mem_places {names : List Bytes} {entry : DiskEntry} (h : edited.lookup names = some entry) :
    names ∈ places := by
  -- A forest with one leaf has one place.
  have alone : ∀ name value more, Forest.lookup (.leaf name value .nil) more = some entry →
      more = [name] := by
    intro name value more hl
    rcases (@Forest.lookup_cons_eq_some_iff FileEntry Unit name (.leaf value) entry .nil
      List.not_mem_nil more).mp hl with ⟨hmore, _⟩ | ⟨_, _, hl⟩ | hl
    · exact hmore
    · exact absurd hl Forest.not_lookup_nil
    · exact absurd hl Forest.not_lookup_nil
  rcases (@Forest.lookup_cons_eq_some_iff FileEntry Unit _ (.folder () _) entry _ (by decide) names).mp h
    with ⟨rfl, _⟩ | ⟨more, rfl, hl⟩ | hl
  · decide
  · rw [alone _ _ _ hl]
    decide
  · rw [alone _ _ _ hl]
    decide

theorem exposed_edited : editor.checkout.Exposes edited := by
  refine ⟨tree_edited, fun names below hl => ?_, fun names entry outside hl => ?_⟩
  · have short : ∀ names ∈ places,
        (editor.checkout.root.join (pathOf names).toRaw).bytes.length < Disk.pathLimit := by
      decide +kernel
    exact short names (mem_places hl)
  · have named := (tree_edited.named.of_lookup hl).1
    exact kept_edited (fun name hm => ⟨(named name hm).1, (named name hm).2.1⟩) outside _

theorem kept_original {names : List Bytes} {v : Variant}
    (hv : editor.sourceOf (some original) names = some v) :
    Ignore.isIgnored editor.checkout.disk editor.checkout.root (pathOf names) v.isTree =
      .ok false := by
  rw [sourceOf_some] at hv
  rcases Option.bind_eq_some_iff.mp hv with ⟨entry, he, _⟩
  have plain : original.tree.members.AllNames (· ≠ Utf8.encode gitFolderName) := by decide
  have outside := (plain.of_lookup_folder he).1
  exact kept_edited ((wellNamed_original original resolve_original).of_find? he).1
    (fun hm => outside _ hm rfl) _

theorem kinds_edited {names : List Bytes} {v w : Variant} (hv : working edited names = some v)
    (hw : editor.sourceOf (some original) names = some w) : v.isTree = w.isTree := by
  have same : ∀ names ∈ [] :: places, (working edited names).all fun v =>
      (editor.sourceOf (some original) names).all fun w => v.isTree = w.isTree := by
    decide +kernel
  have hmem : names ∈ [] :: places := by
    by_cases hne : names = []
    · rw [hne]
      exact List.mem_cons_self
    · rcases Option.bind_eq_some_iff.mp hv with ⟨entry, he, _⟩
      rw [Forest.Entry.lookup_folder () edited hne] at he
      exact List.mem_cons_of_mem _ (mem_places he)
  have hsame := same names hmem
  rw [hv, Option.all_some, hw, Option.all_some, decide_eq_true_eq] at hsame
  exact hsame

theorem stored_edited {names : List Bytes} {content : Bytes} {executable : Bool} {leaf : Leaf}
    (hl : edited.lookup names = some (.leaf (.regular content executable)))
    (hleaf : editor.checkout.Records editor.settings.source names leaf) :
    ∃ recorded, editor.checkout.repository.objects.HasBlob leaf.id recorded ∧
      (ObjectId.ofBlob content = ObjectId.ofBlob recorded → content = recorded) := by
  -- Few contents are there, and the ids of the two that occur are different.
  have contents : edited.AllLeaves fun value =>
      value = .regular [1] false ∨ value = .regular [2] false := by decide
  have ids : original.tree.members.AllLeaves fun leaf => leaf.id = .ofBlob [1] := by
    decide +kernel
  have hfile := hleaf.hasFile resolve_original
  have hid : leaf.id = .ofBlob [1] := by
    exact ids.of_lookup
      ((Forest.Entry.lookup_folder_eq_leaf_iff original.tree.id original.tree.members).mp hfile.1)
  refine ⟨[1], ⟨by rw [hid]; decide +kernel, hid⟩, fun hsame => ?_⟩
  rcases contents.of_lookup hl with he | he
  · exact (FileEntry.regular.inj he).1
  · rw [(FileEntry.regular.inj he).1] at hsame
    exact absurd hsame (by decide +kernel)

end Sample

open Synchronizer.Sample in
/-- The law at a working tree in which one file was changed, one is new and one is gone. -/
theorem fileChanges_perm_scan_of_edited :
    editor.Comparable edited (some original) ∧ ∃ node o,
      (editor.diff .root .workingTree editor.settings.sourceRevision).outcome = .ok node ∧
      editor.scan.outcome = .ok o ∧ o.skipped = [] ∧ Ascending Change.path o.changes ∧
      node.fileChanges.Perm o.changes := by
  have comparable : editor.Comparable edited (some original) :=
    ⟨exposed_edited, resolve_original, wellNamed_original, fun _ _ hv => kept_original hv,
      fun _ _ _ hv hw => kinds_edited hv hw, fun _ _ _ _ _ hl hleaf => stored_edited hl hleaf,
      fun _ h => nomatch h⟩
  exact ⟨comparable, fileChanges_perm_scan comparable⟩

end Synchronizer

end ThreeWay
