import ThreeWay.Proofs.Refusal

/-!
# Pending Folders

What is pending is meant to be files: the scan reports files, and of the difference only the nodes without
children are taken. But a difference can end in a folder. Then the folder is pending where a file was meant,
and nothing below it tells why.

`pending_files` says exactly when that happens. It takes a place at which the difference ends in a folder,
and no file of the working tree that has taken the place of the folder meanwhile. On every other pending path
at least one of the three sides is a file.

One such place is the folder of a file that was made executable. The mode counts for the tree id of the
folder, and nobody compares it.

Both directions of that are proved from where a pending path comes from. It was scanned or it changed between the
revisions (`collected_of_scanned`, `collected_of_changed`), and each of the three sides shows a file exactly where
one stands or is recorded. So a path without a file on any side can only have come from a place where the
difference ended in a folder, and a hollow place shows a file only if the working tree has one.

## Theorems

* `namedVariant_blob_iff`, `localVariant_blob_iff`: When a side is a file.
* `stands_blob_iff`: A report has a file among its sides where a file stands on one of the three.
* `apart_of_folders`: Folders with different tree ids are never in sync.
* `pending_files`: Which pending paths are files.
* `hollow_of_marked`: The place at which the difference ended.
* `pending_of_folder`: A pending folder.
-/

namespace ThreeWay

open ThreeWay.Path Scanner Run Checkout

namespace Synchronizer

variable {s : Synchronizer} {p : Path} {report : StatusReport}

/-- A side of a revision is a file exactly where the revision records one. -/
theorem namedVariant_blob_iff {spec : String} {v : Option Variant} (address : p.IsAddress)
    (h : s.checkout.namedVariant p spec = .ok v) :
    (∃ b, existing v = some (.blob b)) ↔ ∃ leaf, s.checkout.Records spec p.names leaf := by
  -- The side that was given is the one of the status, so it exists already, and only its kind is left to tell.
  constructor
  · rintro ⟨b, hb⟩
    rw [(existing_eq_some.mp hb).1] at h
    rcases records_of_namedVariant address.treeNames h with ⟨leaf, _, hleaf, _⟩
    exact ⟨leaf, hleaf⟩
  · rintro ⟨leaf, start, hstart, hfile⟩
    rcases namedVariant_of_file hstart address.treeNames hfile h with ⟨history, rfl⟩
    exact ⟨_, existing_eq_some.mpr ⟨rfl, rfl⟩⟩

/-- Folders of source and target with different tree ids are not in sync. -/
theorem apart_of_folders {target : String} {l r : Commit} {x y : ObjectId}
    {inner below : Forest Leaf ObjectId} (ht : s.settings.target = some target) (address : p.IsAddress)
    (hl : s.checkout.repository.resolveCommit s.settings.source = .ok (some l))
    (hr : s.checkout.repository.resolveCommit target = .ok (some r))
    (hx : l.tree.find? p.names = some (.folder x inner))
    (hy : r.tree.find? p.names = some (.folder y below)) (apart : y.hex ≠ x.hex)
    (h : s.status p = .ok report) : report.status.isInSync = false := by
  rcases sides_of_status h with ⟨_, spec, hspec, hbase, hremote, _, hverdict⟩
  rw [ht, Option.some.injEq] at hspec
  rw [← hspec] at hremote
  have hb := Except.ok.inj (hbase.symm.trans (namedVariant_of_folder hl address.treeNames hx))
  have hm := Except.ok.inj (hremote.symm.trans (namedVariant_of_folder hr address.treeNames hy))
  -- Whatever the local side is, the remote one differs from the base, and no rule of the cascade overlooks that.
  refine (Triple.rule_of_classify hverdict).apart_of_unequal hb hm ?_
  rw [Variant.ofFolder, Variant.ofFolder, Comparator.equal_folders rfl rfl, Verdict.ofFolders]
  simpa using apart

section

variable {members : Forest FileEntry Unit}
  (tree : s.checkout.disk.IsWorkingTree s.checkout.root members)

include tree

/-- The local side is a file exactly where a file of the working tree stands. -/
theorem localVariant_blob_iff {folder : Bool} {v : Option Variant} (address : p.IsAddress)
    (h : s.checkout.localVariant p folder = .ok v) :
    (∃ b, existing v = some (.blob b)) ↔ ∃ value, members.lookup p.names = some (.leaf value) := by
  -- A place that the system refuses has no local side, and here there is one.
  have free : ¬ Disk.Refuses s.checkout.root members p := by
    intro refused
    rcases localVariant_of_refused tree address refused with ⟨fault, _, hfails⟩
    cases h.symm.trans (hfails folder)
  have hv := Except.ok.inj (h.symm.trans (localVariant_of_not_refused tree address free folder))
  constructor
  · rintro ⟨b, hb⟩
    rcases localAt_blob_iff.mp (hv.symm.trans (existing_eq_some.mp hb).1) with ⟨_, _, hl, _⟩
    exact ⟨_, hl⟩
  · rintro ⟨value, hl⟩
    have hregular := tree.regular.of_lookup hl
    -- A working tree holds no links, so a leaf is a file with a content.
    cases value with
    | link target => exact hregular.elim
    | regular content executable =>
        exact ⟨_, existing_eq_some.mpr ⟨hv.trans (localAt_blob_iff.mpr ⟨_, _, hl, rfl⟩), rfl⟩⟩

/-- A report has a file among its sides exactly where a file stands on one of the three sides. -/
theorem stands_blob_iff (address : p.IsAddress) (h : s.status p = .ok report) :
    (∃ b, report.sides.Stands (.blob b)) ↔
      (∃ value, members.lookup p.names = some (.leaf value)) ∨ s.RecordedAt p.names := by
  rcases sides_of_status h with ⟨_, target, ht, hbase, hremote, ⟨folder, hlocal⟩, _⟩
  simp only [Triple.stands_iff, exists_or, RecordedAt, HasFileAt, ht, Option.some.injEq, exists_eq_left']
  exact or_congr (localVariant_blob_iff tree address hlocal)
    (or_congr (namedVariant_blob_iff address hbase) (namedVariant_blob_iff address hremote))

/-- A pending path has a file on one of its sides, unless the difference of source and target ends in a folder
    there and no file of the working tree has taken its place. -/
theorem pending_files (namedS : s.checkout.WellNamed s.settings.source)
    (namedT : ∀ target, s.settings.target = some target → s.checkout.WellNamed target)
    {result : PendingReport} (h : s.pending.outcome = .ok result) {e : StatusReport}
    (he : e ∈ result.entries) : e.path.IsAddress ∧ ((∃ b, e.sides.Stands (.blob b)) ↔
      (∃ value, members.lookup e.path.names = some (.leaf value)) ∨ ¬ s.HollowAt e.path.names) := by
  rcases returns_pending (returns_of_outcome h) with ⟨found, changed, hscan, hchanged, hentries, _⟩
  rcases hentries e he with ⟨hp, hstatus, _⟩
  -- A pending path was collected by one of the two searches, and both say what they found.
  have collected : e.path.IsAddress ∧ ((∃ value, members.lookup e.path.names = some (.leaf value)) ∨
      s.RecordedAt e.path.names ∨ s.HollowAt e.path.names) := by
    rcases List.mem_append.mp hp with hp | hp
    · rcases List.mem_map.mp hp with ⟨change, hc, hpath⟩
      rw [← hpath]
      rcases collected_of_scanned namedS tree hscan hc with ⟨address, here | base⟩
      · exact ⟨address, Or.inl here⟩
      · exact ⟨address, Or.inr (Or.inl (Or.inl base))⟩
    · rcases collected_of_changed namedS namedT hchanged hp with ⟨address, ending⟩
      exact ⟨address, Or.inr ending⟩
  rcases collected with ⟨address, reason⟩
  refine ⟨address, ?_⟩
  rw [stands_blob_iff tree address hstatus]
  -- A recorded file is not hollow, and what is neither here nor hollow was recorded.
  constructor
  · exact Or.imp_right fun recorded hollow => hollow.not_recorded recorded
  · rintro (here | solid)
    · exact Or.inl here
    · exact reason.imp_right fun ending => ending.resolve_right solid

end

/-! ### A File Made Executable -/

namespace Sample

/-- A commit of a file in a folder. -/
def plain : Commit where
  id := ⟨"plain"⟩
  tree := ⟨⟨"tree"⟩, .folder folderName ⟨"folder"⟩ (.leaf innerName ⟨.regular, .ofBlob [1]⟩ .nil) .nil⟩
  parents := []
  author := .make "a" "a" 0 0
  committer := .make "a" "a" 0 0
  message := []

/-- The same file, made executable. That gives the folders other ids. -/
def marked : Commit := { plain with
  id := ⟨"marked"⟩
  tree := ⟨⟨"marked tree"⟩, .folder folderName ⟨"marked folder"⟩
    (.leaf innerName ⟨.executable, .ofBlob [1]⟩ .nil) .nil⟩ }

/-- The working tree of the first commit. -/
def checkedOut : Forest FileEntry Unit :=
  .folder folderName () (.leaf innerName (.regular [1] false) .nil) .nil

/-- The head stands on the first commit, and a branch has the other one. -/
def marking : Synchronizer where
  checkout := {
    disk := ⟨[Utf8.encode "w"], checkedOut⟩
    root := .ofString "/w"
    repository := {
      objects := [.commit plain, .commit marked, .blob (.ofBlob [1]) [1]]
      index := []
      references := [("refs/heads/next", marked.id)]
      head := .detached plain.id
      log := [] }
    settings := { Settings.default with target := some "next" } }
  signal := none

theorem tree_checkedOut : marking.checkout.disk.IsWorkingTree marking.checkout.root checkedOut := by
  have name : IsName (Utf8.encode "w") := by decide
  exact ⟨⟨[], Disk.resolve_place name (by decide) (by decide) checkedOut⟩, by decide, by decide,
    by decide, by decide⟩

theorem resolve_plain : marking.checkout.repository.resolveCommit "HEAD" = .ok (some plain) :=
  rfl

theorem resolve_marked : marking.checkout.repository.resolveCommit "next" = .ok (some marked) :=
  rfl

theorem wellNamed_plain : marking.checkout.WellNamed "HEAD" :=
  wellNamed_of_resolve resolve_plain ⟨by decide, by decide⟩

theorem resolves_marked : marking.Resolves "next" (some plain) (some marked) :=
  ⟨rfl, resolve_plain, resolve_marked, wellNamed_plain,
    wellNamed_of_resolve resolve_marked ⟨by decide, by decide⟩, fun h => nomatch h⟩

/-- The folder is all that the difference leads to. -/
theorem changed_marked : marking.revisionPaths.outcome.toOption = some [pathOf [folderName]] := by
  decide +kernel

/-- Every file of the first commit is in the working tree. -/
theorem here_of_plain {names : List Bytes} {leaf : Leaf} (h : plain.tree.HasFile names leaf) :
    ∃ value, checkedOut.lookup names = some (.leaf value) := by
  have hl : plain.tree.members.lookup names = some (.leaf leaf) :=
    (Forest.Entry.lookup_folder _ _ h.ne_nil).symm.trans h.1
  have hm := (Forest.mem_leaves_iff (by decide) names leaf).mpr hl
  -- The commit has one file, and the working tree has it at the same place.
  have hleaves : plain.tree.members.leaves = [([folderName, innerName], ⟨.regular, .ofBlob [1]⟩)] := rfl
  rw [hleaves, List.mem_singleton, Prod.mk.injEq] at hm
  rw [hm.1]
  exact ⟨_, rfl⟩

/-- The system refuses no path that is collected. -/
theorem not_refuses_collected {found : Outcome} (h : Returns marking.scan found) :
    ∀ p ∈ found.changes.map Change.path ++ [pathOf [folderName]],
      ¬ Disk.Refuses marking.checkout.root checkedOut p := by
  intro p hp
  -- The scanned paths are files of the working tree or of the commit, and both are on the disk. The folder of the
  -- difference is there as well.
  rcases List.mem_append.mp hp with hp | hp
  · rcases List.mem_map.mp hp with ⟨change, hc, rfl⟩
    rcases collected_of_scanned wellNamed_plain tree_checkedOut h hc with ⟨address, ⟨_, here⟩ | ⟨_, base⟩⟩
    · exact tree_checkedOut.not_refused_of_leaf address here
    · rcases here_of_plain (base.hasFile resolve_plain) with ⟨_, here⟩
      exact tree_checkedOut.not_refused_of_leaf address here
  · rw [List.mem_singleton.mp hp]
    have hnames : (pathOf [folderName]).names = [folderName] := names_pathOf (by decide)
    refine not_or.mpr ⟨by decide +kernel, ?_⟩
    rw [hnames]
    exact Disk.not_obstructed_of_lookup (tree_checkedOut.named.imp fun _ hn => hn.2.2) rfl

/-- The folder is on all three sides, and it is not in sync. -/
theorem status_marked {e : StatusReport} (h : marking.status (pathOf [folderName]) = .ok e) :
    e.status.isInSync = false ∧ ¬ ∃ b, e.sides.Stands (.blob b) := by
  have hnames : (pathOf [folderName]).names = [folderName] := names_pathOf (by decide)
  have address : (pathOf [folderName]).IsAddress := isAddress_pathOf (by decide) (by decide)
  refine ⟨apart_of_folders (l := plain) (r := marked) rfl address resolve_plain resolve_marked
    (by rw [hnames]; rfl) (by rw [hnames]; rfl) (by decide) h, ?_⟩
  rw [stands_blob_iff tree_checkedOut address h, hnames]
  -- On none of the three sides is there a file at the place of the folder.
  rintro (⟨value, here⟩ | ⟨leaf, base⟩ | ⟨target, ht, leaf, remote⟩)
  · cases here
  · cases (base.hasFile resolve_plain).1
  · cases ht
    cases (remote.hasFile resolve_marked).1

/-- So it is pending. -/
theorem pending_marked : ∃ result, marking.pending.outcome = .ok result ∧
    ∃ e ∈ result.entries, ¬ ∃ b, e.sides.Stands (.blob b) := by
  have quiet : Signal.IsQuiet marking.signal := fun _ h => nomatch h
  rcases exists_snapshot wellNamed_plain resolve_plain with ⟨reference, hs⟩
  rcases scan_of_commit tree_checkedOut quiet wellNamed_plain hs
    (fun _ _ => outside_of_records resolve_plain (by decide)) with ⟨found, hfound, _⟩
  rcases exists_pending_iff resolves_marked tree_checkedOut hfound.outcome quiet with
    ⟨changed, hchanged, hpending⟩
  -- The difference was computed, so the paths that changed are known.
  have hpaths : changed = [pathOf [folderName]] := by
    have h := changed_marked
    rw [hchanged.outcome] at h
    exact Option.some.inj h
  rw [hpaths] at hpending hchanged
  rcases hpending.mpr (not_refuses_collected hfound.returns) with ⟨result, hresult⟩
  rcases returns_pending (returns_of_outcome hresult) with ⟨_, paths, _, hpaths, _, hall⟩
  rw [hpaths.eq_of_gives hchanged] at hall
  rcases hall _ (List.mem_append_right _ List.mem_cons_self) with ⟨e, he, hmem⟩
  exact ⟨result, hresult, e, hmem (status_marked he).1, (status_marked he).2⟩

end Sample

open Synchronizer.Sample in
/-- The difference ends in the folder. -/
theorem hollow_of_marked : ∃ result, marking.pending.outcome = .ok result ∧
    ∃ e ∈ result.entries, marking.HollowAt e.path.names := by
  rcases pending_marked with ⟨result, hresult, e, he, folder⟩
  have files := (pending_files tree_checkedOut wellNamed_plain resolves_marked.wellNamed_target hresult he).2
  refine ⟨result, hresult, e, he, ?_⟩
  by_contra solid
  exact folder (files.mpr (Or.inr solid))

open Synchronizer.Sample in
/-- So a folder can be pending that is a file on none of its sides. -/
theorem pending_of_folder : marking.Resolves "next" (some plain) (some marked) ∧
    marking.checkout.disk.IsWorkingTree marking.checkout.root checkedOut ∧
    ∃ result, marking.pending.outcome = .ok result ∧
      ∃ e ∈ result.entries, ¬ ∃ b, e.sides.Stands (.blob b) :=
  ⟨resolves_marked, tree_checkedOut, pending_marked⟩

end Synchronizer

end ThreeWay
