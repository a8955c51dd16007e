import ThreeWay.Proofs.Checkout.Scan
import ThreeWay.Proofs.Recorded
import ThreeWay.Proofs.Scan.Compared
import ThreeWay.Proofs.Workspace.Staging

/-!
# The Scan After a Commit

Right after everything in the working tree was staged and committed, a scan against the head should find
nothing. The commit has a file for every file that the walk comes to, and no others, so nothing is new and
nothing is gone. What is left is whether the id that the scan finds is the one that was recorded.

For a regular file it is: both are the id of its content. For a link it is not. What is recorded is the text
of the link, but the scan opens the file by its path, and the system follows the link. So it finds the content
of the file that the link leads to, and if the link leads to a folder or nowhere there is nothing to read. A
working tree with links is therefore clean only where each link leads to a file whose content is the link's
own text, or another one with the same id.

The statement is exact in both lists. What is reported are the links whose target has another content than the
link has text, and what is skipped are the links that lead to nothing that could be read. Both are sets of links,
so the condition for a clean scan is one about links too.

The proof is in two parts. `Committed.known_iff` says that the snapshot of the head and the walk have the same
files, so the scan comes down to one comparison of ids for each of them, and there is a law for such scans
already. `Committed.mismatch_iff` and `Committed.skipOf_eq_some_iff` settle the comparison by what kind of file
was staged. Neither depends on how a commit is made: that is in the lemmas on staging, which give the tree of the
head file by file.

## Main definitions

* `Synchronizer.Committed`: A checkout right after its working tree was staged and committed.

## Theorems

* `Committed.resolved`: The head is the commit that was made.
* `Committed.records_iff`: What the head records.
* `Committed.lookup_snapshot`, `Committed.known_iff`: What a snapshot of the head knows.
* `Committed.keeps`, `Committed.read_of_regular`: The scan is kept from no file, and reads a regular file with its
  content.
* `Committed.mismatch_iff`: A file whose content is not what was recorded is a link.
* `Committed.skipOf_eq_some_iff`, `Committed.mem_skipped_iff`: Only links cannot be read.
* `Committed.scan_eq`: The scan compares the files of the working tree, and that is all.
* `scan_committed`: What it finds, and when it finds nothing.
* `scan_of_mirror`: A link that is not reported, since its target has the text of the link.
* `scan_of_link`: A link that is reported as a change.
-/

namespace ThreeWay

open ThreeWay.Path Scanner Run Checkout

/-- A link of the working tree. -/
def Workspace.HasLink (w : Workspace) (names : List Bytes) (target : Bytes) : Prop :=
  Utf8.encode gitFolderName ∉ names ∧ w.disk.tree.lookup names = some (.leaf (.link target))

namespace Synchronizer

/-- A checkout right after everything in its working tree was staged and committed. No rule leaves anything out,
    neither for the staging nor for the scan, and the commit has an id of its own. -/
structure Committed (s : Synchronizer) (w : Workspace) (parents : List ObjectId)
    (author committer : Signature) (message : Bytes) : Prop where
  stageable : w.IsStageable
  disk : s.checkout.disk = w.disk
  tree : w.disk.HoldsTree s.checkout.root w.disk.tree
  fresh : w.stageAll.repository.FreshCommit parents author committer message
  committed : s.checkout.repository = (w.stageAll.repository.commit parents author committer message).1
  source : s.settings.source = Repository.headName
  kept : ∀ names entry, Utf8.encode gitFolderName ∉ names → w.disk.tree.lookup names = some entry →
    Ignore.isIgnored w.disk s.checkout.root (pathOf names) entry.isFolder = .ok false
  quiet : Signal.IsQuiet s.signal

namespace Committed

variable {s : Synchronizer} {w : Workspace} {parents : List ObjectId} {author committer : Signature}
  {message : Bytes} (h : s.Committed w parents author committer message) {names : List Bytes}

include h

theorem resolved : s.checkout.repository.resolveCommit s.settings.source =
    .ok (some (w.stageAll.repository.made parents author committer message)) := by
  rw [h.source, h.committed, Repository.resolveCommit_commit _ _ _ _ _ h.fresh]

theorem wellNamed : s.checkout.WellNamed s.settings.source :=
  wellNamed_of_resolve h.resolved h.stageable.wellFormed_stageAll.wellNamed_tree

/-- The head records the files of the working tree. -/
theorem records_iff {leaf : Leaf} : s.checkout.Records s.settings.source names leaf ↔
    Utf8.encode gitFolderName ∉ names ∧
      ∃ file, w.disk.tree.lookup names = some (.leaf file) ∧ leaf = file.leaf := by
  have hfind : w.stageAll.repository.index.tree.find? names = some (.leaf leaf) ↔ _ :=
    Forest.Entry.lookup_folder_eq_leaf_iff _ _
  -- The head records the tree of the index as it was staged, and the staging has put in it what is on the disk.
  constructor
  · intro hr
    have hfile := (hr.hasFile h.resolved).1
    exact h.stageable.lookup_stageAll.mp (hfind.mp hfile)
  · intro hfile
    refine ⟨_, h.resolved, hfind.mpr (h.stageable.lookup_stageAll.mpr hfile), ?_⟩
    rcases hfile with ⟨_, file, _, rfl⟩
    exact file.isFile_leaf

/-- A snapshot of the head has the ids of the files of the working tree. -/
theorem lookup_snapshot {reference : Reference} (hs : s.checkout.snapshot s.settings.source = .ok reference)
    (hn : ∀ name ∈ names, IsName name) {id : ContentId} : reference.lookup (pathOf names) = some id ↔
      Utf8.encode gitFolderName ∉ names ∧
        ∃ file, w.disk.tree.lookup names = some (.leaf file) ∧ id = ⟨file.leaf.id.hex⟩ := by
  rw [(snapshot_files h.wellNamed hs).2 names hn]
  constructor
  · rintro ⟨leaf, hleaf, rfl⟩
    rcases h.records_iff.mp hleaf with ⟨outside, file, hl, rfl⟩
    exact ⟨outside, file, hl, rfl⟩
  · rintro ⟨outside, file, hl, rfl⟩
    exact ⟨file.leaf, h.records_iff.mpr ⟨outside, file, hl, rfl⟩, rfl⟩

/-- The walk comes to the files that the head records, and to no others. -/
theorem known_iff {reference : Reference} (hs : s.checkout.snapshot s.settings.source = .ok reference)
    (p : Path) : (reference.lookup p).isSome ↔ p ∈ (shown [] w.disk.tree).map pathOf := by
  -- Both are told by names: the snapshot by what was recorded, and the walk by what is outside of the repository.
  rw [List.mem_map, Option.isSome_iff_exists]
  constructor
  · rintro ⟨id, hid⟩
    rcases records_of_mem_snapshot h.wellNamed hs (List.mem_of_lookup hid) with ⟨names, leaf, hp, _, hleaf⟩
    rcases h.records_iff.mp hleaf with ⟨outside, file, hl, _⟩
    exact ⟨names, (mem_shown_root_iff h.stageable.distinct).mpr ⟨outside, file, hl⟩, hp.symm⟩
  · rintro ⟨names, hm, rfl⟩
    rcases (mem_shown_root_iff h.stageable.distinct).mp hm with ⟨outside, file, hl⟩
    have hn := (h.stageable.isName.of_lookup hl).1
    exact ⟨_, (h.lookup_snapshot hs hn).mpr ⟨outside, file, hl, rfl⟩⟩

/-- The rules leave out nothing for the scan. -/
theorem keeps : s.scanner.Keeps [] w.disk.tree := by
  -- The scan asks for the verdict by the same rules as the staging, with the disk that was staged.
  rintro p entry ⟨names, outside, hl, rfl⟩
  have hkept := h.kept names entry outside hl
  rw [← h.disk] at hkept
  rw [isIgnored_scanner, List.nil_append]
  exact hkept

/-- A regular file is read with its content. -/
theorem read_of_regular {content : Bytes} {executable : Bool}
    (hl : w.disk.tree.lookup names = some (.leaf (.regular content executable))) :
    s.checkout.disk.read (s.checkout.root.join (pathOf names).toRaw) = .ok content := by
  have hn := (h.stageable.isName.of_lookup hl).1
  have hlookup : w.disk.tree.lookup (pathOf names).names =
      some (.leaf (.regular content executable)) := by rw [names_pathOf hn, hl]
  -- A link would be followed from here. A regular file is found where it is.
  have short := h.tree.short (names, .regular content executable)
    ((Forest.mem_leaves_iff h.stageable.distinct _ _).mpr hl)
  have hstat := h.tree.stat_of_lookup (isOrdinary_pathOf hn) hlookup (fun _ he => nomatch he) short
  rw [h.disk, Disk.read, hstat]
  rfl

theorem fileOf_scanner {file : FileEntry} (hl : w.disk.tree.lookup names = some (.leaf file)) :
    s.scanner.fileOf names = s.checkout.root.join (pathOf names).toRaw :=
  fileOf_eq (c := s.scanner) (h.stageable.isName.of_lookup hl).1

/-- A file whose content is not what was recorded is a link. -/
theorem mismatch_iff {file : FileEntry} (outside : Utf8.encode gitFolderName ∉ names)
    (hl : w.disk.tree.lookup names = some (.leaf file)) :
    s.scanner.Mismatch names (some ⟨file.leaf.id.hex⟩) ↔ ∃ target content, w.HasLink names target ∧
      s.checkout.disk.read (s.checkout.root.join (pathOf names).toRaw) = .ok content ∧
      ObjectId.ofBlob content ≠ .ofBlob target := by
  have hfile := h.fileOf_scanner hl
  -- Without a content there is no id to compare, and such a file is skipped. Otherwise the kind of the file decides.
  cases hr : s.checkout.disk.read (s.checkout.root.join (pathOf names).toRaw) with
  | error fault =>
      have hnot := not_mismatch_of_error (hfile ▸ hash_of_fault hr)
      refine iff_of_false (hnot _) ?_
      rintro ⟨_, _, _, hf, _⟩
      cases hf
  | ok content =>
      rw [mismatch_of_ok (hfile ▸ hash_of_read hr), ne_eq, Option.some.injEq, contentId_inj]
      cases file with
      | regular recorded executable =>
          -- A regular file is read with the content that was staged, and has its id.
          have hsame := Except.ok.inj ((h.read_of_regular hl).symm.trans hr)
          rw [(FileEntry.leaf_regular recorded executable).1, hsame]
          refine iff_of_false (fun hne => hne rfl) ?_
          rintro ⟨target, _, ⟨_, hlink⟩, _⟩
          cases hl.symm.trans hlink
      | link target =>
          -- A link was staged with its text, but what is read is the file that it leads to.
          have hid : (FileEntry.link target).leaf.id = .ofBlob target := rfl
          rw [hid, eq_comm]
          constructor
          · exact fun hne => ⟨target, content, ⟨outside, hl⟩, rfl, hne⟩
          · rintro ⟨other, found, ⟨_, hlink⟩, hread, hne⟩
            cases hl.symm.trans hlink
            rw [Except.ok.inj hread]
            exact hne

/-- Only links cannot be read. -/
theorem skipOf_eq_some_iff {file : FileEntry} (outside : Utf8.encode gitFolderName ∉ names)
    (hl : w.disk.tree.lookup names = some (.leaf file)) {skipped : Skipped} :
    s.scanner.skipOf names = some skipped ↔ ∃ target fault, w.HasLink names target ∧
      s.checkout.disk.read (s.checkout.root.join (pathOf names).toRaw) = .error fault ∧
      skipped = ⟨pathOf names, .contentRead (s.checkout.root.join (pathOf names).toRaw).display
        (.object (.unreadable (s.checkout.root.join (pathOf names).toRaw) fault))⟩ := by
  rw [skipOf, h.fileOf_scanner hl]
  cases hr : s.checkout.disk.read (s.checkout.root.join (pathOf names).toRaw) with
  | ok content =>
      rw [hash_of_read hr]
      refine iff_of_false (Option.some_ne_none skipped).symm ?_
      rintro ⟨_, _, _, hf, _⟩
      cases hf
  | error fault =>
      rw [hash_of_fault hr]
      -- A regular file of the disk can always be read, so the fault is one of following a link.
      cases file with
      | regular recorded executable => cases (h.read_of_regular hl).symm.trans hr
      | link target =>
          constructor
          · intro hs
            exact ⟨target, fault, ⟨outside, hl⟩, rfl, (Option.some.inj hs).symm⟩
          · rintro ⟨_, _, _, hf, rfl⟩
            rw [Except.error.inj hf]

/-- The scan compares the files of the working tree with what was recorded, and that is all. -/
theorem scan_eq : ∃ found, Gives s.scan (.ok found) ∧ Ascending Change.path found.changes ∧
    found.skipped = (shown [] w.disk.tree).filterMap s.scanner.skipOf ∧
    ∀ p k, ⟨p, k⟩ ∈ found.changes ↔ k = .modification ∧ ∃ names target content,
      pathOf names = p ∧ w.HasLink names target ∧
      s.checkout.disk.read (s.checkout.root.join (pathOf names).toRaw) = .ok content ∧
      ObjectId.ofBlob content ≠ .ofBlob target := by
  rcases exists_snapshot h.wellNamed h.resolved with ⟨reference, hs⟩
  have hroot : s.scanner.disk.stat s.scanner.root = .ok (.folder () w.disk.tree) := by
    have hstat := h.tree.stat_root
    rw [← h.disk] at hstat ⊢
    exact hstat
  -- The law for a reference that knows just what the walk finds: only comparisons are left.
  rcases scan_of_known (c := s.scanner) h.quiet hroot h.stageable.isName h.stageable.distinct h.keeps
    (h.known_iff hs) with ⟨found, hscan, ordered, hskipped, hchanges⟩
  refine ⟨found, ?_, ordered, hskipped, fun p k => ?_⟩
  · change Gives (s.scanner.scan (s.checkout.snapshot s.settings.source)) (.ok found)
    rw [hs]
    exact hscan
  · rw [hchanges]
    refine and_congr_right fun _ => exists_congr fun names => ?_
    -- Every file that the walk comes to is known with the id of the staging.
    have known : ∀ file, Utf8.encode gitFolderName ∉ names →
        w.disk.tree.lookup names = some (.leaf file) →
        reference.lookup (pathOf names) = some ⟨file.leaf.id.hex⟩ := fun file outside hl =>
      (h.lookup_snapshot hs (h.stageable.isName.of_lookup hl).1).mpr ⟨outside, file, hl, rfl⟩
    constructor
    · rintro ⟨hm, rfl, hdiffers⟩
      rcases (mem_shown_root_iff h.stageable.distinct).mp hm with ⟨outside, file, hl⟩
      rw [known file outside hl, h.mismatch_iff outside hl] at hdiffers
      rcases hdiffers with ⟨target, content, hlink, hread, hne⟩
      exact ⟨target, content, rfl, hlink, hread, hne⟩
    · rintro ⟨target, content, rfl, hlink, hread, hne⟩
      refine ⟨(mem_shown_root_iff h.stageable.distinct).mpr ⟨hlink.1, _, hlink.2⟩, rfl, ?_⟩
      rw [known _ hlink.1 hlink.2, h.mismatch_iff hlink.1 hlink.2]
      exact ⟨target, content, hlink, hread, hne⟩

/-- What is skipped is a link that cannot be read. -/
theorem mem_skipped_iff {skipped : Skipped} :
    skipped ∈ (shown [] w.disk.tree).filterMap s.scanner.skipOf ↔ ∃ names target fault,
      w.HasLink names target ∧
      s.checkout.disk.read (s.checkout.root.join (pathOf names).toRaw) = .error fault ∧
      skipped = ⟨pathOf names, .contentRead (s.checkout.root.join (pathOf names).toRaw).display
        (.object (.unreadable (s.checkout.root.join (pathOf names).toRaw) fault))⟩ := by
  rw [List.mem_filterMap]
  refine exists_congr fun names => ?_
  constructor
  · rintro ⟨hm, hskip⟩
    rcases (mem_shown_root_iff h.stageable.distinct).mp hm with ⟨outside, file, hl⟩
    exact (h.skipOf_eq_some_iff outside hl).mp hskip
  · rintro ⟨target, fault, hlink, hread, he⟩
    exact ⟨(mem_shown_root_iff h.stageable.distinct).mpr ⟨hlink.1, _, hlink.2⟩,
      (h.skipOf_eq_some_iff hlink.1 hlink.2).mpr ⟨target, fault, hlink, hread, he⟩⟩

end Committed

/-- Right after a commit of everything a scan reports, in ascending order, the links that lead to a file whose
    content has not the id of the link's text, all as modifications. It skips the links that cannot be read.
    So it finds nothing exactly if every link leads to a file with the id of the link's own text. -/
theorem scan_committed {s : Synchronizer} {w : Workspace} {parents : List ObjectId}
    {author committer : Signature} {message : Bytes}
    (h : s.Committed w parents author committer message) :
    ∃ found, s.scan.outcome = .ok found ∧ Ascending Change.path found.changes ∧
      (∀ p k, ⟨p, k⟩ ∈ found.changes ↔ k = .modification ∧ ∃ names target content,
        pathOf names = p ∧ w.HasLink names target ∧
        s.checkout.disk.read (s.checkout.root.join (pathOf names).toRaw) = .ok content ∧
        ObjectId.ofBlob content ≠ .ofBlob target) ∧
      (∀ skipped, skipped ∈ found.skipped ↔ ∃ names target fault, w.HasLink names target ∧
        s.checkout.disk.read (s.checkout.root.join (pathOf names).toRaw) = .error fault ∧
        skipped = ⟨pathOf names, .contentRead (s.checkout.root.join (pathOf names).toRaw).display
          (.object (.unreadable (s.checkout.root.join (pathOf names).toRaw) fault))⟩) ∧
      (found.changes = [] ∧ found.skipped = [] ↔ ∀ names target, w.HasLink names target →
        ∃ content, s.checkout.disk.read (s.checkout.root.join (pathOf names).toRaw) = .ok content ∧
          ObjectId.ofBlob content = .ofBlob target) := by
  rcases h.scan_eq with ⟨found, hscan, ordered, hskipped, hchanges⟩
  have hskips := @Committed.mem_skipped_iff _ _ _ _ _ _ h
  rw [← hskipped] at hskips
  refine ⟨found, hscan.outcome, ordered, hchanges, @hskips, ?_⟩
  rw [List.eq_nil_iff_forall_not_mem, List.eq_nil_iff_forall_not_mem]
  -- A report without entries has no link in it that failed its comparison, and none that could not be read. Then each
  -- link was read, with the id of its text.
  constructor
  · rintro ⟨unchanged, unskipped⟩ names target hlink
    cases hr : s.checkout.disk.read (s.checkout.root.join (pathOf names).toRaw) with
    | error fault => exact absurd (hskips.mpr ⟨names, target, fault, hlink, hr, rfl⟩) (unskipped _)
    | ok content =>
        refine ⟨content, rfl, ?_⟩
        by_contra hne
        exact unchanged _ ((hchanges _ _).mpr ⟨rfl, names, target, content, rfl, hlink, hr, hne⟩)
  · intro same
    refine ⟨fun change hm => ?_, fun skipped hm => ?_⟩
    · rcases (hchanges change.path change.kind).mp hm with
        ⟨_, names, target, content, _, hlink, hread, hne⟩
      rcases same names target hlink with ⟨other, hother, hid⟩
      cases hread.symm.trans hother
      exact hne hid
    · rcases hskips.mp hm with ⟨names, target, fault, hlink, hread, _⟩
      rcases same names target hlink with ⟨other, hother, _⟩
      cases hread.symm.trans hother

/-! ### A Link to a File -/

namespace Sample

/-- The name of a link. -/
def linkName : Bytes := Utf8.encode "l"

/-- The name of the file that it leads to, which is also the text of the link. -/
def leadName : Bytes := Utf8.encode "t"

/-- A file with some content. -/
def lead (content : Bytes) : Forest FileEntry Unit :=
  .leaf leadName (.regular content false) .nil

/-- A link to the file. -/
def pair (content : Bytes) : Forest FileEntry Unit :=
  .leaf linkName (.link leadName) (lead content)

/-- What lies in the repository's folder. -/
def repositoryFiles : Forest FileEntry Unit :=
  .leaf (Utf8.encode "HEAD") (.regular (Utf8.encode "ref: refs/heads/main\n") false) .nil

/-- A repository, the link, and the file. -/
def linked (content : Bytes) : Workspace where
  disk := ⟨[Utf8.encode "w"], .folder (Utf8.encode gitFolderName) () repositoryFiles (pair content)⟩
  repository := .empty Workspace.firstBranch

/-- The same after a commit of everything. -/
def committer (content : Bytes) : Synchronizer where
  checkout := {
    disk := (linked content).disk
    root := .ofString "/w"
    repository := ((linked content).stageAll.repository.commit [] someone someone []).1
    settings := Settings.default }
  signal := none

variable {content : Bytes} {names : List Bytes}

/-- Outside of the repository's folder there are the link and the file. -/
theorem cases_of_linked {entry : DiskEntry} (outside : Utf8.encode gitFolderName ∉ names)
    (hl : (linked content).disk.tree.lookup names = some entry) : ∃ name file, names = [name] ∧
      entry = .leaf file ∧ (name = linkName ∧ file = .link leadName ∨
        name = leadName ∧ file = .regular content false) := by
  -- The three members of the root in their order, with the repository first, so that the others are met by going past
  -- it.
  have apart : Utf8.encode gitFolderName ∉ [linkName, leadName] ∧ linkName ∉ [leadName] := by decide
  have first := @Forest.lookup_cons_eq_some_iff _ _ _ (.folder () repositoryFiles) entry (pair content) apart.1
  have second := @Forest.lookup_cons_eq_some_iff _ _ _ (.leaf (.link leadName)) entry (lead content) apart.2
  have third := @Forest.lookup_cons_eq_some_iff _ _ leadName (.leaf (.regular content false)) entry .nil
    List.not_mem_nil
  rcases first.mp hl with ⟨rfl, _⟩ | ⟨more, rfl, _⟩ | hl
  · exact absurd List.mem_cons_self outside
  · exact absurd List.mem_cons_self outside
  · rcases second.mp hl with ⟨hn, he⟩ | ⟨_, _, hl⟩ | hl
    · exact ⟨linkName, .link leadName, hn, he, Or.inl ⟨rfl, rfl⟩⟩
    · exact absurd hl Forest.not_lookup_nil
    · rcases third.mp hl with ⟨hn, he⟩ | ⟨_, _, hl⟩ | hl
      · exact ⟨leadName, .regular content false, hn, he, Or.inr ⟨rfl, rfl⟩⟩
      · exact absurd hl Forest.not_lookup_nil
      · exact absurd hl Forest.not_lookup_nil

theorem ordinary_linked : ∀ name ∈ [linkName, leadName], (IsName name ∧ 0 ∉ name) ∧
    name ≠ Utf8.encode gitFolderName ∧ Workspace.isReserved name = false := by
  decide +kernel

/-- What lies in the folder of the disk is followed from there. -/
theorem resolve_linked (content : Bytes) {file : RawPath} {rest : List Bytes}
    (pieces : file.pieces = [] :: Utf8.encode "w" :: rest) (zero : file.bytes.contains 0 = false)
    (full : file.bytes ≠ []) (short : ¬ Disk.pathLimit ≤ file.bytes.length) :
    (linked content).disk.resolve file true =
      (linked content).disk.follow Disk.linkLimit [Utf8.encode "w"] rest true := by
  -- The root of the disk is one name below the top, so the first piece is empty and the second is that name.
  have name : IsName (Utf8.encode "w") := by decide
  have look : (linked content).disk.look ([] ++ [Utf8.encode "w"]) =
      some (.folder () (linked content).disk.tree) := rfl
  rw [Disk.resolve, zero, if_neg Bool.false_ne_true, if_neg full, if_neg short, pieces,
    Disk.follow_skip (Or.inl rfl), Disk.follow_folder name.isStep (by decide) look]
  rfl

/-- There are no ignore files. -/
theorem ruleFiles_linked (content : Bytes) :
    Ignore.ruleFiles (linked content).disk (.ofString "/w") [] = [Ignore.builtIn, [], []] := by
  have unruled : (linked content).disk.read (.ofString "/w/.gitignore") = .error .notFound := by
    have name : IsName (Utf8.encode ".gitignore") := by decide
    have pieces : RawPath.pieces (.ofString "/w/.gitignore") =
        [[], Utf8.encode "w", Utf8.encode ".gitignore"] := by decide +kernel
    have look : (linked content).disk.look ([Utf8.encode "w"] ++ [Utf8.encode ".gitignore"]) = none := rfl
    have hresolve := resolve_linked content pieces (by decide) (by decide) (by decide)
    rw [Disk.follow_step name.isStep (by decide), look] at hresolve
    rw [Disk.read, Disk.stat, hresolve]
    rfl
  -- The exclude file would be two folders below, but the first of them is not there.
  have unlisted : (linked content).disk.read (.ofString "/w/.git/info/exclude") = .error .notFound := by
    have gitName : IsName (Utf8.encode gitFolderName) := by decide
    have name : IsName (Utf8.encode "info") := by decide
    have pieces : RawPath.pieces (.ofString "/w/.git/info/exclude") = [[], Utf8.encode "w",
        Utf8.encode gitFolderName, Utf8.encode "info", Utf8.encode "exclude"] := by decide +kernel
    have lookGit : (linked content).disk.look ([Utf8.encode "w"] ++ [Utf8.encode gitFolderName]) =
        some (.folder () repositoryFiles) := rfl
    have look : (linked content).disk.look
        ([Utf8.encode "w"] ++ [Utf8.encode gitFolderName] ++ [Utf8.encode "info"]) = none := rfl
    have hresolve := resolve_linked content pieces (by decide) (by decide) (by decide)
    rw [Disk.follow_folder gitName.isStep (by decide) lookGit, Disk.follow_step name.isStep (by decide),
      look] at hresolve
    rw [Disk.read, Disk.stat, hresolve]
    rfl
  have hrules : RawPath.join (.ofString "/w") ⟨Utf8.encode ".gitignore"⟩ = .ofString "/w/.gitignore" := by
    decide
  have hexclude : (RawPath.join (.ofString "/w") (.ofString gitFolderName)).join (.ofString "info/exclude") =
      .ofString "/w/.git/info/exclude" := by decide +kernel
  have base : (([] : List Bytes).flatMap (· ++ [RawPath.slash])) = [] := rfl
  have above : Ignore.upwards (Ignore.settleNames []) = [[]] := rfl
  rw [Ignore.ruleFiles, above]
  simp only [List.map_cons, List.map_nil, base, List.nil_append, hexclude]
  rw [ignoreFileName, hrules, Ignore.readRules, Ignore.readRules, unruled, unlisted]
  rfl

/-- So the staging leaves nothing out, and neither does the scan. -/
theorem isLeftOut_linked (content : Bytes) {name : Bytes} (hn : IsName name)
    (hg : name ≠ Utf8.encode gitFolderName) (isFolder : Bool) :
    (linked content).isLeftOut [] false name isFolder = false := by
  have hroot : Disk.rawPath [Utf8.encode "w"] = .ofString "/w" := by decide
  have hrules : Ignore.ruleFiles (linked content).disk (linked content).disk.rootPath [] =
      [Ignore.builtIn, [], []] := (congrArg (Ignore.ruleFiles _ · []) hroot).trans (ruleFiles_linked content)
  -- No file has rules, and the rule that is built in names the repository only.
  have silent : Ignore.verdict? [Ignore.builtIn, [], []] [name] isFolder = none :=
    Ignore.verdict?_of_no_rules (by decide) (fun n hm => List.mem_singleton.mp hm ▸ hn)
      (List.cons_ne_nil _ _) (fun hm => hg (List.mem_singleton.mp hm).symm) isFolder
  simp only [Workspace.isLeftOut, hrules, List.nil_append, silent, Option.getD_none]

theorem isIgnored_linked (content : Bytes) {name : Bytes} (hn : IsName name ∧ 0 ∉ name)
    (hg : name ≠ Utf8.encode gitFolderName) (isFolder : Bool) :
    Ignore.isIgnored (linked content).disk (.ofString "/w") (pathOf [name]) isFolder = .ok false := by
  have named : ∀ n ∈ [name], IsName n ∧ 0 ∉ n := fun n hm => List.mem_singleton.mp hm ▸ hn
  have hroot : (pathOf [name]).isRoot = false :=
    isRoot_pathOf (fun n hm => (named n hm).1) (List.cons_ne_nil _ _)
  have plain : ∀ rules ∈ ([[], []] : List (List IgnoreRule)), rules = [] := by decide
  have silent := Ignore.isLeftOut_of_no_rules plain (fun n hm => (named n hm).1) (List.cons_ne_nil _ _)
    fun hm => hg (List.mem_singleton.mp hm).symm
  have above : [name].dropLast = [] := rfl
  simp only [Ignore.isIgnored, hroot, Bool.false_eq_true, if_false, treeNames_pathOf named, above,
    ruleFiles_linked, silent]

theorem stageable_linked (content : Bytes) : (linked content).IsStageable where
  distinct := by
    have apart : Utf8.encode gitFolderName ∉ [linkName, leadName] ∧ linkName ∉ [leadName] := by decide
    exact ⟨apart.1, by decide, apart.2, by decide, trivial⟩
  named := ⟨by decide, by decide, by decide, by decide, trivial⟩
  takes := by
    intro more name entry outside hl
    rcases cases_of_linked outside hl with ⟨last, file, hnames, rfl, hlast⟩
    -- What is met lies in the root, so there are no names above it.
    obtain ⟨rfl, rfl⟩ : more = [] ∧ name = last := by
      rcases List.append_eq_singleton_iff.mp hnames with ⟨hmore, hname⟩ | ⟨_, hname⟩
      · exact ⟨hmore, List.singleton_inj.mp hname⟩
      · exact absurd hname (List.cons_ne_nil _ _)
    have hmem : name ∈ [linkName, leadName] := List.mem_pair.mpr (hlast.imp And.left And.left)
    rcases ordinary_linked name hmem with ⟨hn, hg, free⟩
    exact ⟨free, rfl, isLeftOut_linked content hn.1 hg _⟩
  ordered := Ascending.nil
  indexed e he := absurd he List.not_mem_nil

/-- Staging takes the link and the file. -/
theorem stageAll_linked (content : Bytes) : (linked content).stageAll =
    ((linked content).stage [linkName]).stage [leadName] :=
  (stageable_linked content).stageAll_eq

/-- The commit has an id of its own if nothing that it records has that id. -/
theorem committed_linked {content : Bytes}
    (own : ∀ other ∈ (linked content).stageAll.repository.objects.recordTree
      (linked content).stageAll.repository.index.tree,
      other.id ≠ ((linked content).stageAll.repository.made [] someone someone []).id) :
    (committer content).Committed (linked content) [] someone someone [] where
  stageable := stageable_linked content
  disk := rfl
  tree := {
    holds := ⟨[], Disk.resolve_place (by decide) (by decide) (by decide) _⟩
    distinct := (stageable_linked content).distinct
    named := ⟨by decide, ⟨by decide, trivial⟩, by decide, by decide, trivial⟩
    short := by
      have short : ∀ names ∈ [[Utf8.encode gitFolderName, Utf8.encode "HEAD"], [linkName], [leadName]],
          ((RawPath.ofString "/w").join (pathOf names).toRaw).bytes.length < Disk.pathLimit := by
        decide +kernel
      exact fun e he => short e.1 (List.mem_map_of_mem he) }
  fresh := fun other hm hid => absurd hid (own other hm)
  committed := rfl
  source := rfl
  kept names entry outside hl := by
    rcases cases_of_linked outside hl with ⟨name, file, rfl, rfl, hname⟩
    rcases ordinary_linked name (List.mem_pair.mpr (hname.imp And.left And.left)) with ⟨hn, hg, _⟩
    exact isIgnored_linked content hn hg _
  quiet := fun _ hs => nomatch hs

/-- The system reads the file when the link is opened. -/
theorem read_linked (content : Bytes) : (linked content).disk.read
    ((RawPath.ofString "/w").join (pathOf [linkName]).toRaw) = .ok content := by
  have hfile : (RawPath.ofString "/w").join (pathOf [linkName]).toRaw = .ofString "/w/l" := by decide +kernel
  have pieces : RawPath.pieces (.ofString "/w/l") = [[], Utf8.encode "w", linkName] := by decide +kernel
  have linkStep : IsName linkName := by decide
  have leadStep : IsName leadName := by decide
  have lookLink : (linked content).disk.look ([Utf8.encode "w"] ++ [linkName]) =
      some (.leaf (.link leadName)) := rfl
  have lookLead : (linked content).disk.look ([Utf8.encode "w"] ++ [leadName]) =
      some (.leaf (.regular content false)) := rfl
  -- The text of the link is a name and no path from the top, so it is followed from the folder of the link.
  have relative : ¬ leadName.head? = some RawPath.slash := by decide
  have text : leadName.splitOn RawPath.slash ++ [] = [leadName] := by decide +kernel
  have hresolve := resolve_linked content pieces (by decide) (by decide) (by decide)
  rw [Disk.linkLimit, Disk.follow_link linkStep.isStep (by decide) lookLink (by decide), text,
    if_neg relative, Disk.follow_step leadStep.isStep (by decide), lookLead] at hresolve
  rw [hfile, Disk.read, Disk.stat, hresolve]
  rfl

theorem committed_mirror : (committer leadName).Committed (linked leadName) [] someone someone [] := by
  refine committed_linked ?_
  rw [stageAll_linked]
  decide +kernel

theorem committed_changed : (committer [1]).Committed (linked [1]) [] someone someone [] := by
  refine committed_linked ?_
  rw [stageAll_linked]
  decide +kernel

end Sample

open Synchronizer.Sample in
/-- A link to a file whose content is the link's own text is not reported, and neither is anything else. -/
theorem scan_of_mirror : ∃ found, (committer leadName).scan.outcome = .ok found ∧
    found.changes = [] ∧ found.skipped = [] := by
  rcases scan_committed committed_mirror with ⟨found, hscan, _, _, _, clean⟩
  refine ⟨found, hscan, clean.mpr fun names target hlink => ?_⟩
  -- Of the two members only the first one is a link, and its text is the content of the second one.
  rcases cases_of_linked hlink.1 hlink.2 with ⟨name, file, rfl, he, ⟨rfl, rfl⟩ | ⟨rfl, rfl⟩⟩
  · cases he
    exact ⟨leadName, read_linked leadName, rfl⟩
  · cases he

open Synchronizer.Sample in
/-- A link to a file with other content is reported, although nothing was changed since the commit. -/
theorem scan_of_link : (committer [1]).Committed (linked [1]) [] someone someone [] ∧
    ∃ found, (committer [1]).scan.outcome = .ok found ∧
      ⟨pathOf [linkName], .modification⟩ ∈ found.changes := by
  rcases committed_changed.scan_eq with ⟨found, hscan, _, _, hchanges⟩
  have hlink : (linked [1]).HasLink [linkName] leadName := ⟨by decide, rfl⟩
  -- The link was recorded by its text, and what it leads to has another id.
  have hne : ObjectId.ofBlob [1] ≠ .ofBlob leadName := by decide +kernel
  exact ⟨committed_changed, found, hscan.outcome,
    (hchanges _ _).mpr ⟨rfl, [linkName], leadName, [1], rfl, hlink, read_linked [1], hne⟩⟩

end Synchronizer

end ThreeWay
