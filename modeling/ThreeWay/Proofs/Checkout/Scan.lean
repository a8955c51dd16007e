import ThreeWay.Proofs.Checkout.Snapshot
import ThreeWay.Proofs.Checkout.Sides
import ThreeWay.Proofs.Ignore
import ThreeWay.Proofs.Scan.Settle
import ThreeWay.Synchronizer

/-!
# The Scan of a Checkout

A checkout scans its working tree against a snapshot of the source revision. The ids in the snapshot are object
ids, and so the scan identifies a file on the disk by the id that the repository would give its content.

The law of a scan leaves questions open that a checkout can answer: whether a file can be hashed, whether the
rules say anything about a path, and whether a path of the reference can be a file at all. Here all of them have
answers, because a working tree holds regular files and folders with ordinary names, and a commit records nothing
else. So nothing is skipped and the report is exact.

## Main definitions

* `Synchronizer.scanner`: The scan of a working tree.

## Theorems

* `isIgnored_scanner`, `not_excluded_of_kept`, `isJudged`: What the rules say to the scan.
* `returns_scan`: A scan needs a snapshot.
* `stat_of_fileAt`: A file of the working tree is found by its path.
* `hash_of_read`, `hash_of_fault`: It is known by its content, if it can be read.
* `scan_of_commit`: A scan against a commit skips nothing and obeys its law.
* `outside_of_records`: What a commit records is not in the repository folder.
-/

namespace ThreeWay

open ThreeWay.Path Scanner Run Checkout

namespace Synchronizer

variable {s : Synchronizer} {p : Path}

/-- The scan of the working tree. -/
def scanner (s : Synchronizer) : Scanner :=
  ⟨s.checkout.disk, s.checkout.root, s.checkout.disk.hashByBlobId, s.checkout.ignoreRules, s.signal⟩

/-- The scan leaves out what the rules of the working tree leave out. -/
theorem isIgnored_scanner (s : Synchronizer) (p : Path) (isFolder : Bool) :
    s.scanner.rules.isIgnored p isFolder =
      Ignore.isIgnored s.checkout.disk s.checkout.root p isFolder := rfl

/-- The scan looks at what the rules do not leave out. -/
theorem not_excluded_of_kept
    (kept : Ignore.isIgnored s.checkout.disk s.checkout.root p false = .ok false) :
    ¬ s.scanner.Excluded p := by
  rintro ⟨_, hignored⟩
  rw [isIgnored_scanner, kept] at hignored
  cases hignored

/-- The rules have an answer about every ordinary path. -/
theorem isJudged (s : Synchronizer) {names : List Bytes} (hn : ∀ name ∈ names, IsName name ∧ 0 ∉ name)
    (isFolder : Bool) : s.scanner.IsJudged (pathOf names) isFolder := by
  rcases Ignore.exists_isIgnored s.checkout.disk s.checkout.root hn isFolder with ⟨verdict, hverdict⟩
  exact ⟨verdict, (isIgnored_scanner s _ _).trans hverdict⟩

/-- A scan has an answer only where the source has a snapshot. -/
theorem returns_scan {found : Outcome} (h : Returns s.scan found) :
    ∃ reference, s.checkout.snapshot s.settings.source = .ok reference ∧
      Returns (s.scanner.scan (.ok reference)) found := by
  have hscan : Returns (s.scanner.scan (s.checkout.snapshot s.settings.source)) found := h
  cases hs : s.checkout.snapshot s.settings.source with
  | error e =>
      rw [hs] at hscan
      rcases hscan.bind with ⟨_, hr, _⟩
      cases hr.ofExcept
  | ok reference => exact ⟨reference, rfl, hs ▸ hscan⟩

/-- A file of the working tree is found by its path, with its content. -/
theorem stat_of_fileAt {members : Forest FileEntry Unit}
    (tree : s.checkout.disk.IsWorkingTree s.checkout.root members) (h : FileAt members p) :
    p.IsOrdinary ∧ ∃ content executable,
      members.lookup p.names = some (.leaf (.regular content executable)) ∧
      s.checkout.disk.stat (s.checkout.root.join p.toRaw) =
        .ok (.leaf (.regular content executable)) := by
  rcases h with ⟨value, names, _, hl, hp⟩
  rw [List.nil_append] at hp
  have named : ∀ name ∈ names, IsName name := fun name hm => ((tree.named.of_lookup hl).1 name hm).1
  have hordinary : p.IsOrdinary := hp ▸ isOrdinary_pathOf named
  have hnames : p.names = names := hp ▸ names_pathOf named
  rw [← hnames] at hl
  -- The path of a file of a working tree is not too long, so the system follows it to the end.
  have short := tree.short _ ((Forest.mem_leaves_iff tree.distinct p.names value).mpr hl)
  simp only [pathOf_names hordinary] at short
  have hregular := tree.regular.of_lookup hl
  cases value with
  | link target => exact absurd hregular id
  | regular content executable =>
      exact ⟨hordinary, content, executable, hl, tree.stat_of_lookup hordinary hl short⟩

/-- The scan knows a file by the id of its content. -/
theorem hash_of_read {content : Bytes} {file : RawPath} (h : s.checkout.disk.read file = .ok content) :
    s.scanner.hash file = .ok ⟨(ObjectId.ofBlob content).hex⟩ := by
  change s.checkout.disk.hashByBlobId file = _
  simp only [Disk.hashByBlobId, Disk.blobId, h]

/-- A file that cannot be read has no id. -/
theorem hash_of_fault {fault : SystemFault} {file : RawPath} (h : s.checkout.disk.read file = .error fault) :
    s.scanner.hash file = .error (.contentRead file.display (.object (.unreadable file fault))) := by
  change s.checkout.disk.hashByBlobId file = _
  simp only [Disk.hashByBlobId, Disk.blobId, h]

theorem hash_of_stat {content : Bytes} {executable : Bool} {file : RawPath}
    (h : s.checkout.disk.stat file = .ok (.leaf (.regular content executable))) :
    s.scanner.hash file = .ok ⟨(ObjectId.ofBlob content).hex⟩ := by
  refine hash_of_read ?_
  rw [Disk.read, h]
  rfl

/-- A scan of a working tree against a commit has answers to all its questions, whatever the rules say: it
    skips nothing, and reports in ascending order what it has to. -/
theorem scan_of_commit {members : Forest FileEntry Unit} {reference : Reference}
    (tree : s.checkout.disk.IsWorkingTree s.checkout.root members) (quiet : Signal.IsQuiet s.signal)
    (named : s.checkout.WellNamed s.settings.source)
    (hs : s.checkout.snapshot s.settings.source = .ok reference)
    (outside : ∀ names leaf, s.checkout.Records s.settings.source names leaf →
      Utf8.encode gitFolderName ∉ names) :
    ∃ found, Gives s.scan (.ok found) ∧ found.skipped = [] ∧ Ascending Change.path found.changes ∧
      ∀ p k, ⟨p, k⟩ ∈ found.changes ↔ Reported s.scanner members reference p k := by
  -- The reference has one entry for a path, and each of them is a recorded file.
  have unique := (snapshot_files named hs).1
  have regular : ∀ q id, (q, id) ∈ reference → (q.IsOrdinary ∧ Utf8.encode gitFolderName ∉ q.names) ∧
      s.scanner.IsJudged q false := by
    intro q id he
    rcases records_of_mem_snapshot named hs he with ⟨names, leaf, rfl, hn, hleaf⟩
    have ordinary : ∀ name ∈ names, IsName name := fun name hm => (hn name hm).1
    rw [names_pathOf ordinary]
    exact ⟨⟨isOrdinary_pathOf ordinary, outside names leaf hleaf⟩, isJudged s hn false⟩
  -- A file of the working tree is read, and what is read has an id.
  have hashed : ∀ q, FileAt members q → s.scanner.IsHashed (s.scanner.root.join q.toRaw) := by
    intro q file
    rcases (stat_of_fileAt tree file).2 with ⟨content, executable, _, hstat⟩
    exact ⟨_, hash_of_stat hstat⟩
  -- Everything that stands in the working tree has names that the rules can be asked about.
  have judged : ∀ q entry, Stands [] members q entry → s.scanner.IsJudged q entry.isFolder := by
    rintro q entry ⟨names, _, hl, rfl⟩
    have hn := (tree.named.of_lookup hl).1
    rw [List.nil_append]
    exact isJudged s (fun name hm => ⟨(hn name hm).1, (hn name hm).2.1⟩) _
  rcases Scanner.scan_gives (c := s.scanner) quiet reference with ⟨found, hfound⟩
  -- With all answers there, no path has a reason to be skipped.
  have clean : found.skipped = [] := by
    refine Scanner.scan_clean (c := s.scanner) tree ?_ ?_ ?_ ?_ hfound.returns
    · rintro q ⟨value, hstands⟩
      exact ⟨judged q (.leaf value) hstands, hashed q ⟨value, hstands⟩⟩
    · rintro q ⟨below, hstands⟩
      exact judged q (.folder () below) hstands
    · exact fun e he => (regular e.1 e.2 he).2
    · -- A path of the reference that is a file on the disk is a file of the working tree.
      rintro ⟨q, id⟩ he hfile
      have hq := (regular q id he).1
      exact hashed q ((fileAt_iff_isFile (c := s.scanner) tree hq.1 hq.2).mpr hfile)
  refine ⟨found, ?_, clean, Scanner.changes_ascending (c := s.scanner) tree hfound.returns, fun p k => ?_⟩
  · change Gives (s.scanner.scan (s.checkout.snapshot s.settings.source)) (.ok found)
    rw [hs]
    exact hfound
  · have ordinary : ∀ id, reference.lookup p = some id →
        p.IsOrdinary ∧ Utf8.encode gitFolderName ∉ p.names :=
      fun id hl => (regular p id (List.mem_of_lookup hl)).1
    exact changes_iff_reported (c := s.scanner) tree unique hfound.returns clean ordinary k

/-- What a commit records lies outside of the repository's folder if no name of its tree is that one. -/
theorem outside_of_records {start : Commit} {names : List Bytes} {leaf : Leaf}
    (hstart : s.checkout.repository.resolveCommit s.settings.source = .ok (some start))
    (outside : start.tree.members.AllNames (· ≠ Utf8.encode gitFolderName))
    (h : s.checkout.Records s.settings.source names leaf) : Utf8.encode gitFolderName ∉ names :=
  fun hm => (outside.of_lookup_folder (h.hasFile hstart).1).1 _ hm rfl

end Synchronizer

end ThreeWay
