import ThreeWay.Proofs.Classify.Verdict
import ThreeWay.Proofs.Collected
import ThreeWay.Proofs.Disk.Missing
import ThreeWay.Proofs.Ignore
import ThreeWay.Proofs.Report
import ThreeWay.Proofs.Status

/-!
# Paths Without a Status

The status of a path fails where the working tree cannot be asked about it. That nothing stands there is an
answer: a folder that is looked for becomes a handle, and a file becomes nothing. But the system may also
refuse to follow the path, and then there is no status of it.

Such paths are collected like all others. The scan goes by what it meets and by what the source records, and
what it did not meet it takes for deleted, whatever keeps the system from getting there. So a file in the
place of a folder leaves the paths below that folder without a status, and a single one of them is enough
for there to be no report on all the others.

Nothing else stands in the way. The two revisions have an answer about every path, and a verdict reads
contents only where files are compared by their bytes.

`Disk.Refuses` is about the tree alone: a name is too long, or a file stands where a folder is to be entered. What
the system does about such a path is a lemma about the disk, and from there on the local side is an error or the
entry that stands at the path. All else in this module is that nothing but the local side fails.

The paths in question are those of files that were collected, so each has names that the two revisions can be
asked about. A lookup in a tree does not fail for such names, and neither does the history of what is found. The
local side is asked for as a file or as a folder, which makes a difference only where nothing stands.

## Main definitions

* `Checkout.localAt`: What an entry of the working tree is answered with.
* `Synchronizer.Resolves`: Source and target resolve, and their files can be compared.

## Theorems

* `isPresent_localAt`, `localAt_blob_iff`: What a local side says of what stands there.
* `localVariant_of_refused`, `localVariant_of_not_refused`: The local side of a path.
* `Resolves.exists_recorded`: The recorded sides of a path.
* `Resolves.status_of_refused`, `Resolves.exists_status`: Which paths have a status.
* `Resolves.gives_revisionPaths`: The paths that have changed between the revisions are always found.
* `status_of_scanned`: Which paths of a scan have a status.
* `gives_reports`: Paths with a status have their reports.
* `exists_pending_iff`: When there is a report on all that is pending.
* `status_of_flattened`, `exists_scanned_without_status`: A file in the place of a folder, seen from a path behind
  it.
-/

namespace ThreeWay

open ThreeWay.Path Scanner Run Checkout

namespace Checkout

/-- What a path is answered with for the entry of the working tree that stands there. -/
def localAt (p : Path) (folder : Bool) : Option DiskEntry → Option Variant
  | some (.leaf (.regular content _)) => some (.blob (.onDisk p content))
  | some _ => some (.ofFolder (.at p .workingTree))
  | none => if folder then some (.ofFolder { Folder.at p .workingTree with present := false }) else none

/-- A local side is there exactly where something stands. -/
theorem isPresent_localAt (p : Path) (folder : Bool) (entry : Option DiskEntry) :
    isPresent (localAt p folder entry) = entry.isSome := by
  rcases entry with _ | ⟨_ | _⟩ | _
  · cases folder <;> rfl
  · rfl
  · rfl
  · rfl

/-- It is a file exactly where a file stands. -/
theorem localAt_blob_iff {p : Path} {folder : Bool} {entry : Option DiskEntry} {b : Blob} :
    localAt p folder entry = some (.blob b) ↔ ∃ content executable,
      entry = some (.leaf (.regular content executable)) ∧ b = .onDisk p content := by
  constructor
  · intro h
    rcases entry with _ | ⟨_ | _⟩ | _
    · cases folder <;> cases h
    · cases h
      exact ⟨_, _, rfl, rfl⟩
    · cases h
    · cases h
  · rintro ⟨content, executable, rfl, rfl⟩
    rfl

section

variable {c : Checkout} {members : Forest FileEntry Unit} (tree : c.disk.IsWorkingTree c.root members)
  {p : Path} (address : p.IsAddress)

include address

theorem fileOf_of_isAddress : c.fileOf p = c.root.join p.toRaw :=
  if_neg (ne_true_of_eq_false address.isRoot)

include tree

/-- A path that the system refuses has no local side, neither as a file nor as a folder. -/
theorem localVariant_of_refused (refused : Disk.Refuses c.root members p) :
    ∃ fault, fault ≠ .notFound ∧
      ∀ folder, c.localVariant p folder = .error (.repository (.file (.io (c.fileOf p) fault))) := by
  rcases tree.stat_of_refused address refused with ⟨fault, hfault, hstat⟩
  refine ⟨fault, hfault, fun folder => ?_⟩
  rw [← fileOf_of_isAddress address] at hstat
  simp only [localVariant, hstat]

variable (free : ¬ Disk.Refuses c.root members p)

include free

/-- At any other path a regular file of the working tree is found. -/
theorem stat_fileOf_of_lookup {content : Bytes} {executable : Bool}
    (hl : members.lookup p.names = some (.leaf (.regular content executable))) :
    c.disk.stat (c.fileOf p) = .ok (.leaf (.regular content executable)) := by
  rw [fileOf_of_isAddress address, tree.stat_of_not_refused address free, hl]

/-- Any other path has the local side of what stands there. -/
theorem localVariant_of_not_refused (folder : Bool) :
    c.localVariant p folder = .ok (localAt p folder (members.lookup p.names)) := by
  cases hl : members.lookup p.names with
  | none =>
      have hstat := tree.stat_of_not_refused address free
      rw [hl, ← fileOf_of_isAddress address] at hstat
      simp only [localVariant, hstat]
      rfl
  | some entry =>
      cases entry with
      | folder value inner =>
          have hstat := tree.stat_of_not_refused address free
          rw [hl, ← fileOf_of_isAddress address] at hstat
          simp only [localVariant, hstat]
          rfl
      -- There are no links in a working tree, so a leaf is a regular file.
      | leaf value =>
          have hregular := tree.regular.of_lookup hl
          cases value with
          | link target => exact hregular.elim
          | regular content executable =>
              exact localVariant_file (stat_fileOf_of_lookup tree address free hl) folder

end

end Checkout

namespace Synchronizer

/-- Source and target resolve to commits with ordinary names, or to none. Where bytes are compared, the
    contents of their files are in the object database. -/
structure Resolves (s : Synchronizer) (target : String) (l r : Option Commit) : Prop where
  chosen : s.settings.target = some target
  left : s.checkout.repository.resolveCommit s.settings.source = .ok l
  right : s.checkout.repository.resolveCommit target = .ok r
  namedL : s.checkout.WellNamed s.settings.source
  namedR : s.checkout.WellNamed target
  stored : s.settings.byteCompare = true → ∀ spec ∈ [s.settings.source, target], ∀ names leaf,
    s.checkout.Records spec names leaf →
      ∃ content, s.checkout.repository.objects.HasBlob leaf.id content

namespace Resolves

variable {s : Synchronizer} {target : String} {l r : Option Commit} (resolves : s.Resolves target l r)
  {members : Forest FileEntry Unit} {p : Path}

include resolves

theorem target_eq : s.target = .ok (.named target) :=
  target_eq_ok_iff.mpr ⟨target, resolves.chosen, rfl⟩

theorem wellNamed_target (other : String) (h : s.settings.target = some other) :
    s.checkout.WellNamed other := by
  rw [resolves.chosen, Option.some.injEq] at h
  rw [← h]
  exact resolves.namedR

/-! ### The Status of a Path -/

section

variable (tree : s.checkout.disk.IsWorkingTree s.checkout.root members) (address : p.IsAddress)

include address

/-- The two recorded sides of a path never fail. -/
theorem exists_recorded : ∃ base remote,
    s.checkout.namedVariant p s.settings.source = .ok base ∧
    s.checkout.namedVariant p target = .ok remote ∧
    s.triple p = (do
      let here ← s.checkout.localVariant p
        (p.isRoot || base.any Variant.isTree || remote.any Variant.isTree)
      return ⟨here, base, remote⟩) := by
  rcases exists_namedVariant resolves.left address.treeNames with ⟨base, hbase⟩
  rcases exists_namedVariant resolves.right address.treeNames with ⟨remote, hremote⟩
  refine ⟨base, remote, hbase, hremote, ?_⟩
  have hb : s.checkout.variant p s.settings.sourceRevision = .ok base := hbase
  have hr : s.checkout.variant p (.named target) = .ok remote := hremote
  -- With both recorded sides known, only the question to the disk is left of the three.
  simp only [triple, hb, resolves.target_eq, hr, Run.ok_bind]

include tree

/-- A path that the system refuses has no status. -/
theorem status_of_refused (refused : Disk.Refuses s.checkout.root members p) :
    ∃ fault, fault ≠ .notFound ∧
      s.status p = .error (.repository (.file (.io (s.checkout.fileOf p) fault))) := by
  rcases localVariant_of_refused tree address refused with ⟨fault, hfault, hlocal⟩
  rcases resolves.exists_recorded address with ⟨base, remote, _, _, hsides⟩
  refine ⟨fault, hfault, ?_⟩
  rw [hlocal] at hsides
  rw [status, hsides]
  rfl

/-- Any other path has a status, with a local side where something stands. -/
theorem exists_status (free : ¬ Disk.Refuses s.checkout.root members p) :
    ∃ report, s.status p = .ok report ∧
      isPresent report.local = (members.lookup p.names).isSome := by
  rcases resolves.exists_recorded address with ⟨base, remote, hbase, hremote, hsides⟩
  rw [localVariant_of_not_refused tree address free, Run.ok_bind] at hsides
  generalize hhere : localAt p _ _ = here at hsides
  -- Every file among the sides has an id, and its content can be read if ids are not enough.
  have identified : ∀ b, (Triple.mk here base remote).Stands (.blob b) → b.contentId ≠ none ∧
      (s.settings.byteCompare = true → ∃ content, s.checkout.content b = .ok content) := by
    have recorded : ∀ spec ∈ [s.settings.source, target], ∀ b,
        s.checkout.namedVariant p spec = .ok (some (.blob b)) → b.contentId ≠ none ∧
          (s.settings.byteCompare = true → ∃ content, s.checkout.content b = .ok content) := by
      intro spec hspec b hb
      rcases records_of_namedVariant address.treeNames hb with ⟨leaf, history, hleaf, rfl⟩
      refine ⟨Option.some_ne_none _, fun hbytes => ?_⟩
      rcases resolves.stored hbytes spec hspec _ leaf hleaf with ⟨content, hblob⟩
      exact ⟨content, (holds_atRevision hblob p spec history s.settings.byteCompare).readable⟩
    rintro b ⟨hb, _⟩
    simp only [List.mem_cons, List.not_mem_nil, or_false] at hb
    rcases hb with hb | hb | hb
    · rcases localAt_blob_iff.mp (hhere.trans hb.symm) with ⟨content, executable, hl, rfl⟩
      have hstat := stat_fileOf_of_lookup tree address free hl
      exact ⟨Option.some_ne_none _,
        fun _ => ⟨content, (holds_onDisk hstat s.settings.byteCompare).readable⟩⟩
    · exact recorded _ (by simp) b (hb ▸ hbase)
    · exact recorded _ (by simp) b (hb ▸ hremote)
  have hverdict : ∃ verdict, classify s.comparator ⟨here, base, remote⟩ = .ok verdict := by
    -- A verdict reads contents where files are compared by their bytes, and ids are enough elsewhere.
    by_cases hbytes : s.settings.byteCompare = true
    · exact Triple.exists_classify_of_readable fun b hb => (identified b hb).2 hbytes
    · exact Triple.exists_classify
        (Or.inr (Or.inr ⟨Bool.eq_false_iff.mpr hbytes, fun b hb => (identified b hb).1⟩))
  rcases hverdict with ⟨verdict, hverdict⟩
  -- The last changes at both revisions are known as well, so the report is made.
  rcases exists_lastChange resolves.left address.treeNames with ⟨baseChange, hbaseChange⟩
  rcases exists_lastChange resolves.right address.treeNames with ⟨remoteChange, hremoteChange⟩
  refine ⟨_, status_of_parts hsides hverdict hbaseChange resolves.target_eq hremoteChange, ?_⟩
  rw [← hhere]
  exact isPresent_localAt p _ _

end

/-! ### The Changed Paths -/

omit resolves in
/-- The roots of two commits have a difference. -/
theorem gives_compare {a b : Commit} (resolves : s.Resolves target (some a) (some b))
    (quiet : Signal.IsQuiet s.signal) {levels : Nat} (deepA : a.tree.members.depth < levels)
    (deepB : b.tree.members.depth < levels) :
    ∃ node, Gives (s.differ.compare levels (.ofFolder (folderAt s.settings.source [] a.tree.id))
      (.ofFolder (folderAt target [] b.tree.id))) (.ok node) := by
  have hl := resolves.left
  have hr := resolves.right
  have onLeft := hierarchy_member hl (resolves.namedL a hl)
  have onRight := hierarchy_member hr (resolves.namedR b hr)
  have rootL : member s.settings.source a.tree [] =
      some (.ofFolder (folderAt s.settings.source [] a.tree.id)) := rfl
  have rootR : member target b.tree [] = some (.ofFolder (folderAt target [] b.tree.id)) := rfl
  have listedL : WellListed s.checkout.store levels _ := onLeft.wellListed rootL (by simpa using deepA)
  have listedR : WellListed s.checkout.store levels _ := onRight.wellListed rootR (by simpa using deepB)
  have readable := Hierarchy.readableBelow (c := s.comparator) onLeft onRight (fun names x y hx hy => by
    rcases member_blob_iff.mp hx with ⟨leaf, hleaf, rfl⟩
    rcases member_blob_iff.mp hy with ⟨other, hother, rfl⟩
    refine ⟨_, equal_fileAt fun hbytes => ?_⟩
    rcases resolves.stored hbytes _ (by simp) names leaf ⟨a, hl, hleaf⟩ with ⟨x, hx⟩
    rcases resolves.stored hbytes _ (by simp) names other ⟨b, hr, hother⟩ with ⟨y, hy⟩
    exact ⟨x, y, hx, hy⟩) rootL rootR
  exact Differ.compare_gives (d := s.differ) quiet le_rfl listedL listedR readable

/-- The paths at which source and target differ are always found. -/
theorem gives_revisionPaths (quiet : Signal.IsQuiet s.signal) :
    ∃ changed, Gives s.revisionPaths (.ok changed) := by
  have htarget : Gives (Run.ofExcept s.target) (.ok (.named target)) := by
    rw [resolves.target_eq]
    exact Gives.ofExcept _
  -- A difference of the roots is all that is needed.
  have found : ∀ {node}, Gives (s.diff .root (.named s.settings.source) (.named target)) (.ok node) →
      ∃ changed, Gives s.revisionPaths (.ok changed) :=
    fun h => ⟨_, htarget.bind (Gives.tryCatch (h.map changedPaths))⟩
  have rootL := gives_root resolves.left
  have rootR := gives_root resolves.right
  -- A revision without commits has no root. Where both have none, the difference fails with that, which is taken for
  -- no changes.
  cases l with
  | none =>
      cases r with
      | none =>
          have hfails : Gives (s.diff .root (.named s.settings.source) (.named target))
              (.error (.repository (.pathNotFound Path.root.text (.named s.settings.source)
                (.named target)))) :=
            rootL.bind (rootR.bind (Gives.throw _))
          exact ⟨[], htarget.bind (Gives.tryCatch_error (hfails.map_error changedPaths) (Gives.pure []))⟩
      | some b =>
          have deep : b.tree.members.depth < max (s.checkout.depthBound (.named s.settings.source))
              (s.checkout.depthBound (.named target)) :=
            lt_max_of_lt_right (depth_lt_depthBound resolves.right)
          rcases Differ.expand_gives (d := s.differ) quiet .deletion
            (wellListed_root resolves.namedR resolves.right) deep with ⟨node, hnode⟩
          exact found (rootL.bind (rootR.bind ((Gives.ofExcept _).bind hnode)))
  | some a =>
      have deepA : a.tree.members.depth < max (s.checkout.depthBound (.named s.settings.source))
          (s.checkout.depthBound (.named target)) :=
        lt_max_of_lt_left (depth_lt_depthBound resolves.left)
      cases r with
      | none =>
          rcases Differ.expand_gives (d := s.differ) quiet .addition
            (wellListed_root resolves.namedL resolves.left) deepA with ⟨node, hnode⟩
          exact found (rootL.bind (rootR.bind ((Gives.ofExcept _).bind hnode)))
      | some b =>
          have deepB : b.tree.members.depth < max (s.checkout.depthBound (.named s.settings.source))
              (s.checkout.depthBound (.named target)) :=
            lt_max_of_lt_right (depth_lt_depthBound resolves.right)
          rcases resolves.gives_compare quiet deepA deepB with ⟨node, hnode⟩
          exact found (rootL.bind (rootR.bind
            ((Gives.ofExcept _).bind ((Gives.ofExcept _).bind hnode))))

end Resolves

/-! ### The Report -/

/-- There are reports on paths that all have a status. -/
theorem gives_reports {s : Synchronizer} (quiet : Signal.IsQuiet s.signal) {paths : List Path}
    (answered : ∀ q ∈ paths, ∃ report, s.status q = .ok report) :
    ∃ entries, Gives (s.reports paths) (.ok entries) := by
  induction paths with
  | nil => exact ⟨[], Gives.pure []⟩
  | cons q rest ih =>
      rcases answered q List.mem_cons_self with ⟨report, hreport⟩
      rcases ih fun p hp => answered p (List.mem_cons_of_mem _ hp) with ⟨others, hothers⟩
      have hstatus : Gives (Run.ofExcept (s.status q)) (.ok report) := by
        rw [hreport]
        exact Gives.ofExcept _
      exact ⟨_, (Gives.checkpoint quiet).bind (hstatus.bind (hothers.bind (Gives.pure _)))⟩

section

variable {s : Synchronizer} {target : String} {l r : Option Commit} (resolves : s.Resolves target l r)
  {members : Forest FileEntry Unit} (tree : s.checkout.disk.IsWorkingTree s.checkout.root members)
  {found : Outcome} (hscan : s.scan.outcome = .ok found)

include resolves tree hscan

/-- There is a report on all that is pending exactly if the system refuses none of the paths that were
    collected for it. -/
theorem exists_pending_iff (quiet : Signal.IsQuiet s.signal) :
    ∃ changed, Gives s.revisionPaths (.ok changed) ∧ ((∃ result, s.pending.outcome = .ok result) ↔
      ∀ p ∈ found.changes.map Change.path ++ changed, ¬ Disk.Refuses s.checkout.root members p) := by
  rcases resolves.gives_revisionPaths quiet with ⟨changed, hchanged⟩
  -- Whatever was collected is a path of the scan or of the difference, and both have names that can be looked up.
  have address : ∀ p ∈ found.changes.map Change.path ++ changed, p.IsAddress := by
    intro p hp
    rcases List.mem_append.mp hp with hp | hp
    · rcases List.mem_map.mp hp with ⟨change, hc, rfl⟩
      exact (collected_of_scanned resolves.namedL tree (returns_of_outcome hscan) hc).1
    · exact (collected_of_changed resolves.namedL resolves.wellNamed_target hchanged.returns hp).1
  have hpending : ∃ left, s.pending.outcome = (do
      let changed ← s.revisionPaths
      (PendingReport.mk · found.skipped) <$> s.reports (ascending id (found.changes.map Change.path ++
        changed)) : Run PendingReport).answerFrom left :=
    outcome_bind hscan _
  rcases hpending with ⟨left, hpending⟩
  rw [hpending]
  refine ⟨changed, hchanged, fun ⟨result, hresult⟩ p hp refused => ?_, fun free => ?_⟩
  · -- Every path that was collected is asked for its status, and one failure ends the run.
    rcases Returns.bind ⟨left, hresult⟩ with ⟨others, hothers, h⟩
    rw [hothers.eq_of_gives hchanged] at h
    rcases h.map with ⟨entries, hentries, _⟩
    have hlisted := mem_ascending hp fun q _ hq => hq
    rcases (returns_reports hentries).2.2 p hlisted with ⟨report, hreport, _⟩
    rcases resolves.status_of_refused tree (address p hp) refused with ⟨fault, _, hfails⟩
    cases hreport.symm.trans hfails
  · have answered : ∀ p ∈ ascending id (found.changes.map Change.path ++ changed),
        ∃ report, s.status p = .ok report := by
      intro p hp
      have hp := mem_of_mem_ascending hp
      rcases resolves.exists_status tree (address p hp) (free p hp) with ⟨report, hreport, _⟩
      exact ⟨report, hreport⟩
    rcases gives_reports quiet answered with ⟨entries, hentries⟩
    refine ⟨⟨entries, found.skipped⟩, hchanged.bind ?_ left⟩
    exact hentries.map (PendingReport.mk · found.skipped)

/-- A path that the scan reports has a status exactly if the system does not refuse it. Where nothing stands
    at such a path, its local side is not there; and a path that is refused fails with what the system says,
    which is never that nothing was found. -/
theorem status_of_scanned {change : Change} (hc : change ∈ found.changes) :
    (¬ Disk.Refuses s.checkout.root members change.path →
      ∃ report, s.status change.path = .ok report ∧
        isPresent report.local = (members.lookup change.path.names).isSome) ∧
    (Disk.Refuses s.checkout.root members change.path →
      ∃ fault, fault ≠ .notFound ∧ s.status change.path =
        .error (.repository (.file (.io (s.checkout.fileOf change.path) fault)))) := by
  have address := (collected_of_scanned resolves.namedL tree (returns_of_outcome hscan) hc).1
  exact ⟨resolves.exists_status tree address, resolves.status_of_refused tree address⟩

end

namespace Sample

/-- The name of a folder, and of a file in its place. -/
def folderName : Bytes := Utf8.encode "a"

/-- The name of a file in the folder. -/
def innerName : Bytes := Utf8.encode "b"

/-- The name of a file beside the folder. -/
def besideName : Bytes := Utf8.encode "c"

/-- A commit of a file in a folder and a file beside it. -/
def nested : Commit where
  id := ⟨"nested"⟩
  tree := ⟨⟨"tree"⟩, .folder folderName ⟨"folder"⟩ (.leaf innerName ⟨.regular, .ofBlob [1]⟩ .nil)
    (.leaf besideName ⟨.regular, .ofBlob [1]⟩ .nil)⟩
  parents := []
  author := .make "a" "a" 0 0
  committer := .make "a" "a" 0 0
  message := []

/-- A file in the place of the folder, and nothing beside it. -/
def flat : Forest FileEntry Unit :=
  .leaf folderName (.regular [1] false) .nil

/-- The head stands on the commit, and it is the target as well. -/
def flattener : Synchronizer where
  checkout := {
    disk := ⟨[Utf8.encode "w"], flat⟩
    root := .ofString "/w"
    repository := {
      objects := [.commit nested, .blob (.ofBlob [1]) [1]]
      index := []
      references := []
      head := .detached ⟨"nested"⟩
      log := [] }
    settings := { Settings.default with target := some "HEAD" } }
  signal := none

theorem tree_flat : flattener.checkout.disk.IsWorkingTree flattener.checkout.root flat := by
  have name : IsName (Utf8.encode "w") := by decide
  exact ⟨⟨[], Disk.resolve_place name (by decide) (by decide) flat⟩, by decide, by decide, by decide,
    by decide⟩

theorem resolve_nested :
    flattener.checkout.repository.resolveCommit "HEAD" = .ok (some nested) :=
  rfl

theorem wellNamed_nested : flattener.checkout.WellNamed "HEAD" :=
  wellNamed_of_resolve resolve_nested ⟨by decide, by decide⟩

theorem resolves_nested : flattener.Resolves "HEAD" (some nested) (some nested) :=
  ⟨rfl, resolve_nested, resolve_nested, wellNamed_nested, wellNamed_nested, fun h => nomatch h⟩

/-- The file in the folder lies behind a file now. -/
theorem refuses_inner :
    Disk.Refuses flattener.checkout.root flat (pathOf [folderName, innerName]) := by
  have hnames : (pathOf [folderName, innerName]).names = [folderName, innerName] :=
    names_pathOf (by decide)
  right
  rw [hnames]
  exact .behindFile _ _ _ _ rfl (List.cons_ne_nil _ _)

/-- The file beside the folder is only missing. -/
theorem not_refuses_beside : ¬ Disk.Refuses flattener.checkout.root flat (pathOf [besideName]) := by
  have hnames : (pathOf [besideName]).names = [besideName] := names_pathOf (by decide)
  have hfind : flat.find? besideName = none := by decide
  -- The name is short, and no entry stands in its place to be in the way.
  rintro (long | blocked)
  · exact absurd long (by decide +kernel)
  · rw [hnames] at blocked
    cases blocked with
    | longName _ _ _ long => exact absurd long (by decide)
    | behindFile _ _ _ value found => cases hfind.symm.trans found
    | inside _ inner _ _ found => cases hfind.symm.trans found

/-- The scan finds both files gone, and skips nothing. -/
theorem scan_flat : ∃ found, flattener.scan.outcome = .ok found ∧ found.skipped = [] ∧
    ∀ names ∈ [[folderName, innerName], [besideName]], ⟨pathOf names, .deletion⟩ ∈ found.changes := by
  rcases exists_snapshot wellNamed_nested resolve_nested with ⟨reference, hs⟩
  rcases scan_of_commit tree_flat (fun _ h => nomatch h) wellNamed_nested hs
    (fun _ _ => outside_of_records resolve_nested (by decide)) with ⟨found, hfound, clean, _, reported⟩
  -- There is no folder in this tree, so nothing is hidden.
  have unhidden : ∀ p, ¬ flattener.scanner.Hidden flat p := by
    rintro p ⟨folder, ⟨below, hstands⟩, _⟩
    rcases (stands_leaf (by decide)).mp hstands with ⟨_, _, he⟩ | hstands
    · cases he
    · exact not_stands_nil hstands
  refine ⟨found, hfound.outcome, clean, fun names hnames => (reported _ _).mpr ?_⟩
  have gone : (∀ name ∈ names, IsName name ∧ 0 ∉ name) ∧ Utf8.encode gitFolderName ∉ names ∧
      flat.lookup names = none ∧ nested.tree.HasFile names ⟨.regular, .ofBlob [1]⟩ := by
    rcases List.mem_pair.mp hnames with rfl | rfl
    · exact ⟨by decide, by decide, by decide, rfl, rfl⟩
    · exact ⟨by decide, by decide, by decide, rfl, rfl⟩
  rcases gone with ⟨hn, outside, missing, hfile⟩
  have ordinary : ∀ name ∈ names, IsName name := fun name hm => (hn name hm).1
  have kept := Ignore.isIgnored_of_no_rules tree_flat (by decide) (by decide) hn outside false
  refine .deleted _ _ ?_ (((snapshot_files wellNamed_nested hs).2 names ordinary _).mpr
    ⟨_, ⟨nested, resolve_nested, hfile⟩, rfl⟩) (not_excluded_of_kept kept) (Or.inl (unhidden _))
  rintro ⟨value, others, _, hl, hp⟩
  have named := (tree_flat.named.of_lookup hl).1
  rw [pathOf_injective (fun name hm => (named name hm).1) ordinary hp] at hl
  cases missing.symm.trans hl

end Sample

open Synchronizer.Sample in
/-- A file that is only missing has a status, and one behind a file has none. -/
theorem status_of_flattened : ∃ found, flattener.scan.outcome = .ok found ∧
    (∃ change ∈ found.changes, ∃ report, flattener.status change.path = .ok report ∧
      isPresent report.local = false) ∧
    ∃ change ∈ found.changes, ∃ fault, fault ≠ .notFound ∧ flattener.status change.path =
      .error (.repository (.file (.io (flattener.checkout.fileOf change.path) fault))) := by
  rcases scan_flat with ⟨found, hfound, _, hchanges⟩
  have beside := status_of_scanned resolves_nested tree_flat hfound (hchanges [besideName] (by decide))
  have inner := status_of_scanned resolves_nested tree_flat hfound
    (hchanges [folderName, innerName] (by decide))
  refine ⟨found, hfound, ⟨_, hchanges [besideName] (by decide), ?_⟩,
    _, hchanges [folderName, innerName] (by decide), inner.2 refuses_inner⟩
  rcases beside.1 not_refuses_beside with ⟨report, hreport, hlocal⟩
  have hnames : (pathOf [besideName]).names = [besideName] := names_pathOf (by decide)
  simp only [hnames] at hlocal
  exact ⟨report, hreport, hlocal⟩

open Synchronizer.Sample in
/-- So a scan that skips nothing can report a path at which nothing stands, and which has no status. -/
theorem exists_scanned_without_status :
    flattener.Resolves "HEAD" (some nested) (some nested) ∧
    flattener.checkout.disk.IsWorkingTree flattener.checkout.root flat ∧
    ∃ found, flattener.scan.outcome = .ok found ∧ found.skipped = [] ∧
      ∃ change ∈ found.changes, flat.lookup change.path.names = none ∧
        ¬ ∃ report, flattener.status change.path = .ok report := by
  rcases scan_flat with ⟨found, hfound, clean, hchanges⟩
  have address : (pathOf [folderName, innerName]).IsAddress := isAddress_pathOf (by decide) (by decide)
  have hnames : (pathOf [folderName, innerName]).names = [folderName, innerName] :=
    names_pathOf (by decide)
  refine ⟨resolves_nested, tree_flat, found, hfound, clean, _,
    hchanges [folderName, innerName] (by decide), ?_, ?_⟩
  · simp only [hnames]
    decide
  · rintro ⟨report, hreport⟩
    rcases resolves_nested.status_of_refused tree_flat address refuses_inner with ⟨fault, _, hfails⟩
    cases hreport.symm.trans hfails

end Synchronizer

end ThreeWay
