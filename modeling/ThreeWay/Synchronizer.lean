import ThreeWay.Checkout.Content
import ThreeWay.Classify
import ThreeWay.Diff.Build

/-!
# Synchronizing a working tree with two revisions

The working tree is the local side, the source revision of the settings is the base, and the target
revision is the remote side.

A path is looked up on all three sides and classified. The pending paths are found by two searches whose
results are joined: a scan of the working tree against the source finds what changed locally, and a diff of
source and target finds what changed between them.

## Main definitions

* `Synchronizer`: A checkout, and when to stop.
* `StatusReport`, `Synchronizer.status`: The verdict on one path, with the variants it rests on.
* `Synchronizer.diff`: The difference of a path at two revisions.
* `Synchronizer.scan`: What changed in the working tree.
* `PendingReport`, `Synchronizer.pending`: Every path that is not in sync.
-/

namespace ThreeWay

/-- The verdict on one path, with the variants it rests on and the last commits that changed the path on
    the base and on the remote side. -/
structure StatusReport where
  path : Path
  status : Status
  «local» : Option Variant
  base : Option Variant
  remote : Option Variant
  baseChange : Option CommitInfo
  remoteChange : Option CommitInfo

/-- Every path that is not in sync, in ascending order, and what the scan could not inspect. -/
structure PendingReport where
  entries : List StatusReport
  skipped : List Skipped

/-- The entries that involve both sides. -/
def PendingReport.conflicts (r : PendingReport) : List StatusReport :=
  r.entries.filter (·.status.isConflict)

/-- A checkout, and when to stop. -/
structure Synchronizer where
  checkout : Checkout
  signal : Option Signal

namespace Synchronizer

/-- The settings of the checkout. -/
def settings (s : Synchronizer) : Settings :=
  s.checkout.settings

/-- How variants are compared. -/
def comparator (s : Synchronizer) : Comparator :=
  ⟨s.checkout.store, s.settings.byteCompare⟩

/-- How hierarchies are compared. -/
def differ (s : Synchronizer) : Differ :=
  ⟨s.comparator, s.signal⟩

/-- The remote revision. -/
def target (s : Synchronizer) : Except Error Revision :=
  Checkout.ask s.settings.targetRevision

/-- The three sides of a path. The local side is looked up as a folder where one of the others is a
    folder, and at the root. -/
def triple (s : Synchronizer) (path : Path) : Except Error Triple := do
  let base ← s.checkout.variant path s.settings.sourceRevision
  let remote ← s.checkout.variant path (← s.target)
  -- What is missing on the disk has no kind of its own and takes that of the recorded sides.
  let folder := path.isRoot || base.any Variant.isTree || remote.any Variant.isTree
  let here ← s.checkout.localVariant path folder
  return ⟨here, base, remote⟩

/-- The last commit that changed a path as of a revision. -/
def lastChange (s : Synchronizer) (path : Path) : Revision → Except Error (Option CommitInfo)
  | .named spec => s.checkout.lastChange path spec
  | _ => .ok none

/-- The verdict on one path. -/
def status (s : Synchronizer) (path : Path) : Except Error StatusReport := do
  let sides ← s.triple path
  let verdict ← classify s.comparator sides
  let baseChange ← s.lastChange path s.settings.sourceRevision
  let remoteChange ← s.lastChange path (← s.target)
  return {
    path := path
    status := verdict
    «local» := sides.local
    base := sides.base
    remote := sides.remote
    baseChange := baseChange
    remoteChange := remoteChange }

/-- The difference of a path at two revisions. Where only one of them has the path, that side is expanded:
    the left one as an addition, the right one as a deletion. -/
def diff (s : Synchronizer) (path : Path) (left right : Revision) : Run DiffNode := do
  let l ← Run.ofExcept (s.checkout.variant path left)
  let r ← Run.ofExcept (s.checkout.variant path right)
  let levels := max (s.checkout.depthBound left) (s.checkout.depthBound right)
  match l, r with
  | some l, some r => s.differ.diff levels l r
  -- Read from right to left, as below a root: what only the left side has is an addition.
  | some l, none => s.differ.expandRoot levels .addition l
  | none, some r => s.differ.expandRoot levels .deletion r
  | none, none => throw (.repository (.pathNotFound path.text left right))

/-- What changed in the working tree since the source revision. -/
def scan (s : Synchronizer) : Run Outcome :=
  let c := s.checkout
  let scanner : Scanner := ⟨c.disk, c.root, c.disk.hashByBlobId, c.ignoreRules, s.signal⟩
  scanner.scan (c.snapshot s.settings.source)

/-- The paths at which two revisions differ: those of the differences without differences below. -/
def changedPaths (n : DiffNode) : List Path :=
  n.walk.filterMap fun (_, node) => if node.isEmpty then node.path? else none

/-- The paths at which source and target differ. -/
def revisionPaths (s : Synchronizer) : Run (List Path) := do
  let target ← Run.ofExcept s.target
  try
    changedPaths <$> s.diff .root s.settings.sourceRevision target
  catch
    -- Neither revision has a root, as before the first commit: then they do not differ.
    | .repository (.pathNotFound _ _ _) => pure []
    | e => throw e

/-- The reports on some paths, without those that are in sync. -/
def reports (s : Synchronizer) : List Path → Run (List StatusReport)
  | [] => return []
  | path :: rest => do
    Run.checkpoint s.signal
    let report ← Run.ofExcept (s.status path)
    -- The other paths are inspected in any case, so a failure at one of them fails the report.
    let others ← s.reports rest
    return if report.status.isInSync then others else report :: others

/-- Every path that is not in sync. -/
def pending (s : Synchronizer) : Run PendingReport := do
  let found ← s.scan
  let changed ← s.revisionPaths
  -- A path that changed in the working tree and between the revisions is reported once.
  let paths := ascending id (found.changes.map Change.path ++ changed)
  return ⟨← s.reports paths, found.skipped⟩

end Synchronizer

end ThreeWay
