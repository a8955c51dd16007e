import ThreeWay.Proofs.Checkout.Sides
import ThreeWay.Proofs.Classify
import ThreeWay.Proofs.Disk
import ThreeWay.Synchronizer

/-!
# The Status of a Changed File

On a history without merges the status of a file says who moved last. The revisions hold two commits of one
line, and what counts is how many commits in between changed the path: none, and the change can only be in
the working tree; fewer than the limit, and the newer revision is ahead; as many as the limit or more, and
the order is out of sight.

The content only decides whether there is anything to report at all.

The counting is done on one list. The history from the newer commit is the history from the older one with the
changes in between put in front (`History.exists_newer`), so the two histories that are compared are a list and an
end of it. What two such histories tell is known from the law on directions, and it is symmetric in who of the two
is ahead.

## Theorems

* `exists_newer`: The history from a newer commit continues the one from an older commit.
* `limitedDirection_line`: The direction that the histories of two commits on a line tell.
* `idAt_eq_of_changesBetween`: Without changes in between two commits record the same.
* `triple_of_file`, `status_of_parts`: The parts that a report is put together from.
* `status_files`: The status of a file that is there on all sides.
* `status_line`: The same where the revisions lie on a line.
* `status_of_far_branch`: As many changes as the limit allows.
-/

namespace ThreeWay

namespace History

variable {db : Database} {names : List Bytes} {past : List Commit}

/-- The history from a newer commit has the commits that changed the path in front of the tip of the one
    from an older commit. -/
theorem exists_newer {older : Commit} {i j : Nat} (hij : j ≤ i) (h : Walk.IsLine db past)
    (hi : past[i]? = some older) (hrecorded : (older.idAt names).isSome) :
    ∃ newer tip below, tell (onLine db names past i) = tip :: below ∧
      tell (onLine db names past j) = newer ++ tip :: below ∧
      newer.length = changesBetween db names past i j := by
  rcases @onLine_append db names past i j hij with ⟨newer, hn, hlen⟩
  -- The older commit records something, so some commit on the line below it introduced that.
  have hne := onLine_ne_nil h hi hrecorded
  rcases List.exists_cons_of_ne_nil hne with ⟨c, cs, hc⟩
  refine ⟨tell newer, ⟨c.id.hex⟩, tell cs, ?_, ?_, ?_⟩
  · rw [hc]
    rfl
  · rw [hn, hc, tell, List.map_append]
    rfl
  · rw [tell, List.length_map, hlen]

/-- The histories of two commits on a line are compared as if nothing had been left out of the count of
    changes between them. -/
theorem limitedDirection_line (h : Walk.IsLine db past) {source target : Commit} {i j limit : Nat}
    (hi : past[i]? = some source) (hj : past[j]? = some target)
    (hsource : (source.idAt names).isSome) (htarget : (target.idAt names).isSome)
    (positive : 1 ≤ limit) (localChanged remoteChanged : Bool) :
    limitedDirection limit (tell (onLine db names past i)) (tell (onLine db names past j))
        localChanged remoteChanged =
      if changesBetween db names past i j = 0 then byContent localChanged remoteChanged
      else if changesBetween db names past i j < limit then
        if j < i then .incoming else .outgoing
      else .conflicting := by
  have hnodup : ∀ place, (tell (onLine db names past place)).Nodup := nodup_tell_onLine h
  have ne_nil {newer : List CommitId} {n : Nat} (hlen : newer.length = n) (hn : n ≠ 0) :
      newer ≠ [] := by
    rintro rfl
    exact hn hlen.symm
  rcases Nat.lt_or_ge j i with hij | hij
  · -- The target is the newer one.
    rcases exists_newer (Nat.le_of_lt hij) h hi hsource with ⟨newer, tip, below, hb, hr, hlen⟩
    have hnewer := hnodup j
    rw [hr] at hnewer
    rw [hb, hr, if_pos hij]
    split_ifs with none near
    · rw [none, List.length_eq_zero_iff] at hlen
      rw [hlen, List.nil_append, limitedDirection_same]
    · rw [limitedDirection_ahead positive hnewer (ne_nil hlen none), hlen, if_pos near]
    · rw [limitedDirection_ahead positive hnewer (ne_nil hlen none), hlen, if_neg near]
  -- The source is the newer one, or both are the same commit. The count is the same both ways.
  · rcases exists_newer hij h hj htarget with ⟨newer, tip, below, hr, hb, hlen⟩
    have hnewer := hnodup i
    rw [hb] at hnewer
    rw [changesBetween_comm] at hlen
    rw [hb, hr, if_neg (Nat.not_lt.mpr hij)]
    split_ifs with none near
    · rw [none, List.length_eq_zero_iff] at hlen
      rw [hlen, List.nil_append, limitedDirection_same]
    · rw [limitedDirection_behind positive hnewer (ne_nil hlen none), hlen, if_pos near]
    · rw [limitedDirection_behind positive hnewer (ne_nil hlen none), hlen, if_neg near]

/-- Two commits without changes in between record the same. -/
theorem idAt_eq_of_changesBetween (h : Walk.IsLine db past) {source target : Commit} {i j : Nat}
    (hi : past[i]? = some source) (hj : past[j]? = some target)
    (unchanged : changesBetween db names past i j = 0) : source.idAt names = target.idAt names := by
  -- The count is symmetric, so it does not matter which of the two is the older one.
  rcases Nat.le_total j i with hij | hij
  · exact (idAt_eq_of_unchanged h hij hi hj unchanged).symm
  · rw [changesBetween_comm] at unchanged
    exact idAt_eq_of_unchanged h hij hj hi unchanged

/-- The direction of two files whose histories are told up to a limit. -/
theorem directionOf_atRevision (path : Path) (baseSpec remoteSpec : String)
    (baseId remoteId : ObjectId) (base remote : List Commit) (limit : Nat)
    (localChanged remoteChanged : Bool) :
    directionOf
        (.blob (.atRevision path baseSpec baseId ⟨(tell base).take limit, limit < base.length⟩))
        (.blob (.atRevision path remoteSpec remoteId
          ⟨(tell remote).take limit, limit < remote.length⟩)) localChanged remoteChanged =
      limitedDirection limit (tell base) (tell remote) localChanged remoteChanged := by
  simp only [directionOf, limitedDirection, Variant.truncated, Variant.ancestry, Blob.atRevision,
    tell, List.length_map, Option.getD_some, Bool.or_eq_true, decide_eq_true_eq]

end History

namespace Synchronizer

open History

section

variable {s : Synchronizer} {path : Path} {names : List Bytes} {past : List Commit}
  {source target : Commit} {spec : String} {base remote : Leaf} {x y z : Bytes} {executable : Bool}
  {i j : Nat}

/-- The three sides of a path that is a file in the working tree. -/
theorem triple_of_file
    (hhere : s.checkout.disk.stat (s.checkout.fileOf path) = .ok (.leaf (.regular x executable)))
    {baseSide remoteSide : Option Variant}
    (hbase : s.checkout.namedVariant path s.settings.source = .ok baseSide)
    (hremote : s.checkout.namedVariant path spec = .ok remoteSide)
    (htarget : s.target = .ok (.named spec)) :
    s.triple path = .ok ⟨some (.blob (.onDisk path x)), baseSide, remoteSide⟩ := by
  have hb : s.checkout.variant path s.settings.sourceRevision = .ok baseSide := hbase
  have hr : s.checkout.variant path (.named spec) = .ok remoteSide := hremote
  simp only [triple, hb, htarget, hr, Run.ok_bind, Checkout.localVariant_file hhere]
  rfl

/-- The report on a path puts the answers of its parts together. -/
theorem status_of_parts {remoteRevision : Revision} {sides : Triple} {verdict : Status}
    {baseChange remoteChange : Option CommitInfo} (hsides : s.triple path = .ok sides)
    (hverdict : classify s.comparator sides = .ok verdict)
    (hbase : s.lastChange path s.settings.sourceRevision = .ok baseChange)
    (htarget : s.target = .ok remoteRevision)
    (hremote : s.lastChange path remoteRevision = .ok remoteChange) :
    s.status path = .ok
      ⟨path, verdict, sides.local, sides.base, sides.remote, baseChange, remoteChange⟩ := by
  simp only [status, hsides, hverdict, hbase, htarget, hremote, Run.ok_bind]
  rfl

/-- The status of a path that is a file in the working tree and at both revisions. -/
theorem status_files {baseHistory remoteHistory : Ancestry} (hnames : path.treeNames = .ok names)
    (hhere : s.checkout.disk.stat (s.checkout.fileOf path) = .ok (.leaf (.regular x executable)))
    (hbase : s.checkout.HasFile s.settings.source source names base y)
    (hbaseHistory : ancestry s.checkout.repository.objects source path s.settings.ancestryLimit =
      .ok baseHistory)
    (htarget : s.settings.target = some spec)
    (hremote : s.checkout.HasFile spec target names remote z)
    (hremoteHistory : ancestry s.checkout.repository.objects target path s.settings.ancestryLimit =
      .ok remoteHistory)
    (distinctHere : s.settings.byteCompare = false → ObjectId.ofBlob x = ObjectId.ofBlob y → x = y)
    (distinctRemote : s.settings.byteCompare = false →
      ObjectId.ofBlob z = ObjectId.ofBlob y → z = y) :
    ∃ report, s.status path = .ok report ∧ report.status =
      if x = y ∧ z = y then .inSync
      else ⟨directionOf (.blob (.atRevision path s.settings.source base.id baseHistory))
        (.blob (.atRevision path spec remote.id remoteHistory)) (x ≠ y) (z ≠ y), .change, false⟩ := by
  have hrevision : s.target = .ok (.named spec) := by
    rw [Synchronizer.target, Settings.targetRevision, htarget]
    rfl
  -- The three sides are looked up, the verdict is given on their contents, and the last changes are filled in.
  have hsides := triple_of_file hhere (Checkout.namedVariant_file hbase hnames hbaseHistory)
    (Checkout.namedVariant_file hremote hnames hremoteHistory) hrevision
  have hverdict := classify_of_holds (Checkout.holds_onDisk hhere s.settings.byteCompare)
    (Checkout.holds_atRevision hbase.blob path s.settings.source baseHistory s.settings.byteCompare)
    (Checkout.holds_atRevision hremote.blob path spec remoteHistory s.settings.byteCompare)
    distinctHere distinctRemote
  exact ⟨_, status_of_parts hsides hverdict (Checkout.lastChange_eq hbase.resolved hnames)
    hrevision (Checkout.lastChange_eq hremote.resolved hnames), rfl⟩

/-- The status of a file whose source and target lie on one line. Places count from the newest commit, so
    the target is the newer one when its place is the smaller. Where ids are compared, the contents that are
    compared must not share one. -/
theorem status_line (hline : Walk.IsLine s.checkout.repository.objects past)
    (hnames : path.treeNames = .ok names)
    (hhere : s.checkout.disk.stat (s.checkout.fileOf path) = .ok (.leaf (.regular x executable)))
    (hi : past[i]? = some source)
    (hbase : s.checkout.HasFile s.settings.source source names base y)
    (hj : past[j]? = some target) (htarget : s.settings.target = some spec)
    (hremote : s.checkout.HasFile spec target names remote z)
    (distinctHere : s.settings.byteCompare = false → ObjectId.ofBlob x = ObjectId.ofBlob y → x = y)
    (distinctRemote : s.settings.byteCompare = false →
      ObjectId.ofBlob z = ObjectId.ofBlob y → z = y)
    (positive : 1 ≤ s.settings.ancestryLimit) :
    let k := changesBetween s.checkout.repository.objects names past i j
    ∃ report, s.status path = .ok report ∧ report.status =
      if x = y ∧ z = y then .inSync
      else if k = 0 then .outgoing .change
      else if k < s.settings.ancestryLimit then
        if j < i then .incoming .change else .outgoing .change
      else .conflicting .change := by
  intro k
  have hsource : source.idAt names = some base.id := by
    rw [Commit.idAt, hbase.recorded]
    rfl
  have hrecorded : target.idAt names = some remote.id := by
    rw [Commit.idAt, hremote.recorded]
    rfl
  rcases status_files hnames hhere hbase (ancestry_line hline hi hnames _) htarget hremote
    (ancestry_line hline hj hnames _) distinctHere distinctRemote with ⟨report, hreport, hstatus⟩
  -- What is left is a comparison of two nested conditions, branch by branch.
  refine ⟨report, hreport, hstatus.trans ?_⟩
  rw [directionOf_atRevision, limitedDirection_line hline hi hj (Option.isSome_of_mem hsource)
    (Option.isSome_of_mem hrecorded) positive]
  split_ifs with same none near ahead
  · rfl
  · -- Both revisions record one content, so it is the working tree that differs.
    have hsame : base.id = remote.id := by
      rw [← Option.some_inj, ← hsource, ← hrecorded]
      exact (idAt_eq_of_changesBetween hline hi hj none)
    have hyz : z = y := by
      rw [← Option.some_inj, ← hremote.blob.found, ← hsame]
      exact hbase.blob.found
    have hxy : x ≠ y := fun h => same ⟨h, hyz⟩
    simp only [hyz, hxy, ne_eq, not_true_eq_false, not_false_eq_true, decide_true, decide_false]
    rfl
  · rfl
  · rfl
  · rfl

end

namespace Sample

/-- The name of the only file. -/
def name : Bytes := Utf8.encode "f"

/-- A commit of the only file. -/
def commit (id : String) (parents : List ObjectId) (content : Bytes) : Commit where
  id := ⟨id⟩
  tree := ⟨⟨"tree of " ++ id⟩, .leaf name ⟨.regular, .ofBlob content⟩ .nil⟩
  parents := parents
  author := .make "a" "a" 0 0
  committer := .make "a" "a" 0 0
  message := []

/-- A history that changed the file, and changed it back. -/
def past : List Commit :=
  [commit "third" [⟨"second"⟩] [1], commit "second" [⟨"first"⟩] [2], commit "first" [] [1]]

/-- The head stands on the first commit, and a branch on the last one. -/
def repository : Repository where
  objects := past.map .commit ++ [.blob (.ofBlob [1]) [1], .blob (.ofBlob [2]) [2]]
  index := []
  references := [("refs/heads/next", ⟨"third"⟩)]
  head := .detached ⟨"first"⟩
  log := []

/-- The file was changed in the working tree too, and as much history is told as there are changes. -/
def synchronizer : Synchronizer where
  checkout := {
    disk := ⟨[Utf8.encode "w"], .leaf name (.regular [2] false) .nil⟩
    root := .ofString "/w"
    repository := repository
    settings := { Settings.default with target := some "next", ancestryLimit := 2 } }
  signal := none

end Sample

open Synchronizer.Sample in
/-- With as many changes as the limit, the order of the revisions is out of sight. -/
theorem status_of_far_branch :
    ∃ report, synchronizer.status (.ofString "f") = .ok report ∧
      report.status = .conflicting .change := by
  have hline : Walk.IsLine repository.objects past :=
    .next _ _ _ rfl rfl (.next _ _ _ rfl rfl (.root _ rfl rfl))
  have hfirst : repository.objects.HasBlob (.ofBlob [1]) [1] := ⟨by decide +kernel, rfl⟩
  have place : Path.IsName (Utf8.encode "w") := by decide
  have tree : synchronizer.checkout.disk.IsWorkingTree synchronizer.checkout.root
      synchronizer.checkout.disk.tree :=
    ⟨⟨[], Disk.resolve_place place (by decide) (by decide) _⟩, by decide, by decide, by decide,
      by decide⟩
  have hhere : synchronizer.checkout.disk.stat (synchronizer.checkout.fileOf (.ofString "f")) =
      .ok (.leaf (.regular [2] false)) :=
    tree.stat_of_lookup (p := .ofString "f") (by decide) rfl (by decide)
  have hbase : synchronizer.checkout.HasFile synchronizer.settings.source (commit "first" [] [1])
      [name] ⟨.regular, .ofBlob [1]⟩ [1] := ⟨rfl, rfl, rfl, hfirst⟩
  have hremote : synchronizer.checkout.HasFile "next" (commit "third" [⟨"second"⟩] [1])
      [name] ⟨.regular, .ofBlob [1]⟩ [1] := ⟨rfl, rfl, rfl, hfirst⟩
  -- The file was changed and changed back, so the revisions have one content and two changes in between.
  have hchanges : changesBetween repository.objects [name] past 2 0 = 2 := by decide +kernel
  rcases status_line (s := synchronizer) (i := 2) (j := 0) hline rfl hhere rfl hbase rfl rfl hremote
    (fun _ => by decide +kernel) (fun _ _ => rfl) (by decide) with ⟨report, hreport, hstatus⟩
  refine ⟨report, hreport, hstatus.trans ?_⟩
  change (if [2] = [1] ∧ [1] = [1] then _ else
    if changesBetween repository.objects [name] past 2 0 = 0 then _ else
    if changesBetween repository.objects [name] past 2 0 < 2 then _ else _) = _
  rw [hchanges]
  rfl

end Synchronizer

end ThreeWay
