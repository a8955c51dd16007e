import ThreeWay.Proofs.Checkout.Scan
import ThreeWay.Proofs.Report
import ThreeWay.Proofs.Status

/-!
# No Pending Path Is Missed

The pending paths are found by a scan and by a difference, and each of the two looks at two sides only. The
verdict on a path looks at three. That nothing is missed between them is what this module is about.

A file that the scan passes over is in the working tree as the source records it. If the difference passes
over it as well, the target records it in the same way, and then the verdict is that all is in sync. So
every path with another verdict is found by one of the two, or lies below a path at which a file of one
revision meets a folder of the other, and that is a conflict itself.

The argument is by contradiction in the middle: assume that the scan has nothing to report about the path. Then
what it knows of the path is put in terms of the three sides, and the difference decides between a change and the
same file on both revisions. Only in the last case nothing is found, and there the verdict is known.

What was skipped by the scan is excepted, and so is what the rules leave out, since neither is looked at. Nothing
is assumed of the ignore rules themselves, and the source may have no commit yet. Then the scan takes every file
for new and the difference expands the target, and what comes of this is the case of the sample at the end.

## Main definitions

* `Synchronizer.Addressed`: Ids stand for what they name.
* `Synchronizer.Holds`: A path is a file on one of the three sides.

## Theorems

* `Holds.split`, `Holds.isRoot`: A file on one of the sides has an ordinary path, and is not the root.
* `hasFileAt_of_unreported`, `unchanged_of_unreported`: What is known of a file that the scan passes over.
* `inSync_of_unreported`: What the difference passes over as well is in sync.
* `conflict_of_changed`: What has changed is found, or lies below a conflict.
* `found_of_not_inSync`: One of the two searches finds a path that is not in sync.
* `pending_complete`: Every path that is not in sync is reported, or a folder above it.
* `pending_before_first_commit`: A repository without commits, with a branch from elsewhere.
-/

namespace ThreeWay

open ThreeWay.Path Scanner Run Checkout

namespace Synchronizer

variable {s : Synchronizer} {p : Path} {report : StatusReport}

/-- Ids stand for what they name: folders of the two revisions with one id have the same members, and a
    file of the working tree has the id of no other content. -/
structure Addressed (s : Synchronizer) (members : Forest FileEntry Unit) : Prop where
  folders : ∀ target, s.settings.target = some target → ∀ l r,
    s.checkout.repository.resolveCommit s.settings.source = .ok (some l) →
    s.checkout.repository.resolveCommit target = .ok (some r) → SameFolders l.tree r.tree
  contents : ∀ names content executable,
    members.lookup names = some (.leaf (.regular content executable)) →
    ∀ other, s.checkout.repository.objects.blob? (.ofBlob content) = some other → other = content

/-- A path is a file in the working tree, at the source or at the target. -/
def Holds (s : Synchronizer) (members : Forest FileEntry Unit) (p : Path) : Prop :=
  FileAt members p ∨ ∃ names, p.treeNames = .ok names ∧
    (s.HasFileAt s.settings.source names ∨
      ∃ target, s.settings.target = some target ∧ s.HasFileAt target names)

section

variable {members : Forest FileEntry Unit}
  (tree : s.checkout.disk.IsWorkingTree s.checkout.root members)
  (namedS : s.checkout.WellNamed s.settings.source)
  (namedT : ∀ target, s.settings.target = some target → s.checkout.WellNamed target)

theorem isOrdinary_of_hasFileAt {spec : String} {names : List Bytes}
    (named : s.checkout.WellNamed spec) (hnames : p.treeNames = .ok names)
    (h : s.HasFileAt spec names) : p.IsOrdinary ∧ p.names = names := by
  rcases h with ⟨leaf, start, hstart, hfile⟩
  exact isOrdinary_of_treeNames hnames (hfile.isName (named start hstart))

include tree namedS namedT in
/-- A file on one of the three sides has an ordinary path. -/
theorem Holds.split (h : s.Holds members p) : p.IsOrdinary ∧
    (FileAt members p ∨ s.HasFileAt s.settings.source p.names ∨
      ∃ target, s.settings.target = some target ∧ s.HasFileAt target p.names) := by
  -- A file of the working tree has an ordinary path by the tree, and a file of a revision by the names of its commit.
  rcases h with h | ⟨names, hnames, h | ⟨target, ht, h⟩⟩
  · exact ⟨(stat_of_fileAt tree h).1, Or.inl h⟩
  · have hp := isOrdinary_of_hasFileAt namedS hnames h
    exact ⟨hp.1, Or.inr (Or.inl (hp.2 ▸ h))⟩
  · have hp := isOrdinary_of_hasFileAt (namedT target ht) hnames h
    exact ⟨hp.1, Or.inr (Or.inr ⟨target, ht, hp.2 ▸ h⟩)⟩

include tree namedS namedT in
/-- The root is no file on any side. -/
theorem Holds.isRoot (h : s.Holds members p) : p.isRoot = false := by
  rcases h.split tree namedS namedT with ⟨hp, hsides⟩
  -- A file is reached by a name at least, on each of the three sides.
  have hne : p.names ≠ [] := by
    rcases hsides with file | ⟨_, _, _, hfile⟩ | ⟨_, _, _, _, _, hfile⟩
    · rcases (stat_of_fileAt tree file).2 with ⟨_, _, hl, _⟩
      intro he
      rw [he] at hl
      cases hl
    · exact hfile.ne_nil
    · exact hfile.ne_nil
  have hroot := isRoot_pathOf (fun name hm => isName_of_mem_names hp hm) hne
  rw [pathOf_names hp] at hroot
  exact hroot

section

variable {reference : Reference} (snapshot : ∀ names, (∀ name ∈ names, IsName name) → ∀ id,
    reference.lookup (pathOf names) = some id ↔
      ∃ leaf, s.checkout.Records s.settings.source names leaf ∧ id = ⟨leaf.id.hex⟩)
  (hp : p.IsOrdinary) (shown : ¬ s.scanner.Hidden members p) (kept : ¬ s.scanner.Excluded p)
  (unreported : ∀ kind, ¬ Reported s.scanner members reference p kind)

include snapshot hp shown kept unreported

/-- A file of the working tree that the scan does not report is known to the source. -/
theorem hasFileAt_of_unreported (h : FileAt members p) : s.HasFileAt s.settings.source p.names := by
  cases hl : reference.lookup p with
  | none => exact absurd (.new p h shown kept hl) (unreported .addition)
  | some id =>
      rw [← pathOf_names hp] at hl
      rcases (snapshot p.names (fun _ => isName_of_mem_names hp) id).mp hl with ⟨leaf, hleaf, _⟩
      exact ⟨leaf, hleaf⟩

include tree

/-- A file of the source that the scan does not report is in the working tree, with one content. -/
theorem unchanged_of_unreported {leaf : Leaf}
    (h : s.checkout.Records s.settings.source p.names leaf) : ∃ content executable,
      members.lookup p.names = some (.leaf (.regular content executable)) ∧
      s.checkout.disk.stat (s.checkout.root.join p.toRaw) =
        .ok (.leaf (.regular content executable)) ∧ leaf.id = .ofBlob content := by
  have known : reference.lookup p = some ⟨leaf.id.hex⟩ := by
    rw [← pathOf_names hp, snapshot p.names fun _ => isName_of_mem_names hp]
    exact ⟨leaf, h, rfl⟩
  -- A file that the reference knows and that is not there would be reported as deleted.
  have file : FileAt members p := by
    by_contra missing
    exact unreported .deletion (.deleted p _ missing known kept (Or.inl shown))
  rcases stat_of_fileAt tree file with ⟨_, content, executable, hl, hstat⟩
  refine ⟨content, executable, hl, hstat, ?_⟩
  by_contra hne
  refine unreported .modification (.changed p _ file shown kept known fun hhash => hne ?_)
  -- The id of the reference is that of the recorded file, and the hash is that of the content that is there.
  have hids := (hash_of_stat hstat).symm.trans hhash
  rw [Except.ok.injEq, ContentId.mk.injEq] at hids
  rw [← ObjectId.mk.injEq] at hids
  exact hids.symm

include namedS

/-- What both searches pass over is in sync. -/
theorem inSync_of_unreported (addressed : s.Addressed members) {target : String}
    (ht : s.settings.target = some target) (hsame : s.Same s.settings.source target p.names)
    (h : s.status p = .ok report) : report.status = .inSync := by
  -- That both revisions have the same file says in particular that the source has one.
  have hsource : s.HasFileAt s.settings.source p.names := by
    rcases hsame with ⟨l, _, hl, _, a, _, ha, _⟩
    exact ⟨a, l, hl, ha⟩
  rcases hsource with ⟨leaf, hleaf⟩
  rcases unchanged_of_unreported tree snapshot hp shown kept unreported hleaf with
    ⟨content, executable, hlookup, hstat, hid⟩
  have hroot : p.isRoot = false := by
    rcases hleaf with ⟨_, _, hfile⟩
    rw [← pathOf_names hp]
    exact isRoot_pathOf (fun _ => isName_of_mem_names hp) hfile.ne_nil
  have hhere : s.checkout.disk.stat (s.checkout.fileOf (pathOf p.names)) =
      .ok (.leaf (.regular content executable)) := by
    rw [pathOf_names hp, Checkout.fileOf, hroot, if_neg Bool.false_ne_true, hstat]
  rw [← pathOf_names hp] at h
  exact inSync_of_same ht namedS hhere hleaf hid
    (addressed.contents p.names content executable hlookup) hsame h

end

/-- A path that is changed between two revisions is among the changed paths, or below a conflict. -/
theorem conflict_of_changed {target : String} {paths : List Path}
    (ht : s.settings.target = some target) (namedS : s.checkout.WellNamed s.settings.source)
    (namedT : s.checkout.WellNamed target) (hp : p.IsOrdinary)
    (h : s.Changed s.settings.source target p.names paths) :
    p ∈ paths ∨ ∃ q ∈ paths, q.isRoot = false ∧ p.startsWith q = true ∧
      ∀ r, s.status q = .ok r → r.status = .conflicting .change := by
  rcases h with ⟨front, hfront, hmem, hkind⟩
  have named : ∀ name ∈ front, IsName name :=
    fun name hm => isName_of_mem_names hp (hfront.mem hm)
  -- The path is changed itself, or a file meets a folder at it or above it.
  rcases hkind with rfl | hmeets
  · left
    rw [pathOf_names hp] at hmem
    exact hmem
  · right
    have hne : front ≠ [] := by
      rcases hmeets with ⟨_, _, _, _, hswapped⟩
      exact hswapped.ne_nil
    exact ⟨pathOf front, hmem, isRoot_pathOf named hne, (startsWith_pathOf_iff hp named).mpr hfront,
      fun r hr => status_of_meets ht namedS namedT hmeets hr⟩

variable (addressed : s.Addressed members)

include tree namedS namedT addressed

/-- A path that is not in sync is found by the scan or by the difference, or it lies below a path at which
    they find a conflict. -/
theorem found_of_not_inSync {found : Outcome} {changed : List Path} (hscan : Returns s.scan found)
    (clean : found.skipped = []) (hchanged : Returns s.revisionPaths changed)
    (holds : s.Holds members p) (outside : Utf8.encode gitFolderName ∉ p.names)
    (kept : ¬ s.scanner.Excluded p) (shown : ¬ s.scanner.Hidden members p)
    (h : s.status p = .ok report) (apart : report.status.isInSync = false) :
    p ∈ found.changes.map Change.path ++ changed ∨
      ∃ q ∈ changed, q.isRoot = false ∧ p.startsWith q = true ∧
        ∀ r, s.status q = .ok r → r.status = .conflicting .change := by
  rcases returns_scan hscan with ⟨reference, hsnapshot, hscan⟩
  rcases snapshot_files namedS hsnapshot with ⟨unique, snapshot⟩
  rcases holds.split tree namedS namedT with ⟨hp, hsides⟩
  by_cases hreported : ∃ kind, Reported s.scanner members reference p kind
  · -- What the scan has to report it does report.
    rcases hreported with ⟨kind, hkind⟩
    have hmem := (changes_iff_reported tree unique hscan clean (fun _ _ => ⟨hp, outside⟩) kind).mpr
      hkind
    exact Or.inl (List.mem_append_left _ (List.mem_map.mpr ⟨_, hmem, rfl⟩))
  · have unreported : ∀ kind, ¬ Reported s.scanner members reference p kind :=
      not_exists.mp hreported
    rcases returns_revisionPaths hchanged namedS namedT with ⟨target, ht, hpaths⟩
    -- What is only in the working tree is new, and the scan reports it.
    have hfile : s.HasFileAt s.settings.source p.names ∨ s.HasFileAt target p.names := by
      rcases hsides with file | hsource | ⟨other, hother, hfile⟩
      · exact Or.inl (hasFileAt_of_unreported snapshot hp shown kept unreported file)
      · exact Or.inl hsource
      · rw [ht, Option.some.injEq] at hother
        exact Or.inr (hother ▸ hfile)
    rcases hpaths with ⟨hl, hr, _⟩ | ⟨node, hnode, rfl⟩
    · -- Without commits on either side there is no file to look for.
      rcases hfile with ⟨leaf, hleaf⟩ | ⟨leaf, hleaf⟩
      · exact absurd hleaf (not_records_of_none hl)
      · exact absurd hleaf (not_records_of_none hr)
    · rcases changed_or_same namedS (namedT target ht) (addressed.folders target ht) hnode hfile with
        hchange | hsame
      · exact (conflict_of_changed ht namedS (namedT target ht) hp hchange).imp
          (List.mem_append_right _) id
      · have hsync := inSync_of_unreported tree namedS snapshot hp shown kept unreported addressed ht
          hsame h
        rw [hsync] at apart
        cases apart

/-- Every path that is not in sync is reported, or a folder above it. What is reported is what the verdict
    on each path says, in ascending order of paths. -/
theorem pending_complete {result : PendingReport} (h : s.pending.outcome = .ok result)
    (clean : result.skipped = []) :
    Ascending StatusReport.path result.entries ∧
    (∀ e ∈ result.entries, s.status e.path = .ok e ∧ e.status.isInSync = false) ∧
    ∀ p report, s.Holds members p → Utf8.encode gitFolderName ∉ p.names →
      ¬ s.scanner.Excluded p → ¬ s.scanner.Hidden members p →
      s.status p = .ok report → report.status.isInSync = false →
      ∃ e ∈ result.entries, e.path.isRoot = false ∧ p.startsWith e.path = true := by
  rcases (returns_of_outcome h).bind with ⟨found, hscan, h⟩
  rcases h.bind with ⟨changed, hchanged, h⟩
  rcases h.bind with ⟨entries, hentries, h⟩
  have hresult := h.pure
  rw [hresult] at clean ⊢
  rcases returns_reports hentries with ⟨hsub, hverdicts, hall⟩
  -- The entries keep the order of the paths that were collected, each verdict is that of its path, and what is left
  -- is that none is missed.
  refine ⟨?_, hverdicts, fun p report holds outside kept shown hstatus apart => ?_⟩
  · have hpaths : Ascending id (ascending id (found.changes.map Change.path ++ changed)) :=
      ascending_ascending _
    exact List.pairwise_map.mp (hpaths.sublist hsub)
  · have listed : ∀ q, q ∈ found.changes.map Change.path ++ changed →
        ∃ r, s.status q = .ok r ∧ (r.status.isInSync = false → r ∈ entries) :=
      fun q hq => hall q (mem_ascending hq fun y _ hy => hy)
    -- What is found is asked for its status, and what is not in sync is kept.
    rcases found_of_not_inSync tree namedS namedT addressed hscan clean hchanged holds outside kept
      shown hstatus apart with hp | ⟨q, hq, hroot, hbelow, hconflict⟩
    · rcases listed p hp with ⟨r, hr, hmem⟩
      have hsame := Except.ok.inj (hr.symm.trans hstatus)
      refine ⟨r, hmem (hsame ▸ apart), ?_⟩
      rw [(sides_of_status hr).1]
      exact ⟨holds.isRoot tree namedS namedT, startsWith_self p⟩
    · rcases listed q (List.mem_append_right _ hq) with ⟨r, hr, hmem⟩
      have hapart : r.status.isInSync = false := by
        rw [hconflict r hr]
        rfl
      refine ⟨r, hmem hapart, ?_⟩
      rw [(sides_of_status hr).1]
      exact ⟨hroot, hbelow⟩

end

/-! ### A Repository Before Its First Commit -/

namespace Sample

/-- The name of an ignore file. -/
def ruleFile : Bytes := Utf8.encode ".gitignore"

/-- A commit of an ignore file, made elsewhere. -/
def fetched : Commit where
  id := ⟨"fetched"⟩
  tree := ⟨⟨"tree"⟩, .leaf ruleFile ⟨.regular, .ofBlob [1]⟩ .nil⟩
  parents := []
  author := .make "a" "a" 0 0
  committer := .make "a" "a" 0 0
  message := []

/-- Nothing was committed here yet, and a branch came from elsewhere. -/
def newborn : Synchronizer where
  checkout := {
    disk := ⟨[Utf8.encode "w"], .nil⟩
    root := .ofString "/w"
    repository := { Repository.empty "main" with
      objects := [.commit fetched, .blob (.ofBlob [1]) [1]]
      references := [("refs/heads/next", fetched.id)] }
    settings := { Settings.default with target := some "next" } }
  signal := none

/-- The head of a repository without commits resolves to nothing. -/
theorem resolve_head : newborn.checkout.repository.resolveCommit newborn.settings.source = .ok none :=
  rfl

theorem resolve_next : newborn.checkout.repository.resolveCommit "next" = .ok (some fetched) :=
  rfl

theorem wellNamed_next : newborn.checkout.WellNamed "next" := by
  intro start h
  rw [resolve_next, Except.ok.injEq, Option.some.injEq] at h
  rw [← h]
  exact ⟨by decide, by decide⟩

theorem tree_newborn : newborn.checkout.disk.IsWorkingTree newborn.checkout.root .nil := by
  have name : IsName (Utf8.encode "w") := by decide
  exact ⟨⟨[], Disk.resolve_place name (by decide) (by decide) .nil⟩, by decide, by decide, by decide,
    by decide⟩

/-- The branch has one file that the head does not have. -/
theorem gives_changed : Gives newborn.revisionPaths (.ok [pathOf [ruleFile]]) := by
  have quiet : Signal.IsQuiet newborn.differ.signal := fun _ h => nomatch h
  have hlisted := wellListed_root wellNamed_next resolve_next
  have deep : fetched.tree.members.depth + 1 ≤
      max (newborn.checkout.depthBound newborn.settings.sourceRevision)
        (newborn.checkout.depthBound (.named "next")) := by decide
  rcases Differ.expand_gives quiet .deletion hlisted deep with ⟨node, hnode⟩
  have hdiff : Gives (newborn.diff .root newborn.settings.sourceRevision (.named "next"))
      (.ok node) := by
    have hleft : Gives (Run.ofExcept
        (newborn.checkout.variant .root newborn.settings.sourceRevision)) (.ok none) := Gives.ofExcept _
    have hright : Gives (Run.ofExcept (newborn.checkout.variant .root (.named "next")))
        (.ok (some (.ofFolder (folderAt "next" [] fetched.tree.id)))) := by
      have hroot : newborn.checkout.variant .root (.named "next") =
          .ok (some (.ofFolder (folderAt "next" [] fetched.tree.id))) :=
        namedVariant_root resolve_next
      rw [hroot]
      exact Gives.ofExcept _
    have hpresent : Gives (Run.ofExcept (requirePresent
        (.ofFolder (folderAt "next" [] fetched.tree.id)) .expandedRootMissing)) (.ok ()) :=
      Gives.ofExcept _
    exact hleft.bind (hright.bind (hpresent.bind hnode))
  -- The root has one member that is a file, and so the expansion has one path.
  have hpaths : changedPaths node = [pathOf [ruleFile]] := by
    cases Differ.expand_whole hnode.returns with
    | tree _ _ found children listed below =>
        have hfound := Except.ok.inj ((listed_folderAt resolve_next (wellNamed_next _ resolve_next)
          rfl).symm.trans listed)
        rw [← hfound] at below
        cases below with
        | cons h rest =>
            cases rest
            cases h
            rfl
  rw [← hpaths]
  have htarget : Gives (Run.ofExcept newborn.target) (.ok (.named "next")) := Gives.ofExcept _
  exact htarget.bind (Gives.tryCatch (hdiff.map changedPaths))

/-- There is nothing in the working tree. -/
theorem gives_scan : Gives newborn.scan (.ok .empty) := by
  have hsnapshot : Gives (Run.ofExcept (newborn.checkout.snapshot newborn.settings.source)) (.ok []) :=
    Gives.ofExcept _
  have hwalk : Gives (newborn.scanner.walkRoot ⟨[], .empty⟩) (.ok ⟨[], .empty⟩) := by
    rw [walkRoot_eq tree_newborn]
    exact Gives.pure _
  exact hsnapshot.bind (hwalk.bind ((Gives.pure _).bind (Gives.pure _)))

/-- The file comes in. -/
theorem status_next : ∃ report, newborn.status (pathOf [ruleFile]) = .ok report ∧
    report.status = .incoming .addition := by
  have hnames : (pathOf [ruleFile]).treeNames = .ok [ruleFile] := treeNames_pathOf (by decide)
  have hroot : (pathOf [ruleFile]).isRoot = false := isRoot_pathOf (by decide) (by decide)
  have hfile : newborn.checkout.HasFile "next" fetched [ruleFile] ⟨.regular, .ofBlob [1]⟩ [1] :=
    ⟨rfl, rfl, rfl, by decide +kernel, rfl⟩
  have hline : Walk.IsLine newborn.checkout.repository.objects [fetched] := .root _ rfl rfl
  have hremote : ∃ history, newborn.checkout.namedVariant (pathOf [ruleFile]) "next" =
      .ok (some (.blob (.atRevision (pathOf [ruleFile]) "next" (.ofBlob [1]) history))) :=
    ⟨_, namedVariant_file hfile hnames (History.ancestry_line (i := 0) hline rfl hnames _)⟩
  rcases hremote with ⟨history, hremote⟩
  have hstat : newborn.checkout.disk.stat (newborn.checkout.fileOf (pathOf [ruleFile])) =
      .error .notFound := by
    have pieces : (newborn.checkout.fileOf (pathOf [ruleFile])).pieces =
        [[], Utf8.encode "w", ruleFile] := by decide +kernel
    have step : ∀ name ∈ [Utf8.encode "w", ruleFile], Path.IsName name := by decide
    have look : newborn.checkout.disk.look [Utf8.encode "w"] = some (.folder () .nil) := rfl
    rw [Disk.stat, Disk.resolve, if_neg (by decide +kernel), if_neg (by decide +kernel),
      if_neg (by decide +kernel), pieces, Disk.follow_skip (Or.inl rfl),
      Disk.follow_folder (step _ List.mem_cons_self).isStep (by decide) look,
      Disk.follow_step (step _ (List.mem_cons_of_mem _ List.mem_cons_self)).isStep (by decide)]
    rfl
  have hlocal : newborn.checkout.localVariant (pathOf [ruleFile]) false = .ok none := by
    simp only [localVariant, hstat]
    rfl
  have hsides : newborn.triple (pathOf [ruleFile]) =
      .ok ⟨none, none,
        some (.blob (.atRevision (pathOf [ruleFile]) "next" (.ofBlob [1]) history))⟩ := by
    have hb : newborn.checkout.variant (pathOf [ruleFile]) newborn.settings.sourceRevision =
        .ok none :=
      namedVariant_none resolve_head
    have hr : newborn.checkout.variant (pathOf [ruleFile]) (.named "next") = _ := hremote
    have ht : newborn.target = .ok (.named "next") := rfl
    simp only [triple, hb, ht, hr, Run.ok_bind, hroot, Option.any, Variant.isTree, Bool.or_false,
      hlocal]
    rfl
  exact ⟨_, status_of_parts hsides rfl rfl rfl (lastChange_eq hfile.resolved hnames), rfl⟩

end Sample

open Synchronizer.Sample in
/-- Before the first commit, the ignore file of a branch is not missed. -/
theorem pending_before_first_commit :
    ∃ result, newborn.pending.outcome = .ok result ∧ result.skipped = [] ∧
      Ascending StatusReport.path result.entries ∧
      ∃ e ∈ result.entries, (pathOf [ruleFile]).startsWith e.path = true := by
  rcases status_next with ⟨report, hstatus, hverdict⟩
  have apart : report.status.isInSync = false := by
    rw [hverdict]
    rfl
  have hreports : Gives (newborn.reports [pathOf [ruleFile]]) (.ok [report]) := by
    have quiet : Signal.IsQuiet newborn.signal := fun _ h => nomatch h
    have hreport : Gives (Run.ofExcept (newborn.status (pathOf [ruleFile]))) (.ok report) := by
      rw [hstatus]
      exact Gives.ofExcept _
    refine (Gives.checkpoint quiet).bind (hreport.bind ((Gives.pure []).bind ?_))
    rw [apart]
    exact Gives.pure [report]
  have hpending : Gives newborn.pending (.ok ⟨[report], []⟩) :=
    gives_scan.bind (gives_changed.bind (hreports.bind (Gives.pure _)))
  have named : newborn.checkout.WellNamed newborn.settings.source := by
    intro start h
    rw [resolve_head] at h
    cases h
  have namedT : ∀ target, newborn.settings.target = some target → newborn.checkout.WellNamed target := by
    intro target h
    rw [← Option.some.inj h]
    exact wellNamed_next
  -- The head has no files and the working tree is empty, so nothing is to be shown.
  have addressed : newborn.Addressed .nil := by
    refine ⟨fun target _ l r hl _ => ?_, fun names content executable hl => ?_⟩
    · rw [resolve_head] at hl
      cases hl
    · cases names <;> cases hl
  have complete := pending_complete tree_newborn named namedT addressed hpending.outcome rfl
  have holds : newborn.Holds .nil (pathOf [ruleFile]) :=
    Or.inr ⟨[ruleFile], treeNames_pathOf (by decide), Or.inr ⟨"next", rfl, _, fetched, resolve_next,
      rfl, rfl⟩⟩
  have kept : ¬ newborn.scanner.Excluded (pathOf [ruleFile]) := by
    rintro ⟨hrule, _⟩
    exact absurd hrule (by decide +kernel)
  have shown : ¬ newborn.scanner.Hidden .nil (pathOf [ruleFile]) := by
    rintro ⟨folder, ⟨below, hstands⟩, _⟩
    exact not_stands_nil hstands
  rcases complete.2.2 _ report holds (by decide) kept shown hstatus apart with ⟨e, he, _, hbelow⟩
  exact ⟨_, hpending.outcome, rfl, complete.1, e, he, hbelow⟩

end Synchronizer

end ThreeWay
