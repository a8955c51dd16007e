import ThreeWay.Proofs.Changed
import ThreeWay.Proofs.Classify

/-!
# Reports on Paths

A report is made from the three sides of a path, so what is known of a path at the two revisions tells what
its report has to say. Two things are known of the paths that a difference leads to: a file meets a folder
there, and then the report is a conflict; or a file is the same at both revisions, and then the working tree
alone decides.

A report is made in steps that may fail, so it is taken apart in the order of the steps: first the three sides,
then the verdict, then the last changes, which do not matter for the verdict. What is known of the sides is then
put into the law of the verdict.

## Theorems

* `sides_of_status`: A report comes from three sides.
* `returns_reports`: The reports on some paths are those that are not in sync.
* `returns_pending`: What is pending are the reports on the paths that the two searches find.
* `status_of_meets`: Where a file meets a folder, there is a conflict.
* `inSync_of_same`: A file with one content on all sides is in sync.
-/

namespace ThreeWay

open ThreeWay.Path Scanner Run Checkout

/-- The three sides that a report tells. -/
def StatusReport.sides (r : StatusReport) : Triple :=
  ⟨r.local, r.base, r.remote⟩

namespace Synchronizer

variable {s : Synchronizer} {p : Path} {report : StatusReport}

/-- A report comes from the three sides of its path. -/
theorem sides_of_status (h : s.status p = .ok report) :
    report.path = p ∧ ∃ target, s.settings.target = some target ∧
      s.checkout.namedVariant p s.settings.source = .ok report.base ∧
      s.checkout.namedVariant p target = .ok report.remote ∧
      (∃ folder, s.checkout.localVariant p folder = .ok report.local) ∧
      classify s.comparator report.sides = .ok report.status := by
  rcases bind_eq_ok h with ⟨sides, hsides, h⟩
  rcases bind_eq_ok h with ⟨verdict, hverdict, h⟩
  rcases bind_eq_ok h with ⟨baseChange, _, h⟩
  rcases bind_eq_ok h with ⟨revision, _, h⟩
  rcases bind_eq_ok h with ⟨remoteChange, _, h⟩
  have hreport := (Except.ok.inj h).symm
  -- The sides are asked for in an order of their own, as the kind of the recorded ones decides how the disk is asked.
  rcases bind_eq_ok hsides with ⟨base, hbase, hsides⟩
  rcases bind_eq_ok hsides with ⟨revision', hrevision', hsides⟩
  rcases bind_eq_ok hsides with ⟨remote, hremote, hsides⟩
  rcases bind_eq_ok hsides with ⟨here, hhere, hsides⟩
  have hs := (Except.ok.inj hsides).symm
  rcases target_eq_ok_iff.mp hrevision' with ⟨spec, hspec, rfl⟩
  rw [hs] at hreport hverdict
  rw [hreport]
  exact ⟨rfl, spec, hspec, hbase, hremote, ⟨_, hhere⟩, hverdict⟩

/-- The reports on some paths: those that are not in sync, in the order of the paths. -/
theorem returns_reports {paths : List Path} {entries : List StatusReport}
    (h : Returns (s.reports paths) entries) :
    (entries.map StatusReport.path).Sublist paths ∧
      (∀ e ∈ entries, s.status e.path = .ok e ∧ e.status.isInSync = false) ∧
      ∀ p ∈ paths, ∃ r, s.status p = .ok r ∧ (r.status.isInSync = false → r ∈ entries) := by
  -- On the paths, each of which has a report, or the whole fails.
  induction paths generalizing entries with
  | nil =>
      rw [reports] at h
      rw [h.pure]
      exact ⟨List.Sublist.slnil, fun e he => absurd he List.not_mem_nil,
        fun p hp => absurd hp List.not_mem_nil⟩
  | cons path rest ih =>
      rw [reports] at h
      rcases h.bind with ⟨_, _, h⟩
      rcases h.bind with ⟨r, hr, h⟩
      rcases h.bind with ⟨others, hothers, h⟩
      have hstatus := hr.ofExcept
      have hpath := (sides_of_status hstatus).1
      rcases ih hothers with ⟨hsub, hentries, hall⟩
      -- A report that is in sync is dropped, which loses its path and nothing else.
      by_cases sync : r.status.isInSync = true
      · rw [h.pure, if_pos sync]
        refine ⟨hsub.cons path, hentries, fun p hp => ?_⟩
        rcases List.mem_cons.mp hp with rfl | hp
        · exact ⟨r, hstatus, fun hs => absurd (sync.symm.trans hs) Bool.noConfusion⟩
        · exact hall p hp
      · rw [h.pure, if_neg sync]
        refine ⟨?_, fun e he => ?_, fun p hp => ?_⟩
        · rw [List.map_cons, hpath]
          exact hsub.cons_cons path
        · rcases List.mem_cons.mp he with rfl | he
          · rw [hpath]
            exact ⟨hstatus, Bool.eq_false_iff.mpr sync⟩
          · exact hentries e he
        · rcases List.mem_cons.mp hp with rfl | hp
          · exact ⟨r, hstatus, fun _ => List.mem_cons_self⟩
          · rcases hall p hp with ⟨r', hr', hmem⟩
            exact ⟨r', hr', fun hs => List.mem_cons_of_mem _ (hmem hs)⟩

/-- What is pending are the reports on the paths that the scan and the difference find. -/
theorem returns_pending {result : PendingReport} (h : Returns s.pending result) :
    ∃ found changed, Returns s.scan found ∧ Returns s.revisionPaths changed ∧
      (∀ e ∈ result.entries, e.path ∈ found.changes.map Change.path ++ changed ∧
        s.status e.path = .ok e ∧ e.status.isInSync = false) ∧
      ∀ p ∈ found.changes.map Change.path ++ changed,
        ∃ r, s.status p = .ok r ∧ (r.status.isInSync = false → r ∈ result.entries) := by
  rcases h.bind with ⟨found, hscan, h⟩
  rcases h.bind with ⟨changed, hchanged, h⟩
  rcases h.bind with ⟨entries, hentries, h⟩
  rw [h.pure]
  rcases returns_reports hentries with ⟨hsub, hverdicts, hall⟩
  refine ⟨found, changed, hscan, hchanged, fun e he => ⟨?_, hverdicts e he⟩, fun p hp => ?_⟩
  · exact mem_of_mem_ascending (hsub.subset (List.mem_map_of_mem he))
  · exact hall p (mem_ascending hp fun _ _ h => h)

section

variable {names : List Bytes} {target : String} (ht : s.settings.target = some target)
  (namedS : s.checkout.WellNamed s.settings.source) (namedT : s.checkout.WellNamed target)

include ht namedS namedT

/-- Where a file meets a folder, there is a conflict. -/
theorem status_of_meets (hmeets : s.Meets s.settings.source target names)
    (h : s.status (pathOf names) = .ok report) : report.status = .conflicting .change := by
  rcases sides_of_status h with ⟨_, spec, hspec, hbase, hremote, _, hverdict⟩
  rw [ht, Option.some.injEq] at hspec
  rw [← hspec] at hremote
  -- Both recorded sides stand, and a file and a folder on any two of the sides are a conflict.
  have memB : report.base ∈ [report.local, report.base, report.remote] :=
    List.mem_cons_of_mem _ List.mem_cons_self
  have memR : report.remote ∈ [report.local, report.base, report.remote] :=
    List.mem_cons_of_mem _ (List.mem_cons_of_mem _ List.mem_cons_self)
  -- Whichever of the two revisions has the file, the other one has the folder.
  have hkinds : classify s.comparator report.sides = .ok (.conflicting .change) := by
    rcases hmeets with ⟨l, r, hl, hr, ⟨leaf, hfile, id, members, hfolder⟩ |
      ⟨leaf, hfile, id, members, hfolder⟩⟩
    · have hnames := treeNames_pathOf ((namedS l hl).of_find? hfile.1).1
      rcases namedVariant_of_file hl hnames hfile hbase with ⟨history, hb⟩
      have hf := Except.ok.inj (hremote.symm.trans (namedVariant_of_folder hr hnames hfolder))
      exact classify_of_kinds memB hb rfl memR hf rfl
    · have hnames := treeNames_pathOf ((namedT r hr).of_find? hfile.1).1
      rcases namedVariant_of_file hr hnames hfile hremote with ⟨history, hb⟩
      have hf := Except.ok.inj (hbase.symm.trans (namedVariant_of_folder hl hnames hfolder))
      exact classify_of_kinds memR hb rfl memB hf rfl
  rw [hkinds] at hverdict
  exact (Except.ok.inj hverdict).symm

omit namedT in
/-- A file with one content on all three sides is in sync. -/
theorem inSync_of_same {content : Bytes} {executable : Bool} {leaf : Leaf}
    (hhere : s.checkout.disk.stat (s.checkout.fileOf (pathOf names)) =
      .ok (.leaf (.regular content executable)))
    (hleaf : s.checkout.Records s.settings.source names leaf) (hid : leaf.id = .ofBlob content)
    (addressed : ∀ other, s.checkout.repository.objects.blob? (.ofBlob content) = some other →
      other = content)
    (hsame : s.Same s.settings.source target names) (h : s.status (pathOf names) = .ok report) :
    report.status = .inSync := by
  rcases sides_of_status h with ⟨_, spec, hspec, hbase, hremote, ⟨folder, hlocal⟩, hverdict⟩
  rw [ht, Option.some.injEq] at hspec
  rw [← hspec] at hremote
  rcases hsame with ⟨l, r, hl, hr, a, b, ha, hb, hunequal⟩
  have hnames := treeNames_pathOf ((namedS l hl).of_find? ha.1).1
  have hrecorded : a.id = .ofBlob content := by
    have he := ha.1.symm.trans (hleaf.hasFile hl).1
    rw [Option.some.injEq, Forest.Entry.leaf.injEq] at he
    rw [he, hid]
  rcases namedVariant_of_file hl hnames ha hbase with ⟨baseHistory, hbase⟩
  rcases namedVariant_of_file hr hnames hb hremote with ⟨remoteHistory, hremote⟩
  have hlocal := Except.ok.inj (hlocal.symm.trans (localVariant_file hhere folder))
  rw [StatusReport.sides, hbase, hremote, hlocal] at hverdict
  -- The working tree has the content of the source by its id, and source and target by the difference.
  refine inSync_of_files rfl rfl rfl hverdict ?_ fun hu => ?_
  · rw [hrecorded]
    exact not_unequal_onDisk hhere addressed _ _ _
  · -- A difference knows no histories, but they do not matter here.
    have swapped := Comparator.equal_swap hu
    have alikeL := alike_atRevision s.checkout s.settings.byteCompare names s.settings.source a.id
      baseHistory
    have alikeR := alike_atRevision s.checkout s.settings.byteCompare names target b.id remoteHistory
    exact hunequal (alikeL.unequal alikeR rfl rfl swapped)

end

end Synchronizer

end ThreeWay
