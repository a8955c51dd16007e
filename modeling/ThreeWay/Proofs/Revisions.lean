import ThreeWay.Proofs.Checkout.Answers
import ThreeWay.Proofs.Diff.Departs

/-!
# The Difference of Two Commits Is That of Their Snapshots

The files of a commit are listed in two ways. A snapshot goes over the leaves of the tree once and puts them
into a table; a difference asks for one listing after the other, and where two folders have one id it does
not ask at all. What the difference of two commits tells has to be what the two tables tell when they are
laid side by side.

Both are read by place. A table has an entry exactly where its commit is listed with a file, whatever else
the folders hold, so a submodule counts for nothing on either way. Two files are compared by the ids that
the entries are made of, or by bytes that are recorded under these ids. And two folders with one id hold the
same files, so a listing that nobody asked for would have told nothing.

So neither way of listing is unfolded here. A hierarchy says at each place what a commit is listed with, a lookup
says what the table has, and both are put in terms of the files of the tree. The conditions on the two commits are
those that make places comparable: names are ordinary, and no path changes from a file to a folder.

## Main definitions

* `Reference.Departs`: How two tables differ at a path.
* `Synchronizer.Commits`: Two commits that can be compared path by path.

## Theorems

* `Commits.equal_eq`, `Commits.identical`: Files are told apart by their ids, and folders of one id are alike.
* `Commits.aligned`: The hierarchies of the two commits can be compared place by place.
* `Commits.lookup_iff`, `Commits.not_blob_of_lookup`: What the table of a commit knows.
* `Commits.departs_iff`: They depart from each other where the tables do.
* `diff_iff_snapshots`: The difference tells what the tables tell, each path once.
* `diff_iff_snapshots_of_compared`: A file that changed, one that moved, and one in the place of a submodule.
-/

namespace ThreeWay

open ThreeWay.Path Scanner Run Checkout

/-- How two tables differ at a path: it is in one of them only, or in both with two ids. -/
inductive Scanner.Reference.Departs (left right : Reference) (p : Path) : ChangeKind → Prop
  | added (id : ContentId) (here : left.lookup p = some id) (missing : right.lookup p = none) :
      Departs left right p .addition
  | removed (id : ContentId) (missing : left.lookup p = none) (there : right.lookup p = some id) :
      Departs left right p .deletion
  | changed (x y : ContentId) (here : left.lookup p = some x) (there : right.lookup p = some y)
      (other : x ≠ y) : Departs left right p .modification

namespace Synchronizer

/-- Two revisions that resolve to commits with ordinary names, in which no path is a file on one side and a
    folder on the other. Folders with one id are one folder, and where bytes are compared, a file that both
    commits have is in the object database on both sides. -/
structure Commits (s : Synchronizer) (left right : String) (l r : Commit) : Prop where
  resolvedL : s.checkout.repository.resolveCommit left = .ok (some l)
  resolvedR : s.checkout.repository.resolveCommit right = .ok (some r)
  namedL : l.tree.WellNamed
  namedR : r.tree.WellNamed
  kinds : ∀ names, ¬ Swapped l.tree r.tree names
  addressed : SameFolders l.tree r.tree
  stored : s.settings.byteCompare = true → ∀ names a b, l.tree.HasFile names a →
    r.tree.HasFile names b → ∃ x y, s.checkout.repository.objects.HasBlob a.id x ∧
      s.checkout.repository.objects.HasBlob b.id y
  quiet : Signal.IsQuiet s.signal

namespace Commits

variable {s : Synchronizer} {left right : String} {l r : Commit} (h : s.Commits left right l r)
  {names : List Bytes} {k : ChangeKind} {a b : Leaf}

include h

/-- Two files are equal exactly when their entries have one id. -/
theorem equal_eq (ha : l.tree.HasFile names a) (hb : r.tree.HasFile names b) :
    s.comparator.equal (some (.blob (fileAt left names a.id))) (some (.blob (fileAt right names b.id))) =
      .ok (decide (a.id = b.id)) :=
  equal_fileAt fun hbytes => h.stored hbytes names a b ha hb

/-- Below two folders with one id both sides have the same files. -/
theorem identical {above : List Bytes} {f g : Folder} {fs gs : Option (List Variant)} {x : TreeId}
    (hv : member left l.tree above = some (.tree f fs)) (hw : member right r.tree above = some (.tree g gs))
    (hx : f.treeId = some x) (hy : g.treeId = some x) (more : List Bytes) :
    ¬ Departs s.comparator (member left l.tree) (member right r.tree) (above ++ more) k := by
  rcases find?_of_member hv with ⟨_, _, he⟩ | ⟨idL, ms, hfL, he⟩
  · cases he
  rcases find?_of_member hw with ⟨_, _, he'⟩ | ⟨idR, ns, hfR, he'⟩
  · cases he'
  cases he
  cases he'
  have hid : idL = idR := id_of_treeId (Option.some.inj (hx.trans hy.symm))
  rw [← hid] at hfR
  -- The ids are those of the entries of the trees, and folders of one id have the same entries below them.
  have hboth := h.addressed.find?_append hfL hfR more
  have hfiles : ∀ leaf, l.tree.HasFile (above ++ more) leaf ↔ r.tree.HasFile (above ++ more) leaf := by
    intro leaf
    rw [Tree.HasFile, Tree.HasFile, hboth]
  intro hd
  -- A file that only one side has, or that both have with two ids, contradicts this in each case.
  cases hd with
  | added b here missing =>
      rcases member_blob_iff.mp here with ⟨leaf, hfile, _⟩
      cases missing.symm.trans (member_blob_iff.mpr ⟨leaf, (hfiles leaf).mp hfile, rfl⟩)
  | removed b missing there =>
      rcases member_blob_iff.mp there with ⟨leaf, hfile, _⟩
      cases missing.symm.trans (member_blob_iff.mpr ⟨leaf, (hfiles leaf).mpr hfile, rfl⟩)
  | changed a b here there unequal =>
      rcases member_blob_iff.mp here with ⟨leaf, hfile, rfl⟩
      rcases member_blob_iff.mp there with ⟨other, hother, rfl⟩
      have hsame := hother.1.symm.trans ((hfiles leaf).mp hfile).1
      cases hsame
      rw [h.equal_eq hfile hother, Except.ok.injEq, decide_eq_false_iff_not] at unequal
      exact unequal rfl

/-- The hierarchies of the two commits can be compared place by place. -/
theorem aligned : Aligned s.comparator l.tree.members.depth r.tree.members.depth (member left l.tree)
    (member right r.tree) where
  onLeft := hierarchy_member h.resolvedL h.namedL
  onRight := hierarchy_member h.resolvedR h.namedR
  kinds := by
    intro names v w hv hw
    -- On each side stands a file or a folder, and the mixed cases are excluded.
    rcases find?_of_member hv with ⟨a, ha, rfl⟩ | ⟨idL, ms, hfL, rfl⟩
    · rcases find?_of_member hw with ⟨b, hb, rfl⟩ | ⟨idR, ns, hfR, rfl⟩
      · rfl
      · exact absurd (Or.inl ⟨a, ha, idR, ns, hfR⟩) (h.kinds names)
    · rcases find?_of_member hw with ⟨b, hb, rfl⟩ | ⟨idR, ns, hfR, rfl⟩
      · exact absurd (Or.inr ⟨b, hb, idL, ms, hfL⟩) (h.kinds names)
      · rfl
  identical _ _ _ _ _ _ hv hw hx hy more _ := h.identical hv hw hx hy more

/-! ### The Difference -/

/-- The difference tells where the two hierarchies depart from each other. -/
theorem diff_tells : ∃ node, Gives (s.diff .root (.named left) (.named right)) (.ok node) ∧
    node.Tells [] (Departs s.comparator (member left l.tree) (member right r.tree)) := by
  have comparable : ∀ names a b, member left l.tree names = some (.blob a) →
      member right r.tree names = some (.blob b) →
      ∃ same, s.comparator.equal (some (.blob a)) (some (.blob b)) = .ok same := by
    intro names a b ha hb
    rcases member_blob_iff.mp ha with ⟨x, hx, rfl⟩
    rcases member_blob_iff.mp hb with ⟨y, hy, rfl⟩
    exact ⟨_, h.equal_eq hx hy⟩
  have deepL : l.tree.members.depth <
      max (s.checkout.depthBound (.named left)) (s.checkout.depthBound (.named right)) :=
    lt_max_of_lt_left (depth_lt_depthBound h.resolvedL)
  have deepR : r.tree.members.depth <
      max (s.checkout.depthBound (.named left)) (s.checkout.depthBound (.named right)) :=
    lt_max_of_lt_right (depth_lt_depthBound h.resolvedR)
  rcases Aligned.compare_tells (d := s.differ) h.quiet h.aligned comparable rfl rfl rfl deepL deepR with
    ⟨node, hnode, told⟩
  exact ⟨node, (gives_root h.resolvedL).bind ((gives_root h.resolvedR).bind
    ((Gives.ofExcept _).bind ((Gives.ofExcept _).bind hnode))), told⟩

/-! ### The Snapshots -/

omit h in
/-- The snapshot of a commit has an entry exactly where the commit is listed with a file. -/
theorem lookup_iff {spec : String} {start : Commit} {reference : Reference}
    (resolved : s.checkout.repository.resolveCommit spec = .ok (some start))
    (named : start.tree.WellNamed) (hs : s.checkout.snapshot spec = .ok reference)
    (hn : ∀ name ∈ names, IsName name) {id : ContentId} :
    reference.lookup (pathOf names) = some id ↔
      ∃ leaf, start.tree.HasFile names leaf ∧ id = ⟨leaf.id.hex⟩ := by
  -- The snapshot is the table of the leaves, in which each file of the tree has its entry.
  rw [snapshot_of_commit resolved named, Except.ok.injEq] at hs
  rw [← hs]
  exact lookup_table_iff named hn

omit h in
/-- Where the snapshot of a commit has no entry, the commit is listed with no file. -/
theorem not_blob_of_lookup {spec : String} {start : Commit} {reference : Reference}
    (resolved : s.checkout.repository.resolveCommit spec = .ok (some start))
    (named : start.tree.WellNamed) (hs : s.checkout.snapshot spec = .ok reference)
    (hn : ∀ name ∈ names, IsName name) :
    reference.lookup (pathOf names) = none ↔ ∀ b, member spec start.tree names ≠ some (.blob b) := by
  rw [Option.eq_none_iff_forall_ne_some]
  constructor
  · intro missing b hb
    rcases member_blob_iff.mp hb with ⟨leaf, hfile, _⟩
    exact missing _ ((lookup_iff resolved named hs hn).mpr ⟨leaf, hfile, rfl⟩)
  · intro missing id known
    rcases (lookup_iff resolved named hs hn).mp known with ⟨leaf, hfile, _⟩
    exact missing _ (member_blob_iff.mpr ⟨leaf, hfile, rfl⟩)

section

variable {refL refR : Reference} (hsL : s.checkout.snapshot left = .ok refL)
  (hsR : s.checkout.snapshot right = .ok refR)

include hsL hsR

/-- The hierarchies depart from each other where the tables do. -/
theorem departs_iff (hn : ∀ name ∈ names, IsName name) :
    Departs s.comparator (member left l.tree) (member right r.tree) names k ↔
      Reference.Departs refL refR (pathOf names) k := by
  have inL := @lookup_iff s names left l refL h.resolvedL h.namedL hsL hn
  have inR := @lookup_iff s names right r refR h.resolvedR h.namedR hsR hn
  have notL := not_blob_of_lookup h.resolvedL h.namedL hsL hn
  have notR := not_blob_of_lookup h.resolvedR h.namedR hsR hn
  -- The two relations have the same three cases. A file stands in the hierarchy exactly if the table knows its path,
  -- and then the ids are those of the leaf.
  constructor
  · intro hd
    cases hd with
    | added b here missing =>
        rcases member_blob_iff.mp here with ⟨leaf, hfile, _⟩
        refine .added _ (inL.mpr ⟨leaf, hfile, rfl⟩) (notR.mpr fun b hb => ?_)
        cases missing.symm.trans hb
    | removed b missing there =>
        rcases member_blob_iff.mp there with ⟨leaf, hfile, _⟩
        refine .removed _ (notL.mpr fun b hb => ?_) (inR.mpr ⟨leaf, hfile, rfl⟩)
        cases missing.symm.trans hb
    | changed a b here there unequal =>
        rcases member_blob_iff.mp here with ⟨x, hx, rfl⟩
        rcases member_blob_iff.mp there with ⟨y, hy, rfl⟩
        rw [h.equal_eq hx hy, Except.ok.injEq, decide_eq_false_iff_not] at unequal
        refine .changed _ _ (inL.mpr ⟨x, hx, rfl⟩) (inR.mpr ⟨y, hy, rfl⟩) fun he => unequal ?_
        rw [ContentId.mk.injEq, ← ObjectId.mk.injEq] at he
        exact he
  · intro hd
    cases hd with
    | added id here missing =>
        rcases inL.mp here with ⟨leaf, hfile, _⟩
        have hb : member left l.tree names = some (.blob (fileAt left names leaf.id)) :=
          member_blob_iff.mpr ⟨leaf, hfile, rfl⟩
        -- No folder stands on the right, since the left side has a file there.
        refine .added _ hb ((h.aligned.right_of_blob hb).resolve_right ?_)
        rintro ⟨b, hb'⟩
        exact notR.mp missing b hb'
    | removed id missing there =>
        rcases inR.mp there with ⟨leaf, hfile, _⟩
        have hb : member right r.tree names = some (.blob (fileAt right names leaf.id)) :=
          member_blob_iff.mpr ⟨leaf, hfile, rfl⟩
        refine .removed _ ((h.aligned.left_of_blob hb).resolve_right ?_) hb
        rintro ⟨b, hb'⟩
        exact notL.mp missing b hb'
    | changed x y here there other =>
        rcases inL.mp here with ⟨a, ha, rfl⟩
        rcases inR.mp there with ⟨b, hb, rfl⟩
        refine .changed _ _ (member_blob_iff.mpr ⟨a, ha, rfl⟩) (member_blob_iff.mpr ⟨b, hb, rfl⟩) ?_
        rw [h.equal_eq ha hb, Except.ok.injEq, decide_eq_false_iff_not]
        exact fun hid => other (by rw [hid])

/-- The tables have entries for ordinary chains of names only. -/
theorem exists_names {p : Path} (hd : Reference.Departs refL refR p k) :
    ∃ names, p = pathOf names ∧ ∀ name ∈ names, IsName name := by
  have ordinary : ∀ {spec : String} {start : Commit} {reference : Reference} {id : ContentId},
      s.checkout.repository.resolveCommit spec = .ok (some start) → start.tree.WellNamed →
      s.checkout.snapshot spec = .ok reference → reference.lookup p = some id →
      ∃ names, p = pathOf names ∧ ∀ name ∈ names, IsName name := by
    intro spec start reference id resolved named hs known
    rcases records_of_mem_snapshot (wellNamed_of_resolve resolved named) hs (List.mem_of_lookup known) with
      ⟨names, _, hp, hn, _⟩
    exact ⟨names, hp, fun name hm => (hn name hm).1⟩
  cases hd with
  | added id here => exact ordinary h.resolvedL h.namedL hsL here
  | removed id _ there => exact ordinary h.resolvedR h.namedR hsR there
  | changed x y here => exact ordinary h.resolvedL h.namedL hsL here

end

end Commits

/-- The difference of two commits tells what their snapshots tell: an addition where only the left one has a
    file, a deletion where only the right one has, a change where they have two ids, and each of them once. -/
theorem diff_iff_snapshots {s : Synchronizer} {left right : String} {l r : Commit}
    (h : s.Commits left right l r) : ∃ node refL refR,
      (s.diff .root (.named left) (.named right)).outcome = .ok node ∧
      s.checkout.snapshot left = .ok refL ∧ s.checkout.snapshot right = .ok refR ∧
      node.fileChanges.Nodup ∧
      ∀ p k, ⟨p, k⟩ ∈ node.fileChanges ↔ Reference.Departs refL refR p k := by
  rcases h.diff_tells with ⟨node, hnode, told⟩
  have hsL := snapshot_of_commit h.resolvedL h.namedL
  have hsR := snapshot_of_commit h.resolvedR h.namedR
  refine ⟨node, _, _, hnode.outcome, hsL, hsR, told.once, fun p k => ?_⟩
  rw [told.mem_iff]
  constructor
  · rintro ⟨names, rfl, hd⟩
    exact (h.departs_iff hsL hsR (h.aligned.isName_of_departs hd)).mp hd
  · intro hd
    rcases h.exists_names hsL hsR hd with ⟨names, rfl, hn⟩
    exact ⟨names, rfl, (h.departs_iff hsL hsR hn).mpr hd⟩

namespace Sample

/-- A folder that no commit changed. -/
def shelf : Forest Leaf ObjectId :=
  .leaf (Utf8.encode "x") ⟨.regular, .ofBlob [1]⟩ .nil

/-- A file in a folder beside a submodule, a file beside the folder, and the unchanged folder. -/
def earlier : Commit where
  id := ⟨"earlier"⟩
  tree := ⟨⟨"first tree"⟩,
    .folder (Utf8.encode "d") ⟨"first folder"⟩
      (.leaf (Utf8.encode "f") ⟨.regular, .ofBlob [1]⟩ (.leaf (Utf8.encode "m") ⟨.submodule, ⟨"m"⟩⟩ .nil))
      (.leaf (Utf8.encode "g") ⟨.regular, .ofBlob [1]⟩ (.folder (Utf8.encode "k") ⟨"shelf"⟩ shelf .nil))⟩
  parents := []
  author := .make "a" "a" 0 0
  committer := .make "a" "a" 0 0
  message := []

/-- The file in the folder has another content, the submodule became a file, and the file beside the folder
    was moved. -/
def later : Commit where
  id := ⟨"later"⟩
  tree := ⟨⟨"second tree"⟩,
    .folder (Utf8.encode "d") ⟨"second folder"⟩
      (.leaf (Utf8.encode "f") ⟨.regular, .ofBlob [2]⟩
        (.leaf (Utf8.encode "m") ⟨.regular, .ofBlob [1]⟩ .nil))
      (.leaf (Utf8.encode "h") ⟨.regular, .ofBlob [1]⟩ (.folder (Utf8.encode "k") ⟨"shelf"⟩ shelf .nil))⟩
  parents := [⟨"earlier"⟩]
  author := .make "a" "a" 0 0
  committer := .make "a" "a" 0 0
  message := []

/-- The head stands on the later commit and a branch on the earlier one, and files are compared by their
    bytes. -/
def compared : Synchronizer where
  checkout := {
    disk := ⟨[Utf8.encode "w"], .nil⟩
    root := .ofString "/w"
    repository := {
      objects := [.commit earlier, .commit later, .blob (.ofBlob [1]) [1], .blob (.ofBlob [2]) [2]]
      index := []
      references := [("refs/heads/old", ⟨"earlier"⟩)]
      head := .detached ⟨"later"⟩
      log := [] }
    settings := { Settings.default with byteCompare := true } }
  signal := none

theorem commits_compared : compared.Commits "HEAD" "old" later earlier := by
  have wellNamedL : later.tree.WellNamed := ⟨by decide, by decide⟩
  have wellNamedR : earlier.tree.WellNamed := ⟨by decide, by decide⟩
  have stored : ∀ {t : Tree} {names : List Bytes} {leaf : Leaf}, t.WellNamed →
      (∀ e ∈ t.leaves, e.2.mode.isFile = true → e.2.id = .ofBlob [1] ∨ e.2.id = .ofBlob [2]) →
      t.HasFile names leaf → ∃ x, compared.checkout.repository.objects.HasBlob leaf.id x := by
    intro t names leaf named ids hfile
    rcases ids _ ((named.mem_leaves_iff leaf).mpr hfile.1) hfile.2 with hid | hid
    · exact ⟨[1], by rw [hid]; decide +kernel, hid⟩
    · exact ⟨[2], by rw [hid]; decide +kernel, hid⟩
  refine ⟨rfl, rfl, wellNamedL, wellNamedR, fun names => ?_, ?_, fun _ names a b ha hb => ?_,
    fun _ h => nomatch h⟩
  · have apart : ∀ {t u : Tree} {leaf : Leaf}, t.WellNamed →
        (∀ e ∈ t.leaves, (u.find? e.1).all (!·.isFolder) = true) → t.HasFile names leaf →
        ¬ u.HasFolder names := by
      rintro t u leaf named flat hfile ⟨id, members, hf⟩
      have hflat := flat _ ((named.mem_leaves_iff leaf).mpr hfile.1)
      rw [hf] at hflat
      cases hflat
    rintro (⟨leaf, hfile, hfolder⟩ | ⟨leaf, hfile, hfolder⟩)
    · exact apart wellNamedL (by decide) hfile hfolder
    · exact apart wellNamedR (by decide) hfile hfolder
  · refine sameFolders_of_subtrees fun x hx y hy he => ?_
    simp only [Tree.subtrees, Tree.folders, later, earlier, shelf, List.append_nil, List.mem_cons,
      List.not_mem_nil, or_false, List.nil_append, List.cons_append] at hx hy
    rcases hx with rfl | rfl | rfl <;> rcases hy with rfl | rfl | rfl <;>
      first | rfl | exact absurd he (by decide)
  · rcases stored wellNamedL (by decide +kernel) ha with ⟨x, hx⟩
    rcases stored wellNamedR (by decide +kernel) hb with ⟨y, hy⟩
    exact ⟨x, y, hx, hy⟩

end Sample

open Synchronizer.Sample in
/-- The law at two commits with one file changed, one moved, and one in the place of a submodule. -/
theorem diff_iff_snapshots_of_compared : compared.Commits "HEAD" "old" later earlier ∧
    ∃ node refL refR,
      (compared.diff .root (.named "HEAD") (.named "old")).outcome = .ok node ∧
      compared.checkout.snapshot "HEAD" = .ok refL ∧ compared.checkout.snapshot "old" = .ok refR ∧
      node.fileChanges.Nodup ∧ ∀ p k, ⟨p, k⟩ ∈ node.fileChanges ↔ Reference.Departs refL refR p k :=
  ⟨commits_compared, diff_iff_snapshots commits_compared⟩

end Synchronizer

end ThreeWay
