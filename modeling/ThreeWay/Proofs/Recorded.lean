import ThreeWay.Proofs.Checkout.Answers
import ThreeWay.Proofs.Checkout.Staged
import ThreeWay.Proofs.Diff.Coincide
import ThreeWay.Proofs.Repository.Record

/-!
# The Index and the Commit Made of It

A commit records the tree of the index, so right after it the index and the head should not differ. The two
are listed in quite different ways: a flat list of paths is grouped into folders while it is read, and the
commit has a tree for each folder. They meet in what is shown at a chain of names. Where the index has a
plain entry the tree has a leaf, and where entries lie below, the tree has a folder.

What they make of a leaf is not the same. A revision does not list a submodule, which is neither a file nor a
folder, while the index lists every entry as a file. So each submodule is an addition, and the difference is
empty only without any.

The comparison is the one of the law for two hierarchies: index and tree are aligned, every file on both sides can
be compared, so there is a node and it tells where they depart. What remains is to read off the places. A place
with a plain entry is the only one where the two may disagree, and they do so by the mode of the entry alone.

The commit has to be found again before anything is listed. That is why its id has to be its own: an object of the
same id that was there before would be kept in place of it.

## Main definitions

* `Synchronizer.Recorded`: A checkout right after its index was committed.

## Theorems

* `staged_and_member`: What the index and its tree show at one place.
* `equal_stagedFile`: A file of the index is equal to the one that the commit has in its place.
* `Recorded.resolved`, `Recorded.index_eq`: The head is the commit that was made, and the index stays.
* `departs_iff`: Index and head depart from each other at the submodules.
* `Recorded.aligned`, `Recorded.comparable`, `Recorded.coincide`: Index and head are compared place by place.
* `Recorded.gives_diff`: There is a difference, and it tells where they depart from each other.
* `diff_index_head`: What the difference of the index and the head tells.
* `diff_of_submodule`: A difference right after a commit.
-/

namespace ThreeWay

open ThreeWay.Path Scanner Run

theorem LeafMode.isFile_eq_false_iff {mode : LeafMode} : mode.isFile = false ↔ mode = .submodule := by
  cases mode <;> decide

theorem Index.WellFormed.wellNamed_tree {index : Index} (h : index.WellFormed) :
    index.tree.WellNamed := by
  refine Tree.wellNamed_ofLeaves fun e he => ?_
  rcases List.mem_map.mp he with ⟨entry, hentry, rfl⟩
  exact h.named entry (Index.mem_plain.mp hentry).1

namespace Checkout

section

variable {index : Index} (h : index.WellFormed) (spec : String)

include h

/-- At one place the index and its tree show a plain entry, or a folder, or nothing. -/
theorem staged_and_member (names : List Bytes) :
    (∃ e ∈ index.plain, e.names = names ∧ staged index names = some (.blob (stagedFile e)) ∧
      member spec index.tree names = memberOf spec names (.leaf ⟨e.mode, e.id⟩)) ∨
    (∃ id, staged index names = some (.ofFolder (.at (pathOf names) .index)) ∧
      member spec index.tree names = some (.ofFolder (folderAt spec names id))) ∨
    (staged index names = none ∧ member spec index.tree names = none) := by
  by_cases hroot : names = []
  · subst hroot
    exact Or.inr (Or.inl ⟨index.tree.id, staged_root index, rfl⟩)
  have hfind : index.tree.find? names = index.tree.members.lookup names :=
    Forest.Entry.lookup_folder _ _ hroot
  -- A plain entry excludes entries below it, so the two questions are asked one after the other and what is left is a
  -- place that neither side shows.
  by_cases hentry : ∃ e ∈ index.plain, e.names = names
  · rcases hentry with ⟨e, he, hn⟩
    have hleaf : index.tree.members.lookup names = some (.leaf ⟨e.mode, e.id⟩) :=
      h.lookup_tree_leaf_iff.mpr ⟨e, he, hn, rfl⟩
    refine Or.inl ⟨e, he, hn, hn ▸ staged_of_plain h he, ?_⟩
    rw [member, hfind, hleaf, Option.bind_some]
  by_cases hbelow : ∃ e ∈ index.plain, ∃ name more, e.names = names ++ name :: more
  · rcases h.lookup_tree_folder_iff.mpr ⟨hroot, hbelow⟩ with ⟨id, members, hfolder⟩
    rcases hbelow with ⟨e, he, name, more, hn⟩
    refine Or.inr (Or.inl ⟨id, staged_of_below h he hn, ?_⟩)
    rw [member, hfind, hfolder, Option.bind_some]
    rfl
  · refine Or.inr (Or.inr ⟨Option.eq_none_iff_forall_ne_some.mpr fun v hv => ?_, ?_⟩)
    · rcases cases_of_staged hv with ⟨e, he, hn, _⟩ | ⟨_, hnil | below⟩
      · exact hentry ⟨e, he, hn⟩
      · exact hroot hnil
      · exact hbelow below
    · rw [member, hfind]
      cases hl : index.tree.members.lookup names with
      | none => rfl
      | some entry =>
          cases entry with
          | leaf leaf =>
              rcases h.lookup_tree_leaf_iff.mp hl with ⟨e, he, hn, _⟩
              exact absurd ⟨e, he, hn⟩ hentry
          | folder id members =>
              exact absurd (h.lookup_tree_folder_iff.mp ⟨id, members, hl⟩).2 hbelow

end

/-- A file of the index and the file of a revision with the same id are read in the same way. -/
theorem alike_stagedFile (c : Checkout) (byteCompare : Bool) (e : IndexEntry) (spec : String) :
    Comparator.Alike ⟨c.store, byteCompare⟩ (stagedFile e) (fileAt spec e.names e.id) := by
  have alike : ∀ (p : Path) (id : ContentId), Comparator.Alike ⟨c.store, byteCompare⟩
      { Blob.at p .index with contentId := some id }
      { Blob.at p (.named spec) with contentId := some id } := by
    intro p id
    have read : c.content { Blob.at p .index with contentId := some id } =
        c.content { Blob.at p (.named spec) with contentId := some id } :=
      content_eq_of_id rfl Revision.noConfusion Revision.noConfusion rfl rfl
    exact ⟨rfl, rfl, read⟩
  rw [stagedFile, e.place_eq, fileAt]
  exact alike _ _

/-- A file of the index is equal to the file that a revision has in its place under the same id. -/
theorem equal_stagedFile {c : Checkout} {byteCompare : Bool} {e : IndexEntry} (spec : String)
    (stored : byteCompare = true → ∃ content, c.repository.objects.HasBlob e.id content) :
    Comparator.equal ⟨c.store, byteCompare⟩ (some (.blob (stagedFile e)))
      (some (.blob (fileAt spec e.names e.id))) = .ok true := by
  have alike := alike_stagedFile c byteCompare e spec
  -- Alike files compare like one file with itself, and that needs the bytes only where bytes are compared.
  have refl : Comparator.Alike ⟨c.store, byteCompare⟩ (fileAt spec e.names e.id)
      (fileAt spec e.names e.id) := ⟨rfl, rfl, rfl⟩
  rw [alike.equal_eq refl rfl rfl, equal_fileAt fun hbytes => ?_, decide_eq_true rfl]
  rcases stored hbytes with ⟨content, hcontent⟩
  exact ⟨content, content, hcontent, hcontent⟩

end Checkout

namespace Synchronizer

open Checkout

/-- A checkout right after its index was committed: the commit has an id of its own, and where bytes are
    compared, the files of the index are in the object database. -/
structure Recorded (s : Synchronizer) (r : Repository) (parents : List ObjectId)
    (author committer : Signature) (message : Bytes) : Prop where
  wellFormed : r.index.WellFormed
  plain : ∀ e ∈ r.index, e.stage = 0
  fresh : r.FreshCommit parents author committer message
  committed : s.checkout.repository = (r.commit parents author committer message).1
  stored : s.settings.byteCompare = true → ∀ e ∈ r.index, e.mode.isFile = true →
    ∃ content, r.objects.HasBlob e.id content
  quiet : Signal.IsQuiet s.signal

namespace Recorded

variable {s : Synchronizer} {r : Repository} {parents : List ObjectId} {author committer : Signature}
  {message : Bytes} (h : s.Recorded r parents author committer message)

include h

theorem index_eq : s.checkout.repository.index = r.index := by
  rw [h.committed, Repository.index_commit]

theorem resolved : s.checkout.repository.resolveCommit Repository.headName =
    .ok (some (r.made parents author committer message)) := by
  rw [h.committed, Repository.resolveCommit_commit _ _ _ _ _ h.fresh]

theorem equal_eq {e : IndexEntry} (he : e ∈ r.index) (file : e.mode.isFile = true) :
    s.comparator.equal (some (.blob (stagedFile e)))
      (some (.blob (fileAt Repository.headName e.names e.id))) = .ok true := by
  refine equal_stagedFile _ fun hbytes => ?_
  rcases h.stored hbytes e he file with ⟨content, hcontent⟩
  have keeps : s.checkout.repository.objects.Keeps r.objects := by
    rw [h.committed]
    exact Repository.keeps_commit _ _ _ _ _
  exact ⟨content, keeps.blob? hcontent.found, hcontent.addressed⟩

theorem onLeft : Hierarchy s.checkout.store ((r.index.map (·.names.length)).foldl max 0)
    (staged r.index) :=
  hierarchy_staged h.wellFormed _ h.index_eq

theorem onRight : Hierarchy s.checkout.store r.index.tree.members.depth
    (member Repository.headName r.index.tree) :=
  hierarchy_member h.resolved h.wellFormed.wellNamed_tree

/-- The index and the head can be compared place by place. -/
theorem aligned : Aligned s.comparator ((r.index.map (·.names.length)).foldl max 0)
    r.index.tree.members.depth (staged r.index) (member Repository.headName r.index.tree) where
  onLeft := h.onLeft
  onRight := h.onRight
  kinds := by
    intro names v w hv hw
    rcases staged_and_member h.wellFormed Repository.headName names with
      ⟨e, _, _, hs, hm⟩ | ⟨id, hs, hm⟩ | ⟨hs, _⟩
    · rw [hs, Option.some.injEq] at hv
      rw [hm, memberOf] at hw
      split_ifs at hw
      rw [Option.some.injEq] at hw
      rw [← hv, ← hw]
      simp only [Variant.isTree]
    · rw [hs, Option.some.injEq] at hv
      rw [hm, Option.some.injEq] at hw
      rw [← hv, ← hw]
      simp only [Variant.ofFolder, Variant.isTree]
    · cases hs.symm.trans hv
  -- A folder of the index has no id, so identical ids say nothing about its members.
  identical := by
    intro above f fs g gs x hf _ hx _ _ _
    cases (treeId_of_staged hf).symm.trans hx

theorem mem_plain {e : IndexEntry} : e ∈ r.index.plain ↔ e ∈ r.index := by
  rw [Index.mem_plain]
  exact and_iff_left_of_imp (h.plain e)

/-- Index and head depart from each other at the submodules of the index, which only the index shows. -/
theorem departs_iff {names : List Bytes} {k : ChangeKind} :
    Departs s.comparator (staged r.index) (member Repository.headName r.index.tree) names k ↔
      k = .addition ∧ ∃ e ∈ r.index, e.mode = .submodule ∧ e.names = names := by
  rcases staged_and_member h.wellFormed Repository.headName names with
    ⟨e, he, hn, hs, hm⟩ | ⟨id, hs, hm⟩ | ⟨hs, hm⟩
  · have only : (∃ f ∈ r.index, f.mode = .submodule ∧ f.names = names) ↔ e.mode = .submodule := by
      constructor
      · rintro ⟨f, hf, hmode, hnames⟩
        have hentry := h.mem_plain.mp he
        have hstage := (h.plain f hf).trans (h.plain e hentry).symm
        rw [← h.wellFormed.eq_of_names hf hentry hstage (hnames.trans hn.symm)]
        exact hmode
      · exact fun hmode => ⟨e, h.mem_plain.mp he, hmode, hn⟩
    rw [only, ← LeafMode.isFile_eq_false_iff]
    by_cases file : e.mode.isFile = true
    · -- Both sides have the file, and it is equal.
      have hfile : member Repository.headName r.index.tree names =
          some (.blob (fileAt Repository.headName names e.id)) := by
        rw [hm, memberOf, if_pos file]
      have equal := h.equal_eq (h.mem_plain.mp he) file
      rw [hn] at equal
      rw [departs_iff_of_blobs hs hfile, equal, file]
      refine iff_of_false ?_ ?_
      · rintro ⟨hd, _⟩
        cases hd
      · rintro ⟨_, hd⟩
        cases hd
    -- The entry is a submodule, which the revision does not list: the index has a file and the head nothing.
    · have hnone : member Repository.headName r.index.tree names = none := by
        rw [hm, memberOf, if_neg file]
      rw [departs_iff_of_left hnone, FileOf, hs, Bool.eq_false_of_not_eq_true file]
      exact ⟨fun hd => ⟨hd.2, rfl⟩, fun hd => ⟨⟨_, rfl⟩, hd.1⟩⟩
  -- Folders depart only below, and a submodule in the place of a folder would be a plain entry there.
  · refine iff_of_false (not_departs_of_folder hs) ?_
    rintro ⟨_, e, he, _, rfl⟩
    cases (staged_of_plain h.wellFormed (h.mem_plain.mpr he)).symm.trans hs
  · refine iff_of_false (fun hd => ?_) ?_
    · rcases hd.exists_side with ⟨v, hv⟩ | ⟨v, hv⟩
      · cases hs.symm.trans hv
      · cases hm.symm.trans hv
    · rintro ⟨_, e, he, _, rfl⟩
      cases (staged_of_plain h.wellFormed (h.mem_plain.mpr he)).symm.trans hs

/-- Files that both show can be compared. -/
theorem comparable (names : List Bytes) (a b : Blob) (ha : staged r.index names = some (.blob a))
    (hb : member Repository.headName r.index.tree names = some (.blob b)) :
    ∃ same, s.comparator.equal (some (.blob a)) (some (.blob b)) = .ok same := by
  rcases staged_and_member h.wellFormed Repository.headName names with
    ⟨e, he, hn, hs, hm⟩ | ⟨id, hs, _⟩ | ⟨hs, _⟩
  · rw [hs, Option.some.injEq, Variant.blob.injEq] at ha
    rw [hm, memberOf] at hb
    split_ifs at hb with file
    rw [Option.some.injEq, Variant.blob.injEq] at hb
    have equal := h.equal_eq (h.mem_plain.mp he) file
    rw [hn, ha, hb] at equal
    exact ⟨true, equal⟩
  · cases hs.symm.trans ha
  · cases hs.symm.trans ha

/-- Without submodules they show the same at every place. -/
theorem coincide (files : ∀ e ∈ r.index, e.mode ≠ .submodule) (names : List Bytes) :
    Coincide s.comparator (staged r.index names) (member Repository.headName r.index.tree names) := by
  rcases staged_and_member h.wellFormed Repository.headName names with
    ⟨e, he, hn, hs, hm⟩ | ⟨id, hs, hm⟩ | ⟨hs, hm⟩
  · have hentry := h.mem_plain.mp he
    have file : e.mode.isFile = true := by
      rw [← Bool.not_eq_false, LeafMode.isFile_eq_false_iff]
      exact files e hentry
    have equal := h.equal_eq hentry file
    rw [hn] at equal
    rw [hs, hm, memberOf, if_pos file]
    exact .files _ _ equal
  · rw [hs, hm]
    exact .of_treeId_eq_none rfl _ _ _
  · rw [hs, hm]
    exact .nothing

/-- There is a difference, and it tells where index and head depart from each other. -/
theorem gives_diff : ∃ node, Gives (s.diff .root .index (.named Repository.headName)) (.ok node) ∧
    node.Tells [] (Departs s.comparator (staged r.index) (member Repository.headName r.index.tree)) ∧
    IsDifference s.comparator (.ofFolder (.at .root .index))
      (.ofFolder (folderAt Repository.headName [] r.index.tree.id)) node := by
  have rootL : staged r.index [] = some (.ofFolder (.at .root .index)) := staged_root r.index
  have rootR : member Repository.headName r.index.tree [] =
      some (.ofFolder (folderAt Repository.headName [] r.index.tree.id)) := rfl
  -- The bound of the walk is above both depths, so it is never what ends the comparison.
  have deepL : (r.index.map (·.names.length)).foldl max 0 <
      max (s.checkout.depthBound .index) (s.checkout.depthBound (.named Repository.headName)) := by
    refine lt_max_of_lt_left ?_
    rw [depthBound, h.index_eq]
    exact Nat.lt_add_of_pos_right (by decide)
  have deepR : r.index.tree.members.depth <
      max (s.checkout.depthBound .index) (s.checkout.depthBound (.named Repository.headName)) :=
    lt_max_of_lt_right (depth_lt_depthBound h.resolved)
  rcases Aligned.compare_tells (d := s.differ) h.quiet h.aligned h.comparable rootL rootR rfl deepL deepR with
    ⟨node, hnode, told⟩
  have listedL := h.onLeft.wellListed rootL (by rwa [List.length_nil, Nat.zero_add])
  have listedR := h.onRight.wellListed rootR (by rwa [List.length_nil, Nat.zero_add])
  have hdiff := Differ.compare_isDifference (d := s.differ) listedL listedR hnode.returns
  have hrun : Gives (s.diff .root .index (.named Repository.headName)) (.ok node) :=
    (Gives.ofExcept (.ok (some (Variant.ofFolder (.at .root .index))))).bind ((gives_root h.resolved).bind
      ((Gives.ofExcept _).bind ((Gives.ofExcept _).bind hnode)))
  exact ⟨node, hrun, told, hdiff⟩

/-- The root is a folder, so what is told of a submodule is told by a child. -/
theorem children_ne_nil {node : DiffNode} {right : Variant}
    (told : node.Tells [] (Departs s.comparator (staged r.index) (member Repository.headName r.index.tree)))
    (hdiff : IsDifference s.comparator (.ofFolder (.at .root .index)) right node) {e : IndexEntry}
    (he : e ∈ r.index) (hmode : e.mode = .submodule) : node.children ≠ [] := by
  intro childless
  -- Without children the node could tell of itself only, and its path is the root, where no entry lies.
  have hchange : (⟨pathOf e.names, .addition⟩ : Change) ∈ node.fileChanges := by
    rw [told.mem_iff]
    exact ⟨e.names, rfl, h.departs_iff.mpr ⟨rfl, e, he, hmode, rfl⟩⟩
  rw [DiffNode.fileChanges_eq, childless, List.flatMap_nil, List.append_nil, Option.mem_toList,
    DiffNode.change?, Differ.isDifference_path? hdiff] at hchange
  have place : ∀ p : Path, (Variant.ofFolder (.at p .index)).path = p := fun _ => rfl
  have hroot : pathOf e.names = .root := by
    split_ifs at hchange
    rw [Option.map_some, Option.some.injEq, Change.mk.injEq, place] at hchange
    exact hchange.1.symm
  have hnot := isRoot_pathOf (h.wellFormed.isName he) e.names_ne_nil
  rw [hroot] at hnot
  exact absurd hnot (by decide)

end Recorded

/-- The difference of the index and the commit made of it tells of an addition for each submodule, and of
    nothing else. It has no children exactly if the index has no submodule. -/
theorem diff_index_head {s : Synchronizer} {r : Repository} {parents : List ObjectId}
    {author committer : Signature} {message : Bytes}
    (h : s.Recorded r parents author committer message) :
    ∃ node, (s.diff .root .index (.named Repository.headName)).outcome = .ok node ∧
      node.Tells [] (fun names k => k = .addition ∧
        ∃ e ∈ r.index, e.mode = .submodule ∧ e.names = names) ∧
      (node.children = [] ↔ ∀ e ∈ r.index, e.mode ≠ .submodule) := by
  rcases h.gives_diff with ⟨node, hnode, told, hdiff⟩
  refine ⟨node, hnode.outcome, told.congr fun more k => h.departs_iff, ?_, fun files => ?_⟩
  · intro childless e he hmode
    exact h.children_ne_nil told hdiff he hmode childless
  · exact children_eq_nil_of_coincide h.onLeft h.onRight (h.coincide files) hdiff (staged_root r.index) rfl

/-! ### A Submodule -/

namespace Sample

/-- A file in a folder. -/
def storedEntry : IndexEntry := ⟨Utf8.encode "d/f", 0, .executable, .ofBlob [1]⟩

/-- A commit of another repository. -/
def moduleEntry : IndexEntry :=
  ⟨Utf8.encode "m", 0, .submodule, ⟨"1111111111111111111111111111111111111111"⟩⟩

/-- A repository without commits, with some entries in its index. -/
def staging (index : Index) : Repository where
  objects := [.blob (.ofBlob [1]) [1]]
  index := index
  references := []
  head := .branch "refs/heads/main"
  log := []

/-- Who makes the commit. -/
def someone : Signature := .make "a" "a" 0 0

/-- The repository after the first commit, where files are compared by their bytes. -/
def recorder (index : Index) : Synchronizer where
  checkout := {
    disk := ⟨[Utf8.encode "w"], .nil⟩
    root := .ofString "/w"
    repository := ((staging index).commit [] someone someone []).1
    settings := { Settings.default with byteCompare := true } }
  signal := none

theorem stored_staging {index : Index} (files : ∀ e ∈ index, e.mode.isFile = true → e = storedEntry) :
    ∀ e ∈ (staging index).index, e.mode.isFile = true →
      ∃ content, (staging index).objects.HasBlob e.id content := by
  intro e he file
  have found : Database.blob? [.blob (.ofBlob [1]) [1]] (.ofBlob [1]) = some [1] := by decide +kernel
  rw [files e he file]
  exact ⟨[1], found, rfl⟩

theorem recorded_file : (recorder [storedEntry]).Recorded (staging [storedEntry]) [] someone someone [] where
  wellFormed := ⟨by decide +kernel, by decide +kernel, by decide +kernel⟩
  plain := by decide +kernel
  fresh := by
    have own : ∀ other ∈ (staging [storedEntry]).objects.recordTree (staging [storedEntry]).index.tree,
        other.id ≠ ((staging [storedEntry]).made [] someone someone []).id := by decide +kernel
    exact fun other hm hid => absurd hid (own other hm)
  committed := rfl
  stored := fun _ => stored_staging (by decide +kernel)
  quiet := fun _ hs => nomatch hs

theorem recorded_module : (recorder [moduleEntry]).Recorded (staging [moduleEntry]) [] someone someone [] where
  wellFormed := ⟨by decide +kernel, by decide +kernel, by decide +kernel⟩
  plain := by decide +kernel
  fresh := by
    have own : ∀ other ∈ (staging [moduleEntry]).objects.recordTree (staging [moduleEntry]).index.tree,
        other.id ≠ ((staging [moduleEntry]).made [] someone someone []).id := by decide +kernel
    exact fun other hm hid => absurd hid (own other hm)
  committed := rfl
  stored := fun _ => stored_staging (by decide +kernel)
  quiet := fun _ hs => nomatch hs

end Sample

open Synchronizer.Sample in
/-- Without a submodule the difference is empty. -/
theorem diff_of_file : ∃ node, ((recorder [storedEntry]).diff .root .index
    (.named Repository.headName)).outcome = .ok node ∧ node.children = [] := by
  rcases diff_index_head recorded_file with ⟨node, hnode, _, childless⟩
  exact ⟨node, hnode, childless.mpr (by decide)⟩

open Synchronizer.Sample in
/-- With a submodule it is not. -/
theorem diff_of_submodule :
    (recorder [moduleEntry]).Recorded (staging [moduleEntry]) [] someone someone [] ∧
    ∃ node, ((recorder [moduleEntry]).diff .root .index (.named Repository.headName)).outcome = .ok node ∧
      node.children ≠ [] := by
  rcases recorded_module.gives_diff with ⟨node, hnode, told, hdiff⟩
  have he : moduleEntry ∈ (staging [moduleEntry]).index := by decide
  exact ⟨recorded_module, node, hnode.outcome, recorded_module.children_ne_nil told hdiff he rfl⟩

end Synchronizer

end ThreeWay
