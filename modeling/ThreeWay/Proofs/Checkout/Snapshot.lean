import ThreeWay.Proofs.Checkout.Difference

/-!
# Snapshots of a Revision

A snapshot is a table of all files of a revision. It is made from the leaves of the tree, so a path has an
entry exactly when the tree has a file there, and the entry is the id of that file.

The table is looked up by paths and the tree by chains of names. Where all names are ordinary that makes no
difference, and no two files get one entry.

A revision may have no commit yet, and then its snapshot is empty. The statements are about the revision and not
about its commit, so that they hold for both.

## Main definitions

* `Checkout.Records`: A file of a revision.
* `Checkout.WellNamed`: The names of a revision are ordinary and differ.
* `Checkout.memberAt`: What a revision is listed with.
* `Checkout.tableEntry`: The entry of a leaf.

## Theorems

* `memberAt_blob_iff`, `hierarchy_memberAt`: A revision is listed as the tree of its commit.
* `decoded_leaf`: A leaf is looked at with its names read as texts, which leads to its own path.
* `filesOf_eq`: A table is made from the leaves.
* `mem_tableEntries_iff`, `lookup_table_iff`: A path has an entry exactly where the tree has a file.
* `snapshot_files`, `records_of_mem_snapshot`: What a snapshot has at a path, and no other paths.
* `exists_snapshot`: A revision that resolves has a snapshot.
-/

namespace ThreeWay

open ThreeWay.Path Scanner

namespace Checkout

/-- A file of a revision. -/
def Records (c : Checkout) (spec : String) (names : List Bytes) (leaf : Leaf) : Prop :=
  ∃ start, c.repository.resolveCommit spec = .ok (some start) ∧ start.tree.HasFile names leaf

/-- The names of a revision are ordinary and differ. -/
def WellNamed (c : Checkout) (spec : String) : Prop :=
  ∀ start, c.repository.resolveCommit spec = .ok (some start) → start.tree.WellNamed

theorem wellNamed_of_resolve {c : Checkout} {spec : String} {start : Commit}
    (h : c.repository.resolveCommit spec = .ok (some start)) (named : start.tree.WellNamed) :
    c.WellNamed spec := by
  intro other hother
  rw [← Option.some.inj (Except.ok.inj (h.symm.trans hother))]
  exact named

/-- The entry of a leaf, unless it is a submodule. -/
def tableEntry (e : List Bytes × Leaf) : Option (Path × ContentId) :=
  if e.2.mode.isFile then some (pathOf e.1, ⟨e.2.id.hex⟩) else none

variable {c : Checkout} {t : Tree} {names : List Bytes} {spec : String} {reference : Reference}

/-- What a revision records, the tree of its commit has. -/
theorem Records.hasFile {leaf : Leaf} (h : c.Records spec names leaf) {start : Commit}
    (hspec : c.repository.resolveCommit spec = .ok (some start)) : start.tree.HasFile names leaf := by
  rcases h with ⟨other, hother, hfile⟩
  have hsame := Option.some.inj (Except.ok.inj (hspec.symm.trans hother))
  exact hsame ▸ hfile

/-- A revision without commits has no files. -/
theorem not_records_of_none {leaf : Leaf} (hspec : c.repository.resolveCommit spec = .ok none) :
    ¬ c.Records spec names leaf := by
  rintro ⟨start, hstart, _⟩
  cases hspec.symm.trans hstart

/-- What a revision is listed with at a chain of names. Before the first commit that is nothing. -/
def memberAt (spec : String) (start : Option Commit) (names : List Bytes) : Option Variant :=
  start.bind fun commit => member spec commit.tree names

section

variable {start : Option Commit} (hspec : c.repository.resolveCommit spec = .ok start)

include hspec

/-- A revision is listed with exactly the files that it records. -/
theorem memberAt_blob_iff {b : Blob} : memberAt spec start names = some (.blob b) ↔
    ∃ leaf, c.Records spec names leaf ∧ b = fileAt spec names leaf.id := by
  cases start with
  | none =>
      constructor
      · intro hb
        cases hb
      · rintro ⟨leaf, hleaf, _⟩
        exact absurd hleaf (not_records_of_none hspec)
  | some commit =>
      have hrecords : ∀ leaf, c.Records spec names leaf ↔ commit.tree.HasFile names leaf :=
        fun leaf => ⟨fun h => h.hasFile hspec, fun h => ⟨commit, hspec, h⟩⟩
      simp only [hrecords]
      exact member_blob_iff

/-- It is listed as the tree of its commit, if it has one. -/
theorem hierarchy_memberAt (named : c.WellNamed spec) :
    Hierarchy c.store ((start.map (·.tree.members.depth)).getD 0) (memberAt spec start) := by
  cases start with
  | none => exact .empty _ _
  | some commit => exact hierarchy_member hspec (named commit hspec)

/-- All names that lead to something are ordinary. -/
theorem names_of_memberAt (named : c.WellNamed spec) {v : Variant} (hv : memberAt spec start names = some v) :
    ∀ name ∈ names, IsName name ∧ 0 ∉ name := by
  rcases Option.bind_eq_some_iff.mp hv with ⟨commit, rfl, hm⟩
  rcases Option.bind_eq_some_iff.mp hm with ⟨entry, he, _⟩
  exact ((named commit hspec).of_find? he).1

end

theorem mapM_decode?_encode (pieces : List (List Char)) :
    (pieces.map fun piece => Utf8.encode (String.ofList piece)).mapM Utf8.decode? =
      some (pieces.map String.ofList) := by
  induction pieces with
  | nil => rfl
  | cons piece pieces ih =>
      rw [List.map_cons, List.mapM_cons, Utf8.decode?_encode, ih]
      rfl

/-- The names of a path joined as texts are the path. -/
theorem ofString_intercalate {pieces : List (List Char)} (h : ∀ piece ∈ pieces, IsPlain piece) :
    Path.ofString ("/".intercalate (pieces.map String.ofList)) =
      pathOf (pieces.map fun piece => Utf8.encode (String.ofList piece)) := by
  have hchars : ("/".intercalate (pieces.map String.ofList)).toList = ['/'].intercalate pieces := by
    have htexts : (pieces.map String.ofList).map String.toList = pieces := by
      rw [List.map_map]
      exact List.map_id'' (fun piece => String.toList_ofList) pieces
    rw [String.toList_intercalate, htexts]
    rfl
  rw [Path.ofString, hchars, ← chars_pathOf h, ofChars_chars]

/-- A leaf is looked at with its names read as texts, which leads to its own path. -/
theorem decoded_leaf (h : ∀ name ∈ names, IsName name) (hne : names ≠ []) :
    ∃ folders name, names.dropLast.mapM Utf8.decode? = some folders ∧
      names.getLast?.bind Utf8.decode? = some name ∧
      Path.ofString ("/".intercalate (folders ++ [name])) = pathOf names := by
  rcases exists_pieces h with ⟨pieces, rfl, hp⟩
  rcases List.eq_nil_or_concat pieces with rfl | ⟨front, last, rfl⟩
  · exact absurd rfl hne
  · rw [List.concat_eq_append] at hp ⊢
    -- The code reads the folders and the last name one by one, and puts them together again.
    refine ⟨front.map String.ofList, String.ofList last, ?_, ?_, ?_⟩
    · rw [List.map_append, List.map_singleton, List.dropLast_concat, mapM_decode?_encode]
    · rw [List.map_append, List.map_singleton, List.getLast?_concat, Option.bind_some,
        Utf8.decode?_encode]
    · have htexts : front.map String.ofList ++ [String.ofList last] =
          (front ++ [last]).map String.ofList := by
        rw [List.map_append, List.map_singleton]
      rw [htexts]
      exact ofString_intercalate fun piece hm => (hp piece hm).1

/-- A table is made from the leaves. -/
theorem filesOf_eq (ht : t.WellNamed) :
    filesOf t = .ok (ascending Prod.fst (t.leaves.filterMap tableEntry)) := by
  unfold filesOf
  -- Every leaf has an answer, since its names are texts.
  rw [List.mapM_eq_ok (g := tableEntry)]
  · rw [Run.ok_bind, List.filterMap_map]
    rfl
  · rintro ⟨names, leaf⟩ he
    have hfind := (ht.mem_leaves_iff leaf).mp he
    have hne : names ≠ [] := by
      rintro rfl
      cases hfind
    have hnames : ∀ name ∈ names, IsName name := fun name hm => ((ht.of_find? hfind).1 name hm).1
    rcases decoded_leaf hnames hne with ⟨folders, name, hfolders, hname, hpath⟩
    simp only [hfolders, hname, hpath, tableEntry]
    split_ifs <;> rfl

theorem mem_tableEntries_iff (ht : t.WellNamed) (hn : ∀ name ∈ names, IsName name) {id : ContentId} :
    (pathOf names, id) ∈ t.leaves.filterMap tableEntry ↔
      ∃ leaf, t.HasFile names leaf ∧ id = ⟨leaf.id.hex⟩ := by
  rw [List.mem_filterMap]
  constructor
  · rintro ⟨⟨others, leaf⟩, he, hentry⟩
    have hfind := (ht.mem_leaves_iff leaf).mp he
    have hothers : ∀ name ∈ others, IsName name := fun name hm => ((ht.of_find? hfind).1 name hm).1
    rw [tableEntry] at hentry
    split_ifs at hentry with hfile
    rw [Option.some.injEq, Prod.mk.injEq] at hentry
    -- Two chains of ordinary names with one path are one chain.
    have hsame := pathOf_injective hothers hn hentry.1
    rw [hsame] at hfind
    exact ⟨leaf, ⟨hfind, hfile⟩, hentry.2.symm⟩
  · rintro ⟨leaf, hfile, rfl⟩
    refine ⟨(names, leaf), (ht.mem_leaves_iff leaf).mpr hfile.1, ?_⟩
    rw [tableEntry, if_pos hfile.2]

/-- A path has an entry exactly where the tree has a file. -/
theorem lookup_table_iff (ht : t.WellNamed) (hn : ∀ name ∈ names, IsName name) {id : ContentId} :
    (ascending Prod.fst (t.leaves.filterMap tableEntry)).lookup (pathOf names) = some id ↔
      ∃ leaf, t.HasFile names leaf ∧ id = ⟨leaf.id.hex⟩ := by
  rw [(ascending_ascending _).lookup_eq_some_iff, ← mem_tableEntries_iff ht hn]
  constructor
  · exact mem_of_mem_ascending
  · intro hm
    -- One chain of names leads to one leaf, so no other entry takes the place of this one.
    refine mem_ascending hm fun e he hkey => ?_
    rcases e with ⟨q, other⟩
    simp only at hkey
    rw [hkey, mem_tableEntries_iff ht hn] at he
    rw [mem_tableEntries_iff ht hn] at hm
    rcases he with ⟨leaf, hleaf, rfl⟩
    rcases hm with ⟨leaf', hleaf', rfl⟩
    have hsame := hleaf.1.symm.trans hleaf'.1
    rw [Option.some.injEq, Forest.Entry.leaf.injEq] at hsame
    rw [hkey, hsame]

theorem snapshot_of_none (h : c.repository.resolveCommit spec = .ok none) :
    c.snapshot spec = .ok [] := by
  rw [snapshot, Repository.resolveTree, h]
  rfl

theorem snapshot_of_commit {start : Commit} (h : c.repository.resolveCommit spec = .ok (some start))
    (ht : start.tree.WellNamed) :
    c.snapshot spec = .ok (ascending Prod.fst (start.tree.leaves.filterMap tableEntry)) := by
  rw [snapshot, Repository.resolveTree, h, Run.ok_bind]
  simp only [pure, Except.pure, Option.map_some, filesOf_eq ht]

/-- A revision that resolves has a snapshot. -/
theorem exists_snapshot (named : c.WellNamed spec) {found : Option Commit}
    (h : c.repository.resolveCommit spec = .ok found) :
    ∃ reference, c.snapshot spec = .ok reference := by
  -- Before the first commit there is an empty table.
  cases found with
  | none => exact ⟨_, snapshot_of_none h⟩
  | some start => exact ⟨_, snapshot_of_commit h (named start h)⟩

/-- A snapshot comes from a revision without commits, or it is made from the tree of a commit. -/
theorem cases_of_snapshot (named : c.WellNamed spec) (h : c.snapshot spec = .ok reference) :
    (c.repository.resolveCommit spec = .ok none ∧ reference = []) ∨
      ∃ start, c.repository.resolveCommit spec = .ok (some start) ∧
        reference = ascending Prod.fst (start.tree.leaves.filterMap tableEntry) := by
  -- A snapshot that was made tells that the revision resolves.
  cases hr : c.repository.resolveCommit spec with
  | error e =>
      rw [snapshot, Repository.resolveTree, hr] at h
      cases h
  | ok found =>
      cases found with
      | none =>
          rw [snapshot_of_none hr] at h
          exact Or.inl ⟨rfl, (Except.ok.inj h).symm⟩
      | some start =>
          rw [snapshot_of_commit hr (named start hr)] at h
          exact Or.inr ⟨start, rfl, (Except.ok.inj h).symm⟩

/-- What a snapshot has at a path: nothing but the file that the revision records there. -/
theorem snapshot_files (named : c.WellNamed spec) (h : c.snapshot spec = .ok reference) :
    Ascending Prod.fst reference ∧ ∀ names, (∀ name ∈ names, IsName name) → ∀ id,
      reference.lookup (pathOf names) = some id ↔
        ∃ leaf, c.Records spec names leaf ∧ id = ⟨leaf.id.hex⟩ := by
  -- Without a commit nothing is known and nothing is recorded.
  rcases cases_of_snapshot named h with ⟨hr, rfl⟩ | ⟨start, hr, rfl⟩
  · refine ⟨Ascending.nil, fun names _ id => ?_⟩
    constructor
    · intro hl
      cases hl
    · rintro ⟨leaf, hleaf, _⟩
      exact absurd hleaf (not_records_of_none hr)
  · refine ⟨ascending_ascending _, fun names hn id => ?_⟩
    rw [lookup_table_iff (named start hr) hn]
    constructor
    · rintro ⟨leaf, hleaf, hid⟩
      exact ⟨leaf, ⟨start, hr, hleaf⟩, hid⟩
    · rintro ⟨leaf, hleaf, hid⟩
      exact ⟨leaf, hleaf.hasFile hr, hid⟩

/-- A snapshot has no other paths than those of the files that the revision records. -/
theorem records_of_mem_snapshot (named : c.WellNamed spec) (h : c.snapshot spec = .ok reference)
    {e : Path × ContentId} (he : e ∈ reference) : ∃ names leaf, e.1 = pathOf names ∧
      (∀ name ∈ names, IsName name ∧ 0 ∉ name) ∧ c.Records spec names leaf := by
  rcases cases_of_snapshot named h with ⟨_, rfl⟩ | ⟨start, hr, rfl⟩
  · cases he
  · rcases List.mem_filterMap.mp (mem_of_mem_ascending he) with ⟨⟨names, leaf⟩, hl, hentry⟩
    have hfind := ((named start hr).mem_leaves_iff leaf).mp hl
    rw [tableEntry] at hentry
    split_ifs at hentry with hfile
    cases hentry
    exact ⟨names, leaf, rfl, ((named start hr).of_find? hfind).1, start, hr, hfind, hfile⟩

end Checkout

end ThreeWay
