import ThreeWay.Proofs.Checkout.Failure
import ThreeWay.Proofs.Checkout.Sides
import ThreeWay.Proofs.Checkout.Snapshot

/-!
# What a Checkout Answers

A revision is asked what stands at a path, and a file is asked for its content. Both can fail, and what is
known of an answer is the other way around here: from the answer that came to what it has to be.

A failure of either kind says that a revision or an object is missing or cannot be read. Neither says that a
path is missing on both sides of a difference. That is said in one place only, so whoever catches it knows
what happened.

Both are told for revisions before the first commit too, which resolve to no commit. There everything is missing,
and nothing fails.

## Theorems

* `namedVariant_of_file`, `namedVariant_of_folder`: What stands at a path of a revision.
* `namedVariant_root`, `gives_root`: The root of a revision is the folder of its tree.
* `exists_namedVariant`, `records_of_namedVariant`: A revision has an answer, and its files are recorded.
* `exists_lastChange`: A revision tells who changed a path last.
* `alike_atRevision`: A file is compared the same with and without its history.
* `equal_fileAt`: Two files of two revisions are told apart by their ids.
* `not_missing_of_namedVariant`, `not_missing_of_content`: Failures that are never reported.
-/

namespace ThreeWay

open ThreeWay.Path Scanner

namespace Checkout

variable {c : Checkout} {spec : String} {p : Path} {names : List Bytes}

theorem namedVariant_none (h : c.repository.resolveCommit spec = .ok none) :
    c.namedVariant p spec = .ok none := by
  rw [namedVariant, h]
  rfl

section

variable {start : Commit} (hspec : c.repository.resolveCommit spec = .ok (some start))

include hspec

theorem namedVariant_eq : c.namedVariant p spec = c.recordedVariant start p spec := by
  rw [namedVariant, hspec]
  rfl

/-- A file of a revision is told with some history. -/
theorem namedVariant_of_file {leaf : Leaf} (hnames : p.treeNames = .ok names)
    (hfile : start.tree.HasFile names leaf) {v : Option Variant}
    (h : c.namedVariant p spec = .ok v) :
    ∃ history, v = some (.blob (.atRevision p spec leaf.id history)) := by
  rw [namedVariant_eq hspec] at h
  simp only [recordedVariant, hnames, askObjects, Run.ok_bind, hfile.1, hfile.2, if_true] at h
  -- The history is asked for last, and it alone can keep the file from being told.
  cases hh : History.ancestry c.repository.objects start p c.settings.ancestryLimit with
  | error e =>
      rw [hh] at h
      cases h
  | ok history =>
      rw [hh] at h
      exact ⟨history, (Except.ok.inj h).symm⟩

/-- A folder of a revision is told with its id. -/
theorem namedVariant_of_folder (hnames : p.treeNames = .ok names) {id : ObjectId}
    {members : Forest Leaf ObjectId} (hf : start.tree.find? names = some (.folder id members)) :
    c.namedVariant p spec =
      .ok (some (.ofFolder { Folder.at p (.named spec) with treeId := some ⟨id.hex⟩ })) := by
  rw [namedVariant_eq hspec]
  simp only [recordedVariant, hnames, askObjects, Run.ok_bind, hf]
  rfl

/-- The root of a revision is the folder of its tree. -/
theorem namedVariant_root :
    c.namedVariant .root spec = .ok (some (.ofFolder (folderAt spec [] start.tree.id))) :=
  namedVariant_of_folder hspec rfl rfl

/-- The levels of a revision that may be listed are more than its tree has. -/
theorem depth_lt_depthBound : start.tree.members.depth < c.depthBound (.named spec) := by
  rw [depthBound, Repository.resolveTree, hspec, Run.ok_bind]
  simp only [pure, Except.pure, Option.map_some]
  omega

end

/-- A revision that resolves has an answer at every path that can be looked up. -/
theorem exists_namedVariant {found : Option Commit} (h : c.repository.resolveCommit spec = .ok found)
    (hnames : p.treeNames = .ok names) : ∃ v, c.namedVariant p spec = .ok v := by
  cases found with
  | none => exact ⟨none, namedVariant_none h⟩
  | some start =>
      -- A path that can be looked up has a history, which may be empty.
      have hhistory : ∃ history, History.ancestry c.repository.objects start p c.settings.ancestryLimit =
          .ok history := by
        rw [History.ancestry, History.commits, hnames]
        exact ⟨_, rfl⟩
      rcases hhistory with ⟨history, hhistory⟩
      simp only [namedVariant_eq h, recordedVariant, hnames, askObjects, Run.ok_bind, hhistory]
      split
      · exact ⟨_, rfl⟩
      · exact ⟨_, rfl⟩
      · split_ifs
        · exact ⟨_, rfl⟩
        · exact ⟨_, rfl⟩

/-- A file that a revision answers with is one that it records. -/
theorem records_of_namedVariant (hnames : p.treeNames = .ok names) {b : Blob}
    (h : c.namedVariant p spec = .ok (some (.blob b))) :
    ∃ leaf history, c.Records spec names leaf ∧ b = .atRevision p spec leaf.id history := by
  cases hr : c.repository.resolveCommit spec with
  | error e =>
      rw [namedVariant, hr] at h
      cases h
  | ok found =>
      cases found with
      | none =>
          rw [namedVariant_none hr] at h
          cases h
      | some start =>
          have hanswer := h
          rw [namedVariant_eq hr, recordedVariant, hnames] at h
          simp only [askObjects, Run.ok_bind] at h
          -- Of the answers that a tree can have for the path only a leaf is told as a file, and only if it is no
          -- submodule.
          split at h
          case h_1 => cases h
          case h_2 => cases h
          case h_3 leaf hleaf =>
            by_cases hfile : leaf.mode.isFile = true
            · rcases namedVariant_of_file hr hnames ⟨hleaf, hfile⟩ hanswer with ⟨history, hv⟩
              exact ⟨leaf, history, ⟨start, hr, hleaf, hfile⟩, Variant.blob.inj (Option.some.inj hv)⟩
            · rw [if_neg hfile] at h
              cases h

/-- A revision that resolves tells who changed a path last. -/
theorem exists_lastChange {found : Option Commit} (h : c.repository.resolveCommit spec = .ok found)
    (hnames : p.treeNames = .ok names) : ∃ v, c.lastChange p spec = .ok v := by
  rw [lastChange, h]
  cases found with
  | none => exact ⟨_, rfl⟩
  | some start =>
      simp only [ask, Run.ok_bind, History.lastChange, History.commits, hnames]
      exact ⟨_, rfl⟩

/-- A file is compared the same with and without its history. -/
theorem alike_atRevision (c : Checkout) (byteCompare : Bool) (names : List Bytes) (spec : String)
    (id : ObjectId) (history : Ancestry) :
    Comparator.Alike ⟨c.store, byteCompare⟩ (.atRevision (pathOf names) spec id history)
      (fileAt spec names id) where
  present := rfl
  identified := rfl
  readable :=
    have hcontent : c.content (.atRevision (pathOf names) spec id history) =
        c.content (fileAt spec names id) := content_congr rfl rfl rfl
    hcontent

/-- Two files are equal exactly when their entries have one id, if their contents are stored where they are
    compared. -/
theorem equal_fileAt {byteCompare : Bool} {left right : String} {a b : ObjectId}
    (stored : byteCompare = true → ∃ x y, c.repository.objects.HasBlob a x ∧
      c.repository.objects.HasBlob b y) :
    Comparator.equal ⟨c.store, byteCompare⟩ (some (.blob (fileAt left names a)))
        (some (.blob (fileAt right names b))) = .ok (decide (a = b)) := by
  -- By ids there is nothing to read. By bytes both contents are in the object database.
  cases hbytes : byteCompare with
  | false =>
      rw [Comparator.equal_of_ids rfl rfl rfl rfl rfl]
      simp only [contentId_inj]
  | true =>
      rcases stored hbytes with ⟨x, y, blobA, blobB⟩
      have holdsA := (alike_atRevision c true names left a ⟨[], false⟩).holds
        (holds_atRevision blobA (pathOf names) left ⟨[], false⟩ true)
      have holdsB := (alike_atRevision c true names right b ⟨[], false⟩).holds
        (holds_atRevision blobB (pathOf names) right ⟨[], false⟩ true)
      -- One id leads to one content, and one content has one id.
      have hcontents : x = y ↔ a = b := by
        constructor
        · intro hxy
          rw [blobA.addressed, blobB.addressed, hxy]
        · intro hid
          exact Option.some.inj (blobA.found.symm.trans (hid ▸ blobB.found))
      have hequal := Comparator.equal_of_holds holdsA holdsB fun hids => absurd hids Bool.noConfusion
      simp only [hcontents] at hequal
      exact hequal

/-- The root of a revision is there exactly if the revision has a commit. -/
theorem root_of_namedVariant {v : Option Variant} (h : c.namedVariant .root spec = .ok v) :
    (c.repository.resolveCommit spec = .ok none ∧ v = none) ∨
      ∃ start, c.repository.resolveCommit spec = .ok (some start) ∧
        v = some (.ofFolder (folderAt spec [] start.tree.id)) := by
  cases hr : c.repository.resolveCommit spec with
  | error e =>
      rw [namedVariant, hr] at h
      cases h
  | ok found =>
      cases found with
      | none =>
          rw [namedVariant_none hr] at h
          exact Or.inl ⟨rfl, (Except.ok.inj h).symm⟩
      | some start =>
          rw [namedVariant_root hr] at h
          exact Or.inr ⟨start, rfl, (Except.ok.inj h).symm⟩

/-- A revision that resolves has a root to ask for, or none before its first commit. -/
theorem gives_root {start : Option Commit} (h : c.repository.resolveCommit spec = .ok start) :
    Run.Gives (Run.ofExcept (c.variant .root (.named spec))) (.ok (memberAt spec start [])) := by
  have hroot : c.variant .root (.named spec) = .ok (memberAt spec start []) := by
    cases start with
    | none => exact namedVariant_none h
    | some commit => exact namedVariant_root h
  rw [hroot]
  exact Run.Gives.ofExcept _

/-- A revision that does not resolve is not found, or an object on the way to it is not. -/
theorem not_missing_of_resolveCommit {e : RepositoryError}
    (h : c.repository.resolveCommit spec = .error e) (path : String) (left right : Revision) :
    e ≠ .pathNotFound path left right := by
  rintro rfl
  rw [Repository.resolveCommit] at h
  -- Either the text does not resolve, or what it resolves to does not lead to a commit.
  cases hr : c.repository.resolve spec with
  | ok object =>
      rw [hr] at h
      cases hp : c.repository.objects.peelToCommit object with
      | ok commit =>
          simp only [hp] at h
          cases h
      | error e =>
          simp only [hp] at h
          cases h
  | error e =>
      rw [hr] at h
      simp only at h
      split_ifs at h
      cases e <;> cases h

/-- The root of a revision is found wherever the revision is. -/
theorem not_missing_of_namedVariant {e : Error} (h : c.namedVariant .root spec = .error e)
    (path : String) (left right : Revision) : e ≠ .repository (.pathNotFound path left right) := by
  cases hr : c.repository.resolveCommit spec with
  | ok found =>
      cases found with
      | none =>
          rw [namedVariant_none hr] at h
          cases h
      | some start =>
          rw [namedVariant_root hr] at h
          cases h
  | error e' =>
      rw [namedVariant, hr] at h
      have he : e = .repository e' := (Except.error.inj h).symm
      rw [he]
      exact fun hm => not_missing_of_resolveCommit hr path left right (Error.repository.inj hm)

/-- A content that cannot be read is no failure of the repository. -/
theorem not_missing_of_content {b : Blob} {e : Error} (h : c.content b = .error e)
    (r : RepositoryError) : e ≠ .repository r := by
  rintro rfl
  exact c.reads_content b _ h

end Checkout

end ThreeWay
