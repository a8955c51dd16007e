import ThreeWay.Proofs.Classify.Verdict

/-!
# Handles of Deleted Folders

A file that is gone from the working tree leaves nothing behind, a folder leaves a handle that does not
exist. The two reach different rules. An absent local side is a deletion, and only the remote side is looked
at. A handle is a local side like any other: it is compared with the base, from which it differs, and then
the remote side is found missing, or the direction of a change is asked for.

How far this shows depends on the remote side alone. Folders have no history, so the direction comes from
what changed. A remote folder that differs from the base is a conflict for both. One that equals the base
leaves the change to this side, and there a handle makes a change of what an absent side calls a deletion.
And where the remote side is missing as well, a handle has changed what the remote deleted, a conflict,
while two deletions agree.

Neither of the two verdicts can fail. Folders are compared by their tree ids, so no content is read, and what does
not exist differs from what does.

## Theorems

* `not_mixed_of_folders`, `exists_compared`: Folders are of one kind and can be compared.
* `Triple.classify_of_gone_handle`: The verdict with a handle.
* `Triple.classify_of_gone_side`: The verdict with an absent local side.
* `Triple.classify_handle`: When the two verdicts are the same, and what they are otherwise.
* `Triple.handle_of_changed_remote`, `Triple.handle_of_unchanged_remote`: A folder that the remote side
  changed or left as it was.
-/

namespace ThreeWay.Triple

section

variable {c : Comparator} {gone base : Folder} {goneMembers baseMembers : Option (List Variant)}
  {remote : Option Variant} {same : Bool}

/-- The sides of a folder are of one kind, whether its handle is left or not. -/
theorem not_mixed_of_folders {here : Option Variant} (missing : existing here = none)
    (folder : ∀ v, remote = some v → v.present = true → v.isTree = true) :
    ¬ Mixed ⟨here, some (.tree base baseMembers), remote⟩ := by
  refine @not_mixed_of_kind _ true (fun v hv => ?_)
  -- A side that stands is the base or the remote one, since the local side does not exist.
  rcases stands_iff.mp hv with h | h | h
  · rw [missing] at h
    cases h
  · rw [← Option.some.inj (existing_eq_some.mp h).1]
    rfl
  · exact folder v (existing_eq_some.mp h).1 (existing_eq_some.mp h).2

/-- A folder can always be compared with the base, and what does not exist is found different. -/
theorem exists_compared (standing : base.present = true)
    (folder : ∀ v, remote = some v → v.present = true → v.isTree = true) :
    ∃ same, c.equal remote (some (.tree base baseMembers)) = .ok same ∧
      (isPresent remote = false → same = false) := by
  -- The remote side is missing and so it differs, or it is a folder with or without an id.
  cases hr : isPresent remote with
  | false => exact ⟨false, Comparator.equal_of_missing (existing_eq_none.mpr hr) standing, fun _ => rfl⟩
  | true =>
      rcases isPresent_iff.mp hr with ⟨v, rfl, present⟩
      cases v with
      | blob b => cases folder _ rfl present
      | tree f fs =>
          exact ⟨Verdict.ofFolders f base, Comparator.equal_folders present standing,
            fun h => absurd h.symm Bool.false_ne_true⟩

/-- A handle has changed, so only the remote side decides: a direction if it equals the base. -/
theorem classify_of_gone_handle (missing : gone.present = false) (standing : base.present = true)
    (folder : ∀ v, remote = some v → v.present = true → v.isTree = true)
    (compared : c.equal remote (some (.tree base baseMembers)) = .ok same)
    (unequal : isPresent remote = false → same = false) :
    classify c ⟨some (.tree gone goneMembers), some (.tree base baseMembers), remote⟩ =
      .ok (if same then .outgoing .change else .conflicting .change) := by
  have nothing : existing (some (.tree gone goneMembers)) = none := existing_eq_none.mpr missing
  have localCompared : c.equal (some (.tree gone goneMembers)) (some (.tree base baseMembers)) =
      .ok false := Comparator.equal_of_missing nothing standing
  refine classify_of_rule (not_mixed_of_folders nothing folder) ?_
  -- Without a remote folder the handle is what was kept, and it differs. With one, both comparisons decide.
  cases hr : isPresent remote with
  | false =>
      rw [unequal hr]
      exact .dropped rfl rfl hr localCompared
  | true =>
      rcases isPresent_iff.mp hr with ⟨v, rfl, present⟩
      have rule := Rule.kept (t := ⟨some (.tree gone goneMembers), some (.tree base baseMembers), some v⟩)
        rfl rfl rfl present localCompared compared
      have unrecorded : v.ancestry = [] := by
        cases v with
        | blob b => cases folder _ rfl present
        | tree f fs => rfl
      -- Folders have no history, so the direction is that of the side that changed.
      rw [directionOf_of_unrecorded rfl unrecorded, Bool.false_and] at rule
      cases same with
      | true => exact rule
      | false => exact rule

/-- An absent side is a deletion, which the remote side shares, leaves alone or crosses with a change. -/
theorem classify_of_gone_side
    (folder : ∀ v, remote = some v → v.present = true → v.isTree = true)
    (compared : c.equal remote (some (.tree base baseMembers)) = .ok same) :
    classify c ⟨none, some (.tree base baseMembers), remote⟩ =
      .ok (if isPresent remote then (if same then .outgoing .deletion else .conflicting .change)
        else .pseudoConflict .deletion) := by
  refine classify_of_rule (not_mixed_of_folders rfl folder) ?_
  cases hr : isPresent remote with
  | false => exact .gone rfl rfl hr
  | true =>
      rcases isPresent_iff.mp hr with ⟨v, rfl, present⟩
      exact .deleted rfl rfl rfl present compared

/-- The verdicts on a folder that is gone, with the handle that it leaves and with no local side at all. They
    are the same exactly if the remote side has the folder and changed it. If the remote side has no folder,
    the handle makes a conflict of what is a deletion on both sides. If it has the folder as the base does,
    the handle makes a change of a deletion. -/
theorem classify_handle (missing : gone.present = false) (standing : base.present = true)
    (folder : ∀ v, remote = some v → v.present = true → v.isTree = true) :
    let byHandle := classify c ⟨some (.tree gone goneMembers), some (.tree base baseMembers), remote⟩
    let byAbsence := classify c ⟨none, some (.tree base baseMembers), remote⟩
    (byHandle = byAbsence ↔
      isPresent remote = true ∧ c.equal remote (some (.tree base baseMembers)) = .ok false) ∧
    (isPresent remote = false →
      byHandle = .ok (.conflicting .change) ∧ byAbsence = .ok (.pseudoConflict .deletion)) ∧
    (isPresent remote = true → ∃ same, c.equal remote (some (.tree base baseMembers)) = .ok same ∧
      byHandle = .ok (if same then .outgoing .change else .conflicting .change) ∧
      byAbsence = .ok (if same then .outgoing .deletion else .conflicting .change)) := by
  intro byHandle byAbsence
  rcases @exists_compared c base baseMembers remote standing folder with ⟨same, compared, unequal⟩
  have handle : byHandle = .ok (if same then .outgoing .change else .conflicting .change) :=
    classify_of_gone_handle missing standing folder compared unequal
  have absence : byAbsence =
      .ok (if isPresent remote then (if same then .outgoing .deletion else .conflicting .change)
        else .pseudoConflict .deletion) := classify_of_gone_side folder compared
  rw [handle, absence, compared]
  cases hr : isPresent remote with
  | false =>
      rw [unequal hr]
      refine ⟨iff_of_false (fun h => by cases h) (fun h => Bool.false_ne_true h.1),
        fun _ => ⟨rfl, rfl⟩, fun h => absurd h Bool.false_ne_true⟩
  | true =>
      refine ⟨?_, fun h => absurd h.symm Bool.false_ne_true, fun _ => ⟨same, rfl, rfl, rfl⟩⟩
      -- The two verdicts have the same direction, and they differ in the kind of change.
      cases same with
      | true => exact iff_of_false (fun h => by cases h) (fun h => by cases h.2)
      | false => exact iff_of_true rfl ⟨rfl, rfl⟩

end

/-- A folder at a revision, known by its tree id. -/
def sampleFolder (spec id : String) : Folder :=
  { Folder.at (.ofString "d") (.named spec) with treeId := some ⟨id⟩ }

/-- The handle of the folder in a working tree from which it is gone. -/
def sampleHandle : Folder :=
  { Folder.at (.ofString "d") .workingTree with present := false }

/-- Where the remote side changed the folder, a handle makes no difference, and where it has no folder, a
    handle makes a conflict of a deletion on both sides. -/
theorem handle_of_changed_remote :
    let handle := some (Variant.ofFolder sampleHandle)
    let base := some (Variant.ofFolder (sampleFolder "HEAD" "old"))
    let changed := some (Variant.ofFolder (sampleFolder "next" "new"))
    classify ⟨.detached, false⟩ ⟨handle, base, changed⟩ = classify ⟨.detached, false⟩ ⟨none, base, changed⟩ ∧
      classify ⟨.detached, false⟩ ⟨handle, base, none⟩ = .ok (.conflicting .change) := by
  intro handle base changed
  have folder : ∀ v, changed = some v → v.present = true → v.isTree = true := by
    intro v hv _
    rw [← Option.some.inj hv]
    rfl
  have unequal : Comparator.equal ⟨.detached, false⟩ changed base = .ok false := by decide
  constructor
  · exact (classify_handle rfl rfl folder).1.mpr ⟨rfl, unequal⟩
  · exact ((classify_handle rfl rfl (fun v hv => by cases hv)).2.1 rfl).1

/-- Where the remote side still has the folder as it was, its deletion is a change if a handle is left. -/
theorem handle_of_unchanged_remote :
    let handle := some (Variant.ofFolder sampleHandle)
    let base := some (Variant.ofFolder (sampleFolder "HEAD" "old"))
    let remote := some (Variant.ofFolder (sampleFolder "next" "old"))
    isPresent remote = true ∧
      classify ⟨.detached, false⟩ ⟨handle, base, remote⟩ = .ok (.outgoing .change) ∧
      classify ⟨.detached, false⟩ ⟨none, base, remote⟩ = .ok (.outgoing .deletion) := by
  decide

end ThreeWay.Triple
