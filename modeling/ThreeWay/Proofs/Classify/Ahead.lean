import ThreeWay.Proofs.Classify.Proven
import ThreeWay.Proofs.Classify.Verdict

/-!
# Histories That Go On

Commits that are put in front of a history put their side ahead, and a verdict says so: incoming if the
remote side has them, outgoing if the base has them, for any number of new commits and any history below
them, known or not.

Histories may be marked as cut off, which decides how they are ordered. The lengths tell how many commits are
new, and the old tip stands right behind them. Looking up the tips finds the old one below the new commits,
provided that no commit stands twice, as otherwise the new tip might turn up in the old history too. An empty
history has no tip, and then the lengths are asked again. So both ways agree, and the marks do not matter.

The contents only decide whether there is anything to transfer at all.

## Theorems

* `byContainment_eq_byLength`: Coherent histories of which one has the tip of the other, or is empty.
* `directionOf_eq_byLength`: The same for two files, however their histories are marked.
* `classify_of_direction`: The verdict on three files whose direction does not depend on their contents.
* `classify_continued`: The verdict where one history goes on from the other.
-/

namespace ThreeWay

section

variable {base remote newer older : List CommitId} {localChanged remoteChanged : Bool}

/-- An older history is empty, or its tip stands in every history that goes on from it. -/
theorem eq_nil_or_tipIn_append : older = [] ∨ TipIn older (newer ++ older) := by
  cases older with
  | nil => exact Or.inl rfl
  | cons tip below => exact Or.inr (tipIn_of_mem (List.mem_append_right newer List.mem_cons_self))

/-- Where one of two coherent histories has the tip of the other, looking it up tells what the lengths
    tell. -/
theorem byContainment_eq_byLength (coherent : Coherent base remote)
    (seen : (base = [] ∨ remote = []) ∨ TipIn base remote ∨ TipIn remote base) :
    byContainment base remote localChanged remoteChanged =
      byLength base remote localChanged remoteChanged := by
  rcases seen with hnil | seen
  · exact byContainment_of_nil hnil
  rcases base with _ | ⟨tip, below⟩
  · exact byContainment_of_nil (Or.inl rfl)
  rcases remote with _ | ⟨first, after⟩
  · exact byContainment_of_nil (Or.inr rfl)
  -- Both histories are shorter than this limit, so that it leaves everything in sight.
  have hbelow : below.length ≤ below.length + after.length := Nat.le_add_right _ _
  have hafter : after.length ≤ below.length + after.length := Nat.le_add_left _ _
  have sight : InSight (below.length + after.length + 1) (tip :: below) (first :: after) := by
    rw [InSight, List.take_succ_cons, List.take_succ_cons, List.take_of_length_le hbelow,
      List.take_of_length_le hafter]
    exact seen
  rw [← byContainment_of_inSight coherent sight, List.take_of_length_le hbelow,
    List.take_of_length_le hafter]

end

section

variable {c : Comparator} {here base remote : Blob} {newer older : List CommitId}

/-- The lengths give the direction of two files with such histories, however these are marked. -/
theorem directionOf_eq_byLength (coherent : Coherent base.history remote.history)
    (seen : (base.history = [] ∨ remote.history = []) ∨
      TipIn base.history remote.history ∨ TipIn remote.history base.history)
    (localChanged remoteChanged : Bool) :
    directionOf (.blob base) (.blob remote) localChanged remoteChanged =
      byLength base.history remote.history localChanged remoteChanged := by
  rw [directionOf_files, byContainment_eq_byLength coherent seen, ite_self]

/-- The remote history goes on from the one of the base. -/
theorem directionOf_ahead (changed : newer ≠ []) (nodup : (newer ++ older).Nodup)
    (hbase : base.history = older) (hremote : remote.history = newer ++ older)
    (localChanged remoteChanged : Bool) :
    directionOf (.blob base) (.blob remote) localChanged remoteChanged = .incoming := by
  have coherent : Coherent base.history remote.history := by
    rw [hbase, hremote]
    exact coherent_of_nodup nodup
  have seen : base.history = [] ∨ TipIn base.history remote.history := by
    rw [hbase, hremote]
    exact eq_nil_or_tipIn_append
  rw [directionOf_eq_byLength coherent (seen.imp Or.inl Or.inl), hbase, hremote, byLength_ahead changed]

/-- The history of the base goes on from the remote one. -/
theorem directionOf_behind (changed : newer ≠ []) (nodup : (newer ++ older).Nodup)
    (hbase : base.history = newer ++ older) (hremote : remote.history = older)
    (localChanged remoteChanged : Bool) :
    directionOf (.blob base) (.blob remote) localChanged remoteChanged = .outgoing := by
  have coherent : Coherent base.history remote.history := by
    rw [hbase, hremote]
    exact (coherent_of_nodup nodup).symm
  have seen : remote.history = [] ∨ TipIn remote.history base.history := by
    rw [hbase, hremote]
    exact eq_nil_or_tipIn_append
  rw [directionOf_eq_byLength coherent (seen.imp Or.inr Or.inr), hbase, hremote, byLength_behind changed]

/-- Three files that can be read are in sync if both sides equal the base. Otherwise the verdict is the
    direction, if that is the same for all contents. -/
theorem classify_of_direction {direction : Direction} (hhere : here.present = true)
    (hbase : base.present = true) (hremote : remote.present = true)
    (readable : ∀ b ∈ [here, base, remote], ∃ bytes, c.store.content b = .ok bytes)
    (ordered : ∀ localChanged remoteChanged,
      directionOf (.blob base) (.blob remote) localChanged remoteChanged = direction) :
    let sides : Triple := ⟨some (.blob here), some (.blob base), some (.blob remote)⟩
    (sides.Unchanged c → classify c sides = .ok .inSync) ∧
      (¬ sides.Unchanged c → classify c sides = .ok ⟨direction, .change, false⟩) := by
  intro sides
  refine ⟨Triple.classify_of_unchanged, fun changed => ?_⟩
  have stands : ∀ b, sides.Stands (.blob b) → ∃ bytes, c.store.content b = .ok bytes := by
    rintro b ⟨hb, _⟩
    refine readable b ?_
    simpa [sides] using hb
  rcases Triple.exists_classify_of_readable stands with ⟨s, verdict⟩
  rw [verdict]
  cases Triple.rule_of_classify verdict with
  | kinds mixed =>
      rw [← Triple.hasTypeConflict_iff, hasTypeConflict_files hhere hbase hremote] at mixed
      cases mixed
  | added uniform unknown => cases unknown
  | gone known missing left => cases missing
  | deleted known missing => cases missing
  | dropped known held left =>
      have there : isPresent sides.remote = true := hremote
      rw [there] at left
      cases left
  | @kept b h r localSame remoteSame known held there present localCompared remoteCompared =>
      -- Only here histories are asked for, and what they tell is known for all contents.
      cases known
      cases there
      have apart : (localSame && remoteSame) ≠ true := by
        intro same
        rw [Bool.and_eq_true] at same
        exact changed ⟨_, _, _, rfl, held, rfl, present, localCompared.trans (congrArg _ same.1),
          remoteCompared.trans (congrArg _ same.2)⟩
      rw [if_neg apart, ordered]

/-- Three files that can be read are in sync if both sides equal the base. Otherwise the side with new commits
    in front of the history of the other is ahead: the change is incoming if these are the remote ones, and
    outgoing if they are those of the base. It does not matter whether the histories are marked as cut off,
    and the old one may be empty. -/
theorem classify_continued (hhere : here.present = true) (hbase : base.present = true)
    (hremote : remote.present = true)
    (readable : ∀ b ∈ [here, base, remote], ∃ bytes, c.store.content b = .ok bytes)
    (changed : newer ≠ []) (nodup : (newer ++ older).Nodup) :
    let sides : Triple := ⟨some (.blob here), some (.blob base), some (.blob remote)⟩
    (base.history = older → remote.history = newer ++ older →
      (sides.Unchanged c → classify c sides = .ok .inSync) ∧
        (¬ sides.Unchanged c → classify c sides = .ok (.incoming .change))) ∧
    (base.history = newer ++ older → remote.history = older →
      (sides.Unchanged c → classify c sides = .ok .inSync) ∧
        (¬ sides.Unchanged c → classify c sides = .ok (.outgoing .change))) := by
  intro sides
  constructor
  · intro hb hr
    exact classify_of_direction hhere hbase hremote readable (directionOf_ahead changed nodup hb hr)
  · intro hb hr
    exact classify_of_direction hhere hbase hremote readable (directionOf_behind changed nodup hb hr)

end

open Comparator.Sample in
/-- Two new commits put the side that has them ahead, also where its history is cut off below the old
    ones. -/
theorem classify_of_new_commits :
    let new := { blob (.named "remote") history with truncated := true }
    let old := blob (.named "base") (history.drop 2)
    let here := some (Variant.blob (blob .workingTree []))
    classify comparator ⟨here, some (.blob old), some (.blob new)⟩ = .ok (.incoming .change) ∧
      classify comparator ⟨here, some (.blob new), some (.blob old)⟩ = .ok (.outgoing .change) := by
  intro new old here
  have readable : ∀ b ∈ [blob .workingTree [], old, new],
      ∃ bytes, comparator.store.content b = .ok bytes := by
    simp only [List.forall_mem_cons]
    exact ⟨⟨_, rfl⟩, ⟨_, rfl⟩, ⟨_, rfl⟩, nofun⟩
  have exchanged : [blob .workingTree [], new, old].Perm [blob .workingTree [], old, new] :=
    (List.Perm.swap old new []).cons _
  have changed : history.take 2 ≠ [] := by decide
  have nodup : (history.take 2 ++ history.drop 2).Nodup := by decide
  have edited : comparator.equal (some (.blob new)) (some (.blob old)) ≠ .ok true := by decide
  constructor
  · refine ((classify_continued rfl rfl rfl readable changed nodup).1 rfl rfl).2 ?_
    rintro ⟨_, _, _, ⟨⟩, _, ⟨⟩, _, _, same⟩
    exact edited same
  · refine ((classify_continued rfl rfl rfl (fun b hb => readable b (exchanged.mem_iff.mp hb)) changed
      nodup).2 rfl rfl).2 ?_
    rintro ⟨_, _, _, ⟨⟩, _, ⟨⟩, _, _, same⟩
    exact edited (Comparator.equal_swap same)

end ThreeWay
