import Mathlib.Data.List.Nodup
import ThreeWay.Classify
import ThreeWay.Proofs.Compare
import ThreeWay.Proofs.Run

/-!
# Directions from Histories That Continue Each Other

Of two histories that continue each other, the longer one is ahead, and how far is the number of commits
that it has in front of the other. A limit hides the older commits of both, and then the order can only be
told while the tip of the older one is still in sight.

There are two ways to tell the order, by lengths and by looking up a tip, and which one is used depends on
whether the limit hides something. Both give the same answer here: a history that is not cut off has
fewer changes in front of it than the limit, and a tip is in sight under the same condition.

Files of which none was found to differ are in sync whatever their histories are. So these lemmas are put together
in two ways: with histories for the reports on chains of commits, and without them for a working tree in which
nothing changed.

## Main definitions

* `limitedDirection`: The direction that two histories tell when a limit cuts them off.

## Theorems

* `mem_take_append_iff`, `tips_of_newer`: How far a limit lets one see.
* `byLength_ahead`, `byLength_behind`: The lengths of a history and of one that continues it.
* `limitedDirection_ahead`, `limitedDirection_behind`: The same, with a limit.
* `limitedDirection_same`: Both histories are the same.
* `classify_of_kinds`: The verdict where a file and a folder are among the sides.
* `inSync_of_files`: The verdict on three files of which none is found to differ.
* `classify_of_holds`: The verdict on three files with known contents.
-/

namespace ThreeWay

/-- The direction from two whole histories of which only so many commits are known. -/
def limitedDirection (limit : Nat) (base remote : List CommitId) (localChanged remoteChanged : Bool) :
    Direction :=
  if limit < base.length ∨ limit < remote.length then
    byContainment (base.take limit) (remote.take limit) localChanged remoteChanged
  else byLength (base.take limit) (remote.take limit) localChanged remoteChanged

/-- An element behind others is in sight when there are fewer of them than the limit. -/
theorem mem_take_append_iff {α : Type} {front back : List α} {x : α} (hf : x ∉ front) (n : Nat) :
    x ∈ (front ++ x :: back).take n ↔ front.length < n := by
  rw [List.take_append, List.mem_append]
  constructor
  · rintro (h | h)
    · exact absurd (List.mem_of_mem_take h) hf
    · by_contra hn
      rw [Nat.sub_eq_zero_of_le (Nat.not_lt.mp hn), List.take_zero] at h
      exact absurd h List.not_mem_nil
  · intro h
    right
    rcases Nat.exists_eq_add_of_lt h with ⟨k, hk⟩
    have hs : n - front.length = k + 1 := by omega
    rw [hs, List.take_succ_cons]
    exact List.mem_cons_self

section

variable {newer older : List CommitId} {localChanged remoteChanged : Bool} (changed : newer ≠ [])

include changed

theorem length_lt_append : older.length < (newer ++ older).length := by
  have positive := List.length_pos_of_ne_nil changed
  rw [List.length_append]
  omega

/-- A remote history with new commits is the longer one, and the old tip stands right behind them. -/
theorem byLength_ahead :
    byLength older (newer ++ older) localChanged remoteChanged = .incoming := by
  have placed : (newer ++ older)[(newer ++ older).length - older.length]? = older.head? := by
    rw [List.length_append, Nat.add_sub_cancel, List.getElem?_append_right (Nat.le_refl _), Nat.sub_self,
      List.head?_eq_getElem?]
  rw [byLength, if_pos (length_lt_append changed), if_pos (Or.inr placed)]

/-- A base history with new commits is the longer one. -/
theorem byLength_behind :
    byLength (newer ++ older) older localChanged remoteChanged = .outgoing := by
  have longer : older.length < (newer ++ older).length := length_lt_append changed
  rw [byLength, if_neg (Nat.lt_asymm longer), if_pos longer]

end

section

variable {limit : Nat} {newer below : List CommitId} {tip : CommitId} {localChanged remoteChanged : Bool}
  (positive : 1 ≤ limit) (nodup : (newer ++ tip :: below).Nodup) (changed : newer ≠ [])

include positive nodup changed

/-- Where a limit hides commits, the tip of the older history is looked up in the newer one. -/
theorem tips_of_newer : ∃ first rest older olderNewer,
    (tip :: below).take limit = tip :: older ∧
    (newer ++ tip :: below).take limit = first :: olderNewer ∧ newer = first :: rest ∧
    first ≠ tip ∧ (tip ∈ olderNewer ↔ newer.length < limit) ∧ first ∉ older := by
  cases newer with
  | nil => exact absurd rfl changed
  | cons first rest =>
      rcases Nat.exists_eq_add_of_le' positive with ⟨n, rfl⟩
      rw [List.cons_append, List.nodup_cons] at nodup
      -- No commit stands twice, so the new tip is not in the old history.
      have hfirst : first ∉ tip :: below := fun h => nodup.1 (List.mem_append_right _ h)
      have htip : tip ∉ rest := fun h =>
        (List.nodup_append.mp nodup.2).2.2 tip h tip List.mem_cons_self rfl
      refine ⟨first, rest, below.take n, (rest ++ tip :: below).take n, List.take_succ_cons,
        List.take_succ_cons, rfl, fun he => hfirst (he ▸ List.mem_cons_self), ?_, fun h => ?_⟩
      · rw [mem_take_append_iff htip, List.length_cons]
        omega
      · exact hfirst (List.mem_cons_of_mem _ (List.mem_of_mem_take h))

/-- The remote history continues that of the base. -/
theorem limitedDirection_ahead :
    limitedDirection limit (tip :: below) (newer ++ tip :: below) localChanged remoteChanged =
      if newer.length < limit then .incoming else .conflicting := by
  rcases tips_of_newer positive nodup changed with
    ⟨first, rest, older, olderNewer, hb, hr, hn, hne, hmem, hnot⟩
  unfold limitedDirection
  -- Something is hidden, and then the tip of the base is looked up among the newer commits. It is found
  -- there exactly if there are fewer commits in front of it than the limit.
  split_ifs with hidden near near
  · rw [hb, hr, byContainment, if_neg hne.symm, if_pos (List.contains_iff_mem.mpr (hmem.mpr near))]
  · rw [hb, hr, byContainment, if_neg hne.symm,
      if_neg (mt List.contains_iff_mem.mp (mt hmem.mp near)),
      if_neg (mt List.contains_iff_mem.mp hnot)]
  · -- Nothing is hidden, and the lengths tell at which depth the tip of the base has to stand.
    rw [not_or, Nat.not_lt, Nat.not_lt] at hidden
    rw [List.take_of_length_le hidden.1, List.take_of_length_le hidden.2, byLength_ahead changed]
  · -- As many changes as the limit leave something to hide.
    simp only [List.length_append, List.length_cons] at hidden
    omega

/-- The history of the base continues the remote one. -/
theorem limitedDirection_behind :
    limitedDirection limit (newer ++ tip :: below) (tip :: below) localChanged remoteChanged =
      if newer.length < limit then .outgoing else .conflicting := by
  rcases tips_of_newer positive nodup changed with
    ⟨first, rest, older, olderNewer, hr, hb, hn, hne, hmem, hnot⟩
  unfold limitedDirection
  split_ifs with hidden near near
  · rw [hb, hr, byContainment, if_neg hne, if_neg (mt List.contains_iff_mem.mp hnot),
      if_pos (List.contains_iff_mem.mpr (hmem.mpr near))]
  · rw [hb, hr, byContainment, if_neg hne, if_neg (mt List.contains_iff_mem.mp hnot),
      if_neg (mt List.contains_iff_mem.mp (mt hmem.mp near))]
  · rw [not_or, Nat.not_lt, Nat.not_lt] at hidden
    rw [List.take_of_length_le hidden.1, List.take_of_length_le hidden.2, byLength_behind changed]
  · simp only [List.length_append, List.length_cons] at hidden
    omega

end

theorem byLength_same (history : List CommitId) (localChanged remoteChanged : Bool) :
    byLength history history localChanged remoteChanged = byContent localChanged remoteChanged := by
  rw [byLength, if_neg (Nat.lt_irrefl _), if_neg (Nat.lt_irrefl _), if_neg (fun h => h rfl)]

/-- Both histories are the same, so only the content tells the sides apart. -/
theorem limitedDirection_same {limit : Nat} (history : List CommitId)
    (localChanged remoteChanged : Bool) :
    limitedDirection limit history history localChanged remoteChanged =
      byContent localChanged remoteChanged := by
  unfold limitedDirection
  -- Hidden or not, the tips are the same or there are none.
  split_ifs with hidden
  · cases history.take limit with
    | nil => exact byLength_same [] _ _
    | cons tip below => rw [byContainment, if_pos rfl]
  · exact byLength_same _ _ _

/-- An existing file and an existing folder among the sides are a conflict. -/
theorem classify_of_kinds {c : Comparator} {sides : Triple} {b : Blob} {f : Folder}
    {x y : Option Variant} (hx : x ∈ [sides.local, sides.base, sides.remote])
    (hb : x = some (.blob b)) (presentB : b.present = true)
    (hy : y ∈ [sides.local, sides.base, sides.remote]) (hf : y = some (.ofFolder f))
    (presentF : f.present = true) : classify c sides = .ok (.conflicting .change) := by
  have hfile : Variant.blob b ∈ sides.existingSides := by
    refine List.mem_filterMap.mpr ⟨x, hx, ?_⟩
    rw [hb]
    exact Comparator.existing_of_blob presentB
  have hfolder : Variant.ofFolder f ∈ sides.existingSides := by
    refine List.mem_filterMap.mpr ⟨y, hy, ?_⟩
    rw [hf]
    exact existing_of_present presentF
  have hconflict : sides.hasTypeConflict = true := by
    rw [Triple.hasTypeConflict, Bool.and_eq_true]
    exact ⟨List.any_eq_true.mpr ⟨_, hfolder, rfl⟩, List.any_eq_true.mpr ⟨_, hfile, rfl⟩⟩
  rw [classify, if_pos hconflict]

theorem hasTypeConflict_files {here base remote : Blob} (hhere : here.present = true)
    (hbase : base.present = true) (hremote : remote.present = true) :
    Triple.hasTypeConflict ⟨some (.blob here), some (.blob base), some (.blob remote)⟩ = false := by
  simp only [Triple.hasTypeConflict, Triple.existingSides, List.filterMap_cons,
    Comparator.existing_of_blob hhere, Comparator.existing_of_blob hbase,
    Comparator.existing_of_blob hremote, List.filterMap_nil]
  rfl

/-- Three files are in sync when neither side is found to differ from the base. -/
theorem inSync_of_files {c : Comparator} {here base remote : Blob} (hhere : here.present = true)
    (hbase : base.present = true) (hremote : remote.present = true) {verdict : Status}
    (h : classify c ⟨some (.blob here), some (.blob base), some (.blob remote)⟩ = .ok verdict)
    (localSame : c.equal (some (.blob here)) (some (.blob base)) ≠ .ok false)
    (remoteSame : c.equal (some (.blob remote)) (some (.blob base)) ≠ .ok false) :
    verdict = .inSync := by
  rw [classify, hasTypeConflict_files hhere hbase hremote, if_neg Bool.false_ne_true] at h
  rcases Run.bind_eq_ok h with ⟨x, hx, h⟩
  rw [Comparator.existing_of_blob hremote] at h
  rcases Run.bind_eq_ok h with ⟨y, hy, h⟩
  -- A comparison that says that two files differ is ruled out on both sides.
  cases x with
  | false => exact absurd hx localSame
  | true =>
      cases y with
      | false => exact absurd hy remoteSame
      | true => exact (Except.ok.inj h).symm

/-- Three files are in sync when all hold one content. Otherwise the histories tell the direction. -/
theorem classify_of_holds {c : Comparator} {here base remote : Blob} {x y z : Bytes}
    (hhere : c.Holds here x) (hbase : c.Holds base y) (hremote : c.Holds remote z)
    (distinctHere : c.byteCompare = false → ObjectId.ofBlob x = ObjectId.ofBlob y → x = y)
    (distinctRemote : c.byteCompare = false → ObjectId.ofBlob z = ObjectId.ofBlob y → z = y) :
    classify c ⟨some (.blob here), some (.blob base), some (.blob remote)⟩ =
      .ok (if x = y ∧ z = y then .inSync
        else ⟨directionOf (.blob base) (.blob remote) (x ≠ y) (z ≠ y), .change, false⟩) := by
  rw [classify, hasTypeConflict_files hhere.present hbase.present hremote.present]
  simp only [hremote.existing_eq, Comparator.equal_of_holds hhere hbase distinctHere,
    Comparator.equal_of_holds hremote hbase distinctRemote, Bool.false_eq_true, if_false]
  -- The two comparisons are known, so what is left of the verdict is one question.
  change (if (decide (x = y) && decide (z = y)) = true then _ else _) = _
  simp only [Bool.and_eq_true, decide_eq_true_eq]
  split_ifs
  · rfl
  · simp only [ne_eq, decide_not]
    rfl

end ThreeWay
