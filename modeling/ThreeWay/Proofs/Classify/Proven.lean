import ThreeWay.Proofs.Classify.Cap

/-!
# What Histories Prove

A verdict that names one side says that the other side has nothing of its own, so that its content may be
overwritten. A history can prove that: a side has seen all that the other one did if it has the tip of the
other side in its own history. Where neither history has the tip of the other, both sides went on alone, and
only a conflict is safe.

A history that is marked as cut off is ordered by looking up the tips, so its direction is always proven.
Whole histories are ordered by their lengths. A longer remote history is checked for the tip of the base, at
the place where it has to stand, and histories of one length with different tips are a conflict. A longer
base history is not checked at all. So a direction is unproven in one case only: the base history is the
longer one, and the remote tip is not in it. Then the change is called ours.

What changed does not matter for the order of two histories with different tips: contents are asked only where the
tips are the same or a history is empty. So the direction is one that the histories alone tell.

## Main definitions

* `TipIn`: The tip of one history stands in another.
* `Proven`: A direction for which two histories give a reason.

## Theorems

* `byLength_of_apart`: What the lengths tell of histories with different tips.
* `byContainment_proven`: Looking up the tips proves a direction.
* `byLength_proven_iff`: When the lengths do.
* `tipIn_of_directionOf`: Incoming is always proven.
* `directionOf_proven_iff`: When the direction of two files is proven.
* `classify_proven_iff`: The verdict on three files of which the remote one differs from the base.
* `proven_of_continued`: A remote history that goes on from the base proves its direction.
* `outgoing_of_fork`: A fork whose base line has more commits.
-/

namespace ThreeWay

/-- The tip of one history stands in another. -/
def TipIn (history other : List CommitId) : Prop :=
  ∃ tip ∈ history.head?, tip ∈ other

instance (history other : List CommitId) : Decidable (TipIn history other) :=
  inferInstanceAs (Decidable (∃ tip ∈ history.head?, tip ∈ other))

/-- A direction for which two histories give a reason: one side is ahead only if its history has the tip of
    the other one, and without either tip in the other history there is a conflict. -/
structure Proven (base remote : List CommitId) (direction : Direction) : Prop where
  incoming : direction = .incoming → TipIn base remote
  outgoing : direction = .outgoing → TipIn remote base
  conflicting : ¬ TipIn base remote → ¬ TipIn remote base → direction = .conflicting

section

variable {base remote : List CommitId}

theorem Proven.of_incoming (h : TipIn base remote) : Proven base remote .incoming where
  incoming _ := h
  outgoing := nofun
  conflicting unseen _ := absurd h unseen

theorem Proven.of_outgoing (h : TipIn remote base) : Proven base remote .outgoing where
  incoming := nofun
  outgoing _ := h
  conflicting _ unseen := absurd h unseen

/-- A conflict needs no reason. -/
theorem Proven.of_conflicting : Proven base remote .conflicting where
  incoming := nofun
  outgoing := nofun
  conflicting _ _ := rfl

theorem tipIn_of_mem {tip : CommitId} {older other : List CommitId} (h : tip ∈ other) :
    TipIn (tip :: older) other :=
  ⟨tip, rfl, h⟩

/-- Looking up the tips proves a direction. -/
theorem byContainment_proven (known : base ≠ []) (knownRemote : remote ≠ [])
    (apart : base.head? ≠ remote.head?) (localChanged remoteChanged : Bool) :
    Proven base remote (byContainment base remote localChanged remoteChanged) := by
  rcases List.exists_cons_of_ne_nil known with ⟨tip, older, rfl⟩
  rcases List.exists_cons_of_ne_nil knownRemote with ⟨first, newer, rfl⟩
  have tips : tip ≠ first := fun h => apart (congrArg some h)
  rw [byContainment, if_neg tips]
  -- Each answer was given for the tip that was found, and none was found before the last one.
  split_ifs with seen seenRemote
  · exact .of_incoming (tipIn_of_mem (List.mem_cons_of_mem _ (List.contains_iff_mem.mp seen)))
  · exact .of_outgoing (tipIn_of_mem (List.mem_cons_of_mem _ (List.contains_iff_mem.mp seenRemote)))
  · exact .of_conflicting

/-- What the lengths tell of histories with different tips, whatever changed. -/
theorem byLength_of_apart (known : base ≠ []) (apart : base.head? ≠ remote.head?)
    (localChanged remoteChanged : Bool) : byLength base remote localChanged remoteChanged =
      if base.length < remote.length then
        if remote[remote.length - base.length]? = base.head? then .incoming else .conflicting
      else if remote.length < base.length then .outgoing else .conflicting := by
  simp only [byLength, known, false_or, if_pos apart]

/-- The lengths tell that the remote side is ahead only where the tip of the base stands in its history. -/
theorem tipIn_of_byLength (known : base ≠ []) (apart : base.head? ≠ remote.head?)
    {localChanged remoteChanged : Bool}
    (h : byLength base remote localChanged remoteChanged = .incoming) : TipIn base remote := by
  rcases List.exists_cons_of_ne_nil known with ⟨tip, older, rfl⟩
  rw [byLength_of_apart known apart] at h
  -- Of the four answers only one is incoming, and it is given after a look at the place of the tip.
  split_ifs at h with shorter placed
  exact tipIn_of_mem (List.mem_of_getElem? placed)

/-- The lengths tell that the local side is ahead exactly where the base history is the longer one. -/
theorem byLength_outgoing_iff (known : base ≠ []) (apart : base.head? ≠ remote.head?)
    {localChanged remoteChanged : Bool} :
    byLength base remote localChanged remoteChanged = .outgoing ↔ remote.length < base.length := by
  rw [byLength_of_apart known apart]
  -- Outgoing is answered without a look at the commits, so it says no more than that the base is longer.
  split_ifs with shorter placed longer
  · exact iff_of_false not_false (by omega)
  · exact iff_of_false not_false (by omega)
  · exact iff_of_true rfl longer
  · exact iff_of_false not_false longer

/-- The lengths prove a direction, unless the base history is the longer one and does not have the remote
    tip. -/
theorem byLength_proven_iff (known : base ≠ []) (apart : base.head? ≠ remote.head?)
    (localChanged remoteChanged : Bool) :
    Proven base remote (byLength base remote localChanged remoteChanged) ↔
      base.length ≤ remote.length ∨ TipIn remote base := by
  rw [byLength_of_apart known apart]
  split_ifs with shorter placed longer
  · -- The remote history is the longer one, and the tip of the base stands where it has to.
    rcases List.exists_cons_of_ne_nil known with ⟨tip, older, rfl⟩
    exact iff_of_true (.of_incoming (tipIn_of_mem (List.mem_of_getElem? placed))) (Or.inl shorter.le)
  · exact iff_of_true .of_conflicting (Or.inl shorter.le)
  · -- Nothing was looked up here, so the remote tip has to be in the base history by itself.
    rw [or_iff_right longer.not_ge]
    exact ⟨fun h => h.outgoing rfl, .of_outgoing⟩
  · exact iff_of_true .of_conflicting (Or.inl (Nat.not_lt.mp longer))

end

section

variable {c : Comparator} {here base remote : Blob} (known : base.history ≠ [])
  (knownRemote : remote.history ≠ []) (apart : base.history.head? ≠ remote.history.head?)

include known knownRemote apart

/-- With different tips it does not matter for a direction what changed. -/
theorem directionOf_of_apart (localChanged remoteChanged : Bool) :
    directionOf (.blob base) (.blob remote) localChanged remoteChanged =
      directionOf (.blob base) (.blob remote) true true := by
  rw [directionOf_files, directionOf_files, byLength_of_apart known apart,
    byLength_of_apart known apart]
  rcases List.exists_cons_of_ne_nil known with ⟨tip, older, hb⟩
  rcases List.exists_cons_of_ne_nil knownRemote with ⟨first, newer, hr⟩
  have tips : tip ≠ first := by
    rw [hb, hr] at apart
    exact fun h => apart (congrArg some h)
  rw [hb, hr, byContainment, byContainment, if_neg tips, if_neg tips]

/-- A remote side is ahead only where the tip of the base stands in its history. -/
theorem tipIn_of_directionOf {localChanged remoteChanged : Bool}
    (h : directionOf (.blob base) (.blob remote) localChanged remoteChanged = .incoming) :
    TipIn base.history remote.history := by
  rw [directionOf_files] at h
  split_ifs at h
  · exact (byContainment_proven known knownRemote apart localChanged remoteChanged).incoming h
  · exact tipIn_of_byLength known apart h

/-- The direction of two files is proven, unless both histories are whole, the one of the base is longer, and
    it does not have the remote tip. -/
theorem directionOf_proven_iff (localChanged remoteChanged : Bool) :
    Proven base.history remote.history
        (directionOf (.blob base) (.blob remote) localChanged remoteChanged) ↔
      (base.truncated = true ∨ remote.truncated = true) ∨
        base.history.length ≤ remote.history.length ∨ TipIn remote.history base.history := by
  -- Where a history is marked as cut off, the tips are looked up, and that is always a proof.
  by_cases hidden : (base.truncated || remote.truncated) = true
  · rw [directionOf_files, if_pos hidden]
    exact iff_of_true (byContainment_proven known knownRemote apart _ _)
      (Or.inl ((Bool.or_eq_true _ _).mp hidden))
  · rw [Bool.or_eq_true, not_or, Bool.not_eq_true, Bool.not_eq_true] at hidden
    rw [directionOf_whole hidden.1 hidden.2, byLength_proven_iff known apart, hidden.1, hidden.2]
    simp only [Bool.false_eq_true, or_self, false_or]

/-- The verdict on three files of which the remote one differs from the base, where both have a history and
    the tips differ. It is a change, whatever the local file holds, and fails only where that cannot be
    compared. Incoming is always proven. Two whole histories make it outgoing exactly if the one of the base
    is longer. So the direction is proven, unless the longer history of the base does not have the remote
    tip. -/
theorem classify_proven_iff (hhere : here.present = true) (hbase : base.present = true)
    (hremote : remote.present = true)
    (edited : c.equal (some (.blob remote)) (some (.blob base)) = .ok false) :
    ∃ direction,
      classify c ⟨some (.blob here), some (.blob base), some (.blob remote)⟩ = (do
        let _ ← c.equal (some (.blob here)) (some (.blob base))
        return ⟨direction, .change, false⟩) ∧
      (direction = .incoming → TipIn base.history remote.history) ∧
      (base.truncated = false → remote.truncated = false →
        (direction = .outgoing ↔ remote.history.length < base.history.length)) ∧
      (Proven base.history remote.history direction ↔
        (base.truncated = true ∨ remote.truncated = true) ∨
          base.history.length ≤ remote.history.length ∨ TipIn remote.history base.history) := by
  refine ⟨directionOf (.blob base) (.blob remote) true true, ?_,
    tipIn_of_directionOf known knownRemote apart, ?_,
    directionOf_proven_iff known knownRemote apart true true⟩
  · rw [classify_files hhere hbase hremote, edited]
    -- The local file may not be readable, and then both sides of the equation fail alike.
    refine bind_congr fun localSame => ?_
    rw [Run.ok_bind, Bool.and_false, if_neg Bool.false_ne_true,
      directionOf_of_apart known knownRemote apart]
  · intro whole wholeRemote
    rw [directionOf_whole whole wholeRemote]
    exact byLength_outgoing_iff known apart

end

/-- A file at a revision, with an id and the commits that changed it. -/
def Blob.recorded (revision : Revision) (id : String) (commits : List String) : Blob :=
  { Blob.at (.ofString "f") revision with
    contentId := some ⟨id⟩
    ancestry := some (commits.map CommitId.mk) }

/-- A remote history that goes on from the one of the base proves its direction. -/
theorem proven_of_continued :
    let here := Blob.recorded .workingTree "old" []
    let base := Blob.recorded .head "old" ["second", "first"]
    let remote := Blob.recorded (.named "next") "new" ["third", "second", "first"]
    ∃ direction,
      classify ⟨.detached, false⟩ ⟨some (.blob here), some (.blob base), some (.blob remote)⟩ =
        .ok ⟨direction, .change, false⟩ ∧
      Proven base.history remote.history direction := by
  intro here base remote
  -- The comparison with the local file succeeds here, so there is a verdict.
  have same : Comparator.equal ⟨.detached, false⟩ (some (.blob here)) (some (.blob base)) = .ok true := by
    decide
  have edited : Comparator.equal ⟨.detached, false⟩ (some (.blob remote)) (some (.blob base)) =
      .ok false := by
    decide
  have present : here.present = true := rfl
  rcases classify_proven_iff (by decide) (by decide) (by decide) present rfl rfl edited with
    ⟨direction, verdict, _, _, proven⟩
  rw [same, Run.ok_bind] at verdict
  exact ⟨direction, verdict, proven.mpr (Or.inr (Or.inl (by decide)))⟩

/-- Two lines that went on alone from one commit, ours with two changes and theirs with one. Neither has the
    tip of the other, and the change is called ours. -/
theorem outgoing_of_fork :
    let here := Blob.recorded .workingTree "ours" []
    let base := Blob.recorded .head "ours" ["ours twice", "ours once", "common"]
    let remote := Blob.recorded (.named "next") "theirs" ["theirs once", "common"]
    Comparator.equal ⟨.detached, false⟩ (some (.blob remote)) (some (.blob base)) = .ok false ∧
      base.truncated = false ∧ remote.truncated = false ∧
      ¬ TipIn base.history remote.history ∧ ¬ TipIn remote.history base.history ∧
      classify ⟨.detached, false⟩ ⟨some (.blob here), some (.blob base), some (.blob remote)⟩ =
        .ok (.outgoing .change) := by
  decide

end ThreeWay
