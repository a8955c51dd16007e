import ThreeWay.Proofs.Classify.Verdict

/-!
# Verdicts Seen from the Other Side

Local and remote play one part each, and yet the cascade does not treat them alike. A local side that is
absent has a rule of its own, a remote side that is absent is found out about in the middle of another rule,
the local side is compared first, and a direction is taken from the history of the remote side only.

None of that shows where there is nothing to tell the sides apart by: no history, and no handle of something
that does not exist. There each rule has a counterpart for the other side. What was deleted locally and what
the remote deleted trade places, and the other rules are their own counterparts. So a verdict is taken apart
by the rule that gave it, and put together from the other side by the counterpart.

A failure has no such counterpart, since the first comparison that fails is the one that counts. But the same
comparisons are made from both sides, so there is a verdict from both or from none.

A handle of something missing would be the exception. It is a side that does not exist and is not absent, and the
cascade tells the two apart on the local side only. With a history the direction would not go along, as only the
remote one is read.

## Main definitions

* `Status.flip`: A verdict with its direction seen from the other side.
* `Triple.swap`: The sides with local and remote exchanged.
* `Triple.Definite`: Local and remote are absent or exist.
* `Triple.Unrecorded`: No side has a history.

## Theorems

* `withoutBase_swap`, `byContent_swap`: The two tables from the other side.
* `Definite.remote_eq_none`: A remote side that does not exist is absent, which is what the rules for it need.
* `Triple.Rule.swap`: Every rule has a counterpart.
* `Triple.classify_of_swap`: A verdict gives the one from the other side.
* `Triple.classify_swap`: There is a verdict from both sides or from none, and one is the other, flipped.
-/

namespace ThreeWay

/-- A verdict with its direction seen from the other side. -/
def Status.flip (s : Status) : Status :=
  { s with direction := s.direction.flip }

/-- Without a base the verdict only depends on which sides exist. -/
theorem withoutBase_swap (localExists remoteExists : Bool) :
    withoutBase remoteExists localExists = (withoutBase localExists remoteExists).flip := by
  cases localExists <;> cases remoteExists <;> rfl

/-- Content tells the direction alike from both sides. -/
theorem byContent_swap (localChanged remoteChanged : Bool) :
    byContent remoteChanged localChanged = (byContent localChanged remoteChanged).flip := by
  cases localChanged <;> cases remoteChanged <;> rfl

namespace Triple

variable {c : Comparator} {t : Triple} {s : Status}

/-- The sides of a resource with local and remote exchanged. -/
def swap (t : Triple) : Triple :=
  ⟨t.remote, t.base, t.local⟩

/-- Local and remote are absent or exist: neither is a handle of something missing. -/
def Definite (t : Triple) : Prop :=
  ∀ v, some v ∈ [t.local, t.remote] → v.present = true

/-- No side has a history. -/
def Unrecorded (t : Triple) : Prop :=
  ∀ v, some v ∈ [t.local, t.base, t.remote] → v.ancestry = []

theorem stands_swap {v : Variant} : t.swap.Stands v ↔ t.Stands v := by
  rw [stands_iff, stands_iff]
  constructor
  · rintro (h | h | h)
    · exact Or.inr (Or.inr h)
    · exact Or.inr (Or.inl h)
    · exact Or.inl h
  · rintro (h | h | h)
    · exact Or.inr (Or.inr h)
    · exact Or.inr (Or.inl h)
    · exact Or.inl h

theorem mixed_swap : t.swap.Mixed ↔ t.Mixed := by
  simp only [Mixed, stands_swap]

theorem Definite.swap (h : t.Definite) : t.swap.Definite := by
  intro v hv
  refine h v ?_
  rcases List.mem_pair.mp hv with hv | hv
  · exact List.mem_pair.mpr (Or.inr hv)
  · exact List.mem_pair.mpr (Or.inl hv)

theorem Definite.present_local (h : t.Definite) {v : Variant} (hv : t.local = some v) :
    v.present = true :=
  h v (List.mem_pair.mpr (Or.inl hv.symm))

/-- A remote side that does not exist is absent. -/
theorem Definite.remote_eq_none (h : t.Definite) (left : isPresent t.remote = false) :
    t.remote = none := by
  rcases hr : t.remote with _ | remote
  · rfl
  · rw [isPresent_iff.mpr ⟨remote, hr, h remote (List.mem_pair.mpr (Or.inr hr.symm))⟩] at left
    cases left

theorem Unrecorded.swap (h : t.Unrecorded) : t.swap.Unrecorded := by
  intro v hv
  refine h v ?_
  simp only [Triple.swap, List.mem_cons, List.not_mem_nil, or_false] at hv ⊢
  rcases hv with hv | hv | hv
  · exact Or.inr (Or.inr hv)
  · exact Or.inr (Or.inl hv)
  · exact Or.inl hv

/-- Every rule has a counterpart, which gives the verdict from the other side. -/
theorem Rule.swap (definite : t.Definite) (unrecorded : t.Unrecorded) (rule : Rule c t s) :
    Rule c t.swap s.flip := by
  -- A rule for each way in which a verdict is reached. The counterpart needs the premises of the rule from the other
  -- side.
  cases rule with
  | kinds mixed => exact .kinds (mixed_swap.mpr mixed)
  | added uniform unknown =>
      rw [← withoutBase_swap]
      exact .added (mt mixed_swap.mp uniform) unknown
  | gone known missing left =>
      have absent : isPresent t.swap.remote = false := congrArg isPresent missing
      exact .gone known (definite.remote_eq_none left) absent
  | @deleted base remote same known missing there present compared =>
      -- What is gone here is what the other side sees the remote delete.
      have absent : isPresent t.swap.remote = false := congrArg isPresent missing
      have rule : Rule c t.swap (if same then .incoming .deletion else .conflicting .change) :=
        .dropped known there absent compared
      cases same with
      | true => exact rule
      | false => exact rule
  | @dropped base here same known held left compared =>
      have rule : Rule c t.swap (if same then .outgoing .deletion else .conflicting .change) :=
        .deleted known (definite.remote_eq_none left) held (definite.present_local held) compared
      cases same with
      | true => exact rule
      | false => exact rule
  | @kept base here remote localSame remoteSame known held there present localCompared remoteCompared =>
      -- Without histories the direction comes from the two comparisons, which trade places.
      have rule := Rule.kept (t := t.swap) known there held (definite.present_local held) remoteCompared
        localCompared
      have hhere : here.ancestry = [] := unrecorded here (by simp [held])
      have hbase : base.ancestry = [] := unrecorded base (by simp [known])
      have hremote : remote.ancestry = [] := unrecorded remote (by simp [there])
      rw [directionOf_of_unrecorded hbase hhere, byContent_swap, Bool.and_comm] at rule
      rw [directionOf_of_unrecorded hbase hremote]
      split_ifs at rule ⊢ with same
      · exact rule
      · exact rule

/-- A verdict gives the one from the other side. -/
theorem classify_of_swap (definite : t.Definite) (unrecorded : t.Unrecorded)
    (h : classify c t = .ok s) : classify c t.swap = .ok s.flip := by
  -- What was decided by a rule is decided by its counterpart.
  have rule := (rule_of_classify h).swap definite unrecorded
  by_cases mixed : t.Mixed
  · -- Sides of both kinds are decided before any rule is looked at.
    have conflict : ∀ {u : Triple}, u.Mixed → classify c u = .ok (.conflicting .change) := by
      intro u hu
      rw [classify, if_pos (hasTypeConflict_iff.mpr hu)]
    rw [conflict mixed] at h
    rw [conflict (mixed_swap.mpr mixed), ← Except.ok.inj h]
    rfl
  · exact classify_of_rule (mt mixed_swap.mp mixed) rule

/-- On sides that are absent or exist and of which none has a history, there is a verdict from both sides or
    from none. One is the other, with incoming and outgoing exchanged and everything else unchanged. -/
theorem classify_swap (definite : t.Definite) (unrecorded : t.Unrecorded) :
    ((∃ s, classify c t = .ok s) ↔ ∃ s, classify c t.swap = .ok s) ∧
      ∀ s s', classify c t = .ok s → classify c t.swap = .ok s' →
        s' = ⟨s.direction.flip, s.change, s.pseudo⟩ := by
  constructor
  · constructor
    · rintro ⟨s, h⟩
      exact ⟨s.flip, classify_of_swap definite unrecorded h⟩
    -- The sides exchanged twice are the sides as they were.
    · rintro ⟨s, h⟩
      exact ⟨s.flip, classify_of_swap definite.swap unrecorded.swap h⟩
  · intro s s' h h'
    exact Except.ok.inj (h'.symm.trans (classify_of_swap definite unrecorded h))

/-- A file that was deleted here is one that the other side sees deleted remotely. -/
theorem classify_swap_of_deleted :
    let file := some (Variant.blob { Blob.at (.ofString "f") .head with contentId := some ⟨"id"⟩ })
    let deleted : Triple := ⟨none, file, file⟩
    classify ⟨.detached, false⟩ deleted = .ok (.outgoing .deletion) ∧
      classify ⟨.detached, false⟩ deleted.swap = .ok (.incoming .deletion) := by
  intro file deleted
  have definite : deleted.Definite := by
    intro v hv
    rcases List.mem_pair.mp hv with hv | hv
    · cases hv
    · rw [Option.some.inj hv]
      rfl
  have unrecorded : deleted.Unrecorded := by
    intro v hv
    have hfile : some v = file := by
      rcases List.mem_cons.mp hv with hv | hv
      · cases hv
      · exact List.mem_pair.mp hv |>.elim id id
    rw [Option.some.inj hfile]
    rfl
  have here : classify ⟨.detached, false⟩ deleted = .ok (.outgoing .deletion) := by decide
  have dual := classify_swap (c := ⟨.detached, false⟩) definite unrecorded
  rcases dual.1.mp ⟨_, here⟩ with ⟨s', there⟩
  refine ⟨here, there.trans (congrArg Except.ok ?_)⟩
  exact dual.2 _ s' here there

end Triple

end ThreeWay
