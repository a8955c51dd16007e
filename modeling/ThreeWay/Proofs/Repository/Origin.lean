import ThreeWay.Proofs.Repository.Descend
import ThreeWay.Repository.History

/-!
# Where an Entry Comes From

A commit that did not change a path has a parent that records the same there. From what is recorded at a
path one can therefore go down through such parents, and in a history without cycles this ends at a commit
that did change the path and recorded the very same entry.

That commit belongs to the history of the path, since the history holds every change that can be reached.

A merge may record what several of its parents do, and any of these leads on to an origin, so there can be many.
The history has all of them that can be reached, and nothing more is claimed about which one is told first than
that nothing above the head changed the path.

A parent that is missing from the database records nothing, and does not keep what the commit records. So a commit
with a missing parent can be an origin, but no chain of parents leads through it.

## Main definitions

* `History.Changes`: A commit that records something else at a path than every parent.
* `History.Keeps`: Parents that record the same lead from one commit to another.

## Theorems

* `touches_iff`: The test that filters a history.
* `Keeps.reaches`, `Keeps.idAt_eq`: What such parents lead to can be reached, and records the same.
* `exists_parent_of_not_changes`: A commit that changed nothing has such a parent.
* `exists_origin`: What is recorded comes from a change.
* `mem_all_iff`: A history holds the changes that can be reached.
* `exists_mem_all`: The origin of what is recorded is in the history.
* `not_changes_above`: Above the head of a history nothing changed the path.
* `nodup_all`, `length_all_le`: A history has no commit twice, and is no longer than the database.
-/

namespace ThreeWay

namespace History

open Walk

/-- Whether a commit records something else at a chain of names than each of its parents does. A commit
    without parents has to record anything. -/
structure Changes (db : Database) (names : List Bytes) (c : Commit) : Prop where
  differs : ∀ id ∈ c.parents, (db.commit? id).bind (·.idAt names) ≠ c.idAt names
  records : c.parents = [] → (c.idAt names).isSome

/-- Whether parents that record the same at a chain of names lead from a commit to another one. -/
def Keeps (db : Database) (names : List Bytes) : Commit → Commit → Prop :=
  Relation.ReflTransGen fun c p => db.Parent c p ∧ p.idAt names = c.idAt names

variable {db : Database} {names : List Bytes} {start c d : Commit}

/-- A history is filtered by what changed the path. -/
theorem touches_iff : touches db names c = true ↔ Changes db names c := by
  unfold touches
  -- The code has a case for a commit without parents, which changed whatever it records.
  split
  · rename_i hp
    constructor
    · intro h
      exact ⟨fun id hid => absurd hid (hp ▸ List.not_mem_nil), fun _ => h⟩
    · intro h
      exact h.records hp
  · rename_i parents hp
    rw [List.all_eq_true]
    constructor
    · intro h
      exact ⟨fun id hid => of_decide_eq_true (h id hid), fun hnil => absurd hnil hp⟩
    · intro h id hid
      exact decide_eq_true (h.differs id hid)

namespace Keeps

theorem reaches (h : Keeps db names c d) : db.Reaches c d := by
  induction h with
  | refl => exact Relation.ReflTransGen.refl
  | tail _ step ih => exact ih.tail step.1

theorem idAt_eq (h : Keeps db names c d) : d.idAt names = c.idAt names := by
  induction h with
  | refl => rfl
  | tail _ step ih => exact step.2.trans ih

end Keeps

/-- A commit that did not change a path has a parent that records the same. -/
theorem exists_parent_of_not_changes (recorded : (c.idAt names).isSome)
    (h : ¬ Changes db names c) : ∃ p, db.Parent c p ∧ p.idAt names = c.idAt names := by
  -- If no parent records the same, the commit differs from all of them, and that is to change the path.
  by_contra hnone
  refine h ⟨fun id hid heq => ?_, fun _ => recorded⟩
  cases hp : db.commit? id with
  | none =>
      rw [hp] at heq
      rw [← heq] at recorded
      cases recorded
  | some p =>
      rw [hp] at heq
      exact hnone ⟨p, ⟨id, hid, hp⟩, heq⟩

section

variable (past : db.IsPast start)

include past

/-- What is recorded at a path comes from a commit that changed the path. -/
theorem exists_origin (recorded : (start.idAt names).isSome) :
    ∃ o, Keeps db names start o ∧ Changes db names o := by
  have origin : ∀ c, db.Reaches start c → (c.idAt names).isSome →
      ∃ o, Keeps db names c o ∧ Changes db names o := by
    -- The history has no cycle, so it can be gone down: a commit that did not change the path has a parent with the
    -- same entry, and that one has an origin already.
    refine past.induction_down fun c _ ih hc => ?_
    by_cases h : Changes db names c
    · exact ⟨c, Relation.ReflTransGen.refl, h⟩
    · rcases exists_parent_of_not_changes hc h with ⟨p, hp, hid⟩
      rcases ih p hp (hid ▸ hc) with ⟨o, ho, hchanges⟩
      exact ⟨o, Relation.ReflTransGen.head ⟨hp, hid⟩ ho, hchanges⟩
  exact origin start Relation.ReflTransGen.refl recorded

/-- The history of a path holds the changes that can be reached. -/
theorem mem_all_iff : c ∈ all db start names ↔ db.Reaches start c ∧ Changes db names c := by
  rw [all, List.mem_filter, (topological_descends past).mem_iff, touches_iff]

/-- The origin of what is recorded at a path is in the history of the path. -/
theorem exists_mem_all (recorded : (start.idAt names).isSome) :
    ∃ o ∈ all db start names, Keeps db names start o := by
  rcases exists_origin past recorded with ⟨o, ho, hchanges⟩
  exact ⟨o, (mem_all_iff past).mpr ⟨ho.reaches, hchanges⟩, ho⟩

/-- Above the head of a history nothing changed the path. -/
theorem not_changes_above {tip : Commit} {older : List Commit} (h : all db start names = tip :: older)
    (hc : db.Reaches start c) (above : Relation.TransGen db.Parent c tip) : ¬ Changes db names c := by
  have descends := topological_descends past
  rcases List.filter_eq_cons_iff.mp h with ⟨newer, rest, split, hnewer, _, _⟩
  have hmem := (descends.mem_iff c).mpr hc
  rw [split] at hmem
  -- A commit that can be reached is somewhere in the walk. In front of the head nothing passed the filter, and the
  -- head is not above itself.
  rcases List.mem_append.mp hmem with hm | hm
  · exact fun hchanges => hnewer c hm (touches_iff.mpr hchanges)
  · rcases List.mem_cons.mp hm with rfl | hm
    · exact absurd above (past.acyclic _ hc)
    · -- From below the head nothing leads up to it.
      rcases List.append_of_mem hm with ⟨front, back, rfl⟩
      have hnodup := List.Nodup.of_map _ descends.nodup
      rw [← List.cons_append, ← List.append_assoc] at split
      have hback := descends.mem_older past split above
      rw [split] at hnodup
      have hdisjoint := (List.nodup_append.mp hnodup).2.2
      exact absurd rfl (hdisjoint tip (by simp) tip (List.mem_cons_of_mem _ hback))

/-- No commit is in a history twice. -/
theorem nodup_all : ((all db start names).map Commit.id).Nodup :=
  (topological_descends past).nodup.sublist (List.filter_sublist.map _)

/-- No history is longer than the database. -/
theorem length_all_le : (all db start names).length ≤ db.length :=
  Database.length_le_of_nodup (fun _ hc => past.recorded ((mem_all_iff past).mp hc).1) (nodup_all past)

end

end History

end ThreeWay
