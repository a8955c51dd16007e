import Mathlib.Data.List.Nodup
import Mathlib.Data.List.Perm.Subperm
import Mathlib.Order.WellFoundedSet
import ThreeWay.Object.Database

/-!
# The Graph of the Recorded Commits

A commit names its parents by id, and the object database tells which recorded commits these are. The ids
of a repository are hashes of what they name, so one id stands for one commit, and no commit lies among
the commits that it was made after.

These two facts are all that a walk through a history needs, and it needs them for the past of its start
only. As finitely many commits are recorded, they allow induction in both directions, down to the parents
and up to the children.

## Main definitions

* `Database.Parent`: A recorded commit that another commit names as a parent.
* `Database.Reaches`: A commit from which parents lead to another one.
* `Database.IsPast`: A commit that is found by its id, with no commit of its past among its own ancestors.
* `Database.IsGraph`: The same for all recorded commits.

## Theorems

* `length_le_of_nodup`: No more distinct commits than recorded objects.
* `IsGraph.of_rank`: Commits that are newer than their parents form such a graph.
* `IsPast.induction_down`: What holds of a commit if it holds of its parents.
* `IsPast.induction_up`: What holds of a commit if it holds of its children.
-/

namespace ThreeWay

namespace Database

/-- Whether a recorded commit is a parent of another commit. -/
def Parent (db : Database) (c p : Commit) : Prop :=
  ∃ id ∈ c.parents, db.commit? id = some p

/-- Whether parents lead from a commit to another one. -/
def Reaches (db : Database) : Commit → Commit → Prop :=
  Relation.ReflTransGen db.Parent

/-- A commit that is found by its id, so that what it descends from is known, and none of the commits that
    it descends from is its own ancestor. -/
structure IsPast (db : Database) (start : Commit) : Prop where
  found : db.commit? start.id = some start
  acyclic : ∀ c, db.Reaches start c → ¬ Relation.TransGen db.Parent c c

/-- A database in which an id stands for one commit and no commit is its own ancestor. -/
structure IsGraph (db : Database) : Prop where
  found : ∀ c, .commit c ∈ db → db.commit? c.id = some c
  acyclic : ∀ c, ¬ Relation.TransGen db.Parent c c

variable {db : Database} {start c d p : Commit} {id : ObjectId}

theorem mem_of_commit? (h : db.commit? id = some c) : .commit c ∈ db := by
  unfold commit? at h
  split at h
  · cases h
    exact List.mem_of_find?_eq_some ‹_›
  · cases h

theorem id_of_find? {object : StoredObject} (h : db.find? id = some object) : object.id = id := by
  have hd := List.find?_some h
  rwa [decide_eq_true_iff] at hd

theorem id_of_commit? (h : db.commit? id = some c) : c.id = id := by
  unfold commit? at h
  split at h
  · cases h
    exact id_of_find? ‹_›
  · cases h

namespace Parent

/-- A parent is found by its id. -/
theorem found (h : db.Parent c p) : db.commit? p.id = some p := by
  rcases h with ⟨id, _, hp⟩
  rw [id_of_commit? hp]
  exact hp

theorem recorded (h : db.Parent c p) : .commit p ∈ db :=
  mem_of_commit? h.found

theorem id_mem (h : db.Parent c p) : p.id ∈ c.parents := by
  rcases h with ⟨id, hid, hp⟩
  rw [id_of_commit? hp]
  exact hid

end Parent

theorem parent_iff : p ∈ c.parents.filterMap db.commit? ↔ db.Parent c p :=
  List.mem_filterMap

/-- Distinct recorded commits are no more than there are recorded objects. -/
theorem length_le_of_nodup {cs : List Commit} (recorded : ∀ c ∈ cs, .commit c ∈ db)
    (nodup : (cs.map Commit.id).Nodup) : cs.length ≤ db.length := by
  have hsub : cs.map StoredObject.commit ⊆ db := by
    intro object ho
    rcases List.mem_map.mp ho with ⟨c, hc, rfl⟩
    exact recorded c hc
  -- What is recorded without repetition fits into the database.
  have hnodup : (cs.map StoredObject.commit).Nodup := by
    refine List.Nodup.map (fun a b hab => ?_) (List.Nodup.of_map Commit.id nodup)
    cases hab
    rfl
  have hle := (hnodup.subperm hsub).length_le
  rwa [List.length_map] at hle

/-- Where all ids are distinct, a recorded commit is found by its id. -/
theorem commit?_of_nodup (distinct : (db.map StoredObject.id).Nodup) (hc : .commit c ∈ db) :
    db.commit? c.id = some c := by
  have hf : db.find? c.id = some (.commit c) := by
    -- Some object is found under the id, and it has that id, so it is the commit.
    cases h : db.find? c.id with
    | none => exact absurd (decide_eq_true rfl) (List.find?_eq_none.mp h _ hc)
    | some object =>
        have hid : object.id = c.id := id_of_find? h
        rw [List.inj_on_of_nodup_map distinct (List.mem_of_find?_eq_some h) hc hid]
  rw [commit?, hf]

namespace IsGraph

/-- Where every recorded commit is above its parents in some rank, such as its time, no commit is its own
    ancestor. -/
theorem of_rank (distinct : (db.map StoredObject.id).Nodup) (rank : Commit → Nat)
    (above : ∀ c, .commit c ∈ db → ∀ p, db.Parent c p → rank p < rank c) : db.IsGraph where
  found c hc := commit?_of_nodup distinct hc
  acyclic c h := by
    have hc : .commit c ∈ db := by
      cases h with
      | single hp => exact hp.recorded
      | tail _ hp => exact hp.recorded
    -- The rank goes down along every way, and a way from a commit to itself would need it to be below itself.
    have lower : ∀ d, Relation.TransGen db.Parent c d → .commit d ∈ db ∧ rank d < rank c := by
      intro d hd
      induction hd with
      | single hp => exact ⟨hp.recorded, above c hc _ hp⟩
      | tail _ hp ih => exact ⟨hp.recorded, (above _ ih.1 _ hp).trans ih.2⟩
    exact absurd (lower c h).2 (Nat.lt_irrefl _)

/-- Every recorded commit has its past. -/
theorem past (graph : db.IsGraph) (hc : .commit c ∈ db) : db.IsPast c where
  found := graph.found c hc
  acyclic d _ := graph.acyclic d

end IsGraph

namespace IsPast

variable (past : db.IsPast start)

include past

/-- What a commit descends from is found by its id. -/
theorem found_of_reaches (hc : db.Reaches start c) : db.commit? c.id = some c := by
  cases hc with
  | refl => exact past.found
  | tail _ hp => exact hp.found

theorem recorded (hc : db.Reaches start c) : .commit c ∈ db :=
  mem_of_commit? (past.found_of_reaches hc)

/-- An id stands for one commit. -/
theorem eq_of_id_eq (hc : db.Reaches start c) (hd : db.Reaches start d) (h : c.id = d.id) : c = d := by
  have hf := past.found_of_reaches hc
  rw [h, past.found_of_reaches hd] at hf
  exact (Option.some.inj hf).symm

/-- A commit whose id is among the parents is a parent. -/
theorem parent_of_id_mem (hp : db.Reaches start p) (h : p.id ∈ c.parents) : db.Parent c p :=
  ⟨p.id, h, past.found_of_reaches hp⟩

/-- Nothing goes on forever in a past, neither down to ancestors nor up to descendants. -/
theorem wellFounded :
    {c | db.Reaches start c}.WellFoundedOn
        (fun p c => db.Reaches start c ∧ Relation.TransGen db.Parent c p) ∧
      {c | db.Reaches start c}.WellFoundedOn
        (fun c p => db.Reaches start c ∧ Relation.TransGen db.Parent c p) := by
  -- All of them are recorded, and the database is a finite list. On a finite set a strict order is well-founded, and
  -- so is its converse.
  have hfin : {c | db.Reaches start c}.Finite := by
    have hinj : Set.InjOn StoredObject.commit (Set.preimage StoredObject.commit {object | object ∈ db}) := by
      intro a _ b _ hab
      cases hab
      rfl
    exact ((List.finite_toSet db).preimage hinj).subset fun c hc => past.recorded hc
  have down : IsStrictOrder Commit (fun p c => db.Reaches start c ∧ Relation.TransGen db.Parent c p) :=
    { irrefl := fun c h => past.acyclic c h.1 h.2, trans := fun _ _ _ h k => ⟨k.1, k.2.trans h.2⟩ }
  have up : IsStrictOrder Commit (fun c p => db.Reaches start c ∧ Relation.TransGen db.Parent c p) :=
    { irrefl := fun c h => past.acyclic c h.1 h.2, trans := fun _ _ _ h k => ⟨h.1, h.2.trans k.2⟩ }
  exact ⟨hfin.wellFoundedOn, hfin.wellFoundedOn⟩

/-- What holds of a commit if it holds of its parents holds of all that can be reached. -/
theorem induction_down {motive : Commit → Prop}
    (step : ∀ c, db.Reaches start c → (∀ p, db.Parent c p → motive p) → motive c) :
    ∀ c, db.Reaches start c → motive c := by
  intro c hc
  refine past.wellFounded.1.induction hc fun d hd ih => step d hd fun p hp => ?_
  exact ih p (hd.tail hp) ⟨hd, .single hp⟩

/-- What holds of a commit if it holds of its children holds of all that can be reached. -/
theorem induction_up {motive : Commit → Prop}
    (step : ∀ p, db.Reaches start p →
      (∀ c, db.Reaches start c → db.Parent c p → motive c) → motive p) :
    ∀ p, db.Reaches start p → motive p := by
  intro p hp
  refine past.wellFounded.2.induction hp fun q hq ih => step q hq fun c hc hpar => ?_
  exact ih c hc ⟨hc, .single hpar⟩

end IsPast

end Database

end ThreeWay
