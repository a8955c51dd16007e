import ThreeWay.Proofs.Run
import ThreeWay.Repository.Record

/-!
# The Head After a Commit

A commit is recorded in the object database and the head is moved to it, so looking up the head finds it.
Two things are in between. The database keeps what it has under an id, and it keeps it even if something
else is recorded under the same id; so the id of the commit has to be its own. And the head moves in another
way on a branch than away from one, though in both cases it ends up naming the commit.

What was recorded before stays, since nothing is ever taken out of the database.

The steps of a commit are taken apart in that order. Recording an object keeps what the database has, so recording
the trees and then the commit does. Moving the head leaves objects and index alone. And the name of the head is
looked up by the very first rule of revisions, before it could be taken for an id or a description.

## Main definitions

* `Database.Keeps`: A database has all that another one has.
* `Repository.made`: The commit that records the index.
* `Repository.FreshCommit`: Its id is its own.

## Theorems

* `Database.find?_record_self`: What is recorded is found.
* `keeps_commit`: A commit takes nothing out of the database.
* `reference?_moveHead`: The head names what it was moved to.
* `resolve_headName`: The head is looked up by its own name.
* `resolveCommit_commit`: The head stands for the commit that was made.
-/

namespace ThreeWay

namespace Database

variable {db : Database} {object : StoredObject} {id : ObjectId}

/-- A database has all that another one has. -/
def Keeps (db before : Database) : Prop :=
  ∀ id object, before.find? id = some object → db.find? id = some object

theorem Keeps.refl (db : Database) : db.Keeps db := fun _ _ h => h

theorem Keeps.trans {a b c : Database} (hab : a.Keeps b) (hbc : b.Keeps c) : a.Keeps c :=
  fun id object h => hab id object (hbc id object h)

/-- Recording an object keeps what is there. -/
theorem keeps_record (db : Database) (object : StoredObject) : (db.record object).Keeps db := by
  intro id found h
  rw [record]
  split_ifs with hs
  · exact h
  -- The object is put in front, but only since nothing was found under its id.
  · rw [find?, List.find?_cons]
    by_cases hid : object.id = id
    · rw [hid, h] at hs
      exact absurd rfl hs
    · rw [decide_eq_false hid]
      exact h

theorem keeps_recordTree (db : Database) (t : Tree) : (db.recordTree t).Keeps db := by
  unfold recordTree
  -- One subtree is recorded after the other, and each step keeps what the steps before it have recorded.
  induction t.subtrees generalizing db with
  | nil => exact Keeps.refl db
  | cons u us ih => exact (ih (db.record (.tree u))).trans (keeps_record db (.tree u))

theorem Keeps.blob? {before : Database} (h : db.Keeps before) {content : Bytes}
    (hb : before.blob? id = some content) : db.blob? id = some content := by
  unfold Database.blob? at hb ⊢
  cases hf : before.find? id with
  | none =>
      rw [hf] at hb
      cases hb
  | some object =>
      rw [hf] at hb
      rw [h id object hf]
      exact hb

/-- What is recorded is found, if nothing else has its id. -/
theorem find?_record_self (faithful : ∀ other ∈ db, other.id = object.id → other = object) :
    (db.record object).find? object.id = some object := by
  rw [record]
  split_ifs with hs
  -- Something with the id was there already and is kept; no other object has the id.
  · rcases Option.isSome_iff_exists.mp hs with ⟨found, hfound⟩
    have hid := List.find?_some hfound
    rw [hfound, faithful found (List.mem_of_find?_eq_some hfound) (of_decide_eq_true hid)]
  · rw [find?, List.find?_cons, decide_eq_true rfl]

end Database

/-- The entry of a key is found after it was put in. -/
theorem lookup_insertAt_self {κ β : Type} [LT κ] [DecidableLT κ] [DecidableEq κ] (k : κ) (v : β)
    (xs : List (κ × β)) : (insertAt Prod.fst (k, v) xs).lookup k = some v := by
  induction xs with
  | nil => simp [insertAt]
  | cons x xs ih =>
      rw [insertAt]
      -- The key goes before the first entry, in place of it, or further behind.
      split_ifs with hlt heq
      · simp
      · simp
      · rw [List.lookup_cons, beq_eq_false_iff_ne.mpr heq]
        exact ih

namespace Repository

variable {r : Repository} {id : ObjectId}

theorem objects_moveHead (r : Repository) (id : ObjectId) (message : String) :
    (r.moveHead id message).objects = r.objects := by
  unfold moveHead moveBranch
  split <;> split_ifs <;> rfl

theorem index_moveHead (r : Repository) (id : ObjectId) (message : String) :
    (r.moveHead id message).index = r.index := by
  unfold moveHead moveBranch
  split <;> split_ifs <;> rfl

/-- The head names what it was moved to. -/
theorem reference?_moveHead (r : Repository) (id : ObjectId) (message : String) :
    ∃ name, (r.moveHead id message).reference? headName = some (name, id) := by
  unfold moveHead
  cases hhead : r.head with
  -- On a branch the branch is moved and the head still names it; away from one the head itself is.
  | branch reference =>
      refine ⟨reference, ?_⟩
      simp only [moveBranch]
      split_ifs with hsame
      · simp only [reference?, if_true, hhead, hsame, Option.map_some]
      · simp only [reference?, if_true, note, setReference, hhead, lookup_insertAt_self, Option.map_some]
  | detached old =>
      refine ⟨headName, ?_⟩
      simp only
      split_ifs with hsame
      · rw [reference?, if_pos rfl, hhead, hsame]
      · simp only [reference?, if_true, note]

/-- The head is looked up by its own name, which is no description and no object id. -/
theorem resolve_headName {name : String} (h : r.reference? headName = some (name, id)) :
    r.resolve headName = r.object id := by
  have hnamed : r.named? headName = some (name, id) := by
    rw [named?, fullNames, if_neg (by decide), List.findSome?_cons, h]
  -- Four letters are no object id, and the name is not the sign that stands for the head.
  have short : ¬ headName.length = ObjectId.length := by decide
  have other : ¬ headName = "@" := by decide
  have hlookup : r.lookup headName = r.object id := by
    simp only [lookup, if_neg other, if_neg short, orElse, hnamed]
  have hplain : ¬ headName.toList.contains '\x00' = true := by decide
  have hspec : Revspec.ofString headName = ⟨headName, []⟩ := by decide +kernel
  have hname : ¬ headName = "" := by decide
  have hreached : r.reached headName ⟨none, none⟩ = r.object id := by
    rw [reached, if_neg hname, hlookup]
  rw [resolve, if_neg hplain, hspec]
  exact hreached

/-- The head stands for a commit that it was moved to. -/
theorem resolveCommit_moveHead {c : Commit} (h : r.objects.find? id = some (.commit c))
    (message : String) : (r.moveHead id message).resolveCommit headName = .ok (some c) := by
  rcases reference?_moveHead r id message with ⟨name, hhead⟩
  have hresolve := resolve_headName hhead
  rw [object, objects_moveHead, h] at hresolve
  rw [resolveCommit, hresolve]
  rfl

section

variable (r : Repository) (parents : List ObjectId) (author committer : Signature) (message : Bytes)

/-- The commit that records the index. -/
def made : Commit :=
  Commit.make r.index.tree parents author committer message

/-- No other object has the id of the commit that records the index. -/
def FreshCommit : Prop :=
  ∀ other ∈ r.objects.recordTree r.index.tree, other.id = (r.made parents author committer message).id →
    other = .commit (r.made parents author committer message)

theorem objects_commit : (r.commit parents author committer message).1.objects =
    (r.objects.recordTree r.index.tree).record (.commit (r.made parents author committer message)) :=
  objects_moveHead _ _ _

theorem index_commit : (r.commit parents author committer message).1.index = r.index :=
  index_moveHead _ _ _

theorem keeps_commit : (r.commit parents author committer message).1.objects.Keeps r.objects := by
  rw [objects_commit]
  exact (Database.keeps_record _ _).trans (Database.keeps_recordTree _ _)

/-- The head stands for the commit that was made. -/
theorem resolveCommit_commit (fresh : r.FreshCommit parents author committer message) :
    (r.commit parents author committer message).1.resolveCommit headName =
      .ok (some (r.made parents author committer message)) := by
  have found := @Database.find?_record_self _ (.commit (r.made parents author committer message)) fresh
  exact resolveCommit_moveHead found _

end

end Repository

end ThreeWay
