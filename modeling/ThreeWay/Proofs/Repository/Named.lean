import ThreeWay.Proofs.Heap
import ThreeWay.Proofs.Repository.Gather
import ThreeWay.Proofs.Run
import ThreeWay.Repository.Resolve

/-!
# What Specifications Name

A specification is followed step by step, from a name to an object and from there to parents, to what a tag
stands for, to a commit whose message matches. Every one of these steps ends at something that the object
database holds, so the commit that a specification names is recorded, and what is known of the recorded trees is
known of the trees of all revisions.

Trees are no objects of their own here. The tree of a commit comes with the commit, and the folders below it
come with the tree.

A step of a specification either keeps within what was reached so far or looks something up in the database. So
one invariant carries the whole: the object that was reached is held. `step_holds` has one case for each kind of
step, and each case is a chain of the lemmas about what the step calls.

What a lookup can end with follows the ways of looking up: a full id, a reference, the beginning of an id and a
description all lead to an object by its id, and what is found under an id is in the database. A tag may stand for
another object, and an entry of a tree for the object under its id, so these are looked up in their turn. Walks
start at recorded commits and go to parents, which are found by their ids as well.

## Main definitions

* `Database.Holds`: Whether an object, if it is a commit, is recorded.

## Theorems

* `deref_holds`, `derefUntil_holds`: What an object points to.
* `peel_holds`, `peelTag_holds`: What an object stands for is recorded if the object is.
* `mem_of_peelToCommit`, `ofEntry_holds`: The commit of an object, and the object of an entry.
* `mem_of_mem_byTime`: A walk meets recorded commits.
* `lookup_holds`: What a name stands for is recorded.
* `mem_of_parent`, `mem_of_ancestor`, `atPath_holds`, `searchMessages_holds`: What the single steps lead to.
* `step_holds`: A step leads to what is recorded.
* `steps_holds`, `resolve_holds`: All steps, and the whole specification.
* `mem_of_resolveCommit`: A specification names a recorded commit.
-/

namespace ThreeWay

/-- Whether an object is recorded if it is a commit. -/
def Database.Holds (db : Database) : StoredObject → Prop
  | .commit c => .commit c ∈ db
  | _ => True

namespace Database

variable {db : Database} {object next : StoredObject} {id : ObjectId} {c : Commit}

theorem holds_of_mem (h : object ∈ db) : db.Holds object := by
  cases object with
  | commit c => exact h
  | blob id content => trivial
  | tree t => trivial
  | tag t => trivial

theorem holds_of_find? (h : db.find? id = some object) : db.Holds object :=
  holds_of_mem (List.mem_of_find?_eq_some h)

/-- What an object stands for is found, or comes with it. -/
theorem deref_holds (h : db.deref object = .ok next) : db.Holds next := by
  cases object with
  | blob id content => cases h
  | tree t => cases h
  | commit c =>
      cases h
      trivial
  | tag t =>
      rw [deref] at h
      split at h
      · cases h
        exact holds_of_find? ‹_›
      · cases h

theorem derefUntil_holds {p : StoredObject → Bool} {n : Nat} (h : db.derefUntil p n object = .ok next) :
    db.Holds next := by
  -- What is reached is what the last of the steps found, so where they start does not matter.
  induction n generalizing object with
  | zero => cases h
  | succ n ih =>
      rw [derefUntil] at h
      rcases Run.bind_eq_ok h with ⟨found, hfound, h⟩
      split_ifs at h
      · cases h
        exact deref_holds hfound
      · exact ih h

theorem peel_holds {wanted : ObjectKind} (held : db.Holds object) (h : db.peel wanted object = .ok next) :
    db.Holds next := by
  unfold peel at h
  split_ifs at h
  · cases h
    exact held
  · split at h
    · exact derefUntil_holds h
    · exact derefUntil_holds h
    · cases h

theorem peelTag_holds (held : db.Holds object) (h : db.peelTag object = .ok next) : db.Holds next := by
  unfold peelTag at h
  split_ifs at h
  · exact derefUntil_holds h
  · cases h
    exact held

theorem mem_of_peelToCommit (held : db.Holds object) (h : db.peelToCommit object = .ok c) :
    .commit c ∈ db := by
  rcases Run.bind_eq_ok h with ⟨found, hfound, h⟩
  cases found with
  | commit d =>
      cases h
      exact peel_holds held hfound
  | blob id content => cases h
  | tree t => cases h
  | tag t => cases h

theorem ofEntry_holds {entry : TreeEntry} (h : db.ofEntry entry = .ok object) : db.Holds object := by
  cases entry with
  | folder id members =>
      cases h
      trivial
  | leaf leaf =>
      simp only [ofEntry] at h
      split at h
      · split_ifs at h
        all_goals cases h
        all_goals exact holds_of_find? ‹_›
      · cases h

end Database

namespace Walk

variable {db : Database} {c d : Commit} {starts queue : List Commit}

/-- What is gathered from recorded commits is recorded. -/
theorem mem_of_mem_gatherUpTo {n : Nat} {seen : List ObjectId} (recorded : ∀ e ∈ queue, .commit e ∈ db)
    (h : d ∈ gatherUpTo db n queue seen) : .commit d ∈ db := by
  -- The first of the queue was recorded, and so are the parents that join it.
  induction n generalizing queue seen with
  | zero => cases h
  | succ n ih =>
      cases queue with
      | nil => cases h
      | cons c queue =>
          rw [gatherUpTo] at h
          rcases List.mem_cons.mp h with rfl | h
          · exact recorded _ List.mem_cons_self
          · refine ih (fun e he => ?_) h
            exact mem_of_mem_joinParents (fun e he => recorded e (List.mem_cons_of_mem _ he)) he

/-- A walk from recorded commits meets recorded commits. -/
theorem mem_of_mem_byTime (recorded : ∀ e ∈ starts, .commit e ∈ db) (h : d ∈ byTime db starts) :
    .commit d ∈ db := by
  have held := Heap.mem_of_mem_drain h
  rw [Heap.mem_foldl_insert] at held
  rcases held with held | held
  · exact absurd held (Array.not_mem_empty d)
  · exact mem_of_mem_gatherUpTo recorded held

end Walk

namespace Repository

variable {r : Repository} {object : StoredObject} {id : ObjectId} {name text : String} {c p : Commit}

theorem object_holds (h : r.object id = .ok object) : r.objects.Holds object := by
  unfold Repository.object at h
  split at h
  · cases h
    exact Database.holds_of_find? ‹_›
  · cases h

theorem abbreviated_holds (h : r.abbreviated text = .ok object) : r.objects.Holds object := by
  unfold abbreviated at h
  split at h
  · cases h
  · cases h
  · split_ifs at h
    split at h
    · cases h
    · rename_i found
      cases h
      have hmem : object ∈ r.objects.withPrefix _ := found ▸ List.mem_singleton_self object
      exact Database.holds_of_mem (List.mem_of_mem_filter hmem)
    · cases h

theorem described_holds (h : r.described text = .ok object) : r.objects.Holds object := by
  unfold described at h
  split at h
  · split_ifs at h
    · exact abbreviated_holds h
  · cases h

/-- A second answer counts where there is no first one. -/
theorem orElse_eq_ok {α : Type} {first : Except ObjectError α} {second : Unit → Except ObjectError α} {a : α}
    (h : orElse first second = .ok a) : first = .ok a ∨ second () = .ok a := by
  unfold orElse at h
  split at h
  · exact Or.inr h
  · exact Or.inl h

theorem lookup_holds (h : r.lookup name = .ok object) : r.objects.Holds object := by
  rw [lookup] at h
  generalize (if name = "@" then headName else name) = name at h
  -- A full id is tried first, then a reference, then a short id, and at last a description.
  rcases orElse_eq_ok h with h | h
  · split_ifs at h
    · exact abbreviated_holds h
  · split at h
    · exact object_holds h
    · rcases orElse_eq_ok h with h | h
      · split_ifs at h
        exact abbreviated_holds h
      · exact described_holds h

theorem mem_of_parent {n : Nat} (h : r.parent c n = .ok p) : .commit p ∈ r.objects := by
  unfold parent at h
  split at h
  · cases h
    rcases Option.bind_eq_some_iff.mp ‹_› with ⟨_, _, hp⟩
    exact Database.mem_of_commit? hp
  · cases h

theorem mem_of_ancestor {n : Nat} (recorded : .commit c ∈ r.objects) (h : r.ancestor n c = .ok p) :
    .commit p ∈ r.objects := by
  induction n generalizing c with
  | zero =>
      cases h
      exact recorded
  | succ n ih =>
      rcases Run.bind_eq_ok h with ⟨q, hq, h⟩
      exact ih (mem_of_parent hq) h

theorem atPath_holds (h : r.atPath object text = .ok next) : r.objects.Holds next := by
  rcases Run.bind_eq_ok h with ⟨tree, _, h⟩
  dsimp only at h
  by_cases ht : text = ""
  · rw [if_pos ht] at h
    cases h
    trivial
  · rw [if_neg ht] at h
    split at h
    · cases h
    · split at h
      · cases h
      · exact Database.ofEntry_holds h

theorem searchMessages_holds {starts : List Commit} (recorded : ∀ e ∈ starts, .commit e ∈ r.objects)
    (h : r.searchMessages starts text = .ok object) : r.objects.Holds object := by
  unfold searchMessages at h
  -- The walk meets recorded commits, and the match is one of them.
  split at h
  · cases h
  · split at h
    · cases h
      exact Walk.mem_of_mem_byTime recorded (List.mem_of_find?_eq_some ‹_›)
    · cases h

theorem mem_of_mem_referencedCommits (h : c ∈ r.referencedCommits) : .commit c ∈ r.objects := by
  -- Commits that were met before are passed over, so the list only gets shorter.
  have kept : ∀ (xs acc : List Commit), (∀ e ∈ xs, .commit e ∈ r.objects) →
      (∀ e ∈ acc, .commit e ∈ r.objects) →
      ∀ e ∈ xs.foldl (fun found c => if found.any (·.id = c.id) then found else found ++ [c]) acc,
        .commit e ∈ r.objects := by
    intro xs
    induction xs with
    | nil => exact fun acc _ hacc => hacc
    | cons x xs ih =>
        intro acc hxs hacc
        refine ih _ (fun e he => hxs e (List.mem_cons_of_mem _ he)) ?_
        dsimp only
        split_ifs
        · exact hacc
        · intro e he
          rcases List.mem_append.mp he with he | he
          · exact hacc e he
          · exact List.mem_singleton.mp he ▸ hxs x List.mem_cons_self
  refine kept _ [] (fun e he => ?_) (fun _ he => absurd he List.not_mem_nil) c h
  rcases List.mem_filterMap.mp he with ⟨⟨_, id⟩, _, he⟩
  dsimp only at he
  split at he
  · cases he
    rcases Run.bind_eq_ok ‹_› with ⟨object, hobject, hcommit⟩
    exact Database.mem_of_peelToCommit (object_holds hobject) hcommit
  · cases he

section

variable {p : Progress} (held : ∀ object, p.object = some object → r.objects.Holds object)

include held

theorem reached_holds (h : r.reached name p = .ok object) : r.objects.Holds object := by
  unfold reached at h
  split at h
  · cases h
    exact held _ ‹_›
  · exact object_holds h
  · split_ifs at h
    exact lookup_holds h

/-- A step leads to what is recorded. -/
theorem step_holds {s : RevStep} {q : Progress} (h : r.step name p s = .ok q) :
    ∀ object, q.object = some object → r.objects.Holds object := by
  have known : ∀ {o : StoredObject}, r.objects.Holds o → step.known o = .ok q →
      ∀ object, q.object = some object → r.objects.Holds object := by
    intro o ho hq object hobject
    cases hq
    cases hobject
    exact ho
  -- One case for each kind of step. What a step starts from is held, by assumption or by the name, and what it ends
  -- at is looked up or comes with it.
  cases s with
  | malformed afterLookup =>
      cases afterLookup with
      | false => cases h
      | true =>
          rcases Run.bind_eq_ok h with ⟨_, _, h⟩
          cases h
  | parent n =>
      rcases Run.bind_eq_ok h with ⟨object, hobject, h⟩
      rcases Run.bind_eq_ok h with ⟨c, hc, h⟩
      have hmem := Database.mem_of_peelToCommit (reached_holds held hobject) hc
      split_ifs at h
      · exact known (o := .commit c) hmem h
      · rcases Run.bind_eq_ok h with ⟨p, hp, h⟩
        exact known (o := .commit p) (mem_of_parent hp) h
  | ancestor n =>
      rcases Run.bind_eq_ok h with ⟨object, hobject, h⟩
      rcases Run.bind_eq_ok h with ⟨c, hc, h⟩
      have hmem := Database.mem_of_peelToCommit (reached_holds held hobject) hc
      rcases Run.bind_eq_ok h with ⟨p, hp, h⟩
      exact known (o := .commit p) (mem_of_ancestor hmem hp) h
  | peel kind =>
      rcases Run.bind_eq_ok h with ⟨object, hobject, h⟩
      rcases Run.bind_eq_ok h with ⟨o, ho, h⟩
      exact known (Database.peel_holds (reached_holds held hobject) ho) h
  | peelTag =>
      rcases Run.bind_eq_ok h with ⟨object, hobject, h⟩
      rcases Run.bind_eq_ok h with ⟨o, ho, h⟩
      exact known (Database.peelTag_holds (reached_holds held hobject) ho) h
  | search expression =>
      rcases Run.bind_eq_ok h with ⟨object, hobject, h⟩
      split at h
      · cases h
      · rcases Run.bind_eq_ok h with ⟨c, hc, h⟩
        rcases Run.bind_eq_ok h with ⟨o, ho, h⟩
        have hmem := Database.mem_of_peelToCommit (reached_holds held hobject) hc
        exact known (searchMessages_holds (List.forall_mem_singleton.mpr hmem) ho) h
  | path text =>
      rw [step] at h
      split_ifs at h
      · rcases Run.bind_eq_ok h with ⟨object, _, h⟩
        rcases Run.bind_eq_ok h with ⟨o, ho, h⟩
        exact known (atPath_holds ho) h
      · split at h
        · rcases Run.bind_eq_ok h with ⟨o, ho, h⟩
          exact known (searchMessages_holds (fun _ => mem_of_mem_referencedCommits) ho) h
        · cases h
  | logged n =>
      rw [step] at h
      split at h
      · cases h
      rcases Run.bind_eq_ok h with ⟨⟨reference, id⟩, _, h⟩
      dsimp only at h
      split at h
      · rcases Run.bind_eq_ok h with ⟨o, ho, h⟩
        exact known (object_holds ho) h
      · split at h
        · rcases Run.bind_eq_ok h with ⟨o, ho, h⟩
          exact known (object_holds ho) h
        · cases h
  | checkedOut n =>
      rw [step] at h
      split_ifs at h
      split at h
      · cases h
      · split at h
        · cases h
          intro object hobject
          cases hobject
        · rcases Run.bind_eq_ok h with ⟨o, ho, h⟩
          exact known (abbreviated_holds ho) h
  | tracked =>
      rw [step] at h
      split_ifs at h
      rcases Run.bind_eq_ok h with ⟨_, _, h⟩
      cases h
  | dated text =>
      rw [step] at h
      split_ifs at h

theorem steps_holds {steps : List RevStep} {q : Progress} (h : steps.foldlM (r.step name) p = .ok q) :
    ∀ object, q.object = some object → r.objects.Holds object := by
  -- On the steps; what one of them reaches is what the next one starts from.
  induction steps generalizing p with
  | nil =>
      cases h
      exact held
  | cons s steps ih =>
      rw [List.foldlM_cons] at h
      rcases Run.bind_eq_ok h with ⟨next, hnext, h⟩
      exact ih (step_holds held hnext) h

end

/-- A specification names an object that is recorded, or a tree of one. -/
theorem resolve_holds {spec : String} (h : r.resolve spec = .ok object) : r.objects.Holds object := by
  rw [resolve] at h
  split at h
  · cases h
  rcases Run.bind_eq_ok h with ⟨p, hp, h⟩
  have started : ∀ object, (⟨none, none⟩ : Progress).object = some object → r.objects.Holds object := by
    intro object hobject
    cases hobject
  exact reached_holds (steps_holds started hp) h

/-- A specification names a recorded commit. -/
theorem mem_of_resolveCommit {spec : String} (h : r.resolveCommit spec = .ok (some c)) :
    .commit c ∈ r.objects := by
  unfold resolveCommit at h
  split at h
  · split at h
    · cases h
      exact Database.mem_of_peelToCommit (resolve_holds ‹_›) ‹_›
    · cases h
  · split at h
    · cases h
    · split at h
      · cases h
      · cases h
      · cases h

end Repository

end ThreeWay
