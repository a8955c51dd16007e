import ThreeWay.Proofs.Repository.Graph
import ThreeWay.Repository.Walk

/-!
# What a Walk Gathers

A walk gathers the commits that can be reached from its start. They wait in a queue for their turn, and
from then on their parents wait too, unless they came before. Which commit's turn it is decides the order
only.

What has left the queue and what waits in it are at every step the commits that were seen, each of them
once. All of them can be reached, and whoever has left the queue has its parents among them. So once the
queue is empty nothing that can be reached is missing. The number of steps suffices because each commit
takes one, and no more commits are there than recorded objects.

## Main definitions

* `Walk.Gathering`: What has left a queue, what waits in it and what was seen.

## Theorems

* `joinParents_spec`: The parents that were not seen before join the queue, each once.
* `Gathering.step`: What a commit that leaves the queue changes.
* `Gathering.run`: What is gathered in the end.
* `mem_gather_iff`: The commits that can be reached are gathered.
* `nodup_gather`: Each of them is gathered once.
-/

namespace ThreeWay

namespace Walk

variable {db : Database} {start c d p : Commit} {done queue : List Commit} {seen : List ObjectId}

theorem enqueue_perm (c : Commit) (queue : List Commit) : (enqueue c queue).Perm (c :: queue) := by
  -- The commit goes in front of the first one that is older, wherever that is.
  induction queue with
  | nil => exact List.Perm.refl _
  | cons d queue ih =>
      rw [enqueue]
      split_ifs
      · exact List.Perm.refl _
      · exact (ih.cons d).trans (List.Perm.swap c d queue)

/-- The parents that were not seen before join the queue, each once, and all of them are seen now. -/
theorem joinParents_spec (db : Database) (c : Commit) (queue : List Commit) (seen : List ObjectId) :
    ∃ fresh : List Commit,
      (joinParents db c queue seen).1.Perm (fresh ++ queue) ∧
      (joinParents db c queue seen).2.Perm (fresh.map Commit.id ++ seen) ∧
      (∀ p ∈ fresh, db.Parent c p ∧ p.id ∉ seen) ∧ (fresh.map Commit.id).Nodup ∧
      ∀ p, db.Parent c p → p.id ∈ (joinParents db c queue seen).2 := by
  simp only [← Database.parent_iff]
  rw [joinParents]
  generalize c.parents.filterMap db.commit? = ps
  -- On the parents. One that was seen before adds nothing; a new one is seen from then on, so the later ones are not
  -- it.
  induction ps generalizing queue seen with
  | nil =>
      refine ⟨[], List.Perm.refl _, List.Perm.refl _, ?_, List.nodup_nil, ?_⟩
      · intro p hp
        exact absurd hp List.not_mem_nil
      · intro p hp
        exact absurd hp List.not_mem_nil
  | cons q ps ih =>
      rw [List.foldl_cons]
      dsimp only
      by_cases hq : q.id ∈ seen
      · have hc : seen.contains q.id = true := List.contains_iff_mem.mpr hq
        rw [if_pos hc]
        rcases ih queue seen with ⟨fresh, hqueue, hseen, hfresh, hnodup, hall⟩
        refine ⟨fresh, hqueue, hseen, fun p hp => ?_, hnodup, fun p hp => ?_⟩
        · exact ⟨List.mem_cons_of_mem _ (hfresh p hp).1, (hfresh p hp).2⟩
        · rcases List.mem_cons.mp hp with rfl | hp
          · exact hseen.mem_iff.mpr (List.mem_append_right _ hq)
          · exact hall p hp
      · have hc : ¬ seen.contains q.id = true := fun h => hq (List.contains_iff_mem.mp h)
        rw [if_neg hc]
        rcases ih (enqueue q queue) (q.id :: seen) with ⟨fresh, hqueue, hseen, hfresh, hnodup, hall⟩
        have hnew : ∀ p ∈ fresh, p.id ≠ q.id := fun p hp hid =>
          (hfresh p hp).2 (hid ▸ List.mem_cons_self)
        refine ⟨q :: fresh, ?_, ?_, ?_, ?_, ?_⟩
        · exact hqueue.trans (((enqueue_perm q queue).append_left fresh).trans List.perm_middle)
        · exact hseen.trans List.perm_middle
        · intro p hp
          rcases List.mem_cons.mp hp with rfl | hp
          · exact ⟨List.mem_cons_self, hq⟩
          · refine ⟨List.mem_cons_of_mem _ (hfresh p hp).1, fun hs => ?_⟩
            exact (hfresh p hp).2 (List.mem_cons_of_mem _ hs)
        · rw [List.map_cons, List.nodup_cons]
          refine ⟨fun hm => ?_, hnodup⟩
          rcases List.mem_map.mp hm with ⟨p, hp, hid⟩
          exact hnew p hp hid
        · intro p hp
          rcases List.mem_cons.mp hp with rfl | hp
          · exact hseen.mem_iff.mpr (List.mem_append_right _ List.mem_cons_self)
          · exact hall p hp

/-- The parents of a commit join the queue, and nothing else does. -/
theorem mem_of_mem_joinParents (recorded : ∀ e ∈ queue, .commit e ∈ db)
    (h : d ∈ (joinParents db c queue seen).1) : .commit d ∈ db := by
  rcases joinParents_spec db c queue seen with ⟨fresh, hqueue, _, hfresh, _, _⟩
  rcases List.mem_append.mp (hqueue.mem_iff.mp h) with hd | hd
  · exact (hfresh d hd).1.recorded
  · exact recorded d hd

/-- What has left the queue, what waits in it, and what was seen on the way from a start. -/
structure Gathering (db : Database) (start : Commit) (done queue : List Commit)
    (seen : List ObjectId) : Prop where
  seen_perm : seen.Perm ((done ++ queue).map Commit.id)
  nodup : seen.Nodup
  reached : ∀ c ∈ done ++ queue, db.Reaches start c
  begun : start ∈ done ++ queue
  closed : ∀ c ∈ done, ∀ p, db.Parent c p → p ∈ done ++ queue

/-- At first only the start was seen. -/
theorem Gathering.first (db : Database) (start : Commit) :
    Gathering db start [] [start] [start.id] where
  seen_perm := List.Perm.refl _
  nodup := List.nodup_singleton _
  reached c hc := by
    rw [List.nil_append, List.mem_singleton] at hc
    rw [hc]
    exact Relation.ReflTransGen.refl
  begun := List.mem_singleton_self start
  closed c hc := absurd hc List.not_mem_nil

section

variable (past : db.IsPast start)

include past

/-- A commit that leaves the queue has its parents among what was seen from then on. -/
theorem Gathering.step (g : Gathering db start done (c :: queue) seen) :
    Gathering db start (done ++ [c]) (joinParents db c queue seen).1
      (joinParents db c queue seen).2 := by
  rcases joinParents_spec db c queue seen with ⟨fresh, hqueue, hseen, hfresh, hnodup, hall⟩
  have hperm : (done ++ [c] ++ (joinParents db c queue seen).1).Perm (fresh ++ (done ++ c :: queue)) := by
    have hmoved := (hqueue.append_left (done ++ [c])).trans
      (List.perm_append_comm_assoc (done ++ [c]) fresh queue)
    rwa [List.append_assoc done [c] queue] at hmoved
  have hids : (joinParents db c queue seen).2.Perm
      ((done ++ [c] ++ (joinParents db c queue seen).1).map Commit.id) := by
    have hmoved := hseen.trans (g.seen_perm.append_left (fresh.map Commit.id))
    rw [← List.map_append] at hmoved
    exact hmoved.trans (hperm.map Commit.id).symm
  have hreached : ∀ d ∈ done ++ [c] ++ (joinParents db c queue seen).1, db.Reaches start d := by
    intro d hd
    rcases List.mem_append.mp (hperm.mem_iff.mp hd) with hd | hd
    · exact (g.reached c (by simp)).tail (hfresh d hd).1
    · exact g.reached d hd
  have hnew : (joinParents db c queue seen).2.Nodup := by
    refine hseen.nodup_iff.mpr (List.nodup_append.mpr ⟨hnodup, g.nodup, fun a ha b hb hab => ?_⟩)
    rcases List.mem_map.mp ha with ⟨p, hp, rfl⟩
    exact (hfresh p hp).2 (hab ▸ hb)
  refine ⟨hids, hnew, hreached, ?_, fun d hd p hp => ?_⟩
  · exact hperm.mem_iff.mpr (List.mem_append_right _ g.begun)
  rcases List.mem_append.mp hd with hd | hd
  · exact hperm.mem_iff.mpr (List.mem_append_right _ (g.closed d hd p hp))
  · -- What was seen of a parent is its id, and the id stands for no other commit.
    rw [List.mem_singleton.mp hd] at hp
    rcases List.mem_map.mp (hids.mem_iff.mp (hall p hp)) with ⟨e, he, hid⟩
    rw [← past.eq_of_id_eq (hreached e he) ((g.reached c (by simp)).tail hp) hid]
    exact he

/-- With as many steps as there are recorded objects, the queue is empty in the end. -/
theorem Gathering.run {n : Nat} (g : Gathering db start done queue seen)
    (enough : db.length ≤ n + done.length) :
    ∃ seen', Gathering db start (done ++ gatherUpTo db n queue seen) [] seen' := by
  induction n generalizing done queue seen with
  | zero =>
      -- What has left the queue fills the database, so nothing is left to wait.
      have hle : (done ++ queue).length ≤ db.length := by
        refine Database.length_le_of_nodup (fun c hc => past.recorded (g.reached c hc)) ?_
        exact g.seen_perm.nodup_iff.mp g.nodup
      have hq : queue = [] := by
        rw [List.length_append] at hle
        exact List.eq_nil_of_length_eq_zero (by omega)
      rw [hq] at g
      rw [gatherUpTo, List.append_nil]
      exact ⟨seen, g⟩
  | succ n ih =>
      cases queue with
      | nil =>
          rw [gatherUpTo, List.append_nil]
          · exact ⟨seen, g⟩
          · exact Nat.succ_ne_zero n
      | cons c queue =>
          have hrun := ih (g.step past) (by rw [List.length_append, List.length_singleton]; omega)
          rw [List.append_assoc, List.singleton_append] at hrun
          exact hrun

theorem gather_gathering : ∃ seen, Gathering db start (gather db [start]) [] seen := by
  refine (Gathering.first db start).run past ?_
  simp only [List.length_singleton, List.length_nil]
  omega

/-- What is gathered is what can be reached. -/
theorem mem_gather_iff : c ∈ gather db [start] ↔ db.Reaches start c := by
  rcases gather_gathering past with ⟨seen, g⟩
  have hreached := g.reached
  have hbegun := g.begun
  have hclosed := g.closed
  rw [List.append_nil] at hreached hbegun hclosed
  refine ⟨hreached c, fun h => ?_⟩
  -- Along the way from the start: what is gathered is closed under parents, as nothing waits any more.
  induction h with
  | refl => exact hbegun
  | tail _ hp ih => exact hclosed _ ih _ hp

/-- Each commit is gathered once. -/
theorem nodup_gather : ((gather db [start]).map Commit.id).Nodup := by
  rcases gather_gathering past with ⟨seen, g⟩
  have hids := g.seen_perm.nodup_iff.mp g.nodup
  rwa [List.append_nil] at hids

end

end Walk

end ThreeWay
