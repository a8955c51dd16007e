import ThreeWay.Proofs.Heap
import ThreeWay.Proofs.Lists
import ThreeWay.Proofs.Repository.Gather

/-!
# The Walk Down a History

In topological order a walk takes the gathered commits one after the other and none before one of its
children. The commits that are ready wait in a heap. A commit is put there when the last one of its
children was taken, so what was taken or is ready has all of its children taken, and the other way round.

A commit that never becomes ready has a child that was never taken, and that child has such a child too.
In a finite graph without cycles this comes to an end, so in the end every gathered commit was taken.

The order by which the heap decides among the ready commits plays no part in this.

`Releasing` is the invariant of the run: a gathered commit was taken or is ready exactly if all its children were
taken. A step takes one commit off the heap, and the only commits whose children it completes are parents of that
one. Nothing is said about the heap but that it holds the ready commits, in whatever arrangement; so every step is
up to a permutation.

## Main definitions

* `Walk.Releasing`: What was taken and what is ready.
* `Walk.Descends`: The reachable commits, each once, no commit before one of its children.

## Theorems

* `mem_freed_iff`: What becomes ready when a commit is taken.
* `Releasing.step`: What taking a commit changes.
* `Releasing.run`: What was taken in the end.
* `Descends.mem_older`: What a commit descends from comes after it.
* `topological_descends`: The walk in topological order goes down the history.
-/

namespace ThreeWay

namespace Walk

variable {all out ready : List Commit} {c d p : Commit}

theorem mem_children {id : ObjectId} : d ∈ children all id ↔ d ∈ all ∧ id ∈ d.parents := by
  rw [children, List.mem_filter, List.contains_iff_mem]

theorem nodup_freed {done : List ObjectId} : ((freed all done c).map Commit.id).Nodup := by
  rw [freed, List.map_filterMap]
  refine List.Nodup.filterMap (fun a b id ha hb => ?_)
    ((List.nodup_reverse.mpr (List.nodup_eraseDups _)).filter _)
  -- Only its own id is found under an id.
  have own : ∀ k, id ∈ (all.find? (·.id = k)).map Commit.id → id = k := by
    intro k hk
    rcases Option.mem_map.mp hk with ⟨p, hp, rfl⟩
    have hid := List.find?_some hp
    rwa [decide_eq_true_iff] at hid
  rw [← own a ha, own b hb]

section

variable (distinct : (all.map Commit.id).Nodup)

include distinct

theorem find?_of_mem (hp : p ∈ all) : all.find? (·.id = p.id) = some p := by
  cases hf : all.find? (·.id = p.id) with
  | none => exact absurd (decide_eq_true rfl) (List.find?_eq_none.mp hf p hp)
  | some q =>
      have hid := List.find?_some hf
      rw [decide_eq_true_iff] at hid
      rw [List.inj_on_of_nodup_map distinct (List.mem_of_find?_eq_some hf) hp hid]

/-- What becomes ready when a commit is taken: its parents with no other child left. -/
theorem mem_freed_iff {done : List ObjectId} : p ∈ freed all done c ↔
    p ∈ all ∧ p.id ∈ c.parents ∧ ∀ d ∈ all, p.id ∈ d.parents → d.id ∈ done := by
  simp only [freed, List.mem_filterMap, List.mem_filter, List.mem_reverse, List.mem_eraseDups,
    List.all_eq_true, mem_children, List.contains_iff_mem]
  -- The ids are those of parents without another child left, and each is looked up among the gathered commits.
  constructor
  · rintro ⟨id, ⟨hid, hdone⟩, hf⟩
    have hp := List.find?_some hf
    rw [decide_eq_true_iff] at hp
    rw [hp]
    exact ⟨List.mem_of_find?_eq_some hf, hid, fun d hd hm => hdone d ⟨hd, hm⟩⟩
  · rintro ⟨hp, hid, hdone⟩
    exact ⟨p.id, ⟨hid, fun d hd => hdone d hd.1 hd.2⟩, find?_of_mem distinct hp⟩

end

/-- What was taken of the gathered commits and what is ready to be taken. -/
structure Releasing (all out ready : List Commit) : Prop where
  nodup : ((out ++ ready).map Commit.id).Nodup
  gathered : ∀ c ∈ out ++ ready, c ∈ all
  ready_iff : ∀ c ∈ all, c ∈ out ++ ready ↔ ∀ d ∈ all, c.id ∈ d.parents → d ∈ out
  ordered : out.Pairwise fun c d => c.id ∉ d.parents

theorem Releasing.congr (r : Releasing all out ready) {other : List Commit} (h : ready.Perm other) :
    Releasing all out other := by
  have happ : (out ++ ready).Perm (out ++ other) := h.append_left out
  refine ⟨(happ.map _).nodup_iff.mp r.nodup, fun c hc => r.gathered c (happ.mem_iff.mpr hc), ?_, r.ordered⟩
  intro c hc
  rw [← happ.mem_iff]
  exact r.ready_iff c hc

section

variable (distinct : (all.map Commit.id).Nodup)

include distinct

/-- Taking a ready commit makes those parents ready that have no other child left. -/
theorem Releasing.step (r : Releasing all out (c :: ready)) {done : List ObjectId}
    (hdone : ∀ id, id ∈ done ↔ id ∈ (out ++ [c]).map Commit.id) :
    Releasing all (out ++ [c]) (freed all done c ++ ready) := by
  have hc : c ∈ all := r.gathered c (by simp)
  have hout : ∀ d ∈ out ++ [c], d ∈ all := fun d hd => r.gathered d (by
    rw [← List.singleton_append, ← List.append_assoc]
    exact List.mem_append_left _ hd)
  have htaken : ∀ d ∈ all, d.id ∈ done ↔ d ∈ out ++ [c] := by
    intro d hd
    rw [hdone, List.mem_map]
    refine ⟨?_, fun h => ⟨d, h, rfl⟩⟩
    rintro ⟨e, he, hid⟩
    rwa [← List.inj_on_of_nodup_map distinct (hout e he) hd hid]
  have hfresh : c ∉ out := by
    intro hm
    have hdisjoint := (List.nodup_append.mp (List.Nodup.of_map _ r.nodup)).2.2
    exact hdisjoint c hm c List.mem_cons_self rfl
  -- A parent of the commit was neither taken nor ready, as this child of it was not taken yet.
  have hbelow : ∀ p ∈ all, p.id ∈ c.parents → p ∉ out ++ c :: ready := fun p hp hid hm =>
    hfresh ((r.ready_iff p hp).mp hm c hc hid)
  have hperm : (out ++ [c] ++ (freed all done c ++ ready)).Perm
      (freed all done c ++ (out ++ c :: ready)) := by
    have hmoved := List.perm_append_comm_assoc (out ++ [c]) (freed all done c) ready
    rwa [List.append_assoc out [c] ready] at hmoved
  -- No commit is both freed and there before; all are gathered; readiness is about children; and no parent of the
  -- commit was taken.
  refine ⟨?_, fun d hd => ?_, fun p hp => ?_, ?_⟩
  · rw [(hperm.map Commit.id).nodup_iff, List.map_append]
    refine List.nodup_append.mpr ⟨nodup_freed, r.nodup, fun a ha b hb hab => ?_⟩
    rcases List.mem_map.mp ha with ⟨p, hp, rfl⟩
    rcases List.mem_map.mp hb with ⟨q, hq, rfl⟩
    rcases (mem_freed_iff distinct).mp hp with ⟨hall, hid, _⟩
    have hpq := List.inj_on_of_nodup_map distinct hall (r.gathered q hq) hab
    exact hbelow p hall hid (hpq ▸ hq)
  · rcases List.mem_append.mp (hperm.mem_iff.mp hd) with hd | hd
    · exact ((mem_freed_iff distinct).mp hd).1
    · exact r.gathered d hd
  · rw [hperm.mem_iff, List.mem_append, mem_freed_iff distinct, r.ready_iff p hp]
    constructor
    · rintro (⟨_, _, h⟩ | h) d hd hid
      · exact (htaken d hd).mp (h d hd hid)
      · exact List.mem_append_left _ (h d hd hid)
    · intro h
      by_cases hid : p.id ∈ c.parents
      · exact .inl ⟨hp, hid, fun d hd hm => (htaken d hd).mpr (h d hd hm)⟩
      · refine .inr fun d hd hm => ?_
        rcases List.mem_append.mp (h d hd hm) with ho | ho
        · exact ho
        · exact absurd (List.mem_singleton.mp ho ▸ hm) hid
  · refine List.pairwise_append.mpr ⟨r.ordered, List.pairwise_singleton _ _, fun d hd e he hid => ?_⟩
    rw [List.mem_singleton.mp he] at hid
    exact hbelow d (hout d (List.mem_append_left _ hd)) hid (List.mem_append_left _ hd)

/-- With as many steps as there are gathered commits, nothing is left that is ready. -/
theorem Releasing.run {n : Nat} {heap : Heap Commit} {done : List ObjectId}
    (r : Releasing all out heap.elements.toList) (hdone : ∀ id, id ∈ done ↔ id ∈ out.map Commit.id)
    (enough : all.length ≤ n + out.length) : Releasing all (out ++ release all n heap done) [] := by
  -- On the number of steps. With none left everything was taken, by counting; otherwise the heap is empty or gives
  -- the next commit.
  induction n generalizing out heap done with
  | zero =>
      have hle : (out ++ heap.elements.toList).length ≤ all.length :=
        ((List.Nodup.of_map _ r.nodup).subperm r.gathered).length_le
      rw [List.length_append] at hle
      have hready : heap.elements.toList = [] := List.eq_nil_of_length_eq_zero (by omega)
      rw [hready] at r
      rw [release, List.append_nil]
      exact r
  | succ n ih =>
      rw [release]
      cases hp : heap.pop isNewer with
      | none =>
          rw [Heap.pop_eq_none.mp hp] at r
          rw [List.append_nil]
          exact r
      | some next =>
          rcases next with ⟨c, rest⟩
          have hnext : ∀ id, id ∈ c.id :: done ↔ id ∈ (out ++ [c]).map Commit.id := by
            intro id
            rw [List.map_append, List.mem_append, List.mem_cons, hdone, or_comm]
            simp only [List.map_cons, List.map_nil, List.mem_singleton]
          have hstep := (r.congr (Heap.pop_perm hp)).step distinct hnext
          have hrun := ih (hstep.congr (Heap.foldl_insert_perm isNewer rest _).symm) hnext
            (by rw [List.length_append, List.length_singleton]; omega)
          rw [List.append_assoc, List.singleton_append] at hrun
          exact hrun

end

/-- At first the commits without children are ready. -/
theorem Releasing.first (distinct : (all.map Commit.id).Nodup) :
    Releasing all [] (all.filter fun c => (children all c.id).isEmpty) where
  nodup := distinct.sublist (List.filter_sublist.map _)
  gathered c hc := (List.mem_filter.mp hc).1
  ready_iff c hc := by
    simp only [List.nil_append, List.mem_filter, hc, true_and, List.isEmpty_iff,
      List.eq_nil_iff_forall_not_mem, mem_children, not_and, List.not_mem_nil, imp_false]
  ordered := List.Pairwise.nil

/-- The commits that can be reached from a start, each once, and no commit before one of its children. -/
structure Descends (db : Database) (start : Commit) (walk : List Commit) : Prop where
  mem_iff : ∀ c, c ∈ walk ↔ db.Reaches start c
  nodup : (walk.map Commit.id).Nodup
  ordered : walk.Pairwise fun c d => ¬ db.Parent d c

/-- What a commit descends from comes after it in the walk. -/
theorem Descends.mem_older {db : Database} {start : Commit} {walk newer older : List Commit}
    (descends : Descends db start walk) (past : db.IsPast start) (split : walk = newer ++ c :: older)
    (h : Relation.TransGen db.Parent c d) : d ∈ older := by
  have hc : db.Reaches start c := (descends.mem_iff c).mp (by rw [split]; simp)
  have hordered := descends.ordered
  rw [split] at hordered
  rcases List.pairwise_append.mp hordered with ⟨_, hbelow, hnewer⟩
  -- Neither in front of the commit nor at its place is room for a parent of what comes after it.
  have next : ∀ e ∈ c :: older, Relation.ReflTransGen db.Parent c e → ∀ p, db.Parent e p → p ∈ older := by
    intro e he hce p hp
    have hmem : p ∈ walk := (descends.mem_iff p).mpr ((hc.trans hce).tail hp)
    rw [split] at hmem
    rcases List.mem_append.mp hmem with hm | hm
    · exact absurd hp (hnewer p hm e he)
    · rcases List.mem_cons.mp hm with rfl | hm
      · exact absurd (Relation.TransGen.tail' hce hp) (past.acyclic _ hc)
      · exact hm
  -- On the way down: each step leads to a parent of what lies there already.
  induction h with
  | single hp => exact next c List.mem_cons_self Relation.ReflTransGen.refl _ hp
  | tail hd hp ih => exact next _ (List.mem_cons_of_mem _ ih) hd.to_reflTransGen _ hp

/-- The start comes first. -/
theorem Descends.exists_older {db : Database} {start : Commit} {walk : List Commit}
    (descends : Descends db start walk) (past : db.IsPast start) :
    ∃ older, walk = start :: older ∧ start ∉ older := by
  have hstart := (descends.mem_iff start).mpr Relation.ReflTransGen.refl
  rcases List.append_of_mem hstart with ⟨newer, older, split⟩
  have hnodup := List.Nodup.of_map _ descends.nodup
  rw [split] at hnodup
  rcases List.nodup_append.mp hnodup with ⟨_, hbelow, hnewer⟩
  -- Everything else is something that the start descends from.
  have hnone : newer = [] := by
    refine List.eq_nil_iff_forall_not_mem.mpr fun c hc => ?_
    have hreach := (descends.mem_iff c).mp (by rw [split]; exact List.mem_append_left _ hc)
    rcases Relation.reflTransGen_iff_eq_or_transGen.mp hreach with heq | hdescends
    · exact hnewer c hc start List.mem_cons_self heq
    · exact hnewer c hc c (List.mem_cons_of_mem _ (descends.mem_older past split hdescends)) rfl
  rw [hnone, List.nil_append] at split
  exact ⟨older, split, (List.nodup_cons.mp hbelow).1⟩

/-- The walk in topological order goes down the history. -/
theorem topological_descends {db : Database} {start : Commit} (past : db.IsPast start) :
    Descends db start (topological db [start]) := by
  have distinct := nodup_gather past
  have mem_iff : ∀ c, c ∈ gather db [start] ↔ db.Reaches start c := fun c =>
    mem_gather_iff past
  have r : Releasing (gather db [start]) (topological db [start]) [] := by
    have hready := (Heap.foldl_insert_perm isNewer Heap.empty
      ((gather db [start]).filter fun c => (children (gather db [start]) c.id).isEmpty)).symm
    rw [show (Heap.empty : Heap Commit).elements.toList = [] from rfl, List.append_nil] at hready
    have hrun := ((Releasing.first distinct).congr hready).run distinct (fun id => Iff.rfl)
      (Nat.le_add_right _ _)
    exact hrun
  have hnodup := r.nodup
  have hgathered := r.gathered
  have hready := r.ready_iff
  rw [List.append_nil] at hnodup hgathered hready
  -- What was not taken has a child that was not taken.
  have complete : ∀ c, db.Reaches start c → c ∈ topological db [start] := by
    refine past.induction_up fun p hp ih => (hready p ((mem_iff p).mpr hp)).mpr fun c hc hid => ?_
    exact ih c ((mem_iff c).mp hc) (past.parent_of_id_mem hp hid)
  refine ⟨fun c => ⟨fun h => (mem_iff c).mp (hgathered c h), complete c⟩, hnodup, ?_⟩
  · exact r.ordered.imp fun h hp => h hp.id_mem

end Walk

end ThreeWay
