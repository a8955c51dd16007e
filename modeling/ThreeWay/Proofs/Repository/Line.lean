import ThreeWay.Proofs.Repository.Descend

/-!
# Walking Through a History Without Merges

In a history without merges every commit has one parent or none, and walking it in topological order
goes straight down: the walk from a commit is the rest of the line from there.

A walk meets the commits that can be reached, each once, and none before one of its children. On a line
these are the rest of the line, and there is one order only that they can come in. What keeps a line apart
from a circle is that no commit occurs twice: commits are looked up by their ids, so a commit that came
back would bring back everything below it, and a line that contains itself never ends.

The line below a commit is unique, as each commit names its only parent by an id that stands for one commit. From
that all the rest follows: a commit that occurred twice would have two lines of different lengths below it; so the
ids are distinct, ancestors lie further down, and the commit has a past, to which the law of the walk applies.

## Main definitions

* `Walk.IsLine`: A history without merges, newest first.

## Theorems

* `IsLine.ne_of_mem`: No commit occurs twice.
* `IsLine.mem_of_transGen`: What a commit descends from lies further down.
* `IsLine.past`: A commit of a line has a past.
* `topological_line`: The walk from a commit is the rest of the line.
-/

namespace ThreeWay

namespace Walk

/-- A history without merges, newest first: every commit is recorded and has the next one as its only
    parent, and the last one has none. -/
inductive IsLine (db : Database) : List Commit → Prop
  | root (c : Commit) (recorded : db.commit? c.id = some c) (first : c.parents = []) : IsLine db [c]
  | next (c p : Commit) (older : List Commit) (recorded : db.commit? c.id = some c)
      (parent : c.parents = [p.id]) (below : IsLine db (p :: older)) : IsLine db (c :: p :: older)

namespace IsLine

variable {db : Database} {c d p : Commit} {older : List Commit}

theorem recorded (h : IsLine db (c :: older)) : db.commit? c.id = some c := by
  cases h with
  | root _ recorded _ => exact recorded
  | next _ _ _ recorded _ _ => exact recorded

theorem tail (h : IsLine db (c :: d :: older)) : IsLine db (d :: older) := by
  cases h with
  | next _ _ _ _ _ below => exact below

theorem recorded_of_mem {line : List Commit} (h : IsLine db line) (hd : d ∈ line) :
    db.commit? d.id = some d := by
  induction h with
  | root c recorded first =>
      rw [List.mem_singleton.mp hd]
      exact recorded
  | next c p older recorded parent below ih =>
      rcases List.mem_cons.mp hd with rfl | hd
      · exact recorded
      · exact ih hd

/-- A commit is known by its id. -/
theorem eq_of_id_eq {line : List Commit} (h : IsLine db line) (hc : c ∈ line) (hd : d ∈ line)
    (hid : c.id = d.id) : c = d := by
  have hr := h.recorded_of_mem hc
  rw [hid, h.recorded_of_mem hd] at hr
  exact (Option.some.inj hr).symm

/-- A commit has one line below it. -/
theorem unique {xs ys : List Commit} (hx : IsLine db (c :: xs)) (hy : IsLine db (c :: ys)) :
    xs = ys := by
  -- Both lines end where a commit has no parent, and go on with the same commit where it has one.
  induction xs generalizing c ys with
  | nil =>
      cases hx with
      | root _ _ first =>
          cases hy with
          | root => rfl
          | next _ _ _ _ parent => cases first.symm.trans parent
  | cons p xs ih =>
      cases hx with
      | next _ _ _ _ parent below =>
          cases hy with
          | root _ _ first => cases first.symm.trans parent
          | next _ q ys _ parent' below' =>
              have hid : p.id = q.id := List.singleton_inj.mp (parent.symm.trans parent')
              have hp := below.recorded
              rw [hid, below'.recorded] at hp
              cases hp
              rw [ih below below']

/-- Every commit of a line starts a line. -/
theorem of_append {front : List Commit} (h : IsLine db (front ++ c :: older)) :
    IsLine db (c :: older) := by
  induction front with
  | nil => exact h
  | cons f front ih =>
      refine ih ?_
      -- Taking off the first commit leaves a line, be the next one in front of the commit or the commit itself.
      cases front with
      | nil => exact h.tail
      | cons g front => exact h.tail

/-- No commit occurs twice. -/
theorem not_mem (h : IsLine db (c :: older)) : c ∉ older := by
  intro hc
  rcases List.append_of_mem hc with ⟨front, back, hb⟩
  have hl : IsLine db ((c :: front) ++ c :: back) := by
    rw [List.cons_append, ← hb]
    exact h
  -- The same commit starts two lines of different lengths, and it starts only one.
  have hu := unique h hl.of_append
  have hlen := congrArg List.length hb
  rw [hu, List.length_append, List.length_cons] at hlen
  omega

theorem ne_of_mem (h : IsLine db (c :: older)) (hd : d ∈ older) : d.id ≠ c.id := by
  intro hid
  have he := h.eq_of_id_eq (List.mem_cons_of_mem _ hd) List.mem_cons_self hid
  exact h.not_mem (he ▸ hd)

theorem nodup {line : List Commit} (h : IsLine db line) : (line.map Commit.id).Nodup := by
  induction h with
  | root c recorded first => exact List.nodup_singleton _
  | next c p older recorded parent below ih =>
      rw [List.map_cons, List.nodup_cons]
      refine ⟨fun hm => ?_, ih⟩
      rcases List.mem_map.mp hm with ⟨d, hd, hid⟩
      exact (IsLine.next c p older recorded parent below).ne_of_mem hd hid

/-- A parent lies further down. -/
theorem exists_of_parent (h : IsLine db (c :: older)) {id : ObjectId} (hd : d ∈ c :: older)
    (pd : id ∈ d.parents) : ∃ e ∈ older, e.id = id := by
  -- The commit is the first of the line, whose parent is the next, or lies below and has its parent there.
  induction older generalizing c with
  | nil =>
      cases h with
      | root _ _ first =>
          rw [List.mem_singleton.mp hd, first] at pd
          exact absurd pd List.not_mem_nil
  | cons p older ih =>
      cases h with
      | next _ _ _ _ parent below =>
          rcases List.mem_cons.mp hd with rfl | hd
          · rw [parent, List.mem_singleton] at pd
            exact ⟨p, List.mem_cons_self, pd.symm⟩
          · rcases ih below hd with ⟨e, he, hid⟩
            exact ⟨e, List.mem_cons_of_mem _ he, hid⟩

theorem mem_of_parent (h : IsLine db (c :: older)) (hd : d ∈ c :: older) (hp : db.Parent d p) :
    p ∈ older := by
  rcases h.exists_of_parent hd hp.id_mem with ⟨e, he, hid⟩
  have hf := h.recorded_of_mem (List.mem_cons_of_mem c he)
  rw [hid, hp.found] at hf
  rw [Option.some.inj hf]
  exact he

/-- A commit has one parent. -/
theorem eq_parent (h : IsLine db (c :: d :: older)) (hp : db.Parent c p) : p = d := by
  cases h with
  | next _ _ _ _ parent below =>
      have hid := hp.id_mem
      rw [parent, List.mem_singleton] at hid
      have hf := hp.found
      rw [hid, below.recorded] at hf
      exact (Option.some.inj hf).symm

/-- What a commit descends from lies further down. -/
theorem mem_of_transGen (h : IsLine db (c :: older)) (hd : Relation.TransGen db.Parent c d) : d ∈ older := by
  induction hd with
  | single hp => exact h.mem_of_parent List.mem_cons_self hp
  | tail _ hp ih => exact h.mem_of_parent (List.mem_cons_of_mem c ih) hp

/-- What can be reached from a commit is the rest of the line. -/
theorem mem_of_reaches (h : IsLine db (c :: older)) (hd : db.Reaches c d) : d ∈ c :: older := by
  rcases Relation.reflTransGen_iff_eq_or_transGen.mp hd with rfl | hd
  · exact List.mem_cons_self
  · exact List.mem_cons_of_mem c (h.mem_of_transGen hd)

/-- A commit of a line has a past. -/
theorem past (h : IsLine db (c :: older)) : db.IsPast c where
  found := h.recorded
  -- A commit of the line that descends from itself would lie below itself.
  acyclic d hd hself := by
    rcases List.append_of_mem (h.mem_of_reaches hd) with ⟨front, rest, hline⟩
    rw [hline] at h
    exact h.of_append.not_mem (h.of_append.mem_of_transGen hself)

/-- There is one way to go down a line. -/
theorem eq_of_descends {walk : List Commit} (h : IsLine db (c :: older)) (descends : Descends db c walk) :
    walk = c :: older := by
  -- The commit comes first in both. What comes behind is a walk down from its parent, and that is the rest of the
  -- line by induction.
  induction older generalizing c walk with
  | nil =>
      rcases descends.exists_older h.past with ⟨rest, rfl, hc⟩
      have hnone : rest = [] := by
        refine List.eq_nil_iff_forall_not_mem.mpr fun d hd => ?_
        have hreach := (descends.mem_iff d).mp (List.mem_cons_of_mem c hd)
        exact hc (List.mem_singleton.mp (h.mem_of_reaches hreach) ▸ hd)
      rw [hnone]
  | cons p older ih =>
      rcases descends.exists_older h.past with ⟨rest, rfl, hc⟩
      have hp : db.Parent c p := by
        cases h with
        | next _ _ _ _ parent below => exact ⟨p.id, parent ▸ List.mem_singleton_self p.id, below.recorded⟩
      -- Behind the commit comes what can be reached from its only parent.
      have hrest : Descends db p rest := by
        refine ⟨fun d => ⟨fun hd => ?_, fun hd => ?_⟩, ?_, (List.pairwise_cons.mp descends.ordered).2⟩
        · have hreach := (descends.mem_iff d).mp (List.mem_cons_of_mem c hd)
          rcases Relation.ReflTransGen.cases_head hreach with rfl | ⟨q, hq, hd'⟩
          · exact absurd hd hc
          · have hq := h.eq_parent hq
            rw [← hq]
            exact hd'
        · have hd' := Relation.TransGen.head' hp hd
          rcases List.mem_cons.mp ((descends.mem_iff d).mpr hd'.to_reflTransGen) with rfl | hmem
          · exact absurd hd' (h.past.acyclic d Relation.ReflTransGen.refl)
          · exact hmem
        · exact (List.nodup_cons.mp descends.nodup).2
      rw [ih h.tail hrest]

end IsLine

/-- The walk from a commit of a line is the rest of the line. -/
theorem topological_line {db : Database} {c : Commit} {older : List Commit} (h : IsLine db (c :: older)) :
    topological db [c] = c :: older :=
  h.eq_of_descends (topological_descends h.past)

end Walk

end ThreeWay
