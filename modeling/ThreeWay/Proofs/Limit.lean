import ThreeWay.Proofs.Ancestry

/-!
# Histories With a Limit

A history is cut off at a limit, and whether it was is told by looking for one commit more. So all limits
tell the beginning of one and the same list, and a history that ends exactly at its limit is not taken for
one that goes on.

The list holds every change of the path that can be reached from the start, in the order of the walk and
each change once. Its head is the last change of the path.

Where numbers end somewhere, there may be no number for one commit more. Then as many commits as there are
numbers are looked for, and as no repository holds more than that, nothing is missed.

The one list is what the walk filters, `all`, and a history with a limit is a beginning of it. So everything about
histories with limits follows from `List.take`, and what is there to know about the list is known from the walk:
the order, that nothing is in it twice, and that it holds every change that can be reached.

## Main definitions

* `History.ancestryWithin`: A history where numbers end at a bound.
* `History.Limits`: What the histories of a path with different limits have in common.

## Theorems

* `ancestryWithin_eq`: A bound that counts all objects makes no difference.
* `limits_all`: All of it for the beginnings of the list that the walk gives.
* `ancestry_limits`: The histories of a path are the beginnings of one list.
* `limits_of_merged`: A history that ends at its limit, and one that is cut off.
-/

namespace ThreeWay

namespace History

variable {db : Database} {start : Commit} {names : List Bytes} {path : Path}

/-- The ids of the commits that changed a path, up to a limit, where no number is greater than a bound. The
    one commit more is looked for as far as numbers go. -/
def ancestryWithin (bound : Nat) (db : Database) (start : Commit) (path : Path) (limit : Nat) :
    Except ObjectError Ancestry := do
  let found ← commits db start path (min (limit + 1) bound)
  return ⟨(found.take limit).map fun c => ⟨c.id.hex⟩, limit < found.length⟩

/-- What the histories of a path with different limits, and its last change, have in common. -/
structure Limits (db : Database) (start : Commit) (names : List Bytes) (history : Nat → Ancestry)
    (last : Option CommitInfo) (changed : List Commit) : Prop where
  mem_iff : ∀ c, c ∈ changed ↔ db.Reaches start c ∧ Changes db names c
  ordered : changed.Sublist (Walk.topological db [start])
  whole : ∀ limit, (history limit).truncated = false → (history limit).commits = tell changed
  nodup : ∀ limit, (history limit).commits.Nodup
  initial : ∀ limit more, limit ≤ more →
    (history limit).commits = (history more).commits.take limit
  truncated_iff : ∀ limit, (history limit).truncated = true ↔
    ∃ more, limit < (history more).commits.length
  last_eq : last = changed.head?.map CommitInfo.ofCommit
  last_head : ∀ limit, 1 ≤ limit →
    (history limit).commits.head? = last.map fun info => ⟨info.id.hex⟩
  last_none : ∀ limit, 1 ≤ limit → (last = none ↔ (history limit).commits = [])

/-- A bound on numbers that counts all objects makes no difference. -/
theorem ancestryWithin_eq (past : db.IsPast start) (path : Path) {bound limit : Nat}
    (counted : db.length ≤ bound) (hlimit : limit ≤ bound) :
    ancestryWithin bound db start path limit = ancestry db start path limit := by
  -- A path that cannot be looked up has no history, with a bound or without.
  cases hn : path.treeNames with
  | error e =>
      rw [ancestryWithin, ancestry, commits, commits, hn]
      rfl
  | ok names =>
      have hlength : (all db start names).length ≤ bound := (length_all_le past).trans counted
      have hfound : (all db start names).take (min (limit + 1) bound) =
          (all db start names).take (limit + 1) := by
        by_cases hb : limit + 1 ≤ bound
        · rw [Nat.min_eq_left hb]
        · -- There is no number for one commit more, and no commit for it either.
          rw [Nat.min_eq_right (by omega), List.take_of_length_le hlength,
            List.take_of_length_le (by omega)]
      rw [ancestryWithin, ancestry, commits_eq hn, commits_eq hn, hfound]

/-- The histories of a path with all limits are the beginnings of one list. -/
theorem limits_all (past : db.IsPast start) (names : List Bytes) :
    Limits db start names
      (fun limit => ⟨(tell (all db start names)).take limit, limit < (all db start names).length⟩)
      ((all db start names).head?.map CommitInfo.ofCommit) (all db start names) where
  mem_iff c := mem_all_iff past
  ordered := List.filter_sublist
  whole limit h := by
    -- What is not cut off is no longer than the limit, so nothing is taken away.
    rw [decide_eq_false_iff_not, Nat.not_lt] at h
    refine List.take_of_length_le ?_
    rw [tell, List.length_map]
    exact h
  nodup limit := (nodup_tell (nodup_all past)).sublist (List.take_sublist _ _)
  initial limit more hle := by
    rw [List.take_take, Nat.min_eq_left hle]
  truncated_iff limit := by
    simp only [decide_eq_true_eq, List.length_take, tell, List.length_map, Nat.lt_min]
    -- A longer history than the limit allows shows up with one more.
    constructor
    · intro h
      exact ⟨limit + 1, Nat.lt_succ_self limit, h⟩
    · rintro ⟨more, -, h⟩
      exact h
  last_eq := rfl
  last_head limit hle := by
    rw [List.head?_take, if_neg (Nat.ne_zero_of_lt hle), tell, List.head?_map, Option.map_map]
    rfl
  last_none limit hle := by
    rw [Option.map_eq_none_iff, List.head?_eq_none_iff, List.take_eq_nil_iff,
      or_iff_right (Nat.ne_zero_of_lt hle), tell, List.map_eq_nil_iff]

/-- The histories of a path that can be looked up are the beginnings of one list, with all limits that
    there are numbers for. Any other path has none of them. -/
theorem ancestry_limits (past : db.IsPast start) (path : Path) :
    Walk.Descends db start (Walk.topological db [start]) ∧
    (∀ bound limit, db.length ≤ bound → limit ≤ bound →
      ancestryWithin bound db start path limit = ancestry db start path limit) ∧
    (∀ e, path.treeNames = .error e → lastChange db start path = .error e ∧
      ∀ limit, ancestry db start path limit = .error e) ∧
    ∀ names, path.treeNames = .ok names → ∃ history last changed,
      (∀ limit, ancestry db start path limit = .ok (history limit)) ∧
      lastChange db start path = .ok last ∧ Limits db start names history last changed := by
  refine ⟨Walk.topological_descends past, fun bound limit => ancestryWithin_eq past path, ?_, ?_⟩
  · intro e he
    -- The history and the last change are both read off the commits of the path, and those cannot be told.
    have hcommits : ∀ limit, commits db start path limit = .error e := by
      intro limit
      rw [commits, he]
      rfl
    refine ⟨?_, fun limit => ?_⟩
    · rw [lastChange, hcommits]
      rfl
    · rw [ancestry, hcommits]
      rfl
  · intro names hn
    exact ⟨_, _, _, ancestry_eq hn start, lastChange_eq hn start, limits_all past names⟩

open Synchronizer.Sample in
/-- A history that ends at its limit is not cut off, and with one commit less it is. -/
theorem limits_of_merged : ∃ history : Nat → Ancestry,
    (∀ limit, ancestry merged.checkout.repository.objects merge (.ofString "f") limit =
      .ok (history limit)) ∧
    (history 2).commits = tell [side, first] ∧ (history 2).truncated = false ∧
    (history 1).commits = tell [side] ∧ (history 1).truncated = true := by
  have hnames : (Path.ofString "f").treeNames = .ok [Synchronizer.Sample.name] := by decide +kernel
  -- The law gives all histories at once, and one of them is computed to be compared with.
  rcases (ancestry_limits past_merged (.ofString "f")).2.2.2 _ hnames with
    ⟨history, last, changed, hhistory, _, limits⟩
  have htwo := (hhistory 2).symm.trans (ancestry_eq hnames merge 2)
  rw [all_merged, Except.ok.injEq] at htwo
  refine ⟨history, hhistory, ?_, ?_, ?_, ?_⟩
  · rw [htwo]
    rfl
  · rw [htwo]
    rfl
  · rw [limits.initial 1 2 (by decide), htwo]
    rfl
  · refine (limits.truncated_iff 1).mpr ⟨2, ?_⟩
    rw [htwo]
    decide

end History

end ThreeWay
