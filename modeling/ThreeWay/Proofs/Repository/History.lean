import ThreeWay.Proofs.Repository.Line
import ThreeWay.Repository.History

/-!
# Histories of a Path on a Line

On a history without merges the history of a path is what is left of the line when the commits that kept
the path are taken out. So the history from a newer commit is the history from an older one with the
changes in between in front of it, and `changesBetween` counts those.

The same test serves for every commit of a line: a commit changed a path when its parent records
something else there, and the first commit has no parent to record anything.

## Main definitions

* `Commit.differs`: What a commit records at a path is not what its parent records.
* `History.onLine`: The history of a path from a place on a line.
* `History.changesBetween`: How many commits between two places changed a path.
* `History.tell`: Commits as they are told in a history.

## Theorems

* `all_line`: The history from a commit of a line.
* `onLine_append`: The history from a newer place continues in the one from an older place.
* `onLine_ne_nil`: What is recorded was recorded at some time.
* `idAt_eq_of_unchanged`: Without changes in between two places record the same.
* `ancestry_eq`, `lastChange_eq`: What is told about a history with a limit, and about its head.
* `ancestry_line`: The same on a line.
-/

namespace ThreeWay

/-- Whether what a commit records at a chain of names is not what its parent records there. -/
def Commit.differs (db : Database) (names : List Bytes) (c : Commit) : Bool :=
  (c.parents.head?.bind db.commit?).bind (·.idAt names) ≠ c.idAt names

namespace History

open Walk

variable {db : Database} {names : List Bytes}

/-- Where no commit has two parents, the commits that changed a path are those that differ from their
    parent. -/
theorem touches_eq_differs {past : List Commit} (h : IsLine db past) {c : Commit} (hc : c ∈ past) :
    touches db names c = c.differs db names := by
  -- A first commit touches what it records, and the parent it differs from is one that records nothing.
  have root : ∀ d : Commit, d.parents = [] → touches db names d = d.differs db names := by
    intro d hd
    rw [touches, Commit.differs, hd]
    cases d.idAt names with
    | none => rfl
    | some id => rfl
  -- Down the line to the commit in question; what lies below a place of a line is a line.
  induction h with
  | root d recorded first => exact root c (List.mem_singleton.mp hc ▸ first)
  | next d p older recorded parent below ih =>
      rcases List.mem_cons.mp hc with rfl | hc
      · rw [touches, Commit.differs, parent]
        simp only [List.all_cons, List.all_nil, Bool.and_true, List.head?_cons, Option.bind_some]
        exact decide_eq_decide.mpr Iff.rfl
      · exact ih hc

/-- The commits at and below a place of a line that changed a path. -/
def onLine (db : Database) (names : List Bytes) (past : List Commit) (place : Nat) : List Commit :=
  (past.drop place).filter (Commit.differs db names)

/-- How many commits changed a path after the older one of two places, up to and including the newer
    one. -/
def changesBetween (db : Database) (names : List Bytes) (past : List Commit) (i j : Nat) : Nat :=
  ((past.take (max i j)).drop (min i j)).countP (Commit.differs db names)

/-- Commits as they are told in a history. -/
def tell (cs : List Commit) : List CommitId :=
  cs.map fun c => ⟨c.id.hex⟩

theorem changesBetween_comm (past : List Commit) (i j : Nat) :
    changesBetween db names past i j = changesBetween db names past j i := by
  rw [changesBetween, changesBetween, Nat.max_comm, Nat.min_comm]

section

variable {past : List Commit} (h : IsLine db past) {c : Commit} {i : Nat} (hi : past[i]? = some c)

include h hi

theorem exists_drop : ∃ older, past.drop i = c :: older ∧ IsLine db (c :: older) := by
  -- The line is cut in front of the commit, and what comes behind the cut is a line.
  have hlt : i < past.length := (List.getElem?_eq_some_iff.mp hi).1
  have hd : past.drop i = c :: past.drop (i + 1) := by
    rw [List.drop_eq_getElem_cons hlt, (List.getElem?_eq_some_iff.mp hi).2]
  have hl : past.take i ++ c :: past.drop (i + 1) = past := by
    rw [← hd, List.take_append_drop]
  rw [← hl] at h
  exact ⟨past.drop (i + 1), hd, h.of_append⟩

/-- The history from a commit of a line. -/
theorem all_line : all db c names = onLine db names past i := by
  rcases exists_drop h hi with ⟨older, hd, hl⟩
  rw [all, topological_line hl, onLine, hd]
  exact List.filter_congr fun d hm => touches_eq_differs hl hm

/-- What is recorded at a path was recorded there by some commit. -/
theorem onLine_ne_nil (recorded : (c.idAt names).isSome) : onLine db names past i ≠ [] := by
  rcases exists_drop h hi with ⟨older, hd, hl⟩
  rw [onLine, hd]
  clear hd hi
  induction older generalizing c with
  | nil =>
      -- The first commit recorded it, if no later one did.
      cases hl with
      | root _ _ first =>
          have hc : c.differs db names = true := by
            rw [Commit.differs, first, decide_eq_true_iff]
            intro hn
            rw [← hn] at recorded
            cases recorded
          rw [List.filter_cons_of_pos hc]
          exact List.cons_ne_nil _ _
  | cons p older ih =>
      cases hl with
      | next _ _ _ _ parent below =>
          by_cases hc : c.differs db names = true
          · rw [List.filter_cons_of_pos hc]
            exact List.cons_ne_nil _ _
          · -- The parent records the same, so the history goes on below.
            rw [List.filter_cons_of_neg hc]
            refine ih ?_ below
            rw [Commit.differs, decide_eq_true_iff, not_not, parent] at hc
            simp only [List.head?_cons, Option.bind_some, below.recorded] at hc
            rw [hc]
            exact recorded

end

/-- The history from a newer place is that from an older place with the changes in between in front. -/
theorem onLine_append (past : List Commit) {i j : Nat} (hij : j ≤ i) :
    ∃ newer, onLine db names past j = newer ++ onLine db names past i ∧
      newer.length = changesBetween db names past i j := by
  refine ⟨((past.take i).drop j).filter (Commit.differs db names), ?_, ?_⟩
  · rw [onLine, onLine, ← List.filter_append]
    congr 1
    have hd : (past.take i ++ past.drop i).drop j =
        (past.take i).drop j ++ (past.drop i).drop (j - (past.take i).length) :=
      List.drop_append
    rw [List.take_append_drop] at hd
    rw [hd]
    -- A place behind the end of the line leaves nothing on either side.
    by_cases hlen : i ≤ past.length
    · rw [List.length_take, Nat.min_eq_left hlen, Nat.sub_eq_zero_of_le hij, List.drop_zero]
    · rw [List.drop_eq_nil_of_le (Nat.le_of_not_le hlen), List.drop_nil]
  · rw [changesBetween, Nat.max_eq_left hij, Nat.min_eq_right hij, List.countP_eq_length_filter]

/-- Where nothing changed a path between two places, both record the same there. -/
theorem idAt_eq_of_unchanged {past : List Commit} (h : IsLine db past) {c d : Commit} {i j : Nat}
    (hij : j ≤ i) (hi : past[i]? = some c) (hj : past[j]? = some d)
    (unchanged : changesBetween db names past i j = 0) : d.idAt names = c.idAt names := by
  rw [changesBetween, Nat.max_eq_left hij, Nat.min_eq_right hij, List.countP_eq_zero] at unchanged
  rcases Nat.exists_eq_add_of_le hij with ⟨n, rfl⟩
  -- The newer commit records what its parent does, and from there it is one commit less.
  induction n generalizing j d with
  | zero =>
      rw [Nat.add_zero, hj] at hi
      rw [Option.some.inj hi]
  | succ n ih =>
      rcases exists_drop h hj with ⟨older, hd, hl⟩
      have hlt : j < j + (n + 1) := by omega
      have hmem : d ∈ (past.take (j + (n + 1))).drop j := by
        rw [List.drop_take, hd, Nat.add_sub_cancel_left, List.take_succ_cons]
        exact List.mem_cons_self
      have hsame := unchanged d hmem
      cases older with
      | nil =>
          have hlen := congrArg List.length hd
          have hil := (List.getElem?_eq_some_iff.mp hi).1
          rw [List.length_drop, List.length_singleton] at hlen
          omega
      | cons p older =>
          have hp : past[j + 1]? = some p := by
            rw [← List.getElem?_drop, hd]
            rfl
          cases hl with
          | next _ _ _ _ parent below =>
              rw [Commit.differs, decide_eq_true_iff, not_not, parent] at hsame
              simp only [List.head?_cons, Option.bind_some, below.recorded] at hsame
              rw [← hsame]
              have hsum : j + (n + 1) = j + 1 + n := by omega
              rw [hsum] at hi unchanged
              refine ih hp (Nat.le_add_right _ _) hi fun e he => unchanged e ?_
              rw [← List.drop_drop] at he
              exact List.mem_of_mem_drop he

/-- Commits with different ids are told apart. -/
theorem nodup_tell {cs : List Commit} (h : (cs.map Commit.id).Nodup) : (tell cs).Nodup := by
  have htell : tell cs = (cs.map Commit.id).map fun id => ⟨id.hex⟩ := by
    rw [tell, List.map_map]
    rfl
  rw [htell]
  -- An id is its hexadecimal text and nothing else.
  refine h.map fun a b hab => ?_
  have hhex := CommitId.mk.inj hab
  rw [← ObjectId.mk.injEq] at hhex
  exact hhex

/-- No commit is told twice. -/
theorem nodup_tell_onLine {past : List Commit} (h : IsLine db past) (i : Nat) :
    (tell (onLine db names past i)).Nodup := by
  have hsub : (onLine db names past i).Sublist past :=
    List.filter_sublist.trans (List.drop_sublist i past)
  exact nodup_tell (h.nodup.sublist (hsub.map Commit.id))

theorem commits_eq {path : Path} (hn : path.treeNames = .ok names) (start : Commit) (limit : Nat) :
    commits db start path limit = .ok ((all db start names).take limit) := by
  rw [commits, hn]
  rfl

/-- The last change of a path is the first commit of its history. -/
theorem lastChange_eq {path : Path} (hn : path.treeNames = .ok names) (start : Commit) :
    lastChange db start path = .ok ((all db start names).head?.map CommitInfo.ofCommit) := by
  rw [lastChange, commits_eq hn]
  cases all db start names with
  | nil => rfl
  | cons tip older => rfl

/-- What is told about a history with a limit. -/
theorem ancestry_eq {path : Path} (hn : path.treeNames = .ok names) (start : Commit) (limit : Nat) :
    ancestry db start path limit =
      .ok ⟨(tell (all db start names)).take limit, limit < (all db start names).length⟩ := by
  -- One commit more than the limit is asked for, and whether it comes is whether the history is cut off.
  have ht : tell (((all db start names).take (limit + 1)).take limit) =
      (tell (all db start names)).take limit := by
    rw [List.take_take, Nat.min_eq_left (Nat.le_succ limit), tell, tell, List.map_take]
  have hl : decide (limit < ((all db start names).take (limit + 1)).length) =
      decide (limit < (all db start names).length) := by
    rw [decide_eq_decide, List.length_take]
    omega
  rw [ancestry, commits_eq hn]
  change Except.ok (Ancestry.mk (tell _) _) = _
  rw [ht, hl]

/-- What is told about the history from a commit of a line. -/
theorem ancestry_line {past : List Commit} (h : IsLine db past) {c : Commit} {i : Nat}
    (hi : past[i]? = some c) {path : Path} (hn : path.treeNames = .ok names) (limit : Nat) :
    ancestry db c path limit = .ok
      ⟨(tell (onLine db names past i)).take limit,
        limit < (onLine db names past i).length⟩ := by
  rw [ancestry_eq hn, all_line h hi]

end History

end ThreeWay
