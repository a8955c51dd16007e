import ThreeWay.Proofs.Checkout.Answers
import ThreeWay.Proofs.Diff.Failure

/-!
# Paths Changed Between Two Revisions

The paths at which source and target differ are the leaves of the difference of their roots. A revision
without commits has no root, and the root of the other one is expanded then.

The difference of two roots that are both missing is a failure, and it is caught. What is caught is that
failure alone, so every other one still ends the run, and where the run has an answer nothing was passed
over.

A file of either revision is accounted for. It is at a changed path itself, or a folder above it is, or it is the
same on both sides. A folder stands for its files where a file of the other revision took its place: the
difference ends there with one node for both, and the files of the folder have none of their own.

## Main definitions

* `Synchronizer.Changes`: The difference of two roots, each of which may be missing.
* `Synchronizer.Changed`, `Synchronizer.Same`: What becomes of a file from one revision to another.

## Theorems

* `not_missing_of_requirePresent`, `not_missing_of_failure`: The failures below the roots are other ones.
* `returns_diff_root`: An answer is such a difference.
* `missing_of_fails_diff`: The failure that is caught means what it says.
* `target_eq_ok_iff`: The target is the revision that the settings name.
* `returns_revisionPaths`: The changed paths are those of such a difference, if there is one.
* `changed_or_same`: A file of either revision is at a changed path, or both have it and it is the same.
-/

namespace ThreeWay

open ThreeWay.Path Scanner Run Checkout

namespace Synchronizer

variable {s : Synchronizer} {left right : String}

/-- The difference of two roots, each of which may be missing. -/
inductive Changes (s : Synchronizer) (left right : String) : DiffNode → Prop
  | both (l r : Commit) (node : DiffNode) (hl : s.checkout.repository.resolveCommit left = .ok (some l))
      (hr : s.checkout.repository.resolveCommit right = .ok (some r))
      (difference : IsDifference s.comparator (.ofFolder (folderAt left [] l.tree.id))
        (.ofFolder (folderAt right [] r.tree.id)) node) : Changes s left right node
  | leftOnly (l : Commit) (node : DiffNode)
      (hl : s.checkout.repository.resolveCommit left = .ok (some l))
      (hr : s.checkout.repository.resolveCommit right = .ok none)
      (whole : Whole s.checkout.store .addition (.ofFolder (folderAt left [] l.tree.id)) node) :
      Changes s left right node
  | rightOnly (r : Commit) (node : DiffNode)
      (hl : s.checkout.repository.resolveCommit left = .ok none)
      (hr : s.checkout.repository.resolveCommit right = .ok (some r))
      (whole : Whole s.checkout.store .deletion (.ofFolder (folderAt right [] r.tree.id)) node) :
      Changes s left right node

theorem not_missing_of_requirePresent {v : Variant} {reason : Malformation} {e : Error}
    (h : requirePresent v reason = .error e) (r : RepositoryError) : e ≠ .repository r := by
  rintro rfl
  rw [requirePresent] at h
  split_ifs at h
  cases h

/-- No difference below the roots fails like the repository does. -/
theorem not_missing_of_failure {e : Error} (h : Differ.Failure s.checkout.store e)
    (r : RepositoryError) : e ≠ .repository r := by
  -- A store fails with what it could not read, and no such failure is about the two roots.
  cases h with
  | cancelled => exact Error.noConfusion
  | tooDeep path => exact Error.noConfusion
  | content b e unreadable => exact not_missing_of_content unreadable r

section

variable (namedL : s.checkout.WellNamed left) (namedR : s.checkout.WellNamed right)

theorem wellListed_root {spec : String} (named : s.checkout.WellNamed spec) {start : Commit}
    (hspec : s.checkout.repository.resolveCommit spec = .ok (some start)) :
    WellListed s.checkout.store (start.tree.members.depth + 1)
      (.ofFolder (folderAt spec [] start.tree.id)) :=
  wellListed_folderAt hspec (named start hspec) rfl (by simp)

include namedL namedR

/-- An answer is the difference of the two roots. -/
theorem returns_diff_root {node : DiffNode}
    (h : Returns (s.diff .root (.named left) (.named right)) node) : Changes s left right node := by
  rcases h.bind with ⟨l, hl, h⟩
  rcases h.bind with ⟨r, hr, h⟩
  -- Each root is there or not, which makes four cases. With none of them there is no answer.
  rcases root_of_namedVariant hl.ofExcept with ⟨hleft, rfl⟩ | ⟨startL, hleft, rfl⟩
  · rcases root_of_namedVariant hr.ofExcept with ⟨hright, rfl⟩ | ⟨startR, hright, rfl⟩
    · exact absurd h not_returns_throw
    · rcases h.bind with ⟨_, _, h⟩
      exact .rightOnly startR node hleft hright (Differ.expand_whole h)
  · rcases root_of_namedVariant hr.ofExcept with ⟨hright, rfl⟩ | ⟨startR, hright, rfl⟩
    · rcases h.bind with ⟨_, _, h⟩
      exact .leftOnly startL node hleft hright (Differ.expand_whole h)
    · rcases h.bind with ⟨_, _, h⟩
      rcases h.bind with ⟨_, _, h⟩
      have listedL := wellListed_root namedL hleft
      have listedR := wellListed_root namedR hright
      have hdiff := Differ.compare_isDifference listedL listedR h
      exact .both startL startR node hleft hright hdiff

/-- The failure that is caught means that both roots are missing. -/
theorem missing_of_fails_diff {path : String} {a b : Revision}
    (h : Fails (s.diff .root (.named left) (.named right)) (.repository (.pathNotFound path a b))) :
    s.checkout.repository.resolveCommit left = .ok none ∧
      s.checkout.repository.resolveCommit right = .ok none := by
  -- Step by step, a failure before the roots are known, with one root, and with both is a different one.
  rcases h.bind with h | ⟨l, hl, h⟩
  · exact absurd rfl (not_missing_of_namedVariant h.ofExcept path a b)
  rcases h.bind with h | ⟨r, hr, h⟩
  · exact absurd rfl (not_missing_of_namedVariant h.ofExcept path a b)
  rcases root_of_namedVariant hl.ofExcept with ⟨hleft, rfl⟩ | ⟨startL, hleft, rfl⟩
  · rcases root_of_namedVariant hr.ofExcept with ⟨hright, rfl⟩ | ⟨startR, hright, rfl⟩
    · exact ⟨hleft, hright⟩
    · rcases h.bind with h | ⟨_, _, h⟩
      · exact absurd rfl (not_missing_of_requirePresent h.ofExcept _)
      · have listed := wellListed_root namedR hright
        exact absurd rfl (not_missing_of_failure (Differ.expand_fails listed h) _)
  · rcases root_of_namedVariant hr.ofExcept with ⟨hright, rfl⟩ | ⟨startR, hright, rfl⟩
    · rcases h.bind with h | ⟨_, _, h⟩
      · exact absurd rfl (not_missing_of_requirePresent h.ofExcept _)
      · have listed := wellListed_root namedL hleft
        exact absurd rfl (not_missing_of_failure (Differ.expand_fails listed h) _)
    · rcases h.bind with h | ⟨_, _, h⟩
      · exact absurd rfl (not_missing_of_requirePresent h.ofExcept _)
      rcases h.bind with h | ⟨_, _, h⟩
      · exact absurd rfl (not_missing_of_requirePresent h.ofExcept _)
      · have listedL := wellListed_root namedL hleft
        have listedR := wellListed_root namedR hright
        exact absurd rfl (not_missing_of_failure (Differ.compare_fails listedL listedR h) _)

end

/-- The target is the revision that the settings name. -/
theorem target_eq_ok_iff {revision : Revision} :
    s.target = .ok revision ↔ ∃ spec, s.settings.target = some spec ∧ revision = .named spec := by
  constructor
  · intro h
    cases ht : s.settings.target with
    | none =>
        rw [target, Settings.targetRevision, ht] at h
        cases h
    | some spec =>
        rw [target, Settings.targetRevision, ht] at h
        exact ⟨spec, rfl, (Except.ok.inj h).symm⟩
  · rintro ⟨spec, hspec, rfl⟩
    rw [target, Settings.targetRevision, hspec]
    rfl

/-- The changed paths are those of the difference of source and target. -/
theorem returns_revisionPaths {paths : List Path} (h : Returns s.revisionPaths paths)
    (namedS : s.checkout.WellNamed s.settings.source)
    (namedT : ∀ target, s.settings.target = some target → s.checkout.WellNamed target) :
    ∃ target, s.settings.target = some target ∧
      ((s.checkout.repository.resolveCommit s.settings.source = .ok none ∧
          s.checkout.repository.resolveCommit target = .ok none ∧ paths = []) ∨
        ∃ node, Changes s s.settings.source target node ∧ paths = changedPaths node) := by
  rcases h.bind with ⟨revision, hrevision, h⟩
  rcases target_eq_ok_iff.mp hrevision.ofExcept with ⟨spec, hspec, rfl⟩
  refine ⟨spec, hspec, ?_⟩
  rcases h.tryCatch with h | ⟨e, hfails, h⟩
  · rcases h.map with ⟨node, hnode, hpaths⟩
    exact Or.inr ⟨node, returns_diff_root namedS (namedT spec hspec) hnode, hpaths⟩
  · -- An answer after a failure means that the failure was the one that is caught.
    left
    split at h
    · rcases missing_of_fails_diff namedS (namedT spec hspec) hfails.map with ⟨hl, hr⟩
      exact ⟨hl, hr, h.pure⟩
    · exact absurd h not_returns_throw

/-- A path at which a file of one revision meets a folder of the other. -/
def Meets (s : Synchronizer) (left right : String) (names : List Bytes) : Prop :=
  ∃ l r, s.checkout.repository.resolveCommit left = .ok (some l) ∧
    s.checkout.repository.resolveCommit right = .ok (some r) ∧ Swapped l.tree r.tree names

/-- A path is changed: it is among some paths itself, or a folder above it is where a file was, or the
    other way around. -/
def Changed (s : Synchronizer) (left right : String) (names : List Bytes) (paths : List Path) : Prop :=
  ∃ front, front <+: names ∧ pathOf front ∈ paths ∧ (front = names ∨ s.Meets left right front)

/-- A file of both revisions in which a comparison finds no difference. -/
def Same (s : Synchronizer) (left right : String) (names : List Bytes) : Prop :=
  ∃ l r, s.checkout.repository.resolveCommit left = .ok (some l) ∧
    s.checkout.repository.resolveCommit right = .ok (some r) ∧
    Unchanged s.comparator left right l.tree r.tree names

/-- A revision records a file. -/
def HasFileAt (s : Synchronizer) (spec : String) (names : List Bytes) : Prop :=
  ∃ leaf, s.checkout.Records spec names leaf

theorem tree_of_hasFileAt {spec : String} {start : Commit} {names : List Bytes}
    (hspec : s.checkout.repository.resolveCommit spec = .ok (some start))
    (h : s.HasFileAt spec names) : ∃ leaf, start.tree.HasFile names leaf := by
  rcases h with ⟨leaf, hleaf⟩
  exact ⟨leaf, hleaf.hasFile hspec⟩

section

variable {names : List Bytes} {node : DiffNode} (namedL : s.checkout.WellNamed left)
  (namedR : s.checkout.WellNamed right)
  (addressed : ∀ l r, s.checkout.repository.resolveCommit left = .ok (some l) →
    s.checkout.repository.resolveCommit right = .ok (some r) → SameFolders l.tree r.tree)

/-- A leaf that stands for a path with a name is not the root. -/
theorem mem_changedPaths_of_named {front : List Bytes} (hnames : ∀ name ∈ front, IsName name)
    (hne : front ≠ []) (hroot : node.path? = some .root) (hleaf : node.HasLeaf (pathOf front)) :
    pathOf front ∈ changedPaths node := by
  refine mem_changedPaths hleaf fun hp => hne ?_
  -- The root has the empty path, and a chain of names is no empty path.
  rw [hroot, Option.some.injEq] at hp
  exact pathOf_injective hnames (fun name hm => absurd hm List.not_mem_nil) hp.symm

include namedL namedR addressed

/-- A file of either revision is changed, unless both have it and it is the same. -/
theorem changed_or_same (h : Changes s left right node)
    (hfile : s.HasFileAt left names ∨ s.HasFileAt right names) :
    s.Changed left right names (changedPaths node) ∨ s.Same left right names := by
  cases h with
  | both l r _ hl hr difference =>
      have htL := namedL l hl
      have htR := namedR r hr
      have hrecorded : OneHasFile l.tree r.tree names :=
        hfile.imp (tree_of_hasFileAt hl) (tree_of_hasFileAt hr)
      -- A file has a name, so it is not the root, and its path is among those that are listed.
      have hnames : (∀ name ∈ names, IsName name) ∧ names ≠ [] := by
        rcases hrecorded with ⟨_, h⟩ | ⟨_, h⟩
        · exact ⟨h.isName htL, h.ne_nil⟩
        · exact ⟨h.isName htR, h.ne_nil⟩
      have htold : Told l.tree r.tree ([] ++ names) node ∨
          Unchanged s.comparator left right l.tree r.tree ([] ++ names) :=
        told_or_unchanged hl htL hr htR (addressed l r hl hr) rfl rfl difference hrecorded
      refine htold.imp (fun ⟨front, continues, hleaf, hfront⟩ => ?_) fun h => ⟨l, r, hl, hr, h⟩
      have hne : front ≠ [] := by
        rcases hfront with rfl | hswapped
        · exact hnames.2
        · exact hswapped.ne_nil
      have hmem := mem_changedPaths_of_named (fun name hm => hnames.1 name (continues.subset hm)) hne
        (Differ.isDifference_path? difference) hleaf
      exact ⟨front, continues, hmem, hfront.imp id fun h => ⟨l, r, hl, hr, h⟩⟩
  | leftOnly l _ hl hr whole =>
      -- The other revision has no files, and this one is told whole.
      left
      have hrecorded := hfile.resolve_right (not_exists.mpr fun leaf => not_records_of_none hr)
      rcases tree_of_hasFileAt hl hrecorded with ⟨leaf, h⟩
      have hleaf : node.HasLeaf (pathOf ([] ++ names)) :=
        hasLeaf_of_whole hl (namedL l hl) rfl whole h
      exact ⟨names, List.prefix_rfl, mem_changedPaths_of_named (h.isName (namedL l hl)) h.ne_nil
        (Differ.whole_path? whole) hleaf, Or.inl rfl⟩
  | rightOnly r _ hl hr whole =>
      left
      have hrecorded := hfile.resolve_left (not_exists.mpr fun leaf => not_records_of_none hl)
      rcases tree_of_hasFileAt hr hrecorded with ⟨leaf, h⟩
      have hleaf : node.HasLeaf (pathOf ([] ++ names)) :=
        hasLeaf_of_whole hr (namedR r hr) rfl whole h
      exact ⟨names, List.prefix_rfl, mem_changedPaths_of_named (h.isName (namedR r hr)) h.ne_nil
        (Differ.whole_path? whole) hleaf, Or.inl rfl⟩

end

end Synchronizer

end ThreeWay
