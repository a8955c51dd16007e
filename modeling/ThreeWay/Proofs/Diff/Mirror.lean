import ThreeWay.Proofs.Diff.Build
import ThreeWay.Synchronizer

/-!
# Exchanging the Sides of a Difference

A difference from right to left is the difference from left to right, seen in a mirror: in every node the
sides change places, an addition becomes a deletion, and the order of the nodes stays.

The builder does not treat the sides alike. It lists and reads the left one first, and a node takes its
name from there. None of that shows in an answer. The join of two listings is symmetric on any listings,
sorted or not, since it looks at nothing but which of two names is smaller. So an answer from one side is
taken apart, and an answer from the other side is put together from its parts. Only failures may depend
on the order, since the first one counts.

The signal has to be quiet, since a run asks it as often as it has steps before a checkpoint, and the two runs
take these steps in another order. A signal that fires in between would find them at different places.

## Main definitions

* `DiffNode.mirror`: A tree with the sides exchanged in every node.

## Theorems

* `DiffNode.mirror_make`, `Differ.oneSided_mirror`: A node from the other side.
* `Differ.equalByPlace_comm`: Whether the place decides does not depend on the side.
* `expand_mirror`: What is an addition from one side is a deletion from the other.
* `childOf_mirror`: One pairing from the other side.
* `compare_mirror`: The difference of two variants from the other side.
* `Synchronizer.diff_mirror`: The same for two revisions, and for a path that one of them has.
* `diff_mirror`: Both together, with an answer from one side exactly when there is one from the other.
-/

namespace ThreeWay

namespace DiffNode

mutual

/-- A tree with the sides exchanged in every node. -/
def mirror : DiffNode → DiffNode
  | ⟨left, right, kind, children⟩ => ⟨right, left, kind.flip, mirrorList children⟩

/-- The trees of a list with their sides exchanged. -/
def mirrorList : List DiffNode → List DiffNode
  | [] => []
  | n :: rest => n.mirror :: mirrorList rest

end

theorem mirrorList_eq_map (ns : List DiffNode) : mirrorList ns = ns.map mirror := by
  induction ns with
  | nil => rw [mirrorList, List.map_nil]
  | cons n ns ih => rw [mirrorList, List.map_cons, ih]

theorem mirror_make (left right : Option Variant) (kind : DiffKind) (children : List DiffNode) :
    (make left right kind children).mirror = make right left kind.flip (children.map mirror) := by
  rw [make, mirror, mirrorList_eq_map]
  rfl

theorem isEmpty_mirror (n : DiffNode) : n.mirror.isEmpty = n.isEmpty := by
  rcases n with ⟨left, right, kind, children⟩
  rw [isEmpty, isEmpty, mirror, mirrorList_eq_map, List.isEmpty_map]

end DiffNode

namespace Differ

open Run

theorem oneSided_mirror (v : Variant) {kind : DiffKind} (apart : kind ≠ .change)
    (children : List DiffNode) :
    (oneSided v kind children).mirror = oneSided v kind.flip (children.map DiffNode.mirror) := by
  cases kind with
  | addition => exact DiffNode.mirror_make _ _ _ _
  | deletion => exact DiffNode.mirror_make _ _ _ _
  | change => exact absurd rfl apart

theorem equalByPlace_comm (l r : Variant) : equalByPlace r l = equalByPlace l r := by
  cases l with
  | blob a => cases r <;> rfl
  | tree f fs =>
      cases r with
      | blob b => rfl
      | tree g gs => exact Bool.or_comm _ _

section

variable {d : Differ} (quiet : Signal.IsQuiet d.signal)

include quiet

/-- What is an addition from one side is a deletion from the other. -/
theorem expand_mirror {levels : Nat} {kind : DiffKind} {v : Variant} {n : DiffNode}
    (apart : kind ≠ .change) (h : Returns (d.expand levels kind v) n) :
    Gives (d.expand levels kind.flip v) (.ok n.mirror) := by
  induction levels generalizing v n with
  | zero =>
      cases v with
      | blob b =>
          rw [expand] at h ⊢
          rw [h.pure, oneSided_mirror _ apart]
          exact Gives.pure _
      | tree f members =>
          rw [expand] at h
          exact absurd h not_returns_throw
  | succ levels ih =>
      cases v with
      | blob b =>
          rw [expand] at h ⊢
          rw [h.pure, oneSided_mirror _ apart]
          exact Gives.pure _
      | tree f members =>
          rw [expand_folder] at h ⊢
          rcases h.bind with ⟨found, hfound, h⟩
          rcases h.bind with ⟨children, hchildren, h⟩
          rw [h.pure, oneSided_mirror _ apart]
          -- Member by member, in the order of the listing, which is the same from both sides.
          have below : List.Forall₂ (fun v n => Gives (do
              Run.checkpoint d.signal
              d.expand levels kind.flip v) (.ok n)) found (children.map DiffNode.mirror) := by
            rw [List.forall₂_map_right_iff]
            refine hchildren.mapM.imp fun v n hn => ?_
            rcases hn.bind with ⟨_, _, hn⟩
            exact (Gives.checkpoint quiet).bind (ih hn)
          exact (gives_listing_of_returns hfound).bind ((Gives.mapM below).bind (Gives.pure _))

/-- What a pairing leads to, from the other side. -/
theorem childOf_mirror {levels : Nat} {p : Pairing Variant} {child : Option DiffNode}
    (ih : ∀ {l r : Variant} {n : DiffNode}, Returns (d.compare levels l r) n →
      Gives (d.compare levels r l) (.ok n.mirror))
    (h : Returns (d.childOf levels p) child) :
    Gives (d.childOf levels p.swap) (.ok (child.map DiffNode.mirror)) := by
  rcases h.bind with ⟨_, _, h⟩
  refine (Gives.checkpoint quiet).bind ?_
  cases p with
  | left l =>
      rcases h.map with ⟨n, hn, rfl⟩
      exact (expand_mirror quiet (by decide) hn).map some
  | right r =>
      rcases h.map with ⟨n, hn, rfl⟩
      exact (expand_mirror quiet (by decide) hn).map some
  | both l r =>
      simp only [Pairing.swap, equalByPlace_comm l r] at h ⊢
      -- The place decides from both sides or from none. The contents are read in another order, with one answer.
      by_cases place : equalByPlace l r = true
      · rw [if_pos place] at h ⊢
        rcases h.bind with ⟨n, hn, h⟩
        have hchild : (if n.mirror.isEmpty then none else some n.mirror) =
            child.map DiffNode.mirror := by
          rw [h.pure, DiffNode.isEmpty_mirror]
          by_cases empty : n.isEmpty = true
          · rw [if_pos empty, if_pos empty, Option.map_none]
          · rw [if_neg empty, if_neg empty, Option.map_some]
        rw [← hchild]
        exact (ih hn).bind (Gives.pure _)
      · rw [if_neg place] at h ⊢
        rcases h.bind with ⟨same, hsame, h⟩
        have hswap := gives_equal (Comparator.equal_swap (returns_equal hsame))
        refine hswap.bind ?_
        cases same with
        | true =>
            rw [if_pos rfl] at h ⊢
            rw [h.pure]
            exact Gives.pure none
        | false =>
            rw [if_neg Bool.false_ne_true] at h ⊢
            rcases h.map with ⟨n, hn, rfl⟩
            exact (ih hn).map some

/-- The difference of two variants from the other side. -/
theorem compare_mirror {levels : Nat} {l r : Variant} {n : DiffNode}
    (h : Returns (d.compare levels l r) n) : Gives (d.compare levels r l) (.ok n.mirror) := by
  induction levels generalizing l r n with
  | zero =>
      -- Two variants that are not both folders have a node without children, and there is nothing to go down to.
      rcases flat_or_folders l r with flat | ⟨f, fs, g, gs, rfl, rfl⟩
      · rw [compare_flat d 0 l r flat] at h
        rw [compare_flat d 0 r l (fun hf => flat hf.symm), h.pure, DiffNode.mirror_make]
        exact Gives.pure _
      · rw [compare] at h
        exact absurd h not_returns_throw
  | succ levels ih =>
      rcases flat_or_folders l r with flat | ⟨f, fs, g, gs, rfl, rfl⟩
      · rw [compare_flat d (levels + 1) l r flat] at h
        rw [compare_flat d (levels + 1) r l (fun hf => flat hf.symm), h.pure, DiffNode.mirror_make]
        exact Gives.pure _
      · rw [compare_folders] at h ⊢
        rcases h.bind with ⟨ls, hls, h⟩
        rcases h.bind with ⟨rs, hrs, h⟩
        rcases h.bind with ⟨found, hfound, h⟩
        -- The join pairs the same members in the same order, with their sides exchanged.
        have below : List.Forall₂ (fun p child => Gives (d.childOf levels p) (.ok child))
            (Pairing.join Variant.name rs ls) (found.map (Option.map DiffNode.mirror)) := by
          rw [Pairing.join_swap Variant.name ls rs, List.forall₂_map_left_iff,
            List.forall₂_map_right_iff]
          exact hfound.mapM.imp fun p child hp => childOf_mirror quiet ih hp
        have hchildren : (found.map (Option.map DiffNode.mirror)).filterMap id =
            (found.filterMap id).map DiffNode.mirror := by
          rw [List.filterMap_map, List.map_filterMap]
          rfl
        rw [h.pure, DiffNode.mirror_make, ← hchildren]
        exact (gives_listing_of_returns hrs).bind
          ((gives_listing_of_returns hls).bind ((Gives.mapM below).bind (Gives.pure _)))

/-- The difference of two roots from the other side. -/
theorem diff_swapped {levels : Nat} {l r : Variant} {n : DiffNode}
    (h : Returns (d.diff levels l r) n) : Gives (d.diff levels r l) (.ok n.mirror) := by
  rcases h.bind with ⟨_, hl, h⟩
  rcases h.bind with ⟨_, hr, h⟩
  have gl : Gives (Run.ofExcept (requirePresent l .rootMissing)) (.ok ()) :=
    hl.ofExcept ▸ Gives.ofExcept _
  have gr : Gives (Run.ofExcept (requirePresent r .rootMissing)) (.ok ()) :=
    hr.ofExcept ▸ Gives.ofExcept _
  exact gr.bind (gl.bind (compare_mirror quiet h))

theorem expandRoot_mirror {levels : Nat} {kind : DiffKind} {v : Variant} {n : DiffNode}
    (apart : kind ≠ .change) (h : Returns (d.expandRoot levels kind v) n) :
    Gives (d.expandRoot levels kind.flip v) (.ok n.mirror) := by
  rcases h.bind with ⟨_, hv, h⟩
  have gv : Gives (Run.ofExcept (requirePresent v .expandedRootMissing)) (.ok ()) :=
    hv.ofExcept ▸ Gives.ofExcept _
  exact gv.bind (expand_mirror quiet apart h)

end

end Differ

namespace Synchronizer

open Run

/-- The difference of a path at two revisions from the other side. -/
theorem diff_swapped {s : Synchronizer} (quiet : Signal.IsQuiet s.signal) {path : Path}
    {left right : Revision} {n : DiffNode} (h : Returns (s.diff path left right) n) :
    Gives (s.diff path right left) (.ok n.mirror) := by
  unfold diff at h ⊢
  rcases h.bind with ⟨l, hl, h⟩
  rcases h.bind with ⟨r, hr, h⟩
  have gl : Gives (Run.ofExcept (s.checkout.variant path left)) (.ok l) :=
    hl.ofExcept ▸ Gives.ofExcept _
  have gr : Gives (Run.ofExcept (s.checkout.variant path right)) (.ok r) :=
    hr.ofExcept ▸ Gives.ofExcept _
  refine gr.bind (gl.bind ?_)
  have hquiet : Signal.IsQuiet s.differ.signal := quiet
  -- The depth of the search is the greater one of two, so it is the same number.
  rw [Nat.max_comm]
  cases l with
  | none =>
      cases r with
      | none => exact absurd h not_returns_throw
      | some r => exact Differ.expandRoot_mirror hquiet (by decide) h
  | some l =>
      cases r with
      | none => exact Differ.expandRoot_mirror hquiet (by decide) h
      | some r => exact Differ.diff_swapped hquiet h

end Synchronizer

/-- Two runs that answer each other's answers in a mirror succeed together. -/
theorem Run.toOption_mirror {run other : Run DiffNode}
    (h : ∀ n, Returns run n → Gives other (.ok n.mirror))
    (g : ∀ n, Returns other n → Gives run (.ok n.mirror)) :
    other.outcome.toOption = run.outcome.toOption.map DiffNode.mirror := by
  cases hrun : run.outcome with
  | ok n =>
      rw [(h n (returns_of_outcome hrun)).outcome]
      rfl
  | error e =>
      -- Both answer, or both fail. One alone cannot answer, since its answer would give one to the other.
      cases hother : other.outcome with
      | error f => rfl
      | ok m =>
          have hm := (g m (returns_of_outcome hother)).outcome
          rw [hrun] at hm
          cases hm

/-- Exchanging the sides of a difference exchanges them in every node of it. There is an answer from one
    side exactly when there is one from the other. -/
theorem diff_mirror (d : Differ) (s : Synchronizer) (quietD : Signal.IsQuiet d.signal)
    (quietS : Signal.IsQuiet s.signal) :
    (∀ levels l r, (d.diff levels r l).outcome.toOption =
      (d.diff levels l r).outcome.toOption.map DiffNode.mirror) ∧
    ∀ path left right, (s.diff path right left).outcome.toOption =
      (s.diff path left right).outcome.toOption.map DiffNode.mirror := by
  constructor
  · intro levels l r
    exact Run.toOption_mirror (fun n hn => Differ.diff_swapped quietD hn)
      (fun n hn => Differ.diff_swapped quietD hn)
  · intro path left right
    exact Run.toOption_mirror (fun n hn => Synchronizer.diff_swapped quietS hn)
      (fun n hn => Synchronizer.diff_swapped quietS hn)

namespace DiffNode.Sample

/-- A folder that lists a file out of the order of names. -/
def left : Variant :=
  .tree (.at .root .index) (some [.blob (.at (.ofString "b") .index), .blob (.at (.ofString "a") .index)])

/-- A folder with one file. -/
def right : Variant :=
  .tree (.at .root .workingTree) (some [.blob (.at (.ofString "b") .workingTree)])

/-- Every file is empty. -/
def differ : Differ :=
  ⟨⟨⟨fun _ => .ok [], fun _ => .ok []⟩, false⟩, none⟩

/-- The index has a file, and nothing was committed yet. -/
def synchronizer : Synchronizer where
  checkout := {
    disk := ⟨[], .nil⟩
    root := .ofString "/"
    repository := { Repository.empty "main" with
      index := [⟨Utf8.encode "f", 0, .regular, ⟨"1"⟩⟩] }
    settings := Settings.default }
  signal := none

/-- The nodes of a tree by kind and name. -/
def kinds (n : DiffNode) : List (DiffKind × String) :=
  n.walk.map fun e => (e.2.kind, e.2.name)

end DiffNode.Sample

open DiffNode.Sample in
/-- What was an addition is a deletion, and what came first still does. -/
theorem diff_of_exchanged_folders :
    (differ.diff 1 right left).outcome.toOption.map kinds = some [(.deletion, "a")] ∧
    (synchronizer.diff (.ofString "f") (.named "HEAD") .index).outcome.toOption.map DiffNode.kind =
      some .deletion := by
  have quietD : Signal.IsQuiet differ.signal := fun _ h => nomatch h
  have quietS : Signal.IsQuiet synchronizer.signal := fun _ h => nomatch h
  have mirrored := diff_mirror differ synchronizer quietD quietS
  -- What is evaluated is the difference from the other side.
  rw [mirrored.1 1 left right, mirrored.2 (.ofString "f") .index (.named "HEAD")]
  decide +kernel

end ThreeWay
