import ThreeWay.Proofs.Ancestry

/-!
# The Head of a History

The history of a path begins with the commit that changed it last, and one would expect the path to be
recorded there as it is at the start. A merge that keeps one side breaks this. It did not change the path
itself, so it is not in the history, but the changes of the side that it gave up still are, and they may
well be newer than those of the side that it kept.

So the head of a history tells what the start records as long as no given up side lies in between. Where
one does, the commit that recorded the entry is further down in the history.

The induction goes down from the start. As long as no commit on the way changed the path and none gives up what
its parent has, each records what the one before it does, and the head of the history is the first that may have
changed it. In general the head is only one of the changes, and the list goes on to the one that the entry is
from.

## Main definitions

* `History.GivesUp`: A merge that keeps a path as another parent has it.
* `History.Follows`: Parents lead to a commit, and none of them is given up.
* `Checkout.IsTip`: What is known of the head of a history.

## Theorems

* `idAt_of_follows`: A head that was not given up records what the start does.
* `isTip_head`: What is recorded has a head of this kind.
* `lastChange_of_given_up`: The last change of a file may be one that a merge gave up.
-/

namespace ThreeWay

namespace History

/-- Whether a commit gives up what a parent records at a chain of names: the parent has something else there,
    and the commit keeps what another parent has. -/
structure GivesUp (db : Database) (names : List Bytes) (c p : Commit) : Prop where
  differs : p.idAt names ≠ c.idAt names
  kept : ∃ id ∈ c.parents, (db.commit? id).bind (·.idAt names) = c.idAt names

/-- Whether parents lead from a commit to another one and none of them is given up on the way. -/
def Follows (db : Database) (names : List Bytes) : Commit → Commit → Prop :=
  Relation.ReflTransGen fun c p => db.Parent c p ∧ ¬ GivesUp db names c p

variable {db : Database} {names : List Bytes} {start c p tip : Commit} {older : List Commit}

theorem Follows.reaches (h : Follows db names c p) : db.Reaches c p := by
  induction h with
  | refl => exact Relation.ReflTransGen.refl
  | tail _ step ih => exact ih.tail step.1

/-- A commit that did not change a path records there what any parent has that it does not give up. -/
theorem idAt_of_not_changes (hc : ¬ Changes db names c) (hp : db.Parent c p)
    (kept : ¬ GivesUp db names c p) : p.idAt names = c.idAt names := by
  -- Had the parent something else, the commit would keep another parent's entry, as it changed nothing, and so give
  -- this one up.
  by_contra hne
  refine hc ⟨fun id hid heq => kept ⟨hne, id, hid, heq⟩, fun hnil => ?_⟩
  have hid := hp.id_mem
  rw [hnil] at hid
  exact absurd hid List.not_mem_nil

/-- The head of a history records what the start does, unless it was given up on the way. -/
theorem idAt_of_follows (past : db.IsPast start) (h : all db start names = tip :: older)
    (follows : Follows db names start tip) : tip.idAt names = start.idAt names := by
  -- Nothing changed the path on the way down to the head, so every step keeps the entry.
  have along : ∀ c, db.Reaches start c → Follows db names c tip → tip.idAt names = c.idAt names := by
    intro c hc hf
    induction hf using Relation.ReflTransGen.head_induction_on with
    | refl => rfl
    | head step rest ih =>
        have above := Relation.TransGen.head' step.1 (Follows.reaches rest)
        have hsame := idAt_of_not_changes (not_changes_above past h hc above) step.1 step.2
        exact (ih (hc.tail step.1)).trans hsame
  exact along start Relation.ReflTransGen.refl follows

end History

namespace Checkout

variable {c : Checkout} {start : Commit} {path : Path} {names : List Bytes}

/-- The head of the history of a path, as all who ask for it are told, and what it says of the entry that the
    start records. -/
structure IsTip (c : Checkout) (start : Commit) (path : Path) (names : List Bytes) (tip : Commit)
    (older : List Commit) : Prop where
  history : ∀ limit, c.repository.objects.length ≤ limit →
    History.commits c.repository.objects start path limit = .ok (tip :: older)
  first : ∀ limit, 1 ≤ limit → ∃ rest,
    History.commits c.repository.objects start path limit = .ok (tip :: rest)
  lastChange : ∀ spec, c.repository.resolveCommit spec = .ok (some start) →
    c.lastChange path spec = .ok (some (.ofCommit tip))
  ancestry : 1 ≤ c.settings.ancestryLimit → ∀ spec b,
    c.repository.resolveCommit spec = .ok (some start) →
    c.namedVariant path spec = .ok (some (.blob b)) →
    ∃ rest, b.ancestry = some (⟨tip.id.hex⟩ :: rest)
  content : tip.idAt names = start.idAt names ∨
    ¬ History.Follows c.repository.objects names start tip ∧
      ∃ o ∈ older, History.Keeps c.repository.objects names start o

/-- What a commit records at a path has a history whose head tells the entry, or is a change that was given
    up on every way from the commit; then the entry comes from a change further down. -/
theorem isTip_head (graph : c.repository.objects.IsGraph) (recorded : .commit start ∈ c.repository.objects)
    (hnames : path.treeNames = .ok names) (hentry : (start.idAt names).isSome) :
    ∃ tip older, c.IsTip start path names tip older := by
  have past := graph.past recorded
  -- What is recorded was recorded by some commit of the history, so there is a head, and no history is longer than
  -- the database.
  rcases History.exists_mem_all past hentry with ⟨o, ho, hkeeps⟩
  rcases List.exists_cons_of_ne_nil (List.ne_nil_of_mem ho) with ⟨tip, older, hall⟩
  have hlength : (History.all c.repository.objects start names).length ≤ c.repository.objects.length :=
    History.length_all_le past
  rw [hall] at ho hlength
  refine ⟨tip, older, ⟨fun limit enough => ?_, fun limit positive => ?_, fun spec hspec => ?_, ?_, ?_⟩⟩
  · rw [History.commits_eq hnames, hall, List.take_of_length_le (hlength.trans enough)]
  · rw [History.commits_eq hnames, hall, List.take_cons positive]
    exact ⟨_, rfl⟩
  · rw [lastChange_eq hspec hnames, hall]
    rfl
  · intro positive spec b hspec hb
    rw [ancestry_of_namedVariant hspec hnames hb, hall, History.tell, List.map_cons,
      List.take_cons positive]
    exact ⟨_, rfl⟩
  -- If the head records something else, no way leads to it without giving something up.
  · by_cases hsame : tip.idAt names = start.idAt names
    · exact .inl hsame
    · refine .inr ⟨fun follows => hsame (History.idAt_of_follows past hall follows), o, ?_, hkeeps⟩
      rcases List.mem_cons.mp ho with rfl | ho
      · exact absurd hkeeps.idAt_eq hsame
      · exact ho

end Checkout

namespace Synchronizer

open Synchronizer.Sample

/-- The side branch was given up by the merge, and the file comes from the first commit. -/
theorem kept_of_merged :
    ¬ History.Follows merged.checkout.repository.objects [name] merge side ∧
      History.Keeps merged.checkout.repository.objects [name] merge first := by
  have hnames : (Path.ofString "f").treeNames = .ok [name] := by decide +kernel
  rcases Checkout.isTip_head (c := merged.checkout) isGraph_merged (past_merged.recorded .refl) hnames
    (by decide) with ⟨tip, older, hhistory, _, _, _, hcontent⟩
  have hall := hhistory 5 (by decide)
  rw [History.commits_eq hnames, all_merged] at hall
  cases hall
  -- The head is the commit of the side branch, and it records something else.
  rcases hcontent with hsame | ⟨hgiven, o, ho, hkeeps⟩
  · exact absurd hsame (by decide +kernel)
  · rw [List.mem_singleton.mp ho] at hkeeps
    exact ⟨hgiven, hkeeps⟩

/-- The last change of a file that a merge kept is told to be the change that the merge gave up, and what that
    commit records is not what stands in the file. -/
theorem lastChange_of_given_up :
    merged.checkout.repository.resolveCommit merged.settings.source = .ok (some merge) ∧
      (merge.idAt [name]).isSome ∧
      merged.checkout.lastChange (.ofString "f") merged.settings.source =
        .ok (some (.ofCommit side)) ∧
      History.commits merged.checkout.repository.objects merge (.ofString "f") 1 = .ok [side] ∧
      side.idAt [name] ≠ merge.idAt [name] := by
  have hnames : (Path.ofString "f").treeNames = .ok [name] := by decide +kernel
  have hspec : merged.checkout.repository.resolveCommit merged.settings.source = .ok (some merge) := rfl
  refine ⟨hspec, by decide, ?_, ?_, by decide +kernel⟩
  · rw [Checkout.lastChange_eq hspec hnames, all_merged]
    rfl
  · rw [History.commits_eq hnames, all_merged]
    rfl

end Synchronizer

end ThreeWay
