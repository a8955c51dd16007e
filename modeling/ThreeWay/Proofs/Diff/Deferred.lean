import ThreeWay.Proofs.Diff.Nodes
import ThreeWay.Proofs.Run.Related

/-!
# Listings Left to the Store

A hierarchy may be loaded in full, or leave some of its listings to a store, at any depth. If the store has just
those listings, the two are one hierarchy to a difference. It asks for some of them, and for others never,
since folders of one tree id are not descended into; but wherever it looks at a listing it finds the same
members, as far as it looks at them, and these again leave listings to the store or do not.

`Defers` relates a hierarchy that leaves listings to the store to the one that is loaded. The two runs go
together as related runs do, where listings are not heard: a listing that is served answers what the loaded
folder has at hand. What is left in the end are the nodes. They would tell the two apart if they kept the
members of their sides, and they do not.

The number of levels that may be listed is a bound that every run obeys, so it is the same on both sides of the
relation, and a bound that is too low fails on both. For a loaded hierarchy its own depth is enough, since that
counts the listings that there are. A deferred one has no depth that could be read off it.

The relation has a case for a file, which is the same on both sides, and two for a folder: its listing is loaded
on both sides with related members, or it is left to the store on the one side, which answers with members that
are related to the loaded ones. In either case the next listing finds related members, and that is what the lemmas
on the single steps use. A check of a member looks at its name and its place and not at what it lists, so both
sides pass it or fail it with one error.

## Main definitions

* `Signal.IgnoresListings`: A signal that does not listen to listings.
* `Defers`: A hierarchy that leaves some listings of a loaded one to a store.

## Theorems

* `Defers.detach_eq`: Without members the two are the same.
* `Defers.flat_or_folders`, `Defers.loaded_cases`: What stands on the two sides of the relation.
* `Defers.verdict_eq`: A comparison asks for nothing that members could tell.
* `listing_related`, `equal_related`, `childOf_related`: The steps of a difference.
* `expand_related`, `compare_related`: Runs on such hierarchies go together.
* `depth_le_of_mem`: A member lies less deep than its folder.
* `expand_levels`, `compare_levels`: A loaded hierarchy needs as many levels as it is deep.
* `diff_deferred`: Leaving listings to the store makes no difference.
* `diff_deferred_of_nested`: Two folders that are left to the store, one in the listing of the other.
-/

namespace ThreeWay

/-- Whether a request asks for a listing. -/
def Request.isListing : Request → Bool
  | .listing _ => true
  | _ => false

/-- A signal that does not listen to listings, or none at all. -/
def Signal.IgnoresListings : Option Signal → Prop :=
  Signal.Hears fun request => !request.isListing

/-- A hierarchy that leaves some listings of a loaded one to a store, which serves just those. What it serves
    may leave listings to the store again. -/
inductive Defers (s : Store) : Variant → Variant → Prop
  | blob (b : Blob) : Defers s (.blob b) (.blob b)
  | loaded (f : Folder) (ms ms' : List Variant) (members : List.Forall₂ (Defers s) ms ms') :
      Defers s (.tree f (some ms)) (.tree f (some ms'))
  | deferred (f : Folder) (ms ms' : List Variant) (served : s.listing f = .ok ms)
      (members : List.Forall₂ (Defers s) ms ms') : Defers s (.tree f none) (.tree f (some ms'))

namespace Defers

variable {s : Store} {v w l l' r r' : Variant}

/-- Without members the two are the same. -/
theorem detach_eq (h : Defers s v w) : v.detach = w.detach := by
  cases h <;> rfl

theorem name_eq (h : Defers s v w) : v.name = w.name := by
  cases h <;> rfl

theorem checkMember_eq (h : Defers s v w) : checkMember v = checkMember w := by
  cases h <;> rfl

theorem requirePresent_eq (h : Defers s v w) (reason : Malformation) :
    requirePresent v reason = requirePresent w reason := by
  cases h <;> rfl

theorem isTree_eq (h : Defers s v w) : v.isTree = w.isTree := by
  cases h <;> rfl

/-- The two are one file, or one folder with its listings. -/
theorem blob_or_tree (h : Defers s v w) :
    (∃ b, v = .blob b ∧ w = .blob b) ∨ ∃ f fs gs, v = .tree f fs ∧ w = .tree f gs := by
  -- The folder itself is the same, and only what it lists may be left out.
  cases h with
  | blob b => exact Or.inl ⟨b, rfl, rfl⟩
  | loaded f ms ms' members => exact Or.inr ⟨f, some ms, some ms', rfl, rfl⟩
  | deferred f ms ms' served members => exact Or.inr ⟨f, none, some ms', rfl, rfl⟩

/-- Of two such pairs one is of files, or both are of folders with their listings. -/
theorem flat_or_folders (hl : Defers s l l') (hr : Defers s r r') : ¬ (l.isTree ∧ r.isTree) ∨
    ∃ f fs fs' g gs gs', l = .tree f fs ∧ l' = .tree f fs' ∧ r = .tree g gs ∧ r' = .tree g gs' := by
  rcases hl.blob_or_tree with ⟨b, rfl, _⟩ | ⟨f, fs, fs', rfl, rfl⟩
  · exact Or.inl fun h => Bool.false_ne_true h.1
  · rcases hr.blob_or_tree with ⟨b, rfl, _⟩ | ⟨g, gs, gs', rfl, rfl⟩
    · exact Or.inl fun h => Bool.false_ne_true h.2
    · exact Or.inr ⟨f, fs, fs', g, gs, gs', rfl, rfl, rfl, rfl⟩

/-- What is loaded is a file, or a folder of loaded members. -/
theorem loaded_cases (h : Defers s v w) :
    (∃ b, w = .blob b) ∨ ∃ f ms, w = .tree f (some ms) ∧ ∀ m ∈ ms, ∃ u, Defers s u m := by
  have each : ∀ {ms ms'}, List.Forall₂ (Defers s) ms ms' → ∀ m ∈ ms', ∃ u, Defers s u m := by
    intro ms ms' members m hm
    rcases members.exists_mem_of_mem_right hm with ⟨u, _, hu⟩
    exact ⟨u, hu⟩
  cases h with
  | blob b => exact Or.inl ⟨b, rfl⟩
  | loaded f ms ms' members => exact Or.inr ⟨f, ms', rfl, each members⟩
  | deferred f ms ms' served members => exact Or.inr ⟨f, ms', rfl, each members⟩

theorem equalByPlace_eq (hl : Defers s l l') (hr : Defers s r r') :
    Differ.equalByPlace l r = Differ.equalByPlace l' r' := by
  cases hl <;> cases hr <;> rfl

/-- Both exist, or none of them does. -/
theorem existing_eq (h : Defers s v w) : existing (some v) = none ∧ existing (some w) = none ∨
    existing (some v) = some v ∧ existing (some w) = some w := by
  have same : v.present = w.present := by cases h <;> rfl
  rw [existing, existing, Option.filter_some, Option.filter_some, same]
  by_cases hw : w.present = true
  · rw [if_pos hw, if_pos hw]
    exact Or.inr ⟨rfl, rfl⟩
  · rw [if_neg hw, if_neg hw]
    exact Or.inl ⟨rfl, rfl⟩

/-- A comparison asks two variants for nothing that their members could tell. -/
theorem verdict_eq (byteCompare : Bool) (hl : Defers s l l') (hr : Defers s r r') :
    Verdict.of byteCompare (some l) (some r) = Verdict.of byteCompare (some l') (some r') := by
  unfold Verdict.of
  -- Presence, kind and ids are the same on both sides, and nothing else is asked.
  rcases hl.existing_eq with ⟨el, el'⟩ | ⟨el, el'⟩
  · rcases hr.existing_eq with ⟨er, er'⟩ | ⟨er, er'⟩
    · rw [el, el', er, er']
    · rw [el, el', er, er']
  · rcases hr.existing_eq with ⟨er, er'⟩ | ⟨er, er'⟩
    · rw [el, el', er, er']
      cases hl <;> rfl
    · rw [el, el', er, er']
      cases hl <;> cases hr <;> rfl

theorem forM_checkMember_eq {ms ms' : List Variant} (h : List.Forall₂ (Defers s) ms ms') :
    ms.forM checkMember = ms'.forM checkMember := by
  induction h with
  | nil => rfl
  | cons hv _ ih =>
      have hc : ∀ (v : Variant) (vs : List Variant),
          (v :: vs).forM checkMember = (checkMember v >>= fun _ => vs.forM checkMember) := fun _ _ => rfl
      rw [hc, hc, hv.checkMember_eq, ih]

end Defers

namespace Differ

open Run

variable {d : Differ} {levels : Nat} {l l' r r' v w : Variant}

/-- The relation of two runs of which one leaves listings to the store. -/
abbrev Unlisted {α β : Type} : (α → β → Prop) → Run α → Run β → Prop :=
  Related fun request => !request.isListing

/-- Wherever a folder is listed, related members are found. -/
theorem listing_related {f : Folder} {fs gs : Option (List Variant)}
    (h : Defers d.comparator.store (.tree f fs) (.tree f gs)) :
    Unlisted (List.Forall₂ (Defers d.comparator.store)) (d.listing f fs) (d.listing f gs) := by
  -- This is the one place where the runs differ: what one of them is served, the other one has at hand.
  have members : Unlisted (List.Forall₂ (Defers d.comparator.store)) (d.members f fs) (d.members f gs) := by
    cases h with
    | loaded _ ms ms' members => exact Related.pure members
    | deferred _ ms ms' served members => exact Related.unheard rfl served members
  refine members.bind fun ms ms' hms => ?_
  rw [Defers.forM_checkMember_eq hms]
  exact (Related.ofExcept _).bind fun _ _ _ => Related.pure hms

/-- Expanding goes together. -/
theorem expand_related (deaf : Signal.IgnoresListings d.signal) (kind : DiffKind)
    (h : Defers d.comparator.store v w) :
    Unlisted Eq (d.expand levels kind v) (d.expand levels kind w) := by
  induction levels generalizing v w with
  | zero =>
      rcases h.blob_or_tree with ⟨b, rfl, rfl⟩ | ⟨f, fs, gs, rfl, rfl⟩
      · rw [expand]
        exact Related.pure rfl
      · rw [expand, expand]
        exact Related.throw _
  | succ levels ih =>
      rcases h.blob_or_tree with ⟨b, rfl, rfl⟩ | ⟨f, fs, gs, rfl, rfl⟩
      · rw [expand]
        exact Related.pure rfl
      · rw [expand_folder, expand_folder]
        refine (listing_related h).bind fun ms ms' hms => ?_
        -- The members are related, so their nodes are equal one by one.
        have each : Unlisted (List.Forall₂ Eq)
            (ms.mapM fun member => do Run.checkpoint d.signal; d.expand levels kind member)
            (ms'.mapM fun member => do Run.checkpoint d.signal; d.expand levels kind member) :=
          Related.mapM hms fun u u' hu => (Related.checkpoint deaf).bind fun _ _ _ => ih hu
        refine each.bind fun children children' hchildren => ?_
        rw [List.forall₂_eq_eq_eq] at hchildren
        rw [hchildren]
        exact Related.pure (by cases kind <;> rfl)

/-- Comparing two members goes together: nothing of it is about their members. -/
theorem equal_related (hl : Defers d.comparator.store l l') (hr : Defers d.comparator.store r r') :
    Unlisted Eq (d.equal l r) (d.equal l' r') := by
  unfold equal
  rw [Defers.verdict_eq d.comparator.byteCompare hl hr]
  cases Verdict.of d.comparator.byteCompare (some l') (some r') with
  | known same => exact Related.pure rfl
  | byBytes a b =>
      refine (Related.serve _ _).bind fun x x' hx => ?_
      refine (Related.serve _ _).bind fun y y' hy => Related.pure ?_
      rw [hx, hy]

/-- What one pairing leads to goes together. -/
theorem childOf_related (deaf : Signal.IgnoresListings d.signal)
    (ih : ∀ {l l' r r'}, Defers d.comparator.store l l' → Defers d.comparator.store r r' →
      Unlisted Eq (d.compare levels l r) (d.compare levels l' r'))
    {p q : Pairing Variant} (h : Pairing.Rel (Defers d.comparator.store) p q) :
    Unlisted Eq (d.childOf levels p) (d.childOf levels q) := by
  refine (Related.checkpoint deaf).bind fun _ _ _ => ?_
  -- Related pairings are of one shape, so both runs take the same branch.
  cases h with
  | left hl => exact (expand_related deaf .addition hl).map fun _ _ hn => congrArg some hn
  | right hr => exact (expand_related deaf .deletion hr).map fun _ _ hn => congrArg some hn
  | both hl hr =>
      simp only [Defers.equalByPlace_eq hl hr]
      split
      · refine (ih hl hr).bind fun n n' hn => ?_
        rw [hn]
        exact Related.pure rfl
      · refine (equal_related hl hr).bind fun same same' hsame => ?_
        rw [hsame]
        split
        · exact Related.pure rfl
        · exact (ih hl hr).map fun _ _ hn => congrArg some hn

/-- A change of the two is one node. -/
theorem make_congr {s : Store} (hl : Defers s l l') (hr : Defers s r r') (children : List DiffNode) :
    DiffNode.make (some l) (some r) .change children = .make (some l') (some r') .change children := by
  rw [DiffNode.make, DiffNode.make, Option.map_some, Option.map_some, Option.map_some, Option.map_some,
    hl.detach_eq, hr.detach_eq]

/-- Comparing goes together. -/
theorem compare_related (deaf : Signal.IgnoresListings d.signal) (hl : Defers d.comparator.store l l')
    (hr : Defers d.comparator.store r r') :
    Unlisted Eq (d.compare levels l r) (d.compare levels l' r') := by
  -- Where one of the two is a file, nothing is listed, and the nodes have no members to differ in.
  have alone : ∀ levels (l l' r r' : Variant), Defers d.comparator.store l l' →
      Defers d.comparator.store r r' → ¬ (l.isTree ∧ r.isTree) →
      Unlisted Eq (d.compare levels l r) (d.compare levels l' r') := by
    intro levels l l' r r' hl hr flat
    rw [compare_flat d levels l r flat]
    rw [hl.isTree_eq, hr.isTree_eq] at flat
    rw [compare_flat d levels l' r' flat]
    exact Related.pure (make_congr hl hr [])
  induction levels generalizing l l' r r' with
  | zero =>
      rcases hl.flat_or_folders hr with flat | ⟨f, fs, fs', g, gs, gs', rfl, rfl, rfl, rfl⟩
      · exact alone 0 _ _ _ _ hl hr flat
      · rw [compare, compare]
        exact Related.throw _
  | succ levels ih =>
      rcases hl.flat_or_folders hr with flat | ⟨f, fs, fs', g, gs, gs', rfl, rfl, rfl, rfl⟩
      · exact alone (levels + 1) _ _ _ _ hl hr flat
      · rw [compare_folders, compare_folders]
        refine (listing_related hl).bind fun ls ls' hls => ?_
        refine (listing_related hr).bind fun rs rs' hrs => ?_
        -- Names are the same, so the two joins pair members that are related.
        have joined := Pairing.forall₂_join (fun _ _ h => h.name_eq) hls hrs
        refine (Related.mapM joined fun p q h => childOf_related deaf ih h).bind fun found found' h => ?_
        rw [List.forall₂_eq_eq_eq] at h
        rw [h]
        exact Related.pure (make_congr hl hr _)

/-! ### Enough Levels -/

/-- What a loaded folder lists is at hand. -/
theorem listing_some_bind {α : Type} (d : Differ) (f : Folder) (ms : List Variant)
    (next : List Variant → Run α) :
    (d.listing f (some ms) >>= next) = (Run.ofExcept (ms.forM checkMember) >>= fun _ => next ms) := by
  rw [listing, members, pure_bind, bind_assoc]
  simp only [pure_bind]

/-- A member lies less deep than its folder. -/
theorem depth_le_of_mem {ms : List Variant} (hv : v ∈ ms) : v.depth ≤ Variant.depthList ms := by
  induction ms with
  | nil => exact absurd hv List.not_mem_nil
  | cons m ms ih =>
      rw [Variant.depthList]
      rcases List.mem_cons.mp hv with rfl | hv
      · exact le_max_left _ _
      · exact (ih hv).trans (le_max_right _ _)

/-- A loaded hierarchy is expanded alike on all levels that are enough for it. -/
theorem expand_levels {s : Store} (h : Defers s v w) (deep : w.depth ≤ levels) (more : Nat)
    (kind : DiffKind) : d.expand (levels + more) kind w = d.expand levels kind w := by
  -- A folder uses up one level on both sides, and its members are less deep than it is.
  induction levels generalizing v w with
  | zero =>
      rcases h.loaded_cases with ⟨b, rfl⟩ | ⟨f, ms, rfl, _⟩
      · rw [expand, expand]
      · rw [Variant.depth] at deep
        omega
  | succ levels ih =>
      rcases h.loaded_cases with ⟨b, rfl⟩ | ⟨f, ms, rfl, below⟩
      · rw [expand, expand]
      · rw [Variant.depth] at deep
        rw [Nat.succ_add, expand_folder, expand_folder, listing_some_bind, listing_some_bind]
        have same : (ms.mapM fun member => do
              Run.checkpoint d.signal
              d.expand (levels + more) kind member) = (ms.mapM fun member => do
              Run.checkpoint d.signal
              d.expand levels kind member) := by
          refine List.mapM_congr_mem fun m hm => ?_
          rcases below m hm with ⟨u, hu⟩
          have hdeep := depth_le_of_mem hm
          rw [ih hu (by omega)]
        rw [same]

/-- Two loaded hierarchies are compared alike on all levels that are enough for both. -/
theorem compare_levels {s : Store} (hl : Defers s l l') (hr : Defers s r r')
    (deepL : l'.depth ≤ levels) (deepR : r'.depth ≤ levels) (more : Nat) :
    d.compare (levels + more) l' r' = d.compare levels l' r' := by
  induction levels generalizing l l' r r' with
  | zero =>
      rcases hl.loaded_cases with ⟨b, rfl⟩ | ⟨f, ms, rfl, _⟩
      · rw [compare_flat, compare_flat] <;> exact fun h => Bool.false_ne_true h.1
      · rw [Variant.depth] at deepL
        omega
  | succ levels ih =>
      rcases hl.loaded_cases with ⟨b, rfl⟩ | ⟨f, ls, rfl, belowL⟩
      · rw [compare_flat, compare_flat] <;> exact fun h => Bool.false_ne_true h.1
      · rcases hr.loaded_cases with ⟨b, rfl⟩ | ⟨g, rs, rfl, belowR⟩
        · rw [compare_flat, compare_flat] <;> exact fun h => Bool.false_ne_true h.2
        · rw [Variant.depth] at deepL deepR
          rw [Nat.succ_add, compare_folders, compare_folders]
          simp only [listing_some_bind]
          -- Each pairing is compared or expanded with levels that are still enough for its members.
          have same : (Pairing.join Variant.name ls rs).mapM (d.childOf (levels + more)) =
              (Pairing.join Variant.name ls rs).mapM (d.childOf levels) := by
            refine List.mapM_congr_mem fun p hp => ?_
            have sides := Pairing.sides_of_mem_join hp
            unfold childOf
            cases p with
            | left l =>
                rcases belowL l (sides.1 l rfl) with ⟨u, hu⟩
                have hdeep := depth_le_of_mem (sides.1 l rfl)
                simp only [expand_levels hu (by omega : l.depth ≤ levels) more .addition]
            | right r =>
                rcases belowR r (sides.2 r rfl) with ⟨w, hw⟩
                have hdeep := depth_le_of_mem (sides.2 r rfl)
                simp only [expand_levels hw (by omega : r.depth ≤ levels) more .deletion]
            | both l r =>
                rcases belowL l (sides.1 l rfl) with ⟨u, hu⟩
                rcases belowR r (sides.2 r rfl) with ⟨w, hw⟩
                have hdeepL := depth_le_of_mem (sides.1 l rfl)
                have hdeepR := depth_le_of_mem (sides.2 r rfl)
                simp only [ih hu hw (by omega) (by omega)]
          rw [same]

/-- It makes no difference to a difference, nor to an expansion, whether the listings of two hierarchies are
    loaded or left to a store that has them: nodes and failures are the same, on any number of levels. For
    loaded hierarchies the number does not matter if it is not less than their depth. And no node lists any
    members. -/
theorem diff_deferred (d : Differ) (deaf : Signal.IgnoresListings d.signal) {l l' r r' : Variant}
    (hl : Defers d.comparator.store l l') (hr : Defers d.comparator.store r r') :
    (∀ levels, (d.diff levels l r).outcome = (d.diff levels l' r').outcome ∧
      ∀ kind, (d.expandRoot levels kind l).outcome = (d.expandRoot levels kind l').outcome) ∧
    (∀ levels more, max l'.depth r'.depth ≤ levels →
      (d.diff (levels + more) l' r').outcome = (d.diff levels l' r').outcome ∧
      ∀ kind, (d.expandRoot (levels + more) kind l').outcome = (d.expandRoot levels kind l').outcome) ∧
    ∀ levels node, ((d.diff levels l r).outcome = .ok node ∨
      ∃ kind, (d.expandRoot levels kind l).outcome = .ok node) → ∀ n ∈ node.nodes, n.Bare := by
  have related : ∀ levels, Unlisted Eq (d.diff levels l r) (d.diff levels l' r') := by
    intro levels
    rw [diff, diff, hl.requirePresent_eq, hr.requirePresent_eq]
    refine (Related.ofExcept _).bind fun _ _ _ => (Related.ofExcept _).bind fun _ _ _ => ?_
    exact compare_related deaf hl hr
  have expanded : ∀ levels kind, Unlisted Eq (d.expandRoot levels kind l) (d.expandRoot levels kind l') := by
    intro levels kind
    rw [expandRoot, expandRoot, hl.requirePresent_eq]
    exact (Related.ofExcept _).bind fun _ _ _ => expand_related deaf kind hl
  refine ⟨fun levels => ⟨(related levels).outcome, fun kind => (expanded levels kind).outcome⟩,
    fun levels more deep => ⟨?_, fun kind => ?_⟩, fun levels node hnode => ?_⟩
  · rw [diff, diff, compare_levels hl hr (by omega) (by omega)]
  · rw [expandRoot, expandRoot, expand_levels hl (by omega)]
  · rcases hnode with hnode | ⟨kind, hnode⟩
    · rcases (returns_of_outcome hnode).bind with ⟨_, _, h⟩
      rcases h.bind with ⟨_, _, h⟩
      exact bare_of_compare h
    · rcases (returns_of_outcome hnode).bind with ⟨_, _, h⟩
      exact bare_of_expand h

namespace Sample

/-- A file with an id, and a folder without one, at a place of a revision. -/
def leaf (place : String) (revision : Revision) (id : String) : Variant :=
  .blob { Blob.at (.ofString place) revision with contentId := some ⟨id⟩ }

def inner (place : String) (revision : Revision) : Folder :=
  .at (.ofString place) revision

/-- The members of a folder, and those of a folder in it. -/
def listings : Memory where
  contents := []
  listings := [((.index, .ofString "a"), [leaf "a/b" .index "1", .ofFolder (inner "a/c" .index)]),
    ((.index, .ofString "a/c"), [leaf "a/c/d" .index "2"])]

/-- A root whose folder is left to the store. -/
def deferring : Variant :=
  .tree (inner "" .index) (some [.ofFolder (inner "a" .index)])

/-- The same root with all listings loaded. -/
def loaded : Variant :=
  .tree (inner "" .index) (some [.tree (inner "a" .index) (some [leaf "a/b" .index "1",
    .tree (inner "a/c" .index) (some [leaf "a/c/d" .index "2"])])])

/-- A root at another revision, with all listings loaded and one file changed. -/
def other : Variant :=
  .tree (inner "" .workingTree) (some [.tree (inner "a" .workingTree) (some [leaf "a/b" .workingTree "1",
    .tree (inner "a/c" .workingTree) (some [leaf "a/c/d" .workingTree "3"])])])

theorem defers_loaded : Defers listings.store deferring loaded := by
  have below : Defers listings.store (.ofFolder (inner "a/c" .index))
      (.tree (inner "a/c" .index) (some [leaf "a/c/d" .index "2"])) :=
    Defers.deferred _ _ _ rfl (List.Forall₂.cons (Defers.blob _) List.Forall₂.nil)
  have folder : Defers listings.store (.ofFolder (inner "a" .index))
      (.tree (inner "a" .index) (some [leaf "a/b" .index "1",
        .tree (inner "a/c" .index) (some [leaf "a/c/d" .index "2"])])) :=
    Defers.deferred _ _ _ rfl (List.Forall₂.cons (Defers.blob _) (List.Forall₂.cons below List.Forall₂.nil))
  exact Defers.loaded _ _ _ (List.Forall₂.cons folder List.Forall₂.nil)

theorem defers_other : Defers listings.store other other := by
  have below : Defers listings.store
      (.tree (inner "a/c" .workingTree) (some [leaf "a/c/d" .workingTree "3"]))
      (.tree (inner "a/c" .workingTree) (some [leaf "a/c/d" .workingTree "3"])) :=
    Defers.loaded _ _ _ (List.Forall₂.cons (Defers.blob _) List.Forall₂.nil)
  refine Defers.loaded _ _ _ (List.Forall₂.cons ?_ List.Forall₂.nil)
  exact Defers.loaded _ _ _ (List.Forall₂.cons (Defers.blob _) (List.Forall₂.cons below List.Forall₂.nil))

/-- Compares by ids over these listings, never stops. -/
def lister : Differ :=
  ⟨⟨listings.store, false⟩, none⟩

end Sample

open Differ.Sample in
/-- A folder that is left to the store, and in its listing another one: the changed file in that is found as it
    is where all is loaded. -/
theorem diff_deferred_of_nested :
    (Signal.IgnoresListings lister.signal ∧ Defers lister.comparator.store deferring loaded ∧
      Defers lister.comparator.store other other) ∧
    (lister.diff 3 deferring other).outcome = (lister.diff 3 loaded other).outcome ∧
    (lister.diff 3 deferring other).outcome.map (fun n => n.walk.map fun e => (e.1, e.2.kind, e.2.name)) =
      .ok [(0, .change, "a"), (1, .change, "c"), (2, .change, "d")] := by
  have deaf : Signal.IgnoresListings lister.signal := fun _ h => nomatch h
  have same := diff_deferred lister deaf defers_loaded defers_other
  exact ⟨⟨deaf, defers_loaded, defers_other⟩, (same.1 3).1, by decide +kernel⟩

end Differ

end ThreeWay
