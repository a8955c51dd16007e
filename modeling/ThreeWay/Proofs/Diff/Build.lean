import ThreeWay.Proofs.Diff.Expand
import ThreeWay.Proofs.Diff.Join
import ThreeWay.Proofs.Diff.Tell
import ThreeWay.Proofs.Lists

/-!
# The Difference of Two Ascending Hierarchies

Building a difference tree obeys the law of `Proofs.Diff.Law` on every two hierarchies whose listings
are valid and ascending.

The builder and the law see the same two listings differently. The builder walks their join, the law
asks which names occur on which side; `mem_join_left`, `mem_join_right` and `mem_join_both` translate.
What the builder does with one pairing is brought out as `childOf`, so that the proof follows the data:
one case for each kind of pairing, and an induction on the levels that may still be listed.

The two directions are kept apart. `compare_isDifference` reads the law off an answer, whatever the
signal did. `exists_gives_compare` shows that there is an answer: it needs a quiet signal, enough levels, and
that what has to be read can be read.

A comparison of two folders lists both sides, joins the listings by name and asks `childOf` about each pairing.
The law speaks of the pairings in the same way: `Fits` says of a pairing and a node, or no node, that this is what
has to come of it. So the induction on the levels has little to do. It takes the answers for the pairings, which
fit by `fits_of_answered` and the induction hypothesis, and `isDifference_of_fits` makes the difference of them.

A folder pairs with a file by their names alone, and then the node says that both differ and nothing is listed.
That is the case of `compare_flat`, and it ends the recursion as much as a missing side does.

What is read on the way are members and, where files are compared by bytes, contents. Each of these may fail, so
an answer is proved to exist under the condition that what the comparison asks for can be had. The condition is
stated by recursion on the levels as well, which lets it be taken apart along with the comparison.

## Main definitions

* `Differ.childOf`: The node that one pairing leads to, if any.
* `Differ.Fits`: What the law asks of that node.
* `Differ.Answered`: What an answer for one pairing is.

## Theorems

* `flat_or_folders`: Of two variants one is a file, or both are folders.
* `compare_folders`, `compare_flat`: One step of the builder.
* `fits_name`, `whole_path?`, `isDifference_path?`: A node has the name and the place of what it was made for.
* `ascending_of_fits`: Nodes come in the order of the pairings.
* `isDifference_of_fits`: Nodes that fit their pairings make a difference.
* `answered_of_returns`, `fits_of_answered`: An answer for one pairing, and that it fits.
* `returns_compare`: An answer, and an answer for each pairing.
* `compare_isDifference`: An answer obeys the law.
* `childOf_gives`: A pairing of valid and readable members leads to a node or to none.
* `exists_gives_compare`, `compare_gives`: There is an answer.
* `diff_isDifference`: The difference of two ascending hierarchies exists and obeys the law.
-/

namespace ThreeWay

namespace Differ

open Run

/-- The node that one pairing leads to, if any. -/
def childOf (d : Differ) (levels : Nat) (pairing : Pairing Variant) : Run (Option DiffNode) := do
  Run.checkpoint d.signal
  match pairing with
  | .left l => some <$> d.expand levels .addition l
  | .right r => some <$> d.expand levels .deletion r
  | .both l r =>
    if equalByPlace l r then
      let child ← d.compare levels l r
      return if child.isEmpty then none else some child
    else if ← d.equal l r then return none
    else some <$> d.compare levels l r

theorem compare_folders (d : Differ) (levels : Nat) (f g : Folder) (fs gs : Option (List Variant)) :
    d.compare (levels + 1) (.tree f fs) (.tree g gs) = do
      let ls ← d.listing f fs
      let rs ← d.listing g gs
      let children ← (Pairing.join Variant.name ls rs).mapM (d.childOf levels)
      return .make (some (.tree f fs)) (some (.tree g gs)) .change (children.filterMap id) := by
  rw [compare]
  rfl

theorem compare_flat (d : Differ) (levels : Nat) (l r : Variant) (h : ¬ (l.isTree ∧ r.isTree)) :
    d.compare levels l r = return .make (some l) (some r) .change [] := by
  cases l with
  | blob b => rw [compare]; all_goals simp
  | tree f fs =>
      cases r with
      | blob b => rw [compare]; all_goals simp
      | tree g gs => exact absurd ⟨rfl, rfl⟩ h

/-- Of two variants one is a file, or both are folders. -/
theorem flat_or_folders (l r : Variant) :
    ¬ (l.isTree ∧ r.isTree) ∨ ∃ f fs g gs, l = .tree f fs ∧ r = .tree g gs := by
  cases l with
  | blob a => exact Or.inl fun h => absurd h.1 Bool.false_ne_true
  | tree f fs =>
      cases r with
      | blob b => exact Or.inl fun h => absurd h.2 Bool.false_ne_true
      | tree g gs => exact Or.inr ⟨f, fs, g, gs, rfl, rfl⟩

/-- What the law asks of the node that a pairing leads to: a member alone is there whole, and a pair is
    there with its difference exactly when it differs. -/
def Fits (c : Comparator) : Pairing Variant → Option DiffNode → Prop
  | .left l, child => ∃ n, child = some n ∧ Whole c.store .addition l n
  | .right r, child => ∃ n, child = some n ∧ Whole c.store .deletion r n
  | .both l r, child =>
    (Differs c l r ∧ ∃ n, child = some n ∧ IsDifference c l r n) ∨ (¬ Differs c l r ∧ child = none)

theorem detach_name (v : Variant) : v.detach.name = v.name := by
  cases v with
  | blob b => rfl
  | tree f members => rfl

theorem detach_path (v : Variant) : v.detach.path = v.path := by
  cases v with
  | blob b => rfl
  | tree f members => rfl

theorem whole_name {s : Store} {kind : DiffKind} {v : Variant} {n : DiffNode}
    (h : Whole s kind v n) : n.name = v.name := by
  cases h with
  | blob b => cases kind <;> rfl
  | tree f members found children listed below => cases kind <;> rfl

theorem isDifference_name {c : Comparator} {l r : Variant} {n : DiffNode}
    (h : IsDifference c l r n) : n.name = l.name := by
  cases h with
  | leaf l r flat => exact detach_name l
  | folders => rfl

/-- A node stands at the place of the variant that it was made for. -/
theorem whole_path? {s : Store} {kind : DiffKind} {v : Variant} {n : DiffNode}
    (h : Whole s kind v n) : n.path? = some v.path := by
  cases h with
  | blob b => cases kind <;> rfl
  | tree f members found children listed below => cases kind <;> rfl

theorem isDifference_path? {c : Comparator} {l r : Variant} {n : DiffNode}
    (h : IsDifference c l r n) : n.path? = some l.path := by
  cases h with
  | leaf l r flat => exact congrArg some (detach_path l)
  | folders => rfl

/-- A node has the name of the pairing that led to it. -/
theorem fits_name {c : Comparator} {p : Pairing Variant} {n : DiffNode} (h : Fits c p (some n)) :
    n.name = p.key Variant.name := by
  cases p with
  | left l =>
      rcases h with ⟨m, hm, hw⟩
      cases hm
      exact whole_name hw
  | right r =>
      rcases h with ⟨m, hm, hw⟩
      cases hm
      exact whole_name hw
  | both l r =>
      rcases h with ⟨_, m, hm, hd⟩ | ⟨_, hm⟩
      · cases hm
        exact isDifference_name hd
      · cases hm

theorem mem_filterMap_id {α : Type} {xs : List (Option α)} {x : α} :
    x ∈ xs.filterMap id ↔ some x ∈ xs := by
  rw [List.mem_filterMap]
  constructor
  · rintro ⟨y, hy, hx⟩
    exact hx ▸ hy
  · intro h
    exact ⟨some x, h, rfl⟩

/-- Nodes come in the order of the pairings that led to them. -/
theorem ascending_of_fits {c : Comparator} {ps : List (Pairing Variant)}
    {found : List (Option DiffNode)} (h : List.Forall₂ (Fits c) ps found)
    (ordered : Ascending (Pairing.key Variant.name) ps) :
    Ascending DiffNode.name (found.filterMap id) := by
  induction h with
  | nil => exact Ascending.nil
  | cons hp hrest ih =>
      rename_i p child ps found
      -- A pairing without a node leaves the order of the others as it is.
      cases child with
      | none => exact ih ordered.tail
      | some n =>
          refine (ih ordered.tail).cons fun m hm => ?_
          rcases hrest.exists_mem_of_mem_right (mem_filterMap_id.mp hm) with ⟨q, hq, hf⟩
          rw [fits_name hp, fits_name hf]
          exact ordered.head_lt q hq

open Classical in
/-- Nodes that fit the pairings of two ascending listings make the difference of the two folders. -/
theorem isDifference_of_fits {c : Comparator} {f g : Folder} {fs gs : Option (List Variant)}
    {ls rs : List Variant} {found : List (Option DiffNode)}
    (left : c.store.listed f fs = .ok ls) (right : c.store.listed g gs = .ok rs)
    (hl : Ascending Variant.name ls) (hr : Ascending Variant.name rs)
    (h : List.Forall₂ (Fits c) (Pairing.join Variant.name ls rs) found) :
    IsDifference c (.tree f fs) (.tree g gs)
      (.make (some (.tree f fs)) (some (.tree g gs)) .change (found.filterMap id)) := by
  have ordered := ascending_of_fits h (Pairing.join_ascending hl hr)
  -- A pair that differs has a node, and the order of names leaves only one.
  have paired : ∀ l ∈ ls, ∀ r ∈ rs, l.name = r.name → Differs c l r →
      ∃ n, n ∈ found.filterMap id ∧ IsDifference c l r n := by
    intro l hl' r hr' same differ
    have hm := (Pairing.mem_join_both hl hr l r).mpr ⟨hl', hr', same⟩
    rcases h.exists_mem_of_mem_left hm with ⟨child, hc, ⟨_, n, hn, hd⟩ | ⟨hne, _⟩⟩
    · exact ⟨n, mem_filterMap_id.mpr (hn ▸ hc), hd⟩
    · exact absurd differ hne
  -- The law asks for one node for each pair, and what is known so far is that there are some.
  let below : Variant → Variant → DiffNode := fun l r =>
    if hn : ∃ n, n ∈ found.filterMap id ∧ IsDifference c l r n then hn.choose else default
  have chosen : ∀ l ∈ ls, ∀ r ∈ rs, l.name = r.name → Differs c l r →
      below l r ∈ found.filterMap id ∧ IsDifference c l r (below l r) := by
    intro l hl' r hr' same differ
    have hn := paired l hl' r hr' same differ
    have hb : below l r = hn.choose := dif_pos hn
    rw [hb]
    exact hn.choose_spec
  refine IsDifference.folders f g fs gs ls rs _ below left right
    ((ascending_encode_iff _ _).mpr ordered) ?_ ?_
    (fun l hl' r hr' same differ => (chosen l hl' r hr' same differ).1)
    (fun l hl' r hr' same differ => (chosen l hl' r hr' same differ).2) ?_
  · intro l hl' alone
    rcases h.exists_mem_of_mem_left ((Pairing.mem_join_left hl hr l).mpr ⟨hl', alone⟩) with
      ⟨child, hc, n, hn, hw⟩
    exact ⟨n, mem_filterMap_id.mpr (hn ▸ hc), hw⟩
  · intro r hr' alone
    rcases h.exists_mem_of_mem_left ((Pairing.mem_join_right hl hr r).mpr ⟨hr', alone⟩) with
      ⟨child, hc, n, hn, hw⟩
    exact ⟨n, mem_filterMap_id.mpr (hn ▸ hc), hw⟩
  · intro n hn
    rcases h.exists_mem_of_mem_right (mem_filterMap_id.mp hn) with ⟨p, hp, hf⟩
    cases p with
    | left l =>
        rcases hf with ⟨m, hm, hw⟩
        cases hm
        rcases (Pairing.mem_join_left hl hr l).mp hp with ⟨hl', alone⟩
        exact Or.inl ⟨l, hl', alone, hw⟩
    | right r =>
        rcases hf with ⟨m, hm, hw⟩
        cases hm
        rcases (Pairing.mem_join_right hl hr r).mp hp with ⟨hr', alone⟩
        exact Or.inr (Or.inl ⟨r, hr', alone, hw⟩)
    | both l r =>
        rcases hf with ⟨differ, m, hm, hd⟩ | ⟨_, hm⟩
        · -- Both this node and the chosen one have the name of the pair, so they are one node.
          cases hm
          rcases (Pairing.mem_join_both hl hr l r).mp hp with ⟨hl', hr', same⟩
          have hb := chosen l hl' r hr' same differ
          refine Or.inr (Or.inr ⟨l, hl', r, hr', same, differ, ?_⟩)
          exact ordered.eq_of_key_eq hn hb.1 ((isDifference_name hd).trans
            (isDifference_name hb.2).symm)
        · cases hm

/-- What an answer for one pairing is: a member alone is expanded. A pair that their place makes equal is
    descended into and kept if something is found there. Any other pair is compared, and one that is unequal
    is descended into. -/
inductive Answered (d : Differ) (levels : Nat) : Pairing Variant → Option DiffNode → Prop
  | addition (l : Variant) (n : DiffNode) (answer : Returns (d.expand levels .addition l) n) :
      Answered d levels (.left l) (some n)
  | deletion (r : Variant) (n : DiffNode) (answer : Returns (d.expand levels .deletion r) n) :
      Answered d levels (.right r) (some n)
  | kept (l r : Variant) (n : DiffNode) (place : equalByPlace l r = true)
      (answer : Returns (d.compare levels l r) n) (found : n.children ≠ []) :
      Answered d levels (.both l r) (some n)
  | dropped (l r : Variant) (n : DiffNode) (place : equalByPlace l r = true)
      (answer : Returns (d.compare levels l r) n) (nothing : n.children = []) :
      Answered d levels (.both l r) none
  | unequal (l r : Variant) (n : DiffNode) (place : equalByPlace l r = false)
      (judged : d.comparator.equal (some l) (some r) = .ok false)
      (answer : Returns (d.compare levels l r) n) : Answered d levels (.both l r) (some n)
  | equal (l r : Variant) (place : equalByPlace l r = false)
      (judged : d.comparator.equal (some l) (some r) = .ok true) : Answered d levels (.both l r) none

theorem answered_of_returns {d : Differ} {levels : Nat} {p : Pairing Variant} {child : Option DiffNode}
    (h : Returns (d.childOf levels p) child) : Answered d levels p child := by
  rcases h.bind with ⟨_, _, h⟩
  cases p with
  | left l =>
      rcases h.map with ⟨n, hn, rfl⟩
      exact Answered.addition l n hn
  | right r =>
      rcases h.map with ⟨n, hn, rfl⟩
      exact Answered.deletion r n hn
  | both l r =>
      simp only at h
      by_cases hp : equalByPlace l r = true
      · rw [if_pos hp] at h
        rcases h.bind with ⟨n, hn, h⟩
        rw [h.pure]
        -- A descent keeps its node if anything was found below.
        by_cases he : n.children = []
        · rw [DiffNode.isEmpty, he]
          exact Answered.dropped l r n hp hn he
        · rw [DiffNode.isEmpty, if_neg (by simpa using he)]
          exact Answered.kept l r n hp hn he
      · rw [if_neg hp] at h
        rw [Bool.not_eq_true] at hp
        rcases h.bind with ⟨same, hs, h⟩
        have judged := returns_equal hs
        cases same with
        | true =>
            rw [if_pos rfl] at h
            rw [h.pure]
            exact Answered.equal l r hp judged
        | false =>
            rw [if_neg Bool.false_ne_true] at h
            rcases h.map with ⟨n, hn, rfl⟩
            exact Answered.unequal l r n hp judged hn

/-- What an answer to the comparison of two variants is: a change alone, if one of them is a file, or a change
    with an answer for every pairing of their listings. -/
theorem returns_compare {d : Differ} {levels : Nat} {l r : Variant} {node : DiffNode}
    (h : Returns (d.compare levels l r) node) :
    ¬ (l.isTree ∧ r.isTree) ∧ node = .make (some l) (some r) .change [] ∨
      ∃ fewer f fs g gs ls rs found, levels = fewer + 1 ∧ l = .tree f fs ∧ r = .tree g gs ∧
        d.comparator.store.listed f fs = .ok ls ∧ d.comparator.store.listed g gs = .ok rs ∧
        (∀ v ∈ ls, ValidMember v) ∧ (∀ v ∈ rs, ValidMember v) ∧
        List.Forall₂ (Answered d fewer) (Pairing.join Variant.name ls rs) found ∧
        node = .make (some (.tree f fs)) (some (.tree g gs)) .change (found.filterMap id) := by
  rcases flat_or_folders l r with flat | ⟨f, fs, g, gs, rfl, rfl⟩
  · rw [compare_flat d levels l r flat] at h
    exact Or.inl ⟨flat, h.pure⟩
  · cases levels with
    | zero =>
        rw [compare] at h
        exact absurd h not_returns_throw
    | succ fewer =>
        rw [compare_folders] at h
        rcases h.bind with ⟨ls, hls, h⟩
        rcases h.bind with ⟨rs, hrs, h⟩
        rcases h.bind with ⟨found, hfound, h⟩
        rcases returns_listing hls with ⟨left, validL⟩
        rcases returns_listing hrs with ⟨right, validR⟩
        exact Or.inr ⟨fewer, f, fs, g, gs, ls, rs, found, rfl, rfl, rfl, left, right, validL, validR,
          hfound.mapM.imp fun p child hchild => answered_of_returns hchild, h.pure⟩

/-- An answer for one pairing of valid members fits it. -/
theorem fits_of_answered {d : Differ} {levels : Nat} {p : Pairing Variant} {child : Option DiffNode}
    (hl : ∀ l ∈ p.left?, ValidMember l) (hr : ∀ r ∈ p.right?, ValidMember r)
    (ih : ∀ l ∈ p.left?, ∀ r ∈ p.right?, ∀ node, Returns (d.compare levels l r) node →
      IsDifference d.comparator l r node)
    (h : Answered d levels p child) : Fits d.comparator p child := by
  -- Each answer is one branch of the code, and what it was judged by tells whether the pair differs.
  cases h with
  | addition l n answer => exact ⟨n, rfl, expand_whole answer⟩
  | deletion r n answer => exact ⟨n, rfl, expand_whole answer⟩
  | kept l r n place answer found =>
      have law := ih l rfl r rfl n answer
      exact Or.inl ⟨(differs_iff_children_nonempty place law).mpr found, n, rfl, law⟩
  | dropped l r n place answer nothing =>
      have law := ih l rfl r rfl n answer
      exact Or.inr ⟨fun differ => (differs_iff_children_nonempty place law).mp differ nothing, rfl⟩
  | unequal l r n place judged answer =>
      have hiff := differs_iff_unequal (hl l rfl).present (hr r rfl).present place judged
      exact Or.inl ⟨hiff.mpr rfl, n, rfl, ih l rfl r rfl n answer⟩
  | equal l r place judged =>
      have hiff := differs_iff_unequal (hl l rfl).present (hr r rfl).present place judged
      exact Or.inr ⟨fun differ => Bool.false_ne_true (hiff.mp differ).symm, rfl⟩

/-- An answer obeys the law. -/
theorem compare_isDifference {d : Differ} {levels n m : Nat} {l r : Variant} {node : DiffNode}
    (hl : WellListed d.comparator.store n l) (hr : WellListed d.comparator.store m r)
    (h : Returns (d.compare levels l r) node) : IsDifference d.comparator l r node := by
  -- The members are compared with one level less, and they are well listed as well.
  induction levels using Nat.strongRecOn generalizing n m l r node with
  | ind levels ih =>
      rcases returns_compare h with
        ⟨flat, rfl⟩ | ⟨fewer, f, fs, g, gs, ls, rs, found, rfl, rfl, rfl, left, right, _, _, answers, rfl⟩
      · exact IsDifference.leaf l r flat
      · rcases hl.flat_or_folders hr with
          flat | ⟨_, _, _, _, ls', _, _, rs', _, _, hl', hr', listsL, listsR⟩
        · exact absurd ⟨rfl, rfl⟩ flat
        · cases hl'
          cases hr'
          cases Except.ok.inj (left.symm.trans listsL.listed)
          cases Except.ok.inj (right.symm.trans listsR.listed)
          refine isDifference_of_fits left right listsL.ordered listsR.ordered ?_
          refine answers.imp_of_mem fun p hp child hchild => ?_
          -- Both members of a pairing come from the listings, so what is known of those holds of them.
          have sides := Pairing.sides_of_mem_join hp
          refine fits_of_answered (fun l hl => listsL.valid l (sides.1 l hl))
            (fun r hr => listsR.valid r (sides.2 r hr)) (fun l hl r hr node hn => ?_) hchild
          exact ih fewer fewer.lt_succ_self (listsL.below l (sides.1 l hl)) (listsR.below r (sides.2 r hr)) hn

/-- A pairing of valid and readable members leads to a node or to none. -/
theorem childOf_gives {d : Differ} (quiet : Signal.IsQuiet d.signal) {levels n : Nat}
    {p : Pairing Variant} (deep : n ≤ levels)
    (hl : ∀ l ∈ p.left?, ValidMember l ∧ ValidBelow d.comparator.store n l)
    (hr : ∀ r ∈ p.right?, ValidMember r ∧ ValidBelow d.comparator.store n r)
    (readable : ∀ l ∈ p.left?, ∀ r ∈ p.right?, Readable d.comparator l r)
    (ih : ∀ l ∈ p.left?, ∀ r ∈ p.right?, ReadableBelow d.comparator l r →
      ∃ node, Gives (d.compare levels l r) (.ok node)) :
    ∃ child, Gives (d.childOf levels p) (.ok child) := by
  cases p with
  | left l =>
      rcases exists_gives_expand quiet .addition (hl l rfl).2 deep with ⟨n, hn⟩
      exact ⟨some n, (Gives.checkpoint quiet).bind (hn.map some)⟩
  | right r =>
      rcases exists_gives_expand quiet .deletion (hr r rfl).2 deep with ⟨n, hn⟩
      exact ⟨some n, (Gives.checkpoint quiet).bind (hn.map some)⟩
  | both l r =>
      by_cases hp : equalByPlace l r = true
      · -- A descent needs what lies below to be readable, which only one tree id for both would spare.
        have apart : ∀ x f fs g gs, l = .tree f fs → r = .tree g gs → f.treeId = some x →
            g.treeId ≠ some x := by
          rintro x f fs g gs rfl rfl hx hy
          rcases equalByPlace_folders.mp hp with hn | hn
          · cases hn.symm.trans hx
          · cases hn.symm.trans hy
        rcases ih l rfl r rfl (readableBelow_of_readable (readable l rfl r rfl) apart) with ⟨n, hn⟩
        refine ⟨if n.isEmpty then none else some n, (Gives.checkpoint quiet).bind ?_⟩
        simp only [hp, if_true]
        exact hn.bind (Gives.pure _)
      · have hpf := Bool.eq_false_iff.mpr hp
        have present := And.intro (hl l rfl).1.present (hr r rfl).1.present
        rcases exists_equal_of_readable present.1 present.2 (readable l rfl r rfl) with ⟨same, hs⟩
        cases same with
        | true =>
            refine ⟨none, (Gives.checkpoint quiet).bind ?_⟩
            simp only [hpf, Bool.false_eq_true, if_false]
            exact (gives_equal hs).bind (Gives.pure none)
        | false =>
            have apart : ∀ x f fs g gs, l = .tree f fs → r = .tree g gs → f.treeId = some x →
                g.treeId ≠ some x := by
              rintro x f fs g gs rfl rfl hx hy
              rw [Comparator.equal_folders present.1 present.2, Verdict.ofFolders, hx, hy] at hs
              simp at hs
            rcases ih l rfl r rfl (readableBelow_of_readable (readable l rfl r rfl) apart) with
              ⟨n, hn⟩
            refine ⟨some n, (Gives.checkpoint quiet).bind ?_⟩
            simp only [hpf, Bool.false_eq_true, if_false]
            exact (gives_equal hs).bind (hn.map some)

/-- Two valid hierarchies of which everything needed can be read have a difference. -/
theorem exists_gives_compare {d : Differ} (quiet : Signal.IsQuiet d.signal) {levels n : Nat}
    {l r : Variant} (deep : n ≤ levels) (hl : ValidBelow d.comparator.store n l)
    (hr : ValidBelow d.comparator.store n r) (readable : ReadableBelow d.comparator l r) :
    ∃ node, Gives (d.compare levels l r) (.ok node) := by
  -- One level is used up by each folder, and a hierarchy of no levels is a file.
  induction levels generalizing n l r with
  | zero =>
      cases hl with
      | blob n b => exact ⟨_, compare_flat d 0 (.blob b) r (fun h => Bool.false_ne_true h.1) ▸ Gives.pure _⟩
      | tree => omega
  | succ levels ih =>
      cases hl with
      | blob n b =>
          exact ⟨_, compare_flat d _ (.blob b) r (fun h => Bool.false_ne_true h.1) ▸ Gives.pure _⟩
      | tree n f fs ls left validL belowL =>
          cases hr with
          | blob _ b =>
              exact ⟨_, compare_flat d _ (.tree f fs) (.blob b) (fun h => Bool.false_ne_true h.2) ▸
                Gives.pure _⟩
          | tree _ g gs rs right validR belowR =>
              have deep' : n ≤ levels := by omega
              -- Every pairing has an answer, so the traversal of all of them has one.
              have hc : ∃ found, Gives ((Pairing.join Variant.name ls rs).mapM (d.childOf levels))
                  (.ok found) := by
                refine exists_gives_mapM fun p hp => ?_
                have sides := Pairing.sides_of_mem_join hp
                refine childOf_gives quiet deep'
                  (fun l hl => ⟨validL l (sides.1 l hl), belowL l (sides.1 l hl)⟩)
                  (fun r hr => ⟨validR r (sides.2 r hr), belowR r (sides.2 r hr)⟩) ?_
                  (fun l hl r hr hrb => ih deep' (belowL l (sides.1 l hl)) (belowR r (sides.2 r hr)) hrb)
                intro l hl r hr
                exact readable ls rs left right l (sides.1 l hl) r (sides.2 r hr)
                  (Pairing.name_eq_of_mem_join hp hl hr)
              rcases hc with ⟨found, hfound⟩
              rw [compare_folders]
              exact ⟨_, (gives_listing left validL).bind
                ((gives_listing right validR).bind (hfound.bind (Gives.pure _)))⟩

/-- Two listed hierarchies of which everything needed can be read have a difference. -/
theorem compare_gives {d : Differ} (quiet : Signal.IsQuiet d.signal) {levels n : Nat}
    {l r : Variant} (deep : n ≤ levels) (hl : WellListed d.comparator.store n l)
    (hr : WellListed d.comparator.store n r) (readable : ReadableBelow d.comparator l r) :
    ∃ node, Gives (d.compare levels l r) (.ok node) :=
  exists_gives_compare quiet deep hl.validBelow hr.validBelow readable

/-- The difference of two existing hierarchies exists and obeys the law, whichever listings are deferred
    and however deep they go. -/
theorem diff_isDifference (d : Differ) (quiet : Signal.IsQuiet d.signal) {levels n : Nat}
    (deep : n ≤ levels) {l r : Variant} (presentL : l.present = true) (presentR : r.present = true)
    (hl : WellListed d.comparator.store n l) (hr : WellListed d.comparator.store n r)
    (readable : ReadableBelow d.comparator l r) :
    ∃ node, (d.diff levels l r).outcome = .ok node ∧ IsDifference d.comparator l r node := by
  rcases compare_gives quiet deep hl hr readable with ⟨node, hnode⟩
  refine ⟨node, ?_, compare_isDifference hl hr hnode.returns⟩
  have hpl : Gives (Run.ofExcept (requirePresent l .rootMissing)) (.ok ()) := by
    rw [requirePresent, if_pos presentL]
    exact Gives.pure ()
  have hpr : Gives (Run.ofExcept (requirePresent r .rootMissing)) (.ok ()) := by
    rw [requirePresent, if_pos presentR]
    exact Gives.pure ()
  exact (hpl.bind (hpr.bind hnode)).outcome

namespace Sample

/-- A file with a content id, in a folder that its path does not matter for. -/
def file (name id : String) : Variant :=
  .blob ⟨true, name, Path.root, .index, some ⟨id⟩, none, false⟩

/-- A folder without a tree id at a revision. -/
def folder (name : String) (revision : Revision) : Folder :=
  ⟨true, name, Path.root, revision, none⟩

/-- A store that makes up one file for every folder, another one for each of two revisions. -/
def store : Store where
  content _ := .ok []
  listing f := .ok [file "x" (if f.revision = .index then "1" else "2")]

/-- Compares by ids, never stops. -/
def differ : Differ :=
  ⟨⟨store, false⟩, none⟩

/-- A root with a file and a deferred folder. -/
def left : Variant :=
  .tree (folder "" .index) (some [file "a" "1", .tree (folder "b" .index) none])

/-- A root with a deferred folder and a file. -/
def right : Variant :=
  .tree (folder "" .workingTree) (some [.tree (folder "b" .workingTree) none, file "c" "1"])

end Sample

open Differ.Sample in
/-- The law at two roots that list a file and a deferred folder each. -/
theorem diff_of_deferred_folders :
    (left.present = true ∧ right.present = true ∧ WellListed store 2 left ∧
      WellListed store 2 right ∧ ReadableBelow differ.comparator left right) ∧
    ∃ node, (differ.diff 2 left right).outcome = .ok node ∧
      IsDifference differ.comparator left right node := by
  have hb : ∀ revision, WellListed store 1 (.tree (folder "b" revision) none) := by
    intro revision
    refine WellListed.tree 0 _ none _ rfl (by simp [Ascending]) ?_ ?_
    · intro v hv
      rw [List.mem_singleton.mp hv]
      exact ⟨rfl, (by decide : "x" ≠ ""), (by decide : '/' ∉ "x".toList)⟩
    · intro v hv
      rw [List.mem_singleton.mp hv]
      exact WellListed.blob 0 _
  have hl : WellListed store 2 left := by
    refine WellListed.tree 1 _ _ _ rfl (by decide) (by decide) ?_
    simp [hb, file, WellListed.blob]
  have hr : WellListed store 2 right := by
    refine WellListed.tree 1 _ _ _ rfl (by decide) (by decide) ?_
    simp [hb, file, WellListed.blob]
  have readable : ReadableBelow differ.comparator left right := by
    intro ls rs hls hrs l hml r hmr same
    cases Except.ok.inj hls
    cases Except.ok.inj hrs
    have hx : Readable differ.comparator (file "x" "1") (file "x" "2") :=
      Readable.contents _ _ false (by decide)
    simp only [List.mem_cons, List.not_mem_nil, or_false] at hml hmr
    rcases hml with rfl | rfl
    · rcases hmr with rfl | rfl
      · exact absurd same (by decide)
      · exact absurd same (by decide)
    · rcases hmr with rfl | rfl
      · refine Readable.folders _ _ _ _ _ _ rfl rfl ?_
        intro a ha b hb _
        rw [List.mem_singleton.mp ha, List.mem_singleton.mp hb]
        exact hx
      · exact absurd same (by decide)
  exact ⟨⟨rfl, rfl, hl, hr, readable⟩,
    diff_isDifference differ (fun _ h => nomatch h) le_rfl rfl rfl hl hr readable⟩

end Differ

end ThreeWay
