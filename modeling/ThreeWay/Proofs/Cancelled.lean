import Mathlib
import ThreeWay.Proofs.Checkout.Failure
import ThreeWay.Proofs.Diff.Stopped
import ThreeWay.Proofs.Scan.Stopped

/-!
# What a Cancellation Can Do

A difference, an expansion and a scan may be told to stop at any moment. Their answers are trees and change
maps, and half a tree would look like a whole one, so being told to stop must not lead to an answer of its
own: a run ends as it would have ended without the signal, or it is cancelled.

A signal is any function of the requests served so far. That covers a token that was cancelled before the run
and one that is cancelled while the store, the ignore rules or the hashing serve a request, and also signals
that no token could give, such as one that is taken back.

A store and a reference have failures of their own. If one of them fails as a run does that is cancelled, the
failure is passed on, and nobody can tell it from a cancellation. Contents in memory and the store of a checkout
do not fail that way. Apart from that, a run is cancelled only when the signal has fired.

The three parts are the three places where a token is handed in. Each is made of the law for such runs,
`Run.CutShort`, and of the failures that the run without a signal can have: what is known to be no cancellation
must have come from the signal.

## Theorems

* `Checkout.neverCancels`: A checkout has failures of its own.
* `cancellation_only_stops`: A cancellation stops a run or does nothing, and one before the run stops a
  difference right after the two roots are listed.
-/

namespace ThreeWay

open Run Differ

/-- A checkout fails to read, and that is never a cancellation. -/
theorem Checkout.neverCancels (c : Checkout) : c.store.NeverCancels where
  content b := c.reads_content b _
  listing f := c.reads_members f _

/-- A signal stops a difference, an expansion or a scan, or it does nothing at all. A run with a signal is
    cancelled only when the signal has fired. A signal that has fired before the run leaves a difference of
    two folders their two listings to ask for, and if these succeed and hold a member, it is cancelled. -/
theorem cancellation_only_stops :
    (∀ (fired : Signal) (c : Comparator) (levels : Nat) (l r : Variant),
      CutShort fired (diff ⟨c, some fired⟩ levels l r) (diff ⟨c, none⟩ levels l r) ∧
        (c.store.NeverCancels → (diff ⟨c, some fired⟩ levels l r).outcome = .error .cancelled →
          fired ((diff ⟨c, some fired⟩ levels l r).recordFrom []) = true)) ∧
    (∀ (fired : Signal) (c : Comparator) (levels : Nat) (kind : DiffKind) (v : Variant),
      CutShort fired (expandRoot ⟨c, some fired⟩ levels kind v)
        (expandRoot ⟨c, none⟩ levels kind v) ∧
        (c.store.NeverCancels →
          (expandRoot ⟨c, some fired⟩ levels kind v).outcome = .error .cancelled →
          fired ((expandRoot ⟨c, some fired⟩ levels kind v).recordFrom []) = true)) ∧
    (∀ (fired : Signal) (s : Scanner) (reference : Except Error Reference),
      CutShort fired ((s.under (some fired)).scan reference) ((s.under none).scan reference) ∧
        (reference ≠ .error .cancelled →
          ((s.under (some fired)).scan reference).outcome = .error .cancelled →
          fired (((s.under (some fired)).scan reference).recordFrom []) = true)) ∧
    ∀ (c : Comparator) (levels : Nat) (f g : Folder) (fs gs : Option (List Variant)),
      (diff ⟨c, some .raised⟩ levels (.tree f fs) (.tree g gs)).recordFrom [] <:+
        asks g gs ++ asks f fs ∧
      ∀ ls rs, 0 < levels → f.present = true → g.present = true →
        c.store.listed f fs = .ok ls → (∀ v ∈ ls, ValidMember v) →
        c.store.listed g gs = .ok rs → (∀ v ∈ rs, ValidMember v) → ls ≠ [] ∨ rs ≠ [] →
        (diff ⟨c, some .raised⟩ levels (.tree f fs) (.tree g gs)).outcome = .error .cancelled := by
  -- A run with a signal is cut short at most. If it was cancelled, the signal has fired, or the run without a signal
  -- ends so too, and the store or the reference would have to answer like that.
  refine ⟨fun fired c levels l r => ?_, fun fired c levels kind v => ?_, fun fired s reference => ?_,
    fun c levels f g fs gs => ⟨diff_raised_record levels f g fs gs, ?_⟩⟩
  · have cut : CutShort fired _ _ := (diff_stops (c := c) levels l r).cutShort
    exact ⟨cut, fun never hc =>
      (cut.cause hc).resolve_right (not_cancelled_of_outcome_diff never levels l r)⟩
  · have cut : CutShort fired _ _ := (expandRoot_stops (c := c) levels kind v).cutShort
    exact ⟨cut, fun never hc =>
      (cut.cause hc).resolve_right (not_cancelled_of_outcome_expandRoot never levels kind v)⟩
  · have cut : CutShort fired _ _ := (Scanner.scan_stops (c := s) reference).cutShort
    refine ⟨cut, fun honest hc => (cut.cause hc).resolve_right fun full => ?_⟩
    have quiet : Signal.IsQuiet (s.under none).signal := fun _ h => by cases h
    -- Without a signal a scan fails as its reference does, and in no other way.
    rcases Scanner.scan_outcome_of_quiet quiet reference with ⟨o, ho⟩ | ⟨e, he, ho⟩
    · cases full.symm.trans ho
    · cases full.symm.trans ho
      exact honest he
  · intro ls rs deep presentL presentR left validL right validR members
    -- With no levels left there is nothing to list, and the run would end before it asks the signal.
    obtain ⟨levels, rfl⟩ := Nat.exists_eq_succ_of_ne_zero deep.ne'
    exact diff_raised_outcome presentL presentR left validL right validR members

namespace Signal.Sample

/-- A store with one file in the root at each of two revisions, and the comparison by ids. -/
def byIds : Comparator :=
  ⟨Differ.Sample.store, false⟩

/-- A signal that fires while the root is listed. -/
def onListing : Signal :=
  .onRequest (· = .listing Path.root)

/-- A signal that fires while an ignore verdict is served. -/
def onVerdict : Signal :=
  .onRequest fun request => request matches .ignored _

end Signal.Sample

open Signal.Sample Differ.Sample in
/-- A signal that fires in the midst of a run, and one that has fired before. -/
theorem cancellation_while_listing :
    (byIds.store.NeverCancels ∧
      CutShort onListing (diff ⟨byIds, some onListing⟩ 2 left right) (diff ⟨byIds, none⟩ 2 left right) ∧
      (diff ⟨byIds, some onListing⟩ 2 left right).outcome = .error .cancelled ∧
      onListing ((diff ⟨byIds, some onListing⟩ 2 left right).recordFrom []) = true) ∧
    CutShort onListing (expandRoot ⟨byIds, some onListing⟩ 2 .addition left)
      (expandRoot ⟨byIds, none⟩ 2 .addition left) ∧
    (((Scanner.Sample.scanner.under (some onVerdict)).scan (.ok Scanner.Sample.reference)).outcome =
        .error .cancelled ∧
      onVerdict (((Scanner.Sample.scanner.under (some onVerdict)).scan
        (.ok Scanner.Sample.reference)).recordFrom []) = true) ∧
    (diff ⟨byIds, some .raised⟩ 2 left right).outcome = .error .cancelled := by
  have never : byIds.store.NeverCancels := ⟨fun _ h => (by cases h), fun _ h => (by cases h)⟩
  -- The outcomes are computed, so they do not rest on the law that is applied to them.
  have stopped : (diff ⟨byIds, some onListing⟩ 2 left right).outcome = .error .cancelled := by
    cbv
  have scanned : ((Scanner.Sample.scanner.under (some onVerdict)).scan
      (.ok Scanner.Sample.reference)).outcome = .error .cancelled := by
    cbv
  have whole := cancellation_only_stops.1 onListing byIds 2 left right
  refine ⟨⟨never, whole.1, stopped, whole.2 never stopped⟩,
    (cancellation_only_stops.2.1 onListing byIds 2 .addition left).1,
    ⟨scanned, (cancellation_only_stops.2.2.1 onVerdict Scanner.Sample.scanner
      (.ok Scanner.Sample.reference)).2 (fun h => by cases h) scanned⟩, ?_⟩
  exact (cancellation_only_stops.2.2.2 byIds 2 _ _ _ _).2 _ _ (by decide) rfl rfl rfl (by decide) rfl
    (by decide) (Or.inl (List.cons_ne_nil _ _))

end ThreeWay
