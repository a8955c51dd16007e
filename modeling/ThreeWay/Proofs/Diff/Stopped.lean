import ThreeWay.Proofs.Diff.Failure
import ThreeWay.Proofs.Run.Stopped

/-!
# Differences That a Signal Stops

A difference with a signal next to the same difference without one. The signal is asked before each pairing
of two listings and before each member that is expanded, and the runs have these steps in common, so they
go the same way up to the one where the signal has fired.

A signal that has fired before the run stops the first of these steps. What is done until then is to list
the two roots, the left one first, and no request comes after that.

That both runs have their steps in common is shown along the definitions: `StopsOnly` holds of the steps of the
monad and of a checkpoint, it is handed on by `bind` and by a traversal, and so each function of the builder has
one lemma that is put together as its body is.

## Main definitions

* `Store.NeverCancels`: A store whose answers are not mistaken for a cancellation.
* `Differ.asks`: What the listing of a folder asks.

## Theorems

* `members_stops`, `listing_stops`, `equal_stops`, `childOf_stops`: The steps of the builder.
* `expand_stops`, `compare_stops`: A signal only stops the expansion and the comparison of variants.
* `diff_stops`, `expandRoot_stops`: The same of the two functions that a caller has.
* `not_cancelled_of_outcome_diff`: Without a signal a difference is not cancelled.
* `compare_raised_record`: Two folders cost two listings, and nothing below them is asked for.
* `diff_raised_record`, `diff_raised_outcome`: A difference after the signal has fired.
-/

namespace ThreeWay

/-- A store that fails for reasons of its own. To be cancelled is the failure of a run with a signal. -/
structure Store.NeverCancels (s : Store) : Prop where
  content : ∀ b, s.content b ≠ .error .cancelled
  listing : ∀ f, s.listing f ≠ .error .cancelled

/-- Contents and listings in memory are there, or they are missing. -/
theorem Memory.neverCancels (m : Memory) : m.store.NeverCancels where
  content b h := by
    dsimp only [Memory.store] at h
    split at h
    · cases h
    · cases h
  listing f h := by
    dsimp only [Memory.store] at h
    split at h
    · cases h
    · cases h

namespace Differ

open Run

variable {c : Comparator} {fired : Signal}

theorem members_stops (f : Folder) (members : Option (List Variant)) :
    StopsOnly fired (Differ.members ⟨c, some fired⟩ f members) (Differ.members ⟨c, none⟩ f members) := by
  cases members with
  | some given => exact .pure given
  | none => exact .serve _ _

theorem listing_stops (f : Folder) (members : Option (List Variant)) :
    StopsOnly fired (listing ⟨c, some fired⟩ f members) (listing ⟨c, none⟩ f members) :=
  (members_stops f members).bind fun found => (StopsOnly.ofExcept _).bind fun _ => .pure found

theorem equal_stops (a b : Variant) :
    StopsOnly fired (equal ⟨c, some fired⟩ a b) (equal ⟨c, none⟩ a b) := by
  unfold equal
  -- Two ids answer without a request. Contents are two requests, and neither of them looks at the signal.
  cases hv : Verdict.of c.byteCompare (some a) (some b) with
  | known answer => exact .pure answer
  | byBytes x y =>
      exact (StopsOnly.serve _ _).bind fun xs => (StopsOnly.serve _ _).bind fun ys => .pure _

/-- A signal only stops an expansion. -/
theorem expand_stops (levels : Nat) (kind : DiffKind) (v : Variant) :
    StopsOnly fired (expand ⟨c, some fired⟩ levels kind v) (expand ⟨c, none⟩ levels kind v) := by
  induction levels generalizing v with
  | zero =>
      cases v with
      | blob b =>
          rw [expand, expand]
          exact .pure _
      | tree f members =>
          rw [expand, expand]
          exact .throw _
  | succ levels ih =>
      cases v with
      | blob b =>
          rw [expand, expand]
          exact .pure _
      | tree f members =>
          rw [expand_folder, expand_folder]
          refine (listing_stops f members).bind fun found => ?_
          refine (StopsOnly.mapM fun member _ => ?_).bind fun children => .pure _
          exact (StopsOnly.checkpoint fired).bind fun _ => ih member

/-- One pairing goes the same way if comparing its members does. -/
theorem childOf_stops {levels : Nat} (p : Pairing Variant)
    (ih : ∀ l r, StopsOnly fired (compare ⟨c, some fired⟩ levels l r) (compare ⟨c, none⟩ levels l r)) :
    StopsOnly fired (childOf ⟨c, some fired⟩ levels p) (childOf ⟨c, none⟩ levels p) := by
  refine (StopsOnly.checkpoint fired).bind fun _ => ?_
  cases p with
  | left l => exact (expand_stops levels .addition l).map some
  | right r => exact (expand_stops levels .deletion r).map some
  | both l r =>
      dsimp only
      -- The place is looked at before anything is asked, so both runs take the same branch.
      by_cases place : equalByPlace l r = true
      · rw [if_pos place, if_pos place]
        exact (ih l r).bind fun child => .pure _
      · rw [if_neg place, if_neg place]
        refine (equal_stops l r).bind fun same => ?_
        cases same with
        | true => exact .pure none
        | false => exact (ih l r).map some

/-- A signal only stops a comparison. -/
theorem compare_stops (levels : Nat) (l r : Variant) :
    StopsOnly fired (compare ⟨c, some fired⟩ levels l r) (compare ⟨c, none⟩ levels l r) := by
  induction levels generalizing l r with
  | zero =>
      rcases flat_or_folders l r with flat | ⟨f, fs, g, gs, rfl, rfl⟩
      · rw [compare_flat _ 0 l r flat, compare_flat _ 0 l r flat]
        exact .pure _
      · rw [compare, compare]
        exact .throw _
  | succ levels ih =>
      rcases flat_or_folders l r with flat | ⟨f, fs, g, gs, rfl, rfl⟩
      · rw [compare_flat _ _ l r flat, compare_flat _ _ l r flat]
        exact .pure _
      · rw [compare_folders, compare_folders]
        refine (listing_stops f fs).bind fun ls => ?_
        refine (listing_stops g gs).bind fun rs => ?_
        exact (StopsOnly.mapM fun p _ => childOf_stops p ih).bind fun found => .pure _

theorem diff_stops (levels : Nat) (l r : Variant) :
    StopsOnly fired (diff ⟨c, some fired⟩ levels l r) (diff ⟨c, none⟩ levels l r) :=
  (StopsOnly.ofExcept _).bind fun _ => (StopsOnly.ofExcept _).bind fun _ => compare_stops levels l r

theorem expandRoot_stops (levels : Nat) (kind : DiffKind) (v : Variant) :
    StopsOnly fired (expandRoot ⟨c, some fired⟩ levels kind v)
      (expandRoot ⟨c, none⟩ levels kind v) :=
  (StopsOnly.ofExcept _).bind fun _ => expand_stops levels kind v

/-! ### Without a Signal -/

theorem requirePresent_ne_cancelled (v : Variant) (reason : Malformation) :
    requirePresent v reason ≠ .error .cancelled := by
  unfold requirePresent
  split_ifs
  · exact fun h => nomatch h
  · exact fun h => nomatch h

theorem checkMember_ne_cancelled (v : Variant) : checkMember v ≠ .error .cancelled := by
  unfold checkMember
  split_ifs
  · exact fun h => nomatch h
  · exact fun h => nomatch h
  · exact requirePresent_ne_cancelled v .memberMissing

/-- All variants have the property that says nothing. -/
theorem passes_true (s : Store) : s.Passes fun _ => True :=
  fun _ _ _ _ _ _ _ => trivial

/-- Where there is no signal, only the store could say that the run is cancelled. -/
theorem not_arises_cancelled (never : c.store.NeverCancels) {P : Variant → Prop} :
    ¬ Arises ⟨c, none⟩ P .cancelled := by
  intro h
  cases h with
  | stopped _ armed => cases armed
  | content b _ unreadable => exact never.content b unreadable
  | listing f _ _ unlisted => exact never.listing f unlisted
  | member _ _ _ v _ _ _ _ refused => exact checkMember_ne_cancelled v refused

theorem not_cancelled_of_outcome_diff (never : c.store.NeverCancels) (levels : Nat) (l r : Variant) :
    (diff ⟨c, none⟩ levels l r).outcome ≠ .error .cancelled := by
  intro h
  have hf : Fails (diff ⟨c, none⟩ levels l r) .cancelled := ⟨[], h⟩
  -- A root that is missing has a failure of its own, and any other failure arises in the comparison.
  rcases hf.bind with hf | ⟨_, _, hf⟩
  · exact requirePresent_ne_cancelled _ _ hf.ofExcept
  rcases hf.bind with hf | ⟨_, _, hf⟩
  · exact requirePresent_ne_cancelled _ _ hf.ofExcept
  · exact not_arises_cancelled never (compare_arises (passes_true _) trivial trivial hf)

theorem not_cancelled_of_outcome_expandRoot (never : c.store.NeverCancels) (levels : Nat)
    (kind : DiffKind) (v : Variant) :
    (expandRoot ⟨c, none⟩ levels kind v).outcome ≠ .error .cancelled := by
  intro h
  have hf : Fails (expandRoot ⟨c, none⟩ levels kind v) .cancelled := ⟨[], h⟩
  rcases hf.bind with hf | ⟨_, _, hf⟩
  · exact requirePresent_ne_cancelled _ _ hf.ofExcept
  · exact not_arises_cancelled never (expand_arises (passes_true _) trivial hf)

/-! ### After the Signal Has Fired -/

/-- What the listing of a folder asks: nothing, if its members were listed up front. -/
def asks (f : Folder) : Option (List Variant) → List Request
  | some _ => []
  | none => [.listing f.path]

/-- A listing leaves one request in the record, or none. -/
theorem listing_record (d : Differ) (f : Folder) (members : Option (List Variant))
    (served : List Request) : (d.listing f members).recordFrom served = asks f members ++ served := by
  have asked : (d.members f members).recordFrom served = asks f members ++ served := by
    cases members with
    | some given => rfl
    | none =>
        refine recordFrom_bind (P := (· = asks f none ++ served)) rfl fun _ => ?_
        exact recordFrom_ofExcept _ _
  refine recordFrom_bind (P := (· = asks f members ++ served)) asked fun found => ?_
  rw [asked]
  -- The check of the members asks nothing, so what is recorded before it is what is left.
  have left := recordFrom_ofExcept (found.forM checkMember) (asks f members ++ served)
  exact recordFrom_bind (P := (· = asks f members ++ served)) left fun _ => left

/-- No pairing gets past its checkpoint. -/
theorem childOf_raised (levels : Nat) (p : Pairing Variant) (served : List Request) :
    (childOf ⟨c, some .raised⟩ levels p).answerFrom served = .error .cancelled ∧
      (childOf ⟨c, some .raised⟩ levels p).recordFrom served = served :=
  bind_of_error (show (Run.checkpoint (some .raised)).answerFrom served = .error .cancelled from rfl)

theorem mapM_childOf_raised (levels : Nat) (ps : List (Pairing Variant)) (served : List Request) :
    (ps ≠ [] → (ps.mapM (childOf ⟨c, some .raised⟩ levels)).answerFrom served = .error .cancelled) ∧
      (ps.mapM (childOf ⟨c, some .raised⟩ levels)).recordFrom served = served := by
  -- Only the first pairing is tried. It is cancelled, and so is the traversal.
  cases ps with
  | nil => exact ⟨fun h => absurd rfl h, rfl⟩
  | cons p ps =>
      rw [List.mapM_cons]
      have stopped := childOf_raised (c := c) levels p served
      exact ⟨fun _ => (bind_of_error stopped.1).1, (bind_of_error stopped.1).2.trans stopped.2⟩

/-- After the signal has fired, a comparison of two folders asks for their two listings at most. -/
theorem compare_raised_record (levels : Nat) (f g : Folder) (fs gs : Option (List Variant))
    (served : List Request) :
    (compare ⟨c, some .raised⟩ levels (.tree f fs) (.tree g gs)).recordFrom served <:+
      asks g gs ++ (asks f fs ++ served) := by
  cases levels with
  | zero =>
      rw [compare]
      exact (List.suffix_append _ _).trans (List.suffix_append _ _)
  | succ levels =>
      rw [compare_folders]
      -- Whether the first listing is answered or not, it was asked for.
      refine recordFrom_bind (P := (· <:+ asks g gs ++ (asks f fs ++ served))) ?_ fun ls => ?_
      · rw [listing_record]
        exact List.suffix_append _ _
      rw [listing_record]
      refine recordFrom_bind (P := (· <:+ asks g gs ++ (asks f fs ++ served))) ?_ fun rs => ?_
      · simp only [listing_record, List.suffix_refl]
      rw [listing_record]
      -- The pairings ask nothing more, since none of them gets past its checkpoint.
      have stopped := (mapM_childOf_raised (c := c) levels (Pairing.join Variant.name ls rs)
        (asks g gs ++ (asks f fs ++ served))).2
      refine recordFrom_bind (P := (· <:+ asks g gs ++ (asks f fs ++ served))) ?_ fun found => ?_
      · simp only [stopped, List.suffix_refl]
      · rw [stopped]
        exact List.suffix_rfl

/-- After the signal has fired, a difference of two folders asks for their two listings at most. -/
theorem diff_raised_record (levels : Nat) (f g : Folder) (fs gs : Option (List Variant)) :
    (diff ⟨c, some .raised⟩ levels (.tree f fs) (.tree g gs)).recordFrom [] <:+
      asks g gs ++ asks f fs := by
  refine recordFrom_bind (P := (· <:+ asks g gs ++ asks f fs)) ?_ fun _ => ?_
  · rw [recordFrom_ofExcept]
    exact List.nil_suffix
  rw [recordFrom_ofExcept]
  refine recordFrom_bind (P := (· <:+ asks g gs ++ asks f fs)) ?_ fun _ => ?_
  · rw [recordFrom_ofExcept]
    exact List.nil_suffix
  rw [recordFrom_ofExcept]
  have asked := compare_raised_record (c := c) levels f g fs gs []
  rwa [List.append_nil] at asked

theorem join_ne_nil {ls rs : List Variant} (h : ls ≠ [] ∨ rs ≠ []) :
    Pairing.join Variant.name ls rs ≠ [] := by
  cases ls with
  | nil =>
      cases rs with
      | nil => exact absurd rfl (h.resolve_left fun h => h rfl)
      | cons r rs => simp [Pairing.join]
  | cons l ls =>
      cases rs with
      | nil => simp [Pairing.join]
      | cons r rs =>
          rw [Pairing.join]
          split_ifs
          · exact List.cons_ne_nil _ _
          · exact List.cons_ne_nil _ _
          · exact List.cons_ne_nil _ _

/-- After the signal has fired, a difference of two folders of which one has members is cancelled. -/
theorem diff_raised_outcome {levels : Nat} {f g : Folder} {fs gs : Option (List Variant)}
    {ls rs : List Variant} (presentL : f.present = true) (presentR : g.present = true)
    (left : c.store.listed f fs = .ok ls) (validL : ∀ v ∈ ls, ValidMember v)
    (right : c.store.listed g gs = .ok rs) (validR : ∀ v ∈ rs, ValidMember v)
    (members : ls ≠ [] ∨ rs ≠ []) :
    (diff ⟨c, some .raised⟩ (levels + 1) (.tree f fs) (.tree g gs)).outcome = .error .cancelled := by
  have hl : Gives (Run.ofExcept (requirePresent (.tree f fs) .rootMissing)) (.ok ()) := by
    rw [requirePresent, if_pos (show (Variant.tree f fs).present = true from presentL)]
    exact .pure ()
  have hr : Gives (Run.ofExcept (requirePresent (.tree g gs) .rootMissing)) (.ok ()) := by
    rw [requirePresent, if_pos (show (Variant.tree g gs).present = true from presentR)]
    exact .pure ()
  -- Both roots are there and both listings answer, so the run comes to its first pairing.
  refine (hl.bind (hr.bind ?_)).outcome
  rw [compare_folders]
  refine (gives_listing left validL).bind ((gives_listing right validR).bind (Gives.bind_error ?_))
  exact fun served => (mapM_childOf_raised levels _ served).1 (join_ne_nil members)

end Differ

end ThreeWay
