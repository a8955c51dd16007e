import ThreeWay.Proofs.Diff.Law
import ThreeWay.Proofs.Run

/-!
# Expanding One Side

A listing is checked before it is used, so what comes out of it is what the store lists and all of it is
valid. Expanding a variant asks for one listing after the other, and what it builds has every member of
every listing in its place.

Both are said twice. What an answer tells about the listings holds whatever the signal does; that there is
an answer takes a quiet signal and enough levels.

`returns_expand` is the inversion of the code: one answer, taken apart into the listing, the check of its members
and an answer for each of them. All that is known of expanded trees goes through it. The existence of an answer is
an induction on the listings instead, with the number of levels counted down beside it.

## Theorems

* `returns_listing`, `gives_listing`: A checked listing.
* `gives_listing_of_returns`: A listing that is answered at all is answered always.
* `returns_expand`: An answer, and an answer for each member.
* `expand_whole`: What is expanded is whole.
* `exists_gives_expand`, `expand_gives`: What is valid can be expanded, and so what is well listed can.
-/

namespace ThreeWay.Differ

open Run

/-- A checked listing holds the members of the folder, and they are valid. -/
theorem returns_listing {d : Differ} {f : Folder} {members : Option (List Variant)}
    {found : List Variant} (h : Returns (d.listing f members) found) :
    d.comparator.store.listed f members = .ok found ∧ ∀ v ∈ found, ValidMember v := by
  rcases h.bind with ⟨ms, hms, h⟩
  rcases h.bind with ⟨u, hu, h⟩
  rw [h.pure]
  refine ⟨?_, (forM_checkMember_eq_ok_iff ms).mp hu.ofExcept⟩
  -- Members at hand are the listing, and other ones are asked for.
  cases members with
  | some given =>
      rw [hms.pure]
      rfl
  | none => exact hms.serve

theorem gives_listing {d : Differ} {f : Folder} {members : Option (List Variant)}
    {found : List Variant} (h : d.comparator.store.listed f members = .ok found)
    (valid : ∀ v ∈ found, ValidMember v) : Gives (d.listing f members) (.ok found) := by
  have hm : Gives (d.members f members) (.ok found) := by
    rw [← h]
    cases members with
    | some given => exact Gives.pure given
    | none => exact Gives.serve _ _
  -- Valid members pass the check, and then there is nothing else to fail.
  have hc : Gives (Run.ofExcept (found.forM checkMember)) (.ok ()) := by
    rw [← (forM_checkMember_eq_ok_iff found).mpr valid]
    exact Gives.ofExcept _
  exact hm.bind (hc.bind (Gives.pure found))

/-- A listing that is answered at all is answered always: it asks a store, and no signal. -/
theorem gives_listing_of_returns {d : Differ} {f : Folder} {members : Option (List Variant)}
    {found : List Variant} (h : Returns (d.listing f members) found) :
    Gives (d.listing f members) (.ok found) := by
  have hl := returns_listing h
  exact gives_listing hl.1 hl.2

theorem expand_folder (d : Differ) (levels : Nat) (kind : DiffKind) (f : Folder)
    (members : Option (List Variant)) :
    d.expand (levels + 1) kind (.tree f members) = do
      let found ← d.listing f members
      let children ← found.mapM fun member => do
        Run.checkpoint d.signal
        d.expand levels kind member
      return oneSided (.tree f members) kind children := by
  rw [expand]

/-- What an answer to the expansion of a variant is: a file alone, or a folder with an answer for each of its
    members, and those are valid. -/
theorem returns_expand {d : Differ} {levels : Nat} {kind : DiffKind} {v : Variant} {node : DiffNode}
    (h : Returns (d.expand levels kind v) node) :
    (∃ b, v = .blob b ∧ node = oneSided (.blob b) kind []) ∨
      ∃ fewer f members found children, levels = fewer + 1 ∧ v = .tree f members ∧
        d.comparator.store.listed f members = .ok found ∧ (∀ u ∈ found, ValidMember u) ∧
        List.Forall₂ (fun u n => Returns (d.expand fewer kind u) n) found children ∧
        node = oneSided (.tree f members) kind children := by
  cases v with
  | blob b =>
      rw [expand] at h
      exact Or.inl ⟨b, rfl, h.pure⟩
  | tree f members =>
      -- With no level left a folder is not listed, so there would be no answer.
      cases levels with
      | zero =>
          rw [expand] at h
          exact absurd h not_returns_throw
      | succ fewer =>
          rw [expand_folder] at h
          rcases h.bind with ⟨found, hfound, h⟩
          rcases h.bind with ⟨children, hchildren, h⟩
          rcases returns_listing hfound with ⟨listed, valid⟩
          refine Or.inr ⟨fewer, f, members, found, children, rfl, rfl, listed, valid, ?_, h.pure⟩
          refine hchildren.mapM.imp fun v n hn => ?_
          rcases hn.bind with ⟨_, _, hn⟩
          exact hn

/-- Expanding a variant gives it whole. -/
theorem expand_whole {d : Differ} {levels : Nat} {kind : DiffKind} {v : Variant} {node : DiffNode}
    (h : Returns (d.expand levels kind v) node) : Whole d.comparator.store kind v node := by
  -- Each level of the answer is a level of the expansion, so the members are expanded with one level less.
  induction levels using Nat.strongRecOn generalizing v node with
  | ind levels ih =>
      rcases returns_expand h with
        ⟨b, rfl, rfl⟩ | ⟨fewer, f, members, found, children, rfl, rfl, listed, _, below, rfl⟩
      · exact Whole.blob b
      · refine Whole.tree f members found children listed (below.imp fun v n hn => ?_)
        exact ih fewer fewer.lt_succ_self hn

/-- A valid hierarchy can be expanded as far down as it goes. -/
theorem exists_gives_expand {d : Differ} (quiet : Signal.IsQuiet d.signal) (kind : DiffKind)
    {n levels : Nat} {v : Variant} (hv : ValidBelow d.comparator.store n v) (deep : n ≤ levels) :
    ∃ node, Gives (d.expand levels kind v) (.ok node) := by
  -- Along the hierarchy, which has no more levels than may be listed.
  induction hv generalizing levels with
  | blob n b =>
      refine ⟨oneSided (.blob b) kind [], ?_⟩
      rw [expand]
      exact Gives.pure _
  | tree n f members found listed valid below ih =>
      cases levels with
      | zero => omega
      | succ levels =>
          have hc : ∃ children, Gives (found.mapM fun member => do
              Run.checkpoint d.signal
              d.expand levels kind member) (.ok children) := by
            refine exists_gives_mapM fun v hv => ?_
            rcases ih v hv (by omega : n ≤ levels) with ⟨node, hnode⟩
            exact ⟨node, (Gives.checkpoint quiet).bind hnode⟩
          rcases hc with ⟨children, hchildren⟩
          refine ⟨oneSided (.tree f members) kind children, ?_⟩
          rw [expand_folder]
          exact (gives_listing listed valid).bind (hchildren.bind (Gives.pure _))

/-- A listed hierarchy can be expanded as far down as it goes. -/
theorem expand_gives {d : Differ} (quiet : Signal.IsQuiet d.signal) (kind : DiffKind) {n levels : Nat}
    {v : Variant} (hv : WellListed d.comparator.store n v) (deep : n ≤ levels) :
    ∃ node, Gives (d.expand levels kind v) (.ok node) :=
  exists_gives_expand quiet kind hv.validBelow deep

end ThreeWay.Differ
