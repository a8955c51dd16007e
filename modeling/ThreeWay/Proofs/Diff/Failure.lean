import ThreeWay.Proofs.Diff.Build

/-!
# How a Difference Can Fail

A difference fails with what one of its steps fails with. It is stopped, it is not allowed to go as deep as
the hierarchies do, the store has no answer, or a member that the store lists does not pass the check. Whoever
catches a failure of another kind can rely on it not coming from here.

Which folders are listed at all is part of that. They are the two roots and what is listed below them, so a
property of variants that listings hand down from folder to member holds of all of them. `Store.Passes` says
that of a property, and `Differ.Arises` tells the ways to fail with such a property in mind.

Two hierarchies that are well listed leave few of these ways: nothing is missing in them, and all members are
valid.

## Main definitions

* `Store.Passes`: A property that goes from a folder to its members.
* `Differ.Arises`: The ways in which a difference of such variants fails.
* `Differ.Failure`: Those of well listed hierarchies.

## Theorems

* `checkpoint_arises`, `listing_arises`, `equal_arises`: The steps that fail by themselves.
* `expand_arises`, `compare_arises`: There are no other ways to fail.
* `Arises.failure`: A well listed hierarchy leaves few ways to fail.
* `expand_fails`, `compare_fails`: The same for well listed hierarchies.
-/

namespace ThreeWay

/-- A property that goes from every folder to its members. -/
def Store.Passes (s : Store) (P : Variant → Prop) : Prop :=
  ∀ f members found v, P (.tree f members) → s.listed f members = .ok found → v ∈ found → P v

namespace Differ

open Run

/-- A way in which a difference fails, if all variants in it have a property. -/
inductive Arises (d : Differ) (P : Variant → Prop) : Error → Prop
  | stopped (fired : Signal) (armed : d.signal = some fired) : Arises d P .cancelled
  | tooDeep (path : String) : Arises d P (.tooDeep path)
  | content (b : Blob) (e : Error) (unreadable : d.comparator.store.content b = .error e) :
      Arises d P e
  | listing (f : Folder) (e : Error) (folder : P (.tree f none))
      (unlisted : d.comparator.store.listing f = .error e) : Arises d P e
  | member (f : Folder) (members : Option (List Variant)) (found : List Variant) (v : Variant)
      (e : Error) (folder : P (.tree f members))
      (listed : d.comparator.store.listed f members = .ok found) (mem : v ∈ found)
      (refused : checkMember v = .error e) : Arises d P e

variable {d : Differ} {P : Variant → Prop} {e : Error}

/-- A checkpoint fails only where there is a signal. -/
theorem checkpoint_arises (h : Fails (Run.checkpoint d.signal) e) : d.Arises P e := by
  cases hs : d.signal with
  | none =>
      rw [hs] at h
      exact absurd h not_fails_pure
  | some fired =>
      rw [h.checkpoint]
      exact .stopped fired hs

/-- A list of members is refused for one of them. -/
theorem exists_of_forM_checkMember {vs : List Variant} (h : vs.forM checkMember = .error e) :
    ∃ v ∈ vs, checkMember v = .error e := by
  induction vs with
  | nil => cases h
  | cons v vs ih =>
      have hc : (v :: vs).forM checkMember = (checkMember v >>= fun _ => vs.forM checkMember) := rfl
      rw [hc] at h
      -- The check ends at the first member that it refuses.
      rcases bind_eq_error h with h | ⟨_, _, h⟩
      · exact ⟨v, List.mem_cons_self, h⟩
      · rcases ih h with ⟨w, hw, hr⟩
        exact ⟨w, List.mem_cons_of_mem _ hw, hr⟩

/-- A listing fails where the store does not list the folder, or lists a member that is refused. -/
theorem listing_arises {f : Folder} {members : Option (List Variant)} (hf : P (.tree f members))
    (h : Fails (d.listing f members) e) : d.Arises P e := by
  unfold listing at h
  -- The listing is served or at hand, and then its members are checked.
  rcases h.bind with h | ⟨found, hfound, h⟩
  · cases members with
    | some given => exact absurd h not_fails_pure
    | none => exact .listing f e hf h.serve
  · have listed : d.comparator.store.listed f members = .ok found := by
      cases members with
      | some given =>
          rw [hfound.pure]
          rfl
      | none => exact hfound.serve
    rcases h.bind with h | ⟨_, _, h⟩
    · rcases exists_of_forM_checkMember h.ofExcept with ⟨v, hv, hr⟩
      exact .member f members found v e hf listed hv hr
    · exact absurd h not_fails_pure

/-- Telling two members apart fails only where a content is read. -/
theorem equal_arises {a b : Variant} (h : Fails (d.equal a b) e) : d.Arises P e := by
  unfold equal at h
  cases hv : Verdict.of d.comparator.byteCompare (some a) (some b) with
  | known answer =>
      rw [hv] at h
      exact absurd h not_fails_pure
  | byBytes x y =>
      rw [hv] at h
      rcases h.bind with h | ⟨xs, _, h⟩
      · exact .content x e h.serve
      rcases h.bind with h | ⟨ys, _, h⟩
      · exact .content y e h.serve
      · exact absurd h not_fails_pure

section

variable (passes : d.comparator.store.Passes P)

include passes

/-- Expanding a variant fails in these ways. -/
theorem expand_arises {levels : Nat} {kind : DiffKind} {v : Variant} (hv : P v)
    (h : Fails (d.expand levels kind v) e) : d.Arises P e := by
  -- Level by level. What fails is the listing, a checkpoint between two members, or a member.
  induction levels generalizing v with
  | zero =>
      cases v with
      | blob b =>
          rw [expand] at h
          exact absurd h not_fails_pure
      | tree f members =>
          rw [expand] at h
          rw [h.throw]
          exact .tooDeep _
  | succ levels ih =>
      cases v with
      | blob b =>
          rw [expand] at h
          exact absurd h not_fails_pure
      | tree f members =>
          rw [expand_folder] at h
          rcases h.bind with h | ⟨found, hfound, h⟩
          · exact listing_arises hv h
          rcases h.bind with h | ⟨children, _, h⟩
          · rcases h.mapM with ⟨w, hw, h⟩
            rcases h.bind with h | ⟨_, _, h⟩
            · exact checkpoint_arises h
            · exact ih (passes f members found w hv (returns_listing hfound).1 hw) h
          · exact absurd h not_fails_pure

/-- One pairing of two listings fails in these ways if comparing its members does. -/
theorem childOf_arises {levels : Nat} {p : Pairing Variant} (hl : ∀ l ∈ p.left?, P l)
    (hr : ∀ r ∈ p.right?, P r)
    (ih : ∀ l ∈ p.left?, ∀ r ∈ p.right?, Fails (d.compare levels l r) e → d.Arises P e)
    (h : Fails (d.childOf levels p) e) : d.Arises P e := by
  rcases h.bind with h | ⟨_, _, h⟩
  · exact checkpoint_arises h
  cases p with
  | left l => exact expand_arises passes (hl l rfl) h.map
  | right r => exact expand_arises passes (hr r rfl) h.map
  | both l r =>
      dsimp only at h
      -- A descent fails as the comparison below does. Otherwise the two are told apart first, which may need their
      -- contents.
      by_cases place : equalByPlace l r = true
      · rw [if_pos place] at h
        rcases h.bind with h | ⟨child, _, h⟩
        · exact ih l rfl r rfl h
        · exact absurd h not_fails_pure
      · rw [if_neg place] at h
        rcases h.bind with h | ⟨same, _, h⟩
        · exact equal_arises h
        · cases same with
          | true => exact absurd h not_fails_pure
          | false => exact ih l rfl r rfl h.map

/-- There is no other way in which a difference fails. -/
theorem compare_arises {levels : Nat} {l r : Variant} (hl : P l) (hr : P r)
    (h : Fails (d.compare levels l r) e) : d.Arises P e := by
  induction levels generalizing l r with
  | zero =>
      rcases flat_or_folders l r with flat | ⟨f, fs, g, gs, rfl, rfl⟩
      · rw [compare_flat d 0 l r flat] at h
        exact absurd h not_fails_pure
      · rw [compare] at h
        rw [h.throw]
        exact .tooDeep _
  | succ levels ih =>
      rcases flat_or_folders l r with flat | ⟨f, fs, g, gs, rfl, rfl⟩
      · rw [compare_flat d (levels + 1) l r flat] at h
        exact absurd h not_fails_pure
      · rw [compare_folders] at h
        -- Both listings, and then one pairing after the other.
        rcases h.bind with h | ⟨ls, hls, h⟩
        · exact listing_arises hl h
        rcases h.bind with h | ⟨rs, hrs, h⟩
        · exact listing_arises hr h
        rcases h.bind with h | ⟨found, _, h⟩
        · rcases h.mapM with ⟨p, hp, h⟩
          -- Both members of a pairing come from the listings, so the property goes on to them.
          have sides := Pairing.sides_of_mem_join hp
          have left : ∀ v ∈ ls, P v := fun v => passes f fs ls v hl (returns_listing hls).1
          have right : ∀ v ∈ rs, P v := fun v => passes g gs rs v hr (returns_listing hrs).1
          exact childOf_arises passes (fun l hl => left l (sides.1 l hl))
            (fun r hr => right r (sides.2 r hr))
            (fun l hl r hr h => ih (left l (sides.1 l hl)) (right r (sides.2 r hr)) h) h
        · exact absurd h not_fails_pure

end

/-! ### Well Listed Hierarchies -/

/-- A way in which a difference of well listed hierarchies fails. -/
inductive Failure (s : Store) : Error → Prop
  | cancelled : Failure s .cancelled
  | tooDeep (path : String) : Failure s (.tooDeep path)
  | content (b : Blob) (e : Error) (unreadable : s.content b = .error e) : Failure s e

/-- The members of a well listed folder are well listed. -/
theorem passes_wellListed (s : Store) : s.Passes fun v => ∃ n, WellListed s n v := by
  rintro f members found v ⟨n, hn⟩ listed hv
  cases hn with
  | tree n _ _ found' listed' _ _ below =>
      cases Except.ok.inj (listed.symm.trans listed')
      exact ⟨n, below v hv⟩

/-- Nothing is missing on the way down a well listed hierarchy, and nothing is refused. -/
theorem Arises.failure (h : d.Arises (fun v => ∃ n, WellListed d.comparator.store n v) e) :
    Failure d.comparator.store e := by
  -- A folder of a well listed hierarchy is listed, and its members are valid, so two of the ways are closed.
  cases h with
  | stopped => exact .cancelled
  | tooDeep path => exact .tooDeep path
  | content b _ unreadable => exact .content b e unreadable
  | listing f _ folder unlisted =>
      rcases folder with ⟨_, folder⟩
      cases folder with
      | tree _ _ _ _ listed => cases listed.symm.trans unlisted
  | member f members found v _ folder listed mem refused =>
      rcases folder with ⟨_, folder⟩
      cases folder with
      | tree _ _ _ _ listed' _ valid =>
          cases Except.ok.inj (listed.symm.trans listed')
          cases ((checkMember_eq_ok_iff v).mpr (valid v mem)).symm.trans refused

/-- Expanding a well listed hierarchy fails in these ways only. -/
theorem expand_fails {levels n : Nat} {kind : DiffKind} {v : Variant}
    (hv : WellListed d.comparator.store n v) (h : Fails (d.expand levels kind v) e) :
    Failure d.comparator.store e :=
  (expand_arises (passes_wellListed _) ⟨n, hv⟩ h).failure

theorem compare_fails {levels n m : Nat} {l r : Variant} (hl : WellListed d.comparator.store n l)
    (hr : WellListed d.comparator.store m r) (h : Fails (d.compare levels l r) e) :
    Failure d.comparator.store e :=
  (compare_arises (passes_wellListed _) ⟨n, hl⟩ ⟨m, hr⟩ h).failure

end Differ

end ThreeWay
