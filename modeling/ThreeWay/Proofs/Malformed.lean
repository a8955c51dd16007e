import ThreeWay.Proofs.Checkout.Failure
import ThreeWay.Proofs.Checkout.Read
import ThreeWay.Proofs.Diff.Failure
import ThreeWay.Proofs.Diff.Reached
import ThreeWay.Proofs.Pristine

/-!
# Names That a Difference Can Rely On

A difference joins listings, and it relies on them. Members are in the order of their names, each exists, its name
is one segment, and it lies in the folder under that name. A member without a name, or with a slash in it, makes
the difference fail. A listing in another order does not: the join goes past what it should have paired.

The listings of a checkout are what a difference asks for wherever the names are plain. The file system and a tree
allow one name that is not, which is a name with a backslash. Listings are put in order by the names that were
read, but a member calls itself by the last segment of its path, and a path takes a backslash for a slash. In the
index the paths are read that way before names are taken from them, so there only a backslash in front of a path
does harm.

Nothing of this is about contents, which may fail to be read as before. What cannot happen is that a checkout is
told that its own listings are malformed.

## Main definitions

* `Checkout.HandsOut`: What a checkout is asked for, and what it lists below that.

## Theorems

* `present_of_handsOut`: What is handed out exists, and its members are left to be listed.
* `diff_ne_malformed`, `expandRoot_ne_malformed`: A difference and an expansion find nothing malformed.
* `listing_of_plain_names`: Listings are read from names in order, and where those are plain nothing is malformed.
* `malformed_of_backslash`: A backslash that does harm, in both ways.
-/

namespace ThreeWay

open ThreeWay.Path Scanner

namespace Checkout

/-- What a checkout hands out: what stands at a path, and what is listed below it. -/
def HandsOut (c : Checkout) (v : Variant) : Prop :=
  ∃ path revision start, c.variant path revision = .ok (some start) ∧ c.store.Reaches start v

variable {c : Checkout} {v : Variant}

theorem present_of_localVariant {p : Path} (h : c.localVariant p false = .ok (some v)) :
    v.present = true ∧ v.members? = none := by
  rw [localVariant] at h
  dsimp only at h
  split at h
  · cases h
    exact ⟨rfl, rfl⟩
  · rcases Run.bind_eq_ok h with ⟨id, _, h⟩
    cases h
    exact ⟨rfl, rfl⟩
  · cases h
  · cases h

theorem present_of_stagedVariant {p : Path} (h : c.stagedVariant p = .ok (some v)) :
    v.present = true ∧ v.members? = none := by
  cases answered_of_stagedVariant h <;> exact ⟨rfl, rfl⟩

theorem present_of_recordedVariant {start : Commit} {p : Path} {spec : String}
    (h : c.recordedVariant start p spec = .ok (some v)) : v.present = true ∧ v.members? = none := by
  unfold recordedVariant at h
  rcases Run.bind_eq_ok h with ⟨names, _, h⟩
  split at h
  · cases h
  · cases h
    exact ⟨rfl, rfl⟩
  · rename_i leaf _
    by_cases hfile : leaf.mode.isFile = true
    · rw [if_pos hfile] at h
      rcases Run.bind_eq_ok h with ⟨history, _, h⟩
      cases h
      exact ⟨rfl, rfl⟩
    · rw [if_neg hfile] at h
      cases h

/-- What stands at a path exists, and its members are left to be listed. -/
theorem present_of_variant {p : Path} {revision : Revision} (h : c.variant p revision = .ok (some v)) :
    v.present = true ∧ v.members? = none := by
  cases revision with
  | workingTree => exact present_of_localVariant h
  | index => exact present_of_stagedVariant h
  | named spec =>
      rw [variant, namedVariant] at h
      rcases Run.bind_eq_ok h with ⟨start, _, h⟩
      cases start with
      | none => cases h
      | some start => exact present_of_recordedVariant h

/-- What is handed out exists, and its members are left to be listed. -/
theorem present_of_handsOut (h : c.HandsOut v) : v.present = true ∧ v.members? = none := by
  rcases h with ⟨path, revision, start, hstart, reached⟩
  -- By the way on which it was reached: what stands at a path first, then members of what was reached before.
  induction reached with
  | start => exact present_of_variant hstart
  | member f members found v _ listed mem ih =>
      -- The folder has no members of its own, so what is listed of it is what the checkout lists.
      have deferred : members = none := ih.2
      subst deferred
      rcases exists_readFrom listed with ⟨read, reading, _⟩
      rw [reading.members] at mem
      rcases List.mem_map.mp mem with ⟨e, he, rfl⟩
      exact ⟨(reading.makes e he).present, (reading.makes e he).deferred⟩

/-! ### Differences -/

section

variable {d : Differ} (store : d.comparator.store = c.store)

include store

/-- Members are left to be listed, as the folder that they are listed of. -/
theorem passes_deferred : d.comparator.store.Passes fun v => v.members? = none := by
  intro f members found v deferred listed mem
  cases (show members = none from deferred)
  rw [store] at listed
  -- A member is made when it is listed, and it is made without members.
  rcases exists_readFrom listed with ⟨read, reading, _⟩
  rw [reading.members] at mem
  rcases List.mem_map.mp mem with ⟨e, he, rfl⟩
  exact (reading.makes e he).deferred

/-- Where listings are what a difference asks for, it finds no fault with them. -/
theorem not_arises_malformed (lists : ∀ f found, c.members f = .ok found → f.IsListing found) {path : String}
    {reason : Malformation} : ¬ d.Arises (fun v => v.members? = none) (.malformed path reason) := by
  intro h
  -- A failure to read is not of this kind, and a listing that passes the check has no member that is refused.
  cases h with
  | content b _ unreadable =>
      rw [store] at unreadable
      exact c.reads_content b _ unreadable
  | listing f _ _ unlisted =>
      rw [store] at unlisted
      exact c.reads_members f _ unlisted
  | member f members found v _ folder listed mem refused =>
      cases (show members = none from folder)
      rw [store] at listed
      cases ((checkMember_eq_ok_iff v).mpr ((lists f found listed).valid v mem)).symm.trans refused

variable (lists : ∀ f found, c.members f = .ok found → f.IsListing found)

include lists

/-- A difference of what is handed out finds nothing malformed. -/
theorem diff_ne_malformed (levels : Nat) {l r : Variant} (hl : c.HandsOut l) (hr : c.HandsOut r) (path : String)
    (reason : Malformation) : (d.diff levels l r).outcome ≠ .error (.malformed path reason) := by
  intro h
  have hf : Run.Fails (d.diff levels l r) (.malformed path reason) := ⟨[], h⟩
  have left := present_of_handsOut hl
  have right := present_of_handsOut hr
  -- The roots exist, so what fails is the comparison.
  rcases hf.bind with hf | ⟨_, _, hf⟩
  · cases (if_pos left.1).symm.trans hf.ofExcept
  rcases hf.bind with hf | ⟨_, _, hf⟩
  · cases (if_pos right.1).symm.trans hf.ofExcept
  · exact not_arises_malformed store lists
      (Differ.compare_arises (passes_deferred store) left.2 right.2 hf)

/-- An expansion of what is handed out finds nothing malformed. -/
theorem expandRoot_ne_malformed (levels : Nat) (kind : DiffKind) (hv : c.HandsOut v) (path : String)
    (reason : Malformation) : (d.expandRoot levels kind v).outcome ≠ .error (.malformed path reason) := by
  intro h
  have hf : Run.Fails (d.expandRoot levels kind v) (.malformed path reason) := ⟨[], h⟩
  have here := present_of_handsOut hv
  rcases hf.bind with hf | ⟨_, _, hf⟩
  · cases (if_pos here.1).symm.trans hf.ofExcept
  · exact not_arises_malformed store lists (Differ.expand_arises (passes_deferred store) here.2 hf)

end

/-- A listing is read from names in ascending order, and its members exist, each at the path that its name leads
    to. Where all names that it is read from are plain, it is what a difference asks for. Where all names of a
    checkout are, every listing is, and no difference and no expansion of what is handed out finds anything
    malformed. -/
theorem listing_of_plain_names :
    (∀ f found, c.members f = .ok found → ∃ read, f.ReadFrom read found ∧
      ((∀ e ∈ read, IsPlain e.1.toList) → f.IsListing found)) ∧
    (c.PlainNames →
      (∀ f found, c.members f = .ok found → f.IsListing found) ∧
      ∀ d : Differ, d.comparator.store = c.store → ∀ path reason,
        (∀ levels l r, c.HandsOut l → c.HandsOut r →
          (d.diff levels l r).outcome ≠ .error (.malformed path reason)) ∧
        ∀ levels kind v, c.HandsOut v →
          (d.expandRoot levels kind v).outcome ≠ .error (.malformed path reason)) := by
  refine ⟨fun f found h => ?_, fun plain => ?_⟩
  · rcases exists_readFrom h with ⟨read, reading, _⟩
    exact ⟨read, reading, reading.isListing⟩
  · have lists : ∀ f found, c.members f = .ok found → f.IsListing found := fun f found h => by
      rcases exists_readFrom h with ⟨read, reading, kept⟩
      exact reading.isListing (kept plain)
    exact ⟨lists, fun d store path reason =>
      ⟨fun levels l r hl hr => diff_ne_malformed store lists levels hl hr path reason,
        fun levels kind v hv => expandRoot_ne_malformed store lists levels kind hv path reason⟩⟩

namespace Sample

open Synchronizer.Sample

/-- Nothing on the disk has a backslash in its name, and all else is in the index. -/
theorem plainNames_resting : resting.checkout.PlainNames where
  disk := by
    have named : quieted.AllNames fun name =>
        (name ≠ [] ∧ name ≠ [0x2E] ∧ 0x2F ∉ name) ∧ 0x5C ∉ name := by decide
    exact named.imp fun name h => isKept_of_bytes h.1 h.2
  place name h := by
    cases List.mem_singleton.mp h
    decide
  trees start h := by
    cases List.mem_singleton.mp h
    exact pristine_resting.wellNamed_tree.named.imp fun name h => h.1.isKept
  index := by decide

/-- The root at the head and the root of the index. -/
def headRoot : Variant :=
  .ofFolder { Folder.at .root (.named "HEAD") with treeId := some ⟨settled.tree.id.hex⟩ }

def indexRoot : Variant :=
  .ofFolder (.at .root .index)

/-- A checkout in which names have backslashes: one in front of the path of an entry of the index, and one within
    a name of the commit that the head stands on. -/
def slashed : Checkout where
  disk := ⟨[Utf8.encode "w"], .nil⟩
  root := .ofString "/w"
  repository := {
    objects := [.commit { settled with
      id := ⟨"slashed"⟩
      tree := ⟨⟨"tree"⟩, .leaf (Utf8.encode "a\\z") ⟨.regular, ⟨"1"⟩⟩
        (.leaf (Utf8.encode "b") ⟨.regular, ⟨"2"⟩⟩ .nil)⟩ }]
    index := [⟨Utf8.encode "\\a", 0, .regular, ⟨"1"⟩⟩]
    references := []
    head := .detached ⟨"slashed"⟩
    log := [] }
  settings := Settings.default

end Sample

open Checkout.Sample Synchronizer.Sample in
/-- A folder and two files are listed in order, and a difference of what is recorded and what is staged finds
    nothing malformed. -/
theorem listing_of_plain_names_resting :
    resting.checkout.PlainNames ∧
    resting.checkout.HandsOut headRoot ∧ resting.checkout.HandsOut indexRoot ∧
    (∃ found, resting.checkout.members (.at .root .index) = .ok found ∧
      found.map Variant.name = [ignoreFileName, "d", "f"] ∧ (Folder.at .root .index).IsListing found) ∧
    ∀ path reason, ((Differ.mk ⟨resting.checkout.store, false⟩ none).diff 3 headRoot indexRoot).outcome ≠
      .error (.malformed path reason) := by
  have whole := listing_of_plain_names (c := resting.checkout)
  have head : resting.checkout.HandsOut headRoot := ⟨.root, .named "HEAD", _, rfl, .start⟩
  have index : resting.checkout.HandsOut indexRoot := ⟨.root, .index, _, rfl, .start⟩
  refine ⟨plainNames_resting, head, index, ⟨_, rfl, rfl, ?_⟩, fun path reason => ?_⟩
  · exact (whole.2 plainNames_resting).1 _ _ rfl
  · exact ((whole.2 plainNames_resting).2 _ rfl path reason).1 3 _ _ head index

open Checkout.Sample in
/-- A backslash in front of a path makes a member of the index that has no name, so a difference fails. A backslash
    within a name puts a listing out of order. -/
theorem malformed_of_backslash :
    slashed.HandsOut indexRoot ∧
    (∃ found, slashed.members (.at .root .index) = .ok found ∧ found.map Variant.name = [""]) ∧
    ((Differ.mk ⟨slashed.store, false⟩ none).diff 2 indexRoot indexRoot).outcome =
      .error (.malformed "" .emptyName) ∧
    slashed.variant .root (.named "HEAD") =
      .ok (some (.ofFolder { Folder.at .root (.named "HEAD") with treeId := some ⟨"tree"⟩ })) ∧
    ∃ found, slashed.members { Folder.at .root (.named "HEAD") with treeId := some ⟨"tree"⟩ } = .ok found ∧
      found.map Variant.name = ["z", "b"] := by
  exact ⟨⟨.root, .index, _, rfl, .start⟩, ⟨_, rfl, rfl⟩, rfl, rfl, _, rfl, rfl⟩

end Checkout

end ThreeWay
