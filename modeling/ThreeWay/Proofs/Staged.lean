import ThreeWay.Proofs.Checkout.Staged

/-!
# Looking Up the Index and Listing It

The index answers in two ways. A lookup asks for the plain entry of a path, and failing that for any entry
below it; a listing groups the plain entries of a folder by their next name. Both should tell the same of a
path, and for plain entries they do: what a lookup finds is the very member that the folder lists.

They part where a merge is unfinished. A listing passes over its entries, and a lookup counts them as
something below the path. So a path at which only such entries lie is in no listing and is found as a folder.
That is so also for the path of the entry itself, which is meant to become a file.

`variant_iff_listed` says for each of the three answers what the listing has to say for it, and
`Index.Unmerged` is all that comes between the two.

Both ways of asking are put in terms of `staged`, what the listings show at a chain of names. For the listing that
is its definition, member by member. For the lookup there are two cases, a plain entry at the path and any entry
at or below it, and only in the second case the stage of the entries is not looked at.

## Main definitions

* `Index.Unmerged`: Entries of an unfinished merge lie at or below a path.

## Theorems

* `stagedVariant_of_staged`, `stagedVariant_of_not_staged`: What a lookup finds.
* `exists_listing`: The members of the folder that holds a path.
* `variant_iff_listed`: When a lookup finds a file, a folder, or nothing.
* `listed_of_variant`: A file of the index is found and listed.
* `variant_of_unmerged`: A path that is found as a folder and not listed.
-/

namespace ThreeWay

open ThreeWay.Path Scanner

/-- An entry of an unfinished merge lies at or below a chain of names. -/
def Index.Unmerged (index : Index) (names : List Bytes) : Prop :=
  ∃ e ∈ index, e.stage ≠ 0 ∧ names <+: e.names

namespace Checkout

variable {c : Checkout} {p folder : Path} {v : Variant}

/-- A lookup goes for the plain entry of a path. -/
theorem stagedVariant_of_entry (address : p.IsAddress) {e : IndexEntry}
    (hentry : c.repository.index.find? p.toBytes 0 = some e) : c.stagedVariant p =
      .ok (some (.blob { Blob.at p .index with contentId := some ⟨e.id.hex⟩ })) := by
  have hstaged : c.stagedEntry p = .ok (some e) := by
    rw [stagedEntry, address.isRoot, address.treeNames, hentry]
  rw [stagedVariant, address.isRoot, hstaged]
  rfl

/-- Without one it goes for any entry at or below the path. -/
theorem stagedVariant_of_no_entry (address : p.IsAddress)
    (hentry : c.repository.index.find? p.toBytes 0 = none) : c.stagedVariant p =
      .ok (if c.repository.index.any (fun e => e.place.startsWith p) then some (.ofFolder (.at p .index))
        else none) := by
  have hstaged : c.stagedEntry p = .ok none := by
    rw [stagedEntry, address.isRoot, address.treeNames, hentry]
  rw [stagedVariant, address.isRoot, hstaged]
  rfl

section

variable (h : c.repository.index.WellFormed) (address : p.IsAddress)

include h address

theorem find?_toBytes_iff {e : IndexEntry} : c.repository.index.find? p.toBytes 0 = some e ↔
    e ∈ c.repository.index.plain ∧ e.names = p.names := by
  rw [toBytes_eq address.ordinary]
  exact h.find?_eq_some_iff (fun _ hm => isName_of_mem_names address.ordinary hm) address.belowRoot

theorem any_startsWith_iff : (c.repository.index.any fun e => e.place.startsWith p) = true ↔
    ∃ e ∈ c.repository.index, p.names <+: e.names := by
  rw [List.any_eq_true]
  refine exists_congr fun e => and_congr_right fun he => ?_
  have hs := h.startsWith_iff he fun _ hm => isName_of_mem_names address.ordinary hm
  rwa [pathOf_names address.ordinary] at hs

/-- A lookup finds what the listings show. -/
theorem stagedVariant_of_staged (hv : staged c.repository.index p.names = some v) :
    c.stagedVariant p = .ok (some v) := by
  -- A plain entry stands at the path, or the path is the root, or a plain entry lies below it.
  rcases cases_of_staged hv with ⟨e, he, hn, rfl⟩ | ⟨rfl, hroot | ⟨e, he, name, more, hn⟩⟩
  · have hplace : e.place = p := by rw [e.place_eq, hn, pathOf_names address.ordinary]
    rw [stagedVariant_of_entry address ((find?_toBytes_iff h address).mpr ⟨he, hn⟩), stagedFile, hplace]
  · exact absurd hroot address.belowRoot
  -- No plain entry stands where another one lies below.
  · have hnone : c.repository.index.find? p.toBytes 0 = none := by
      refine Option.eq_none_iff_forall_ne_some.mpr fun f hf => ?_
      rcases (find?_toBytes_iff h address).mp hf with ⟨hplain, hnames⟩
      rw [← hnames] at hn
      exact h.not_below (Index.mem_plain.mp hplain).1 (Index.mem_plain.mp he).1 name more hn
    have hany := (any_startsWith_iff h address).mpr
      ⟨e, (Index.mem_plain.mp he).1, hn ▸ List.prefix_append _ _⟩
    rw [stagedVariant_of_no_entry address hnone, if_pos hany, pathOf_names address.ordinary]

open Classical in
/-- Where the listings show nothing, a lookup finds a folder exactly if a merge is unfinished there. -/
theorem stagedVariant_of_not_staged (hn : staged c.repository.index p.names = none) :
    c.stagedVariant p = .ok (if c.repository.index.Unmerged p.names then some (.ofFolder (.at p .index))
      else none) := by
  -- A plain entry at or below the path would be shown.
  have hidden : ∀ e ∈ c.repository.index.plain, ¬ p.names <+: e.names := by
    intro e he hpre
    rcases IndexEntry.eq_or_below hpre with hnames | ⟨name, more, hnames⟩
    · rw [← hnames, staged_of_plain h he] at hn
      cases hn
    · rw [staged_of_below h he hnames] at hn
      cases hn
  have hnone : c.repository.index.find? p.toBytes 0 = none := by
    refine Option.eq_none_iff_forall_ne_some.mpr fun f hf => ?_
    rcases (find?_toBytes_iff h address).mp hf with ⟨hplain, hnames⟩
    exact hidden f hplain (hnames ▸ List.prefix_rfl)
  have hany : (c.repository.index.any fun e => e.place.startsWith p) = true ↔
      c.repository.index.Unmerged p.names := by
    rw [any_startsWith_iff h address]
    -- An entry at or below the path is not plain, and that is all that is left of the condition.
    refine exists_congr fun e => and_congr_right fun he => ⟨fun hp => ⟨fun hs => ?_, hp⟩, And.right⟩
    exact hidden e (Index.mem_plain.mpr ⟨he, hs⟩) hp
  rw [stagedVariant_of_no_entry address hnone]
  simp only [hany]

/-- The folder that holds a path lists the member that is shown at the path, and no other one of its name. -/
theorem exists_listing (hp : p.parent? = some folder)
    (free : ∀ e ∈ c.repository.index, e.names <+: p.names → e.names = p.names) :
    ∃ found, c.members (.at folder .index) = .ok found ∧
      ∀ v, v ∈ found ∧ v.name = p.fileName ↔ staged c.repository.index p.names = some v := by
  have named : ∀ name ∈ p.names, IsName name := fun _ hm => isName_of_mem_names address.ordinary hm
  rcases List.eq_nil_or_concat p.names with hroot | ⟨above, name, hnames⟩
  · exact absurd hroot address.belowRoot
  rw [List.concat_eq_append] at hnames
  rw [hnames] at named
  have ha : ∀ n ∈ above, IsName n := fun n hm => named n (List.mem_append_left _ hm)
  have hname := named name (List.mem_append_right _ List.mem_cons_self)
  rcases id hname with ⟨s, rfl, _⟩
  have hpath : p = pathOf (above ++ [Utf8.encode s]) := by rw [← hnames, pathOf_names address.ordinary]
  have hfolder : folder = pathOf above := by
    rw [hpath, parent?_pathOf ha hname, Option.some.injEq] at hp
    exact hp.symm
  have hlast : p.fileName = s := by rw [hpath, fileName_pathOf ha hname]
  -- A plain entry in the folder's own place would lie above the path.
  have unlisted : ∀ e ∈ c.repository.index.plain, e.names ≠ above := by
    intro e he hn
    have hsame := free e (Index.mem_plain.mp he).1 (by rw [hn, hnames]; exact List.prefix_append _ _)
    rw [hn, hnames] at hsame
    exact List.cons_ne_nil _ _ (List.self_eq_append_right.mp hsame)
  rcases exists_stagedMembers h c rfl ha unlisted with ⟨found, hfound, _, hmem⟩
  refine ⟨found, hfolder ▸ hfound, fun v => ?_⟩
  rw [hmem, hlast, hnames]
  constructor
  · rintro ⟨⟨name, hv⟩, hs⟩
    have hn := name_of_staged h hv
    rw [hs] at hn
    rwa [← hn] at hv
  · intro hv
    exact ⟨⟨_, hv⟩, Utf8.encode_injective (name_of_staged h hv)⟩

/-- A lookup finds a file, with its content, exactly if the listing has it. It finds a folder if the listing
    has one, or if the listing has nothing of that name and a merge is unfinished there; and nothing if the
    listing has nothing and there is no such merge. -/
theorem variant_iff_listed (hp : p.parent? = some folder)
    (free : ∀ e ∈ c.repository.index, e.names <+: p.names → e.names = p.names) :
    ∃ found v, c.members (.at folder .index) = .ok found ∧ c.variant p .index = .ok v ∧
      (∀ id, (∃ b, v = some (.blob b) ∧ b.contentId = id) ↔
        ∃ b, .blob b ∈ found ∧ b.name = p.fileName ∧ b.contentId = id) ∧
      ((∃ f ms, v = some (.tree f ms)) ↔ (∃ f ms, .tree f ms ∈ found ∧ f.name = p.fileName) ∨
        (∀ w ∈ found, w.name ≠ p.fileName) ∧ c.repository.index.Unmerged p.names) ∧
      (v = none ↔ (∀ w ∈ found, w.name ≠ p.fileName) ∧ ¬ c.repository.index.Unmerged p.names) := by
  rcases exists_listing h address hp free with ⟨found, hfound, hmem⟩
  -- What the listing has of that name is what is shown at the path.
  have blobs : ∀ id, (∃ b, .blob b ∈ found ∧ b.name = p.fileName ∧ b.contentId = id) ↔
      ∃ b, staged c.repository.index p.names = some (.blob b) ∧ b.contentId = id := by
    intro id
    refine exists_congr fun b => ?_
    rw [← hmem, and_assoc]
    rfl
  have trees : (∃ f ms, .tree f ms ∈ found ∧ f.name = p.fileName) ↔
      ∃ f ms, staged c.repository.index p.names = some (.tree f ms) :=
    exists_congr fun f => exists_congr fun ms => hmem (.tree f ms)
  have nothing : (∀ w ∈ found, w.name ≠ p.fileName) ↔ staged c.repository.index p.names = none := by
    rw [Option.eq_none_iff_forall_ne_some]
    refine forall_congr' fun w => ?_
    rw [ne_eq, ne_eq, ← hmem, not_and]
  -- Something is shown at the path, which the lookup finds, or nothing is and the merge decides.
  cases hs : staged c.repository.index p.names with
  | some w =>
      simp only [hs] at blobs trees nothing
      refine ⟨found, some w, hfound, stagedVariant_of_staged h address hs, fun id => (blobs id).symm, ?_, ?_⟩
      · rw [trees, nothing]
        exact (or_iff_left fun merging => Option.some_ne_none w merging.1).symm
      · rw [nothing]
        exact iff_of_false (Option.some_ne_none w) fun merging => Option.some_ne_none w merging.1
  | none =>
      simp only [hs] at blobs trees nothing
      refine ⟨found, _, hfound, stagedVariant_of_not_staged h address hs, ?_⟩
      simp only [blobs, trees, nothing]
      by_cases merging : c.repository.index.Unmerged p.names
      · simp [merging, Variant.ofFolder]
      · simp [merging]

end

/-! ### A Merge That Is Not Finished -/

namespace Sample

/-- The name of a folder with a file in it. -/
def wholeName : Bytes := Utf8.encode "a"

/-- The name of the file in the folder. -/
def memberName : Bytes := Utf8.encode "b"

/-- The name of a file that both sides of a merge have changed. -/
def disputedName : Bytes := Utf8.encode "c"

/-- The entry of the file in the folder. -/
def memberEntry : IndexEntry := ⟨Utf8.encode "a/b", 0, .regular, .ofBlob [1]⟩

/-- An index in the middle of a merge. -/
def unfinished : Checkout where
  disk := ⟨[Utf8.encode "w"], .nil⟩
  root := .ofString "/w"
  repository := {
    objects := []
    index := [memberEntry, ⟨disputedName, 2, .regular, .ofBlob [2]⟩,
      ⟨disputedName, 3, .regular, .ofBlob [3]⟩]
    references := []
    head := .branch "refs/heads/main"
    log := [] }
  settings := Settings.default

theorem wellFormed_unfinished : unfinished.repository.index.WellFormed :=
  ⟨by decide +kernel, by decide +kernel, by decide +kernel⟩

theorem address_member : (pathOf [wholeName, memberName]).IsAddress :=
  isAddress_pathOf (by decide) (by decide)

theorem address_disputed : (pathOf [disputedName]).IsAddress :=
  isAddress_pathOf (by decide) (by decide)

/-- Both paths lie in the listing of a folder above which nothing is. -/
theorem parent_member : (pathOf [wholeName, memberName]).parent? = some (pathOf [wholeName]) := by
  have named : ∀ name ∈ [wholeName], IsName name := by decide
  exact parent?_pathOf named (by decide)

theorem parent_disputed : (pathOf [disputedName]).parent? = some .root := by
  have named : ∀ name ∈ ([] : List Bytes), IsName name := by decide
  exact parent?_pathOf named (by decide)

end Sample

open Checkout.Sample in
/-- A file of the index is found, and so it is listed. -/
theorem listed_of_variant : ∃ found b, unfinished.members (.at (pathOf [wholeName]) .index) = .ok found ∧
    .blob b ∈ found ∧ b.contentId = some ⟨(ObjectId.ofBlob [1]).hex⟩ := by
  have hnames : (pathOf [wholeName, memberName]).names = [wholeName, memberName] := names_pathOf (by decide)
  have free : ∀ e ∈ unfinished.repository.index, e.names <+: (pathOf [wholeName, memberName]).names →
      e.names = (pathOf [wholeName, memberName]).names := by
    rw [hnames]
    decide +kernel
  rcases variant_iff_listed wellFormed_unfinished address_member parent_member free with
    ⟨found, v, hfound, hv, blobs, _, _⟩
  have hplain : memberEntry ∈ unfinished.repository.index.plain := by decide +kernel
  have hfile : unfinished.stagedVariant (pathOf [wholeName, memberName]) =
      .ok (some (.blob (stagedFile memberEntry))) := by
    refine stagedVariant_of_staged wellFormed_unfinished address_member ?_
    rw [hnames]
    exact staged_of_plain wellFormed_unfinished hplain
  rcases (blobs _).mp ⟨_, Except.ok.inj (hv.symm.trans hfile), rfl⟩ with ⟨b, hb, _, hid⟩
  exact ⟨found, b, hfound, hb, hid⟩

open Checkout.Sample in
/-- A path at which a merge is unfinished is found as a folder, and it is not listed. -/
theorem variant_of_unmerged : unfinished.repository.index.WellFormed ∧
    (pathOf [disputedName]).IsAddress ∧ (pathOf [disputedName]).parent? = some .root ∧
    (∀ e ∈ unfinished.repository.index, e.names <+: (pathOf [disputedName]).names →
      e.names = (pathOf [disputedName]).names) ∧
    ∃ found, unfinished.members (.at .root .index) = .ok found ∧
      (∀ w ∈ found, w.name ≠ (pathOf [disputedName]).fileName) ∧
      unfinished.variant (pathOf [disputedName]) .index =
        .ok (some (.ofFolder (.at (pathOf [disputedName]) .index))) := by
  have hnames : (pathOf [disputedName]).names = [disputedName] := names_pathOf (by decide)
  have free : ∀ e ∈ unfinished.repository.index, e.names <+: (pathOf [disputedName]).names →
      e.names = (pathOf [disputedName]).names := by
    rw [hnames]
    decide +kernel
  have hs : staged unfinished.repository.index (pathOf [disputedName]).names = none := by
    rw [hnames]
    rfl
  have merging : unfinished.repository.index.Unmerged (pathOf [disputedName]).names := by
    rw [hnames]
    exact ⟨⟨disputedName, 2, .regular, .ofBlob [2]⟩, by decide +kernel⟩
  rcases exists_listing wellFormed_unfinished address_disputed parent_disputed free with
    ⟨found, hfound, hmem⟩
  refine ⟨wellFormed_unfinished, address_disputed, parent_disputed, free, found, hfound, ?_, ?_⟩
  · intro w hw hn
    have hw := (hmem w).mp ⟨hw, hn⟩
    rw [hs] at hw
    cases hw
  · have hv := stagedVariant_of_not_staged wellFormed_unfinished address_disputed hs
    rwa [if_pos merging] at hv

end Checkout

end ThreeWay
