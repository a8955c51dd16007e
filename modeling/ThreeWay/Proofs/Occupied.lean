import ThreeWay.Proofs.Checkout.Read
import ThreeWay.Proofs.Diff.Reached
import ThreeWay.Proofs.Index

/-!
# Folders of the Index That Cannot Be Listed

The index has no folders. What stands at a path is looked up by the bytes of the path, and where no entry
has them, the path is a folder if some entry lies below it. A listing goes by places instead: the bytes of
an entry are read as text and brought into normal form, and what is left of that below the folder is cut
up into names. So a path may be taken for a folder although an entry stands right in its place, namely one
whose bytes are not the bytes of its place. Such a folder cannot be listed, since nothing is left of the
entry.

All other folders can be listed. So the listings below a folder are complete unless one of them comes to
such a place, or to the root of an index with a place outside of it, which is listed as a folder without a
name and stands for the root again.

How far down the listings go is bounded by the entries and not by the folders: each folder on the way has a longer
path than the one above, and an entry lies below it, so no path is longer than the longest place of an entry.
Where the root comes to itself there is no such bound, and no number of levels is enough.

A listing makes a member for the first name of what is left of an entry below the folder. So it fails on the one
entry of which nothing is left and on no other, and a folder among its members lies on the way to the entry that
it was made for. With that, everything that is reached from a folder that a lookup finds is of the index and left
to be listed, and one induction on the way tells what the listings come to.

## Main definitions

* `Index.Occupies`: An entry stands in the place of a folder.
* `Checkout.StagedListings`: What the listings below a folder of the index come to.

## Theorems

* `exists_textBelow`, `exists_stagedMember`: The text below a folder can be told unless an entry is in its place.
* `stagedMembers_of_occupied`, `exists_stagedMembers_of_free`: A folder is listed unless it is occupied.
* `members_of_occupied`, `exists_members_of_free`: The same for what a checkout lists.
* `folder_of_members`: A folder that is listed lies on the way to an entry.
* `folder_of_variant`: What the index takes for a folder has no plain entry with its bytes.
* `staged_of_reaches`: What is reached is of the index, and its paths get longer.
* `exists_allBelow`, `not_allBelow_of_mem_self`: The listings come to an end, or they do not.
* `free_of_reaches`: Where no entry lies below the place of another one, nothing is refused.
* `exists_allBelow_iff`: The listings are complete unless one is refused or comes to itself.
* `stagedListings_of_variant`: What the listings of a folder come to that a lookup finds.
* `unlistable_of_backslash`: A folder that a lookup finds and that cannot be listed.
-/

namespace ThreeWay

open ThreeWay.Path

/-- Whether an entry that is not part of an unfinished merge stands at a path below the root. -/
def Index.Occupies (index : Index) (p : Path) : Prop :=
  p.isRoot = false ∧ ∃ e ∈ index.plain, e.place = p

namespace Checkout

variable {c : Checkout} {p folder : Path} {f g h : Folder} {gs hs : Option (List Variant)}
  {found : List Variant} {e : IndexEntry}

/-! ### One Listing -/

/-- The text below a folder can be told of every entry but the one in its place. -/
theorem exists_textBelow {entry : Path} (free : ¬ (folder.isRoot = false ∧ entry = folder)) :
    ∃ below, textBelow folder entry = .ok below := by
  rw [textBelow]
  by_cases hroot : folder.isRoot = true
  · rw [if_pos hroot]
    exact ⟨_, rfl⟩
  · rw [if_neg hroot, if_neg fun he => free ⟨Bool.eq_false_iff.mpr hroot, he⟩]
    -- An entry that lies elsewhere has no text below, and that is an answer.
    split_ifs
    · exact ⟨_, rfl⟩
    · exact ⟨_, rfl⟩

theorem textBelow_eq_error {entry : Path} {err : Error} (h : textBelow folder entry = .error err) :
    err = .unlistable folder.text := by
  rw [textBelow] at h
  split_ifs at h
  exact (Except.error.inj h).symm

theorem exists_stagedMember {below : Option (List Char)} (h : textBelow folder e.place = .ok below) :
    ∃ member, stagedMember folder e = .ok member := by
  rw [stagedMember, h, Run.ok_bind]
  cases below with
  | none => exact ⟨_, rfl⟩
  | some below =>
      dsimp only
      split_ifs
      · exact ⟨_, rfl⟩
      · exact ⟨_, rfl⟩

theorem stagedMember_eq_error {err : Error} (h : stagedMember folder e = .error err) :
    err = .unlistable folder.text := by
  cases hb : textBelow folder e.place with
  | error err' =>
      rw [stagedMember, hb] at h
      cases h
      exact textBelow_eq_error hb
  | ok below =>
      rcases exists_stagedMember hb with ⟨member, hm⟩
      rw [hm] at h
      cases h

/-- A folder that no entry stands in the place of is listed. -/
theorem exists_stagedMembers_of_free (free : ¬ c.repository.index.Occupies folder) :
    ∃ found, c.stagedMembers folder = .ok found := by
  have each : ∀ e ∈ c.repository.index.plain, ∃ member, stagedMember folder e = .ok member ∧ True := by
    intro e he
    rcases exists_textBelow fun hplace => free ⟨hplace.1, e, he, hplace.2⟩ with ⟨below, hbelow⟩
    rcases exists_stagedMember hbelow with ⟨member, hm⟩
    exact ⟨member, hm, trivial⟩
  rcases List.exists_mapM_eq_ok each with ⟨members, hmembers, _⟩
  rw [stagedMembers, hmembers]
  exact ⟨_, rfl⟩

/-- A folder that an entry stands in the place of is refused. -/
theorem stagedMembers_of_occupied (occupied : c.repository.index.Occupies folder) :
    c.stagedMembers folder = .error (.unlistable folder.text) := by
  rcases occupied with ⟨hroot, e, he, hplace⟩
  have hbelow : textBelow folder e.place = .error (.unlistable folder.text) := by
    rw [textBelow, if_neg (by rw [hroot]; exact Bool.false_ne_true), if_pos hplace]
  cases hm : c.repository.index.plain.mapM (stagedMember folder) with
  | ok members =>
      rcases (List.forall₂_of_mapM_eq_ok hm).exists_mem_of_mem_left he with ⟨member, _, hmember⟩
      rw [stagedMember, hbelow] at hmember
      cases hmember
  | error err =>
      -- The first entry in the place of the folder fails the listing, and all of them do so alike.
      rcases List.exists_of_mapM_eq_error hm with ⟨first, _, hfirst⟩
      rw [stagedMembers, hm, stagedMember_eq_error hfirst]
      rfl

theorem members_eq (hg : g.revision = .index) : c.members g = c.stagedMembers g.path := by
  rw [members, hg]

/-- What an entry adds below a folder stands behind a slash, except at the root. -/
theorem exists_rest_of_startsWith {entry : Path} (below : entry.startsWith folder = true)
    (hne : entry ≠ folder) : folder.isRoot = true ∨ ∃ rest, entry.chars = folder.chars ++ '/' :: rest := by
  rcases startsWith_iff.mp below with hroot | hprefix
  · exact .inl hroot
  · refine .inr ?_
    rcases List.prefix_concat_iff.mp hprefix with heq | hproper
    · exact absurd (ext_chars (List.append_cancel_right heq)).symm hne
    · rcases hproper with ⟨rest, hrest⟩
      exact ⟨rest, by rw [← hrest, List.append_assoc, List.singleton_append]⟩

/-! ### Folders on the Way -/

/-- A folder among the members of a folder lies further down, on the way to an entry. Below a root there is
    another one: the root again, on the way to an entry outside of it. -/
theorem folder_of_members (hg : g.revision = .index) (listed : c.members g = .ok found)
    (mem : .tree h hs ∈ found) :
    (h.path = g.path ∧ g.path.isRoot = true ∧
      ∃ e ∈ c.repository.index.plain, e.place.isAbsolute = true) ∨
    g.path.chars.length < h.path.chars.length ∧
      ∃ e ∈ c.repository.index.plain, ∃ rest, e.place.chars = h.path.chars ++ '/' :: rest := by
  rw [members_eq hg] at listed
  rcases Run.bind_eq_ok listed with ⟨shown, hshown, listed⟩
  rw [← Except.ok.inj listed] at mem
  rcases List.mem_map.mp mem with ⟨⟨raw, v⟩, hx, rfl⟩
  rcases exists_entry_of_shown hshown hx with ⟨e, he, hmember⟩
  rcases Run.bind_eq_ok hmember with ⟨below?, hbelow, hmember⟩
  cases below? with
  | none => cases hmember
  | some below =>
      dsimp only at hmember
      -- A member is a folder if something is left behind its name.
      by_cases hslash : below.contains '/' = true
      · rw [if_pos hslash] at hmember
        cases hmember
        rcases exists_rest_of_slash (List.contains_iff_mem.mp hslash) with ⟨rest, hrest⟩
        generalize below.takeWhile (· ≠ '/') = name at hrest ⊢
        have hpath : (Folder.at (g.path.join (String.ofList name)) .index).path =
            g.path.join (String.ofList name) := rfl
        rw [hpath]
        rcases chars_of_textBelow hbelow with ⟨hroot, hchars⟩ | ⟨hroot, hchars⟩
        · have hempty := isRoot_iff.mp hroot
          have hplace := hchars.trans hrest
          by_cases hne : name = []
          · -- Below the root a name without text leads back to the root.
            have hjoin := join_chars_of_isRoot (p := g.path) hroot
            rw [hempty] at hjoin
            rw [hne] at hplace ⊢
            refine .inl ⟨hjoin, hroot, e, he, ?_⟩
            rw [isAbsolute, hplace]
            rfl
          · rcases exists_front hplace hne with ⟨q, rfl⟩
            rw [join_chars_of_isRoot hroot, hempty]
            exact .inr ⟨List.length_pos_of_ne_nil hne, e, he, rest, hplace⟩
        · have hplace : e.place.chars = (g.path.chars ++ '/' :: name) ++ '/' :: rest := by
            rw [hchars, hrest, List.append_assoc, List.cons_append]
          rcases exists_front hplace (by simp) with ⟨q, hq⟩
          rw [join_of_chars hroot hq, hq]
          refine .inr ⟨?_, e, he, rest, hplace⟩
          rw [List.length_append, List.length_cons]
          omega
      · rw [if_neg hslash] at hmember
        cases hmember

/-! ### What Is Reached -/

/-- What the index takes for a folder is left to be listed, and no plain entry has the bytes of its path. -/
theorem folder_of_variant (found : c.variant p .index = .ok (some (.tree f gs))) :
    f = Folder.at p .index ∧ gs = none ∧
      (p.isRoot = false → ∀ e ∈ c.repository.index.plain, e.path ≠ p.toBytes) := by
  -- The root is a folder without being looked up. Any other path was looked up first, and no entry had its bytes.
  cases answered_of_stagedVariant found with
  | top isRoot => exact ⟨rfl, rfl, fun below => absurd isRoot (Bool.eq_false_iff.mp below)⟩
  | folder _ missing _ =>
      refine ⟨rfl, rfl, fun _ e he hbytes => ?_⟩
      rcases Index.mem_plain.mp he with ⟨hmem, hstage⟩
      rw [stagedEntry] at missing
      split at missing
      · have hnone := List.find?_eq_none.mp (Except.ok.inj missing) e hmem
        simp only [hbytes, hstage, decide_true, Bool.and_true, not_true_eq_false] at hnone
      · cases missing

section

variable (hf : f.revision = .index)

include hf

/-- What is reached from a folder of the index is of the index too and left to be listed, and no folder has a
    shorter path than the one that it is reached from. -/
theorem staged_of_reaches {v : Variant} (reached : c.store.Reaches (.tree f none) v) :
    v.revision = .index ∧ v.members? = none ∧
      ∀ g gs, v = .tree g gs → f.path.chars.length ≤ g.path.chars.length := by
  induction reached with
  | start =>
      refine ⟨hf, rfl, fun g gs h => ?_⟩
      cases h
      exact Nat.le_refl _
  | member g gs found v _ listed mem ih =>
      rcases ih with ⟨hrevision, hgs, hlength⟩
      have hg : g.revision = .index := hrevision
      cases (show gs = none from hgs)
      have hlisted : c.members g = .ok found := listed
      rcases exists_readFrom_staged hg ((members_eq hg).symm.trans hlisted) with ⟨read, reading, _⟩
      have hmem := mem
      rw [reading.members] at hmem
      rcases List.mem_map.mp hmem with ⟨x, hx, rfl⟩
      refine ⟨(reading.makes x hx).revision.trans hg, (reading.makes x hx).deferred, fun h hs heq => ?_⟩
      rw [heq] at mem
      -- A folder of a listing is the root again, or its path is longer.
      rcases folder_of_members hg hlisted mem with ⟨hsame, _, _⟩ | ⟨hlonger, _⟩
      · rw [hsame]
        exact hlength g none rfl
      · exact (hlength g none rfl).trans hlonger.le

/-- Where every folder that is reached is listed, and none as a member of itself, the listings come to an end:
    paths get longer on the way down, and an entry lies below each of them. -/
theorem exists_allBelow (lists : ∀ g gs, c.store.Reaches (.tree f none) (.tree g gs) →
    ∃ found, c.members g = .ok found ∧ ∀ h hs, .tree h hs ∈ found → h.path ≠ g.path) :
    ∃ levels all, c.store.allBelow levels (.tree f none) = .ok all := by
  rcases List.exists_bound (fun e => e.place.chars.length) c.repository.index.plain with ⟨greatest, hgreatest⟩
  obtain ⟨bound, hf', hentries⟩ : ∃ bound, f.path.chars.length ≤ bound ∧
      ∀ e ∈ c.repository.index.plain, e.place.chars.length ≤ bound :=
    ⟨max f.path.chars.length greatest, Nat.le_max_left _ _,
      fun e he => (hgreatest e he).trans (Nat.le_max_right _ _)⟩
  -- The paths that are left to grow are counted, and each level uses one up.
  have descend : ∀ levels v, c.store.Reaches (.tree f none) v →
      (∀ g gs, v = .tree g gs → g.path.chars.length ≤ bound ∧ bound < g.path.chars.length + levels) →
      ∃ all, c.store.allBelow levels v = .ok all := by
    intro levels
    induction levels with
    | zero =>
        intro v reached hlength
        cases v with
        | blob b => exact ⟨[], rfl⟩
        | tree g gs =>
            have hg := hlength g gs rfl
            omega
    | succ levels ih =>
        intro v reached hlength
        cases v with
        | blob b => exact ⟨[], rfl⟩
        | tree g gs =>
            have staged := staged_of_reaches hf reached
            have hg : g.revision = .index := staged.1
            cases (show gs = none from staged.2.1)
            rcases lists g none reached with ⟨found, listed, further⟩
            have deeper : ∀ u ∈ found, ∃ all, c.store.allBelow levels u = .ok all ∧ True := by
              intro u hu
              refine (ih u (.member g none found u reached listed hu) fun h hs heq => ?_).imp
                fun all h => ⟨h, trivial⟩
              rw [heq] at hu
              rcases folder_of_members hg listed hu with ⟨hsame, _⟩ | ⟨hlonger, e, he, rest, hplace⟩
              · exact absurd hsame (further h hs hu)
              · have hentry := hentries e he
                rw [hplace, List.length_append] at hentry
                have hgs := hlength g none rfl
                omega
            rcases List.exists_mapM_eq_ok deeper with ⟨below, hbelow, _⟩
            have hlisted : c.store.listed g none = .ok found := listed
            rw [Store.allBelow, hlisted, Run.ok_bind, hbelow]
            exact ⟨_, rfl⟩
  rcases descend (bound + 1) (.tree f none) .start fun g gs heq => by
      cases heq
      omega with ⟨all, hall⟩
  exact ⟨bound + 1, all, hall⟩

/-- Of a folder that is a member of itself there is no list of everything below. -/
theorem not_allBelow_of_mem_self (listed : c.members f = .ok found) (mem : .tree h none ∈ found)
    (hh : h.revision = .index) (same : h.path = f.path) {levels : Nat} {all : List Variant} :
    c.store.allBelow levels (.tree f none) ≠ .ok all := by
  -- On the levels: the member has the same listing, with one level less.
  induction levels generalizing f all with
  | zero => exact fun hall => nomatch hall
  | succ levels ih =>
      intro hall
      have hlisted : c.store.listed f none = .ok found := listed
      rw [Store.allBelow, hlisted, Run.ok_bind] at hall
      rcases Run.bind_eq_ok hall with ⟨deeper, hdeeper, _⟩
      rcases (List.forall₂_of_mapM_eq_ok hdeeper).exists_mem_of_mem_left mem with ⟨below, _, hbelow⟩
      -- The member is listed like the folder, since a listing of the index goes by the path.
      have hagain : c.members h = .ok found := by
        rw [members_eq hh, same, ← members_eq hf]
        exact listed
      exact ih hh hagain rfl hbelow

end

/-- What the listings below a folder of the index come to. A folder that is reached is refused if an entry stands
    in its place, and otherwise it is listed, and every entry below it has a name left behind the slash. The
    listings are complete exactly if no folder is refused and none is a member of itself. -/
structure StagedListings (c : Checkout) (p : Path) (start : Variant) : Prop where
  refused : ∀ g gs, c.store.Reaches start (.tree g gs) → c.repository.index.Occupies g.path →
    c.members g = .error (.unlistable g.path.text)
  listed : ∀ g gs, c.store.Reaches start (.tree g gs) → ¬ c.repository.index.Occupies g.path →
    ∃ found, c.members g = .ok found
  stripped : ∀ g gs, c.store.Reaches start (.tree g gs) → ¬ c.repository.index.Occupies g.path →
    ∀ e ∈ c.repository.index.plain, e.place.startsWith g.path = true →
    g.path.isRoot = true ∨ ∃ rest, e.place.chars = g.path.chars ++ '/' :: rest
  hidden : c.repository.index.Occupies p →
    ∃ e ∈ c.repository.index.plain, e.place = p ∧ e.path ≠ p.toBytes
  complete_iff : (∃ levels all, c.store.allBelow levels start = .ok all) ↔
    ∀ g gs, c.store.Reaches start (.tree g gs) → ¬ c.repository.index.Occupies g.path ∧
      ∀ found h hs, c.members g = .ok found → .tree h hs ∈ found → h.path ≠ g.path
  complete : ¬ c.repository.index.Occupies p →
    (∀ e ∈ c.repository.index.plain, ∀ e' ∈ c.repository.index.plain,
      e'.place.startsWith e.place = true → e.place.isRoot = true ∨ e'.place = e.place) →
    (p.isRoot = true → ∀ e ∈ c.repository.index.plain, e.place.isAbsolute = false) →
    ∃ levels all, c.store.allBelow levels start = .ok all

section

variable (hf : f.revision = .index)

include hf

theorem members_of_occupied (reached : c.store.Reaches (.tree f none) (.tree g gs))
    (occupied : c.repository.index.Occupies g.path) :
    c.members g = .error (.unlistable g.path.text) := by
  rw [members_eq (staged_of_reaches hf reached).1]
  exact stagedMembers_of_occupied occupied

theorem exists_members_of_free (reached : c.store.Reaches (.tree f none) (.tree g gs))
    (free : ¬ c.repository.index.Occupies g.path) : ∃ found, c.members g = .ok found := by
  rw [members_eq (staged_of_reaches hf reached).1]
  exact exists_stagedMembers_of_free free

/-- The listings are complete exactly if no folder is refused and none is a member of itself. -/
theorem exists_allBelow_iff : (∃ levels all, c.store.allBelow levels (.tree f none) = .ok all) ↔
    ∀ g gs, c.store.Reaches (.tree f none) (.tree g gs) → ¬ c.repository.index.Occupies g.path ∧
      ∀ found h hs, c.members g = .ok found → .tree h hs ∈ found → h.path ≠ g.path := by
  constructor
  · rintro ⟨levels, all, hall⟩ g gs reached
    have staged := staged_of_reaches hf reached
    cases (show gs = none from staged.2.1)
    rcases Store.exists_allBelow_of_reaches hall reached with ⟨fewer, below, hbelow⟩
    refine ⟨fun occupied => ?_, fun found h hs hfound mem same => ?_⟩
    · rcases Store.exists_listed_of_allBelow hbelow with ⟨found, _, hfound, _⟩
      cases hfound.symm.trans (members_of_occupied hf reached occupied)
    · have below := staged_of_reaches hf (.member g none found (.tree h hs) reached hfound mem)
      cases (show hs = none from below.2.1)
      exact not_allBelow_of_mem_self staged.1 hfound mem below.1 same hbelow
  · intro lists
    refine exists_allBelow hf fun g gs reached => ?_
    rcases exists_members_of_free hf reached (lists g gs reached).1 with ⟨found, hfound⟩
    exact ⟨found, hfound, fun h hs => (lists g gs reached).2 found h hs hfound⟩

/-- Where no entry lies below the place of another one, no folder that is reached is refused. -/
theorem free_of_reaches (free : ¬ c.repository.index.Occupies f.path)
    (apart : ∀ e ∈ c.repository.index.plain, ∀ e' ∈ c.repository.index.plain,
      e'.place.startsWith e.place = true → e.place.isRoot = true ∨ e'.place = e.place)
    {v : Variant} (reached : c.store.Reaches (.tree f none) v) :
    ∀ g gs, v = .tree g gs → ¬ c.repository.index.Occupies g.path := by
  -- By the way down. The folder at the start is free, and every other one lies on the way to an entry.
  induction reached with
  | start =>
      intro g gs heq
      cases heq
      exact free
  | member g gs found v folder listed mem ih =>
      intro h hs heq
      rw [heq] at mem
      have staged := staged_of_reaches hf folder
      cases (show gs = none from staged.2.1)
      rcases folder_of_members staged.1 listed mem with ⟨hsame, _⟩ | ⟨_, e, he, rest, hplace⟩
      · rw [hsame]
        exact ih g none rfl
      · -- The folder lies on the way to an entry, so no other entry stands there.
        rintro ⟨hroot, first, hfirst, hocc⟩
        have hbelow : e.place.startsWith h.path = true := by
          rw [startsWith_iff, hplace]
          exact .inr ⟨rest ++ ['/'], by simp⟩
        rcases apart first hfirst e he (hocc ▸ hbelow) with htop | hsame
        · rw [hocc, hroot] at htop
          cases htop
        · have hlength := congrArg (fun q => q.chars.length) (hsame.trans hocc)
          simp only [hplace, List.length_append, List.length_cons] at hlength
          omega

end

/-- What a lookup in the index takes for a folder is refused if an entry stands in its place, and so is every
    folder that its listings come to. All other folders are listed. -/
theorem stagedListings_of_variant {fs : Option (List Variant)}
    (found : c.variant p .index = .ok (some (.tree f fs))) : c.StagedListings p (.tree f fs) := by
  rcases folder_of_variant found with ⟨rfl, rfl, bytes⟩
  have hf : (Folder.at p .index).revision = .index := rfl
  refine ⟨fun g gs => members_of_occupied hf, fun g gs => exists_members_of_free hf, ?_, ?_,
    exists_allBelow_iff hf, ?_⟩
  · intro g gs _ free e he below
    by_cases hroot : g.path.isRoot = true
    · exact .inl hroot
    · exact exists_rest_of_startsWith below fun heq => free ⟨Bool.eq_false_iff.mpr hroot, e, he, heq⟩
  · rintro ⟨hroot, e, he, hplace⟩
    exact ⟨e, he, hplace, bytes hroot e he⟩
  · intro free apart inside
    refine (exists_allBelow_iff hf).mpr fun g gs reached => ⟨free_of_reaches hf free apart reached g gs rfl, ?_⟩
    intro listed h hs hlisted mem same
    have staged := staged_of_reaches hf reached
    rcases folder_of_members staged.1 hlisted mem with ⟨_, hroot, e, he, habsolute⟩ | ⟨hlonger, _⟩
    · -- Only from the root a root is reached.
      have htop : p.isRoot = true := by
        have hshort : p.chars.length ≤ g.path.chars.length := staged.2.2 g gs rfl
        rw [isRoot_iff.mp hroot] at hshort
        exact isRoot_iff.mpr (List.eq_nil_of_length_eq_zero (Nat.le_zero.mp hshort))
      rw [inside htop e he] at habsolute
      cases habsolute
    · rw [same] at hlonger
      exact absurd hlonger (Nat.lt_irrefl _)

namespace Sample

/-- A checkout with one entry in its index, whose name has a backslash. -/
def backslashed : Checkout where
  disk := ⟨[Utf8.encode "w"], .nil⟩
  root := .ofString "/w"
  repository := {
    objects := []
    index := [⟨Utf8.encode "a\\b", 0, .regular, ⟨"1"⟩⟩]
    references := []
    head := .branch "refs/heads/main"
    log := [] }
  settings := Settings.default

end Sample

open Checkout.Sample in
/-- The folder of the entry is listed, and there is nothing more to list. -/
theorem listings_of_backslashed :
    ∃ levels all, backslashed.store.allBelow levels (.ofFolder (.at (.ofString "a") .index)) = .ok all := by
  have hplain : ∀ e ∈ backslashed.repository.index.plain, e.place = .ofString "a/b" := by decide
  have listings := stagedListings_of_variant (c := backslashed) (p := .ofString "a") rfl
  refine listings.complete (fun occupied => ?_) (fun e he e' he' _ => .inr ?_) (fun hroot => ?_)
  · rcases occupied with ⟨_, e, he, hplace⟩
    exact absurd ((hplain e he).symm.trans hplace) (by decide)
  · rw [hplain e he, hplain e' he']
  · exact absurd hroot (by decide)

open Checkout.Sample in
/-- The path of the entry itself is taken for a folder, which cannot be listed. -/
theorem unlistable_of_backslash :
    backslashed.variant (.ofString "a/b") .index =
      .ok (some (.ofFolder (.at (.ofString "a/b") .index))) ∧
    backslashed.members (.at (.ofString "a/b") .index) = .error (.unlistable "a/b") :=
  ⟨rfl, rfl⟩

end Checkout

end ThreeWay
