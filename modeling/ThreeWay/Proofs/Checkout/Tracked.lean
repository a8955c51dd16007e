import ThreeWay.Checkout.Listing
import ThreeWay.Proofs.Index

/-!
# What Is Tracked

Whether a folder has something tracked below it is asked of a sorted list of paths, and only one of them is
looked at: the first that is not less than the folder with a slash. That is enough, since the paths that
continue a text stand together and begin right behind it.

So a listing hides nothing that the index holds. A file of the index is tracked, and so is every folder on the
way to it, whatever the ignore rules say.

The order matters in one more way. Texts are compared character by character and the law is stated for bytes,
where a slash is less than a digit and greater than a dot, so names that continue the name of a folder stand on
both sides of what lies below it. That the two orders are the same is a property of the encoding.

## Theorems

* `isPrefix_of_between`: What lies between a text and one that continues it continues it too.
* `exists_continued`: The texts that continue a text stand together.
* `isTracked_folder_iff`: A folder is tracked if some tracked path lies below it.
* `isTracked_iff`: What is tracked, for every set of texts in the order of their bytes.
* `isTracked_among_neighbours`: A folder among names that continue its own.
* `mem_trackedPaths_iff`: The paths of the index at and below a folder.
* `isTracked_entry`, `isTracked_above`: The entries of the index are tracked, with the folders above them.
* `exists_entry_of_isTracked`: Nothing else is tracked.
-/

namespace ThreeWay

open ThreeWay.Path Scanner

/-- What lies between a text and one that continues it continues it too. -/
theorem isPrefix_of_between {xs ys zs : List Char} (lower : ¬ ys < xs) (upper : ¬ zs < ys)
    (h : xs <+: zs) : xs <+: ys := by
  -- Character by character: the first one is the same in all three, and the rest lies between the rests.
  induction xs generalizing ys zs with
  | nil => exact List.nil_prefix
  | cons x xs ih =>
      rcases h with ⟨more, rfl⟩
      cases ys with
      | nil => exact absurd (List.nil_lt_cons x xs) lower
      | cons y ys =>
          rw [List.cons_append, List.cons_lt_cons_iff, not_or] at upper
          rw [List.cons_lt_cons_iff, not_or] at lower
          have first : x = y := le_antisymm (not_lt.mp lower.1) (not_lt.mp upper.1)
          subst first
          exact (List.prefix_cons_inj x).mpr (ih (fun h => lower.2 ⟨rfl, h⟩)
            (fun h => upper.2 ⟨rfl, h⟩) (List.prefix_append xs more))

/-- The texts that continue a text stand together in a sorted list, right behind those that are less than it. -/
theorem exists_continued {texts : List String} (h : Ascending id texts) (front : String) :
    ∃ before below after, texts = before ++ (below ++ after) ∧ (∀ t ∈ before, t < front) ∧
      (∀ t ∈ below, front.toList <+: t.toList) ∧ ∀ t ∈ after, front < t ∧ ¬ front.toList <+: t.toList := by
  -- The list is built from its end. A new first text is less than the front, or it continues it, or it is greater and
  -- does not, and in the last two cases nothing that follows can be less.
  induction texts with
  | nil => exact ⟨[], [], [], rfl, nofun, nofun, nofun⟩
  | cons first rest ih =>
      rcases ih h.tail with ⟨before, below, after, rfl, hbefore, hbelow, hafter⟩
      by_cases less : first < front
      · exact ⟨first :: before, below, after, rfl, List.forall_mem_cons.mpr ⟨less, hbefore⟩, hbelow, hafter⟩
      -- What follows the first text that is not less is greater.
      have greater : ∀ t ∈ before ++ (below ++ after), front < t := fun t ht =>
        lt_of_le_of_lt (not_lt.mp less) (h.head_lt t ht)
      have none_before : before = [] := List.eq_nil_iff_forall_not_mem.mpr fun t ht =>
        lt_asymm (hbefore t ht) (greater t (List.mem_append_left _ ht))
      subst none_before
      by_cases continued : front.toList <+: first.toList
      · exact ⟨[], first :: below, after, rfl, nofun, List.forall_mem_cons.mpr ⟨continued, hbelow⟩, hafter⟩
      · have none_below : below = [] := List.eq_nil_iff_forall_not_mem.mpr fun t ht =>
          have later : first < t := h.head_lt t (List.mem_append_left after ht)
          continued (isPrefix_of_between (mt String.lt_iff_toList_lt.mpr less)
            (mt String.lt_iff_toList_lt.mpr (lt_asymm later)) (hbelow t ht))
        subst none_below
        have apart : first ≠ front := fun same => continued (same ▸ List.prefix_rfl)
        exact ⟨[], [], first :: after, rfl, nofun, nofun,
          List.forall_mem_cons.mpr ⟨⟨lt_of_le_of_ne (not_lt.mp less) apart.symm, continued⟩, hafter⟩⟩

/-- A folder is tracked if some tracked path lies below it. -/
theorem isTracked_folder_iff {tracked : TrackedPaths} (h : Ascending id tracked) {p : Path} :
    isTracked tracked p true = true ↔ ∃ text ∈ tracked, p.chars ++ ['/'] <+: text.toList := by
  have spelled : (p.text ++ "/").toList = p.chars ++ ['/'] := String.toList_append
  simp only [isTracked, if_true]
  generalize p.text ++ "/" = front at spelled ⊢
  rw [← spelled]
  rcases exists_continued h front with ⟨before, below, after, rfl, hbefore, hbelow, hafter⟩
  -- What is less than a text does not continue it.
  have apart : ∀ t, front.toList <+: t.toList → ¬ t < front := fun t hp less =>
    List.not_lt.mpr hp.le (String.lt_iff_toList_lt.mp less)
  -- What the search skips is exactly what is less than the front, so it stops at the first text that continues it, if
  -- there is one.
  have probed : (before ++ (below ++ after)).dropWhile (· < front) = below ++ after := by
    rw [List.dropWhile_append_of_pos fun t ht => decide_eq_true (hbefore t ht)]
    cases below with
    | cons t below => exact List.dropWhile_cons_of_neg (mt of_decide_eq_true (apart t (hbelow t List.mem_cons_self)))
    | nil =>
        cases after with
        | nil => rfl
        | cons t after =>
            exact List.dropWhile_cons_of_neg
              (mt of_decide_eq_true (lt_asymm (hafter t List.mem_cons_self).1))
  rw [probed, Option.any_eq_true]
  constructor
  · rintro ⟨t, ht, hp⟩
    exact ⟨t, List.mem_append_right _ (List.mem_of_head? ht), List.isPrefixOf_iff_prefix.mp hp⟩
  · rintro ⟨t, ht, hp⟩
    rcases List.mem_append.mp ht with hb | hl
    · exact absurd (hbefore t hb) (apart t hp)
    · cases below with
      | cons first below => exact ⟨first, rfl, List.isPrefixOf_iff_prefix.mpr (hbelow first List.mem_cons_self)⟩
      | nil => exact absurd hp (hafter t hl).2

/-- The bytes of a path with a slash behind them. -/
theorem encode_front (p : Path) : Utf8.encode (p.text ++ "/") = p.toBytes ++ [RawPath.slash] := by
  rw [Utf8.encode, String.toList_append, List.flatMap_append]
  rfl

/-- What is tracked, for every set of texts in the order of their bytes. A file is tracked if it is one of them. A
    folder is tracked if one of them continues it with a slash, and those that do stand together in one place:
    what stands before them is less than the folder with a slash, and what stands behind them is greater and
    does not continue it. -/
theorem isTracked_iff {tracked : TrackedPaths}
    (sorted : tracked.Pairwise fun s t => Utf8.encode s < Utf8.encode t) (p : Path) :
    (isTracked tracked p false = true ↔ p.text ∈ tracked) ∧
    (isTracked tracked p true = true ↔ ∃ text ∈ tracked, p.toBytes ++ [RawPath.slash] <+: Utf8.encode text) ∧
    ∃ before below after, tracked = before ++ (below ++ after) ∧
      (∀ text ∈ before, Utf8.encode text < p.toBytes ++ [RawPath.slash]) ∧
      (∀ text ∈ below, p.toBytes ++ [RawPath.slash] <+: Utf8.encode text) ∧
      ∀ text ∈ after, p.toBytes ++ [RawPath.slash] < Utf8.encode text ∧
        ¬ p.toBytes ++ [RawPath.slash] <+: Utf8.encode text := by
  have ascending : Ascending id tracked := sorted.imp Utf8.encode_lt_encode.mp
  -- To continue a text is the same for bytes and for characters, since no character begins inside another one.
  have continues : ∀ text, p.toBytes ++ [RawPath.slash] <+: Utf8.encode text ↔
      p.chars ++ ['/'] <+: text.toList := by
    intro text
    rw [← encode_front, Utf8.encode_isPrefix_encode, String.toList_append]
    rfl
  refine ⟨?_, ?_, ?_⟩
  · rw [isTracked, if_neg Bool.false_ne_true, List.contains_iff_mem]
  · simp only [continues]
    exact isTracked_folder_iff ascending
  · simp only [← encode_front, Utf8.encode_lt_encode, Utf8.encode_isPrefix_encode]
    exact exists_continued ascending (p.text ++ "/")

namespace TrackedPaths.Sample

/-- A tracked file below a folder, among tracked files with names that continue the one of the folder. -/
def surrounded : TrackedPaths :=
  ["a", "a-x", "a.txt", "a/b", "a0"]

end TrackedPaths.Sample

open TrackedPaths.Sample in
/-- Neither the folder itself nor a name that continues its name is taken for something below it. -/
theorem isTracked_among_neighbours :
    (surrounded.Pairwise fun s t => Utf8.encode s < Utf8.encode t) ∧
    isTracked surrounded (.ofString "a") true = true ∧ isTracked surrounded (.ofString "a") false = true ∧
    ¬ isTracked surrounded (.ofString "a0") true = true ∧ isTracked surrounded (.ofString "a0") false = true ∧
    ¬ isTracked surrounded (.ofString "a/b") true = true ∧ ¬ isTracked surrounded (.ofString "b") false = true := by
  have sorted : surrounded.Pairwise fun s t => Utf8.encode s < Utf8.encode t := by decide
  have tracked := fun text => isTracked_iff sorted (.ofString text)
  refine ⟨sorted, (tracked "a").2.1.mpr ?_, (tracked "a").1.mpr ?_, mt (tracked "a0").2.1.mp ?_,
    (tracked "a0").1.mpr ?_, mt (tracked "a/b").2.1.mp ?_, mt (tracked "b").1.mp ?_⟩ <;> decide

namespace Checkout

variable {c : Checkout}

theorem ascending_trackedPaths (c : Checkout) (folder : Path) :
    Ascending id (c.trackedPaths folder) :=
  ascending_ascending _

/-- The paths of the index at and below a folder. -/
theorem mem_trackedPaths_iff {folder : Path} {text : String} : text ∈ c.trackedPaths folder ↔
    ∃ e ∈ c.repository.index, e.place.startsWith folder = true ∧ e.place.text = text := by
  have kept : text ∈ c.trackedPaths folder ↔
      text ∈ ((c.repository.index.map IndexEntry.place).filter (·.startsWith folder)).map Path.text :=
    ⟨mem_of_mem_ascending, fun hm => mem_ascending hm fun _ _ h => h⟩
  rw [kept]
  simp only [List.mem_map, List.mem_filter, and_assoc, exists_exists_and_eq_and]

section

variable {e : IndexEntry} (named : ∀ name ∈ e.names, IsName name) (he : e ∈ c.repository.index)
  {above : List Bytes} {name : Bytes}

include named he

theorem mem_trackedPaths (hn : above <+: e.names) : e.place.text ∈ c.trackedPaths (pathOf above) := by
  have front : ∀ name ∈ above, IsName name := fun name hm => named name (hn.subset hm)
  refine mem_trackedPaths_iff.mpr ⟨e, he, ?_, rfl⟩
  rw [e.place_eq, startsWith_pathOf_iff (isOrdinary_pathOf named) front, names_pathOf named]
  exact hn

/-- An entry of the index is tracked. -/
theorem isTracked_entry (hn : e.names = above ++ [name]) :
    isTracked (c.trackedPaths (pathOf above)) (pathOf (above ++ [name])) false = true := by
  have hmem := mem_trackedPaths named he (hn ▸ List.prefix_append above [name])
  rw [e.place_eq, hn] at hmem
  rw [isTracked, if_neg Bool.false_ne_true, List.contains_iff_mem]
  exact hmem

/-- A folder on the way to an entry of the index is tracked. -/
theorem isTracked_above {next : Bytes} {more : List Bytes}
    (hn : e.names = above ++ [name] ++ next :: more) :
    isTracked (c.trackedPaths (pathOf above)) (pathOf (above ++ [name])) true = true := by
  have hmem : e.place.text ∈ c.trackedPaths (pathOf above) :=
    mem_trackedPaths named he (hn ▸ ⟨[name] ++ next :: more, by rw [List.append_assoc]⟩)
  rw [hn] at named
  refine (isTracked_folder_iff (ascending_trackedPaths c _)).mpr ⟨_, hmem, ?_⟩
  -- The path of the entry is the path of the folder, a slash, and the names that are left.
  have hchars : (pathOf (above ++ [name] ++ next :: more)).chars =
      (pathOf (above ++ [name])).chars ++ '/' :: (pathOf (next :: more)).chars :=
    chars_pathOf_append (fun n hm => named n (List.mem_append_left _ hm))
      (fun n hm => named n (List.mem_append_right _ hm))
      (List.append_ne_nil_of_right_ne_nil _ (List.cons_ne_nil _ _)) (List.cons_ne_nil _ _)
  have htext : e.place.text.toList = (pathOf (above ++ [name] ++ next :: more)).chars := by
    rw [e.place_eq, hn]
    rfl
  rw [htext, hchars]
  exact ⟨(pathOf (next :: more)).chars, (List.append_cons _ _ _).symm⟩

end

/-- What is tracked has an entry of the index at its path or below it. -/
theorem exists_entry_of_isTracked {folder p : Path} {isFolder : Bool}
    (h : isTracked (c.trackedPaths folder) p isFolder = true) :
    ∃ e ∈ c.repository.index, e.place.startsWith p = true := by
  -- A folder is tracked through a path below it, and a file through its own path.
  cases isFolder with
  | true =>
      rcases (isTracked_folder_iff (ascending_trackedPaths c folder)).mp h with ⟨text, hm, below⟩
      rcases mem_trackedPaths_iff.mp hm with ⟨e, he, _, rfl⟩
      exact ⟨e, he, startsWith_iff.mpr (Or.inr (below.trans (List.prefix_append _ _)))⟩
  | false =>
      rw [isTracked, if_neg Bool.false_ne_true, List.contains_iff_mem] at h
      rcases mem_trackedPaths_iff.mp h with ⟨e, he, _, same⟩
      have hp : e.place = p := ext_chars (congrArg String.toList same)
      exact ⟨e, he, hp ▸ startsWith_self e.place⟩

end Checkout

end ThreeWay
