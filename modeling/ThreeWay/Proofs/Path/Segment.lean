import Mathlib.Data.List.TakeWhile
import ThreeWay.Proofs.Path.Join

/-!
# One More Segment

A text that is joined to a path is normalized with it. Behind a backslash it goes on as another segment, a dot
adds nothing, and in front of it a backslash makes the path absolute where there was no text before. So the path
that comes out may have another last segment than the text, and it may lie elsewhere.

A plain text is taken over as it is, by every path: by the root, by one that climbs and by an absolute one.

So names are kept by all paths or by none, and that is a property of the name alone. It is what is asked of the
names of a disk, of a tree and of an index wherever a listing is to be relied on.

## Main definitions

* `Path.IsKept`: A name that paths take over as it is.

## Theorems

* `isKept_of_bytes`: Names of a file system are kept, except for those with a backslash.
* `steps_of_isPlain`: A plain text is in normal form, and it is its only step.
* `fileName_join`: A plain text becomes the last segment.
* `join_of_chars`: What is left of a path below a folder leads back to it.
* `exists_front`: What stands in front of a slash of a path is a path.
* `takeWhile_mem_splitOn`: The text up to the first slash is the first piece.
* `isPlain_of_mem_splitOn`: The pieces of a relative path are plain.
-/

namespace ThreeWay

namespace Path

/-- A name that every path takes over as it is, if it is a valid text. -/
def IsKept (name : Bytes) : Prop :=
  ∀ text ∈ Utf8.decode? name, IsPlain text.toList

instance (name : Bytes) : Decidable (IsKept name) :=
  decidable_of_iff (∀ text ∈ Utf8.decode? name,
      isStep text.toList = true ∧ '/' ∉ text.toList ∧ '\\' ∉ text.toList) Iff.rfl

theorem IsName.isKept {name : Bytes} (h : IsName name) : IsKept name := by
  rcases h with ⟨s, rfl, plain, _⟩
  intro text htext
  rw [Utf8.decode?_encode] at htext
  cases htext
  exact plain

/-- What a file system or a tree can have as a name is kept, unless it has a backslash. -/
theorem isKept_of_bytes {name : Bytes} (named : name ≠ [] ∧ name ≠ [0x2E] ∧ 0x2F ∉ name) (free : 0x5C ∉ name) :
    IsKept name := by
  intro text htext
  have spelled := Utf8.encode_of_decode? htext
  have hslash := Utf8.mem_encode (b := 0x2F) (by decide) text
  have hback := Utf8.mem_encode (b := 0x5C) (by decide) text
  rw [spelled] at hslash hback
  refine ⟨decide_eq_true ⟨fun he => named.1 ?_, fun he => named.2.1 ?_⟩, fun hm => named.2.2 (hslash.mpr hm),
    fun hm => free (hback.mpr hm)⟩
  · rw [← spelled, Utf8.encode, he]
    rfl
  · rw [← spelled, Utf8.encode, he]
    rfl

/-- A plain text is in normal form, and it is its only step. -/
theorem steps_of_isPlain {cs : List Char} (h : IsPlain cs) : steps cs = [cs] ∧ normalize cs = cs := by
  have single : ∀ piece ∈ [cs], IsPlain piece := List.forall_mem_singleton.mpr h
  have spelled : spell false [cs] = cs := List.append_nil cs
  have hs := steps_spell false single
  have hr := isRooted_spell false single
  rw [spelled] at hs hr
  exact ⟨hs, by rw [normalize, hs, hr, spelled]⟩

/-- A plain text stands at the end of the path that it is joined to. -/
theorem chars_join (p : Path) {s : String} (plain : IsPlain s.toList) :
    (p.join s).chars = s.toList ∨ ∃ front, (p.join s).chars = front ++ '/' :: s.toList := by
  have hs := steps_of_isPlain plain
  rw [join]
  split_ifs
  · left
    rw [ofString, ofChars, chars, String.toList_ofList, hs.2]
  · rw [ofChars, chars, String.toList_ofList, normalize, steps_append, hs.1]
    -- Behind a path that has no steps, which is the lone slash, there is no other slash to put.
    by_cases hsteps : steps p.chars = []
    · rw [hsteps, List.nil_append, spell, List.intercalate_singleton]
      split_ifs
      · exact Or.inr ⟨[], rfl⟩
      · exact Or.inl rfl
    · right
      rw [spell, intercalate_append hsteps (List.cons_ne_nil _ _), List.intercalate_singleton]
      split_ifs
      · exact ⟨'/' :: _, rfl⟩
      · exact ⟨_, rfl⟩

/-- A plain text that is joined to a path is its last segment. -/
theorem fileName_join (p : Path) {s : String} (plain : IsPlain s.toList) : (p.join s).fileName = s := by
  have hne : s.toList ≠ [] := fun he => absurd plain.1 (by rw [he]; decide)
  -- The last slash, if there is one, stands in front of the text, which has none itself.
  have hlast : (splitLast (p.join s).chars).2 = s.toList := by
    rcases chars_join p plain with h | ⟨front, h⟩
    · rw [h, splitLast_of_not_mem plain.2.1]
    · rw [h, splitLast_append plain.2.1]
  have hroot : ¬ (p.join s).isRoot = true := by
    rw [isRoot_iff]
    intro he
    rw [he] at hlast
    exact hne hlast.symm
  rw [fileName, fileName?, if_neg hroot, hlast, String.ofList_toList]
  rfl

/-- What is left of a path below a folder leads from the folder to the path. -/
theorem join_of_chars {p folder : Path} {rest : List Char} (hf : folder.isRoot = false)
    (h : p.chars = folder.chars ++ '/' :: rest) : folder.join (String.ofList rest) = p := by
  rw [join, if_neg (by rw [hf]; exact Bool.false_ne_true), String.toList_ofList, ← h, ofChars_chars]

theorem join_chars_of_isRoot {p folder : Path} (hf : folder.isRoot = true) :
    folder.join (String.ofList p.chars) = p := by
  rw [join, if_pos hf, ofString, String.toList_ofList, ofChars_chars]

/-- What stands in front of a slash is spelled from steps too. -/
theorem exists_spell_front {rooted : Bool} {pieces : List (List Char)} (plain : ∀ piece ∈ pieces, IsPlain piece)
    {front rest : List Char} (h : spell rooted pieces = front ++ '/' :: rest) (hne : front ≠ []) :
    ∃ above, (∀ piece ∈ above, IsPlain piece) ∧ front = spell rooted above := by
  -- Behind the slash at the front, if there is one, stand the steps and nothing else.
  have body : ∀ text, text ≠ [] → ['/'].intercalate pieces = text ++ '/' :: rest →
      ∃ above, (∀ piece ∈ above, IsPlain piece) ∧ text = ['/'].intercalate above := by
    intro text hne htext
    have hpieces : pieces ≠ [] := by
      rintro rfl
      exact List.append_ne_nil_of_left_ne_nil hne _ htext.symm
    have hsplit := List.splitOn_intercalate '/' (fun piece hm => (plain piece hm).2.1) hpieces
    rw [htext, List.splitOn_append_cons_self] at hsplit
    refine ⟨text.splitOn '/', fun piece hm => plain piece ?_, (List.intercalate_splitOn '/').symm⟩
    rw [← hsplit]
    exact List.mem_append_left _ hm
  -- The slash at the front is not one of those between the steps.
  cases rooted with
  | false => exact body front hne h
  | true =>
      cases front with
      | nil => exact absurd rfl hne
      | cons c text =>
          rw [spell, if_pos rfl, List.cons_append, List.cons.injEq] at h
          have htext : text ≠ [] := by
            rintro rfl
            refine head?_intercalate plain ?_
            rw [h.2]
            rfl
          rcases body text htext h.2 with ⟨above, habove, rfl⟩
          exact ⟨above, habove, by rw [← h.1]; rfl⟩

/-- What stands in front of a slash of a path is a path. -/
theorem exists_front {p : Path} {front rest : List Char} (h : p.chars = front ++ '/' :: rest)
    (hne : front ≠ []) : ∃ q : Path, q.chars = front := by
  have hspell : spell (isRooted p.chars) p.segments = front ++ '/' :: rest := p.normal.trans h
  rcases exists_spell_front (fun _ => isPlain_of_mem_segments) hspell hne with ⟨above, plain, rfl⟩
  refine ⟨ofChars (spell (isRooted p.chars) above), ?_⟩
  rw [ofChars, chars, String.toList_ofList, normalize, isRooted_spell _ plain, steps_spell _ plain]

/-- A text with a slash goes on behind the first one. -/
theorem exists_rest_of_slash {cs : List Char} (h : '/' ∈ cs) :
    ∃ rest, cs = cs.takeWhile (· ≠ '/') ++ '/' :: rest := by
  have whole := List.takeWhile_append_dropWhile (p := fun c => decide (c ≠ '/')) (l := cs)
  -- What is left begins with a slash, or there was none.
  cases hrest : cs.dropWhile (· ≠ '/') with
  | nil =>
      rw [hrest, List.append_nil] at whole
      rw [← whole] at h
      have hc := List.all_eq_true.mp List.all_takeWhile _ h
      exact absurd rfl (of_decide_eq_true hc)
  | cons c rest =>
      have hc : c = '/' := by
        have hhead := List.head?_dropWhile_not (fun c => decide (c ≠ '/')) cs
        rw [hrest] at hhead
        exact Decidable.of_not_not (of_decide_eq_false hhead)
      rw [hrest, hc] at whole
      exact ⟨rest, whole.symm⟩

/-- The text up to the first slash is the first piece. -/
theorem takeWhile_mem_splitOn (cs : List Char) : cs.takeWhile (· ≠ '/') ∈ cs.splitOn '/' := by
  have free : '/' ∉ cs.takeWhile (· ≠ '/') := fun hm => by
    have hc := List.all_eq_true.mp List.all_takeWhile _ hm
    exact of_decide_eq_true hc rfl
  have single := List.splitOn_eq_singleton free
  -- Without a slash the text is its only piece.
  by_cases hslash : '/' ∈ cs
  · rcases exists_rest_of_slash hslash with ⟨rest, whole⟩
    rw [whole, List.splitOn_append_cons_self, ← whole, single]
    exact List.mem_append_left _ (List.mem_singleton_self _)
  · have whole : cs.takeWhile (· ≠ '/') = cs :=
      List.takeWhile_eq_self_iff.mpr fun c hc => decide_eq_true fun he => hslash (he ▸ hc)
    rw [whole] at single ⊢
    rw [single]
    exact List.mem_singleton_self cs

/-- The pieces between the slashes of a relative path are plain. -/
theorem isPlain_of_mem_splitOn {p : Path} (hroot : p.isRoot = false) (relative : p.isAbsolute = false)
    {piece : List Char} (h : piece ∈ p.chars.splitOn '/') : IsPlain piece := by
  have plain : ∀ piece ∈ p.segments, IsPlain piece := fun piece => isPlain_of_mem_segments
  have hne : p.segments ≠ [] := by
    intro he
    have hchars := chars_eq_intercalate relative
    rw [he, List.intercalate_nil] at hchars
    rw [isRoot_iff.mpr hchars] at hroot
    cases hroot
  rw [chars_eq_intercalate relative,
    List.splitOn_intercalate _ (fun piece hm => (plain piece hm).2.1) hne] at h
  exact plain piece h

end Path

end ThreeWay
