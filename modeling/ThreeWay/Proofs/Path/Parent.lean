import ThreeWay.Proofs.Path.Normal
import ThreeWay.Proofs.Path.Segment

/-!
# Up and Down Again

Joining a segment, taking the last segment and going up to the parent all cut and paste the text of a path, each
with its own special cases for the empty text, for the lone slash and for a slash at the front.

A path is its steps behind a slash or not, and read so there are no special cases. Joining adds a step at the end,
the parent leaves the last step out, and the last step is the last segment. So going down and going up are inverse
to each other on every path, the absolute ones and the climbing ones included.

Only lying below is different. It asks for the text of the folder and then a slash, and the text of the lone slash
ends in one already: `/a` does not start with two slashes. So nothing counts as lying below the root of the file
system, although its members have it as their parent.

`Path.ofSteps` makes a path of whether it starts at the root of the file system and of a list of steps. Each
function is told once on what it makes (`join_ofSteps`, `parent?_ofSteps`, `fileName?_ofSteps`,
`startsWith_ofSteps`), where the special cases of its text are gone through. After that a statement about paths is
one about lists: the last step of a list with one more step behind it is that step, and what is left without it is
the list.

## Main definitions

* `Path.ofSteps`: The path that has some steps, from the root of the tree or of the file system.

## Theorems

* `eq_ofSteps`: Every path comes from its steps.
* `steps_ofSteps`, `chars_ofSteps`: A path gives back the steps that it comes from.
* `text_eq_slash_iff`, `isRoot_ofSteps_iff`: Which paths are the lone slash, and which the root.
* `join_ofSteps`: Joining a segment adds a step.
* `splitLast_spell`: The last slash stands in front of the last step.
* `parent?_ofSteps`, `fileName?_ofSteps`: The parent leaves out the last step, which is the last segment.
* `startsWith_ofSteps`: A member lies below its folder, except for the lone slash.
* `parent?_join`, `eq_join_of_parent?`: Going down and up, and up and down.
* `fileName?_join`, `startsWith_join`: The last segment of what is reached, and where it lies.
* `eq_of_segments`: A path is told by its front and its steps.
* `segments_join`, `isAbsolute_join`: What joining any text makes of both.
* `treeNames_eq_ok_iff`: Which paths are looked up, and by which names.
* `treeNames_parent`: The parent of a path is looked up by all of its names but the last.
* `join_parent`: The segments, the parents and the members of all paths.
* `not_below_slash`: A member of the root of the file system does not count as lying below it.
-/

namespace ThreeWay

namespace Path

/-- The path that has some steps, below the root of the file system or below that of the tree. -/
def ofSteps (rooted : Bool) (steps : List (List Char)) : Path :=
  ofChars (spell rooted steps)

section

variable (rooted : Bool) {above : List (List Char)}

theorem chars_ofSteps (plain : ∀ step ∈ above, IsPlain step) :
    (ofSteps rooted above).chars = spell rooted above := by
  rw [ofSteps, ofChars, chars, String.toList_ofList, normalize, isRooted_spell _ plain, steps_spell _ plain]

/-- A path gives back the steps that it comes from. -/
theorem steps_ofSteps (plain : ∀ step ∈ above, IsPlain step) :
    isRooted (ofSteps rooted above).chars = rooted ∧ (ofSteps rooted above).segments = above := by
  -- A spelled path is in normal form, so nothing is dropped when it is read back.
  rw [segments, chars_ofSteps _ plain]
  exact ⟨isRooted_spell _ plain, steps_spell _ plain⟩

/-- Every path comes from its steps. -/
theorem eq_ofSteps (p : Path) : p = ofSteps (isRooted p.chars) p.segments := by
  have hp : spell (isRooted p.chars) p.segments = p.chars := p.normal
  rw [ofSteps, hp, ofChars_chars]

theorem text_eq_slash_iff {p : Path} : p.text = "/" ↔ p.chars = ['/'] :=
  (@String.toList_inj p.text "/").symm

/-- The empty text and the lone slash are what comes from no steps. -/
theorem ofSteps_nil : ofSteps false [] = root ∧ ofSteps true [] = ofString "/" := by
  constructor <;> decide

theorem isRoot_ofSteps_iff (plain : ∀ step ∈ above, IsPlain step) :
    (ofSteps rooted above).isRoot = true ↔ rooted = false ∧ above = [] := by
  have hback := steps_ofSteps rooted plain
  constructor
  · intro hroot
    rw [segments, isRoot_iff.mp hroot] at hback
    exact ⟨hback.1.symm, hback.2.symm⟩
  · rintro ⟨rfl, rfl⟩
    decide

theorem text_ofSteps_iff (plain : ∀ step ∈ above, IsPlain step) :
    (ofSteps rooted above).text = "/" ↔ rooted = true ∧ above = [] := by
  have hback := steps_ofSteps rooted plain
  constructor
  · intro hlone
    rw [segments, text_eq_slash_iff.mp hlone] at hback
    exact ⟨hback.1.symm, hback.2.symm⟩
  · rintro ⟨rfl, rfl⟩
    decide

variable {last : List Char}

theorem isPlain_concat (plain : ∀ step ∈ above, IsPlain step) (hl : IsPlain last) :
    ∀ step ∈ above ++ [last], IsPlain step := by
  intro step hm
  rcases List.mem_append.mp hm with hm | hm
  · exact plain step hm
  · exact List.mem_singleton.mp hm ▸ hl

/-- The text of a longer path is that of the shorter one, a slash and the last step. -/
theorem spell_concat (hne : above ≠ []) :
    spell rooted (above ++ [last]) = spell rooted above ++ '/' :: last := by
  rw [spell, spell, intercalate_append hne (List.cons_ne_nil _ _), List.intercalate_singleton]
  cases rooted <;> rfl

theorem spell_singleton : spell rooted ([] ++ [last]) = if rooted then '/' :: last else last := by
  rw [List.nil_append, spell, List.intercalate_singleton]

theorem isRooted_append {front rest : List Char} (hne : front ≠ []) :
    isRooted (front ++ rest) = isRooted front := by
  rw [isRooted, isRooted, List.map_append, List.head?_append_of_ne_nil _ (mt List.map_eq_nil_iff.mp hne)]

/-- Joining a segment adds a step. -/
theorem join_ofSteps (plain : ∀ step ∈ above, IsPlain step) {s : String} (hs : IsPlain s.toList) :
    (ofSteps rooted above).join s = ofSteps rooted (above ++ [s.toList]) := by
  have hback := steps_ofSteps rooted plain
  have single := steps_of_isPlain hs
  apply ext_chars
  rw [join, chars_ofSteps _ (isPlain_concat plain hs)]
  split_ifs with hroot
  · -- Only the root of the tree gets no slash.
    rcases (isRoot_ofSteps_iff _ plain).mp hroot with ⟨rfl, rfl⟩
    rw [ofString, ofChars, chars, String.toList_ofList, single.2, spell_singleton]
    rfl
  · rw [ofChars, chars, String.toList_ofList, normalize, isRooted_append (mt isRoot_iff.mpr hroot), hback.1,
      steps_append, single.1, ← segments, hback.2]

/-- The last slash stands in front of the last step. In front of it are the other steps, and it is the slash at the
    front or is not there at all if there are none. -/
theorem splitLast_spell (hl : '/' ∉ last) :
    splitLast (spell rooted (above ++ [last])) =
      (if above ≠ [] then some (spell rooted above) else if rooted then some [] else none, last) := by
  by_cases habove : above = []
  · subst habove
    rw [spell_singleton, if_neg (not_not_intro rfl)]
    cases rooted with
    | false => exact splitLast_of_not_mem hl
    | true => exact (splitLast_append hl : splitLast ([] ++ '/' :: last) = _)
  · rw [spell_concat _ habove, splitLast_append hl, if_pos habove]

/-- The folder that holds a path has all of its steps but the last. -/
theorem parent?_ofSteps (plain : ∀ step ∈ above, IsPlain step) (hl : IsPlain last) :
    (ofSteps rooted (above ++ [last])).parent? = some (ofSteps rooted above) := by
  have hall := isPlain_concat plain hl
  have hne : above ++ [last] ≠ [] := List.append_ne_nil_of_right_ne_nil _ (List.cons_ne_nil _ _)
  have hroot := mt (isRoot_ofSteps_iff rooted hall).mp fun h => hne h.2
  have hlone := mt (text_ofSteps_iff rooted hall).mp fun h => hne h.2
  rw [parent?, if_neg (not_or.mpr ⟨hroot, hlone⟩), chars_ofSteps _ hall, splitLast_spell _ hl.2.1]
  -- Without other steps the parent is a root, and which one is told by the front.
  by_cases habove : above = []
  · subst habove
    rw [if_neg (not_not_intro rfl)]
    cases rooted with
    | false => exact congrArg some ofSteps_nil.1.symm
    | true => exact congrArg some ofSteps_nil.2.symm
  · rw [if_pos habove]
    cases hspell : spell rooted above with
    | nil =>
        have hchars := (chars_ofSteps rooted plain).trans hspell
        exact absurd ((isRoot_ofSteps_iff _ plain).mp (isRoot_iff.mpr hchars)).2 habove
    | cons c cs => rw [ofSteps, hspell]

/-- The last segment of a path is its last step. -/
theorem fileName?_ofSteps (plain : ∀ step ∈ above, IsPlain step) (hl : IsPlain last) :
    (ofSteps rooted (above ++ [last])).fileName? = some (String.ofList last) := by
  have hall := isPlain_concat plain hl
  have hroot := mt (isRoot_ofSteps_iff rooted hall).mp fun h =>
    List.append_ne_nil_of_right_ne_nil _ (List.cons_ne_nil _ _) h.2
  rw [fileName?, if_neg hroot, chars_ofSteps _ hall, splitLast_spell _ hl.2.1]

/-- A member lies below its folder, except for the members of the lone slash. -/
theorem startsWith_ofSteps (plain : ∀ step ∈ above, IsPlain step) (hl : IsPlain last) :
    (ofSteps rooted (above ++ [last])).startsWith (ofSteps rooted above) = true ↔
      ¬(rooted = true ∧ above = []) := by
  rw [startsWith_iff, isRoot_ofSteps_iff _ plain, chars_ofSteps _ plain, chars_ofSteps _ (isPlain_concat plain hl)]
  by_cases habove : above = []
  · subst habove
    cases rooted with
    | false => simp
    | true =>
        -- The text of the folder and a slash are two slashes, and a step does not start with one.
        have hfront : ¬ ['/'] <+: last ++ ['/'] := by
          cases last with
          | nil => exact absurd hl.1 (by decide)
          | cons c cs =>
              intro hp
              exact hl.2.1 ((List.cons_prefix_cons.mp hp).1 ▸ List.mem_cons_self)
        simpa [spell] using hfront
  · rw [spell_concat _ habove]
    refine iff_of_true (Or.inr ⟨last ++ ['/'], ?_⟩) fun h => habove h.2
    simp

end

theorem parent?_ofSteps_nil (rooted : Bool) : (ofSteps rooted []).parent? = none := by
  cases rooted <;> decide

section

variable {p q : Path} {s : String}

theorem isPlain_segments (p : Path) : ∀ step ∈ p.segments, IsPlain step :=
  fun _ => isPlain_of_mem_segments

/-- Going down a segment and up again leads back. -/
theorem parent?_join (p : Path) (hs : IsPlain s.toList) : (p.join s).parent? = some p := by
  have hparent := parent?_ofSteps (isRooted p.chars) (isPlain_segments p) hs
  rwa [← join_ofSteps _ (isPlain_segments p) hs, ← eq_ofSteps] at hparent

/-- The last segment of what is reached is the segment that was gone down. -/
theorem fileName?_join (p : Path) (hs : IsPlain s.toList) : (p.join s).fileName? = some s := by
  have hname := fileName?_ofSteps (isRooted p.chars) (isPlain_segments p) hs
  rwa [← join_ofSteps _ (isPlain_segments p) hs, ← eq_ofSteps, String.ofList_toList] at hname

/-- What is reached lies below where it was started, except from the lone slash. -/
theorem startsWith_join (p : Path) (hs : IsPlain s.toList) : (p.join s).startsWith p = true ↔ p.text ≠ "/" := by
  have hbelow := startsWith_ofSteps (isRooted p.chars) (isPlain_segments p) hs
  rwa [← text_ofSteps_iff _ (isPlain_segments p), ← join_ofSteps _ (isPlain_segments p) hs, ← eq_ofSteps] at hbelow

/-- A path with steps comes from the others by its last one. -/
theorem eq_join_of_segments {above : List (List Char)} {last : List Char} (h : p.segments = above ++ [last]) :
    IsPlain (String.ofList last).toList ∧ p = (ofSteps (isRooted p.chars) above).join (String.ofList last) := by
  have hall := isPlain_segments p
  rw [h] at hall
  have hlast : IsPlain (String.ofList last).toList := by
    rw [String.toList_ofList]
    exact hall last (List.mem_append_right _ List.mem_cons_self)
  refine ⟨hlast, ?_⟩
  rw [join_ofSteps _ (fun step hm => hall step (List.mem_append_left _ hm)) hlast, String.toList_ofList, ← h]
  exact eq_ofSteps p

/-- Going up and down again by the last segment leads back. -/
theorem eq_join_of_parent? (h : p.parent? = some q) :
    ∃ s : String, IsPlain s.toList ∧ p.fileName? = some s ∧ q.join s = p := by
  -- There is a parent, so there are steps, and the last one is what was left out.
  rcases List.eq_nil_or_concat p.segments with hnil | ⟨above, last, hsegments⟩
  · rw [eq_ofSteps p, hnil, parent?_ofSteps_nil] at h
    cases h
  · rw [List.concat_eq_append] at hsegments
    rcases eq_join_of_segments hsegments with ⟨hlast, hp⟩
    rw [hp, parent?_join _ hlast] at h
    cases h
    exact ⟨String.ofList last, hlast, hp ▸ fileName?_join _ hlast, hp.symm⟩

/-! ### Fronts and Steps -/

/-- A path is absolute if its text starts with a separator. -/
theorem isAbsolute_eq (p : Path) : p.isAbsolute = isRooted p.chars := by
  have hp : spell (isRooted p.chars) p.segments = p.chars := p.normal
  -- A text in normal form has no backslashes, so it starts with a separator if it starts with a slash.
  cases hr : isRooted p.chars with
  | false =>
      rw [hr, spell, if_neg Bool.false_ne_true] at hp
      rw [isAbsolute, ← hp]
      exact decide_eq_false (head?_intercalate (isPlain_segments p))
  | true =>
      rw [hr, spell, if_pos rfl] at hp
      rw [isAbsolute, ← hp]
      rfl

theorem isAbsolute_ofSteps {rooted : Bool} {steps : List (List Char)} (plain : ∀ step ∈ steps, IsPlain step) :
    (ofSteps rooted steps).isAbsolute = rooted := by
  rw [isAbsolute_eq, (steps_ofSteps rooted plain).1]

/-- A path is told by its front and its steps. -/
theorem eq_of_segments (front : p.isAbsolute = q.isAbsolute) (steps : p.segments = q.segments) : p = q := by
  rw [isAbsolute_eq, isAbsolute_eq] at front
  rw [eq_ofSteps p, eq_ofSteps q, front, steps]

/-- The path of a text has the steps of the text. -/
theorem segments_ofChars (cs : List Char) : (ofChars cs).segments = steps cs := by
  rw [segments, chars, ofChars, String.toList_ofList, normalize]
  exact steps_spell _ fun _ => isPlain_of_mem_steps

/-- The path of a text is absolute exactly if the text starts with a separator. -/
theorem isAbsolute_ofChars (cs : List Char) : (ofChars cs).isAbsolute = isRooted cs := by
  rw [isAbsolute_eq, chars, ofChars, String.toList_ofList, normalize]
  exact isRooted_spell _ fun _ => isPlain_of_mem_steps

/-- Joining any text adds its steps. -/
theorem segments_join (p : Path) (s : String) : (p.join s).segments = p.segments ++ steps s.toList := by
  rw [join]
  split_ifs with hroot
  · have hnil : p.segments = [] := by
      rw [segments, isRoot_iff.mp hroot]
      rfl
    rw [hnil, List.nil_append]
    exact segments_ofChars s.toList
  · rw [segments_ofChars, steps_append]
    rfl

/-- The front of a path stays, but the root has none, so there the joined text decides. -/
theorem isAbsolute_join (p : Path) (s : String) :
    (p.join s).isAbsolute = if p.isRoot then isRooted s.toList else p.isAbsolute := by
  rw [join]
  split_ifs with hroot
  · exact isAbsolute_ofChars s.toList
  · rw [isAbsolute_ofChars, isRooted_append (mt isRoot_iff.mpr hroot), isAbsolute_eq]

/-! ### Looking up a Parent -/

theorem treeNames_eq_ok_iff {names : List Bytes} : p.treeNames = .ok names ↔
    (isRooted p.chars = false ∧ p.segments.head? ≠ some ['.', '.'] ∧ '\x00' ∉ p.chars) ∧ p.names = names := by
  unfold treeNames
  -- Three reasons to refuse a path, and without any of them the names are those of the path.
  by_cases refused : (p.isAbsolute || p.segments.head? = some ['.', '.'] || p.chars.contains '\x00') = true
  · rw [if_pos refused]
    rw [Bool.or_eq_true, Bool.or_eq_true, decide_eq_true_iff, List.contains_iff_mem, isAbsolute_eq] at refused
    refine ⟨fun h => (nomatch h), fun h => ?_⟩
    rcases refused with (absolute | up) | zero
    · cases absolute.symm.trans h.1.1
    · exact absurd up h.1.2.1
    · exact absurd zero h.1.2.2
  · rw [if_neg refused]
    rw [Bool.or_eq_true, Bool.or_eq_true, decide_eq_true_iff, List.contains_iff_mem, isAbsolute_eq, not_or, not_or,
      Bool.not_eq_true] at refused
    exact ⟨fun h => ⟨⟨refused.1.1, refused.1.2, refused.2⟩, Except.ok.inj h⟩, fun h => congrArg Except.ok h.2⟩

/-- Where a path is looked up by some names, its parent is looked up by all of them but the last. -/
theorem treeNames_parent {names : List Bytes} (h : p.treeNames = .ok names) (hne : names ≠ []) :
    ∃ q above, p.parent? = some q ∧ q.treeNames = .ok above ∧ names = above ++ [Utf8.encode p.fileName] := by
  rcases treeNames_eq_ok_iff.mp h with ⟨⟨relative, up, zero⟩, rfl⟩
  rcases List.eq_nil_or_concat p.segments with hnil | ⟨above, last, hsegments⟩
  · exact absurd (List.map_eq_nil_iff.mpr hnil) hne
  rw [List.concat_eq_append] at hsegments
  have plain : ∀ step ∈ above, IsPlain step := fun step hm =>
    isPlain_segments p step (hsegments ▸ List.mem_append_left _ hm)
  rcases eq_join_of_segments hsegments with ⟨hlast, hp⟩
  rw [relative] at hp
  have hback := steps_ofSteps false plain
  have hname := fileName_join (ofSteps false above) hlast
  rw [← hp] at hname
  refine ⟨ofSteps false above, (ofSteps false above).names, hp ▸ parent?_join _ hlast,
    treeNames_eq_ok_iff.mpr ⟨⟨hback.1, ?_, ?_⟩, rfl⟩, ?_⟩
  · -- A step up in front of the parent would stand in front of the path too.
    rw [hback.2]
    intro first
    have steps : above ≠ [] := fun hnil => by
      rw [hnil] at first
      cases first
    rw [hsegments, List.head?_append_of_ne_nil _ steps] at up
    exact up first
  · -- The text of the parent is the front of that of the path.
    rw [chars_ofSteps _ plain]
    intro hm
    have steps : above ≠ [] := fun hnil => by
      rw [hnil] at hm
      exact List.not_mem_nil hm
    have hchars : spell (isRooted p.chars) p.segments = p.chars := p.normal
    rw [relative, hsegments, spell_concat _ steps] at hchars
    exact zero (hchars ▸ List.mem_append_left _ hm)
  · rw [hname, names, names, hback.2, hsegments, List.map_append]
    rfl

end

/-- Going down a segment and up again leads back, and going up and down again by the last segment does too. A member
    lies below its folder, unless the folder is the lone slash. -/
theorem join_parent (p : Path) :
    (∀ s : String, IsSegment s →
      (p.join s).fileName? = some s ∧ (p.join s).parent? = some p ∧
        ((p.join s).startsWith p = true ↔ p.text ≠ "/")) ∧
    ∀ q : Path, p.parent? = some q → ∃ s, IsSegment s ∧ p.fileName? = some s ∧ q.join s = p := by
  constructor
  · intro s hs
    have plain := isPlain_iff.mpr hs
    exact ⟨fileName?_join p plain, parent?_join p plain, startsWith_join p plain⟩
  · intro q hq
    rcases eq_join_of_parent? hq with ⟨s, plain, hname, hjoin⟩
    exact ⟨s, isPlain_iff.mp plain, hname, hjoin⟩

/-- Two dots go down like any other segment, and up again, from a path at the root of the file system. -/
theorem join_parent_dots :
    IsSegment ".." ∧ ((ofString "/a").join "..").fileName? = some ".." ∧
      ((ofString "/a").join "..").parent? = some (ofString "/a") ∧
      ((ofString "/a").join "..").startsWith (ofString "/a") = true := by
  -- Two dots are a segment: they are not empty, no single dot, and have no separator.
  have hs : IsSegment ".." := isPlain_iff.mp ⟨by decide, by decide, by decide⟩
  have h := (join_parent (ofString "/a")).1 ".." hs
  exact ⟨hs, h.1, h.2.1, h.2.2.mpr (by decide)⟩

/-- A member of the root of the file system does not count as lying below it. -/
theorem not_below_slash :
    IsSegment "a" ∧ ((ofString "/").join "a").parent? = some (ofString "/") ∧
      ((ofString "/").join "a").startsWith (ofString "/") = false :=
  ⟨isPlain_iff.mp ⟨by decide, by decide, by decide⟩, by decide, by decide⟩

end Path

end ThreeWay
