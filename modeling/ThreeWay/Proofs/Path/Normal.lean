import ThreeWay.Proofs.Path.Join

/-!
# The Normal Form of a Text

What normalization makes of a text, said with whole texts instead of characters: the segments of the text with
single slashes between them, behind one slash if the text starts with a separator.

A text in this form is written in one way only, since its segments and the slash at its front can be read back
from it. So two texts have one normal form exactly if they agree in both, whatever runs of separators and dots
stand between their segments, and the normal form stands for the whole class of texts that name one place.

A backslash counts as a slash here, and that is where the form loses something: a file whose name has a backslash
and a file in a folder may have one normal form. Everything else that is lost, empty pieces and single dots, names
no other place.

## Main definitions

* `Path.IsSegment`: A text that can stand between two slashes of a path.
* `Path.written`: Segments with single slashes between them.
* `Path.slashed`: A text with slashes for its backslashes.
* `Path.segmentsOf`: The pieces of a text that count.

## Theorems

* `isStep_iff`, `isPlain_iff`: What is said of characters, said of texts.
* `map_segmentsOf`: The steps of a text are the pieces of it that count.
* `isSegment_of_mem_segmentsOf`: The pieces that count are segments.
* `segmentsOf_written`, `isRooted_written`: Segments are read back from the text that they make.
* `text_ofString`: The normal form of a text is made of its segments.
* `ofString_eq_iff`: Which texts have one normal form.
* `ofString_canonical`: The normal form is unique, final, and common to the texts with the same segments.
-/

namespace ThreeWay

namespace Path

/-- A text that can stand between two slashes of a path. -/
structure IsSegment (text : String) : Prop where
  notEmpty : text ≠ ""
  notDot : text ≠ "."
  noSlash : '/' ∉ text.toList
  noBackslash : '\\' ∉ text.toList

/-- Segments with single slashes between them, behind a leading slash if there is one. -/
def written (leading : Bool) (segments : List String) : String :=
  (if leading then "/" else "") ++ "/".intercalate segments

/-- A text with a slash in the place of every backslash. -/
def slashed (text : String) : String :=
  text.map fun c => if c = '\\' then '/' else c

/-- The pieces between the slashes of a text, without the empty ones and the single dots. -/
def segmentsOf (text : String) : List String :=
  ((text.toList.splitOn '/').map String.ofList).filter fun piece => piece ≠ "" ∧ piece ≠ "."

/-! ### Texts and Their Characters -/

theorem isStep_iff {text : String} : isStep text.toList = true ↔ text ≠ "" ∧ text ≠ "." := by
  have empty : text.toList = [] ↔ text = "" := String.toList_eq_nil_iff
  have dot : text.toList = ['.'] ↔ text = "." := @String.toList_inj text "."
  rw [isStep, decide_eq_true_iff, ne_eq, ne_eq, empty, dot]

theorem isPlain_iff {text : String} : IsPlain text.toList ↔ IsSegment text := by
  rw [IsPlain, isStep_iff]
  constructor
  · rintro ⟨⟨empty, dot⟩, slash, back⟩
    exact ⟨empty, dot, slash, back⟩
  · rintro ⟨empty, dot, slash, back⟩
    exact ⟨⟨empty, dot⟩, slash, back⟩

theorem toList_slashed (text : String) : (slashed text).toList = text.toList.map separator :=
  String.toList_map

theorem toList_written (leading : Bool) (segments : List String) :
    (written leading segments).toList = spell leading (segments.map String.toList) := by
  rw [written, String.toList_append, String.toList_intercalate, spell]
  cases leading <;> rfl

/-- The steps of a text are the pieces of it that count. -/
theorem map_segmentsOf (text : String) : (segmentsOf (slashed text)).map String.toList = steps text.toList := by
  have back : String.toList ∘ String.ofList = id := funext fun _ => String.toList_ofList
  -- A piece counts as a text if it counts as a list of characters.
  have counts : (fun piece : String => decide (piece ≠ "" ∧ piece ≠ ".")) ∘ String.ofList = isStep := by
    funext piece
    rw [Bool.eq_iff_iff, Function.comp_apply, decide_eq_true_iff, ← isStep_iff, String.toList_ofList]
  rw [segmentsOf, toList_slashed, List.filter_map, List.map_map, counts, back, List.map_id, steps]

theorem isRooted_iff (text : String) :
    isRooted text.toList = true ↔ (slashed text).toList.head? = some '/' := by
  rw [isRooted, toList_slashed, decide_eq_true_iff]

/-- The pieces that count are segments. -/
theorem isSegment_of_mem_segmentsOf {text segment : String} (h : segment ∈ segmentsOf (slashed text)) :
    IsSegment segment := by
  have hm := List.mem_map_of_mem (f := String.toList) h
  rw [map_segmentsOf] at hm
  exact isPlain_iff.mp (isPlain_of_mem_steps hm)

/-! ### One Form for Every Text -/

section

variable (leading : Bool) {segments : List String}

theorem isPlain_of_segments (h : ∀ segment ∈ segments, IsSegment segment) :
    ∀ piece ∈ segments.map String.toList, IsPlain piece := by
  intro piece hm
  rcases List.mem_map.mp hm with ⟨segment, hs, rfl⟩
  exact isPlain_iff.mpr (h segment hs)

/-- Segments are read back from the text that they make. -/
theorem segmentsOf_written (h : ∀ segment ∈ segments, IsSegment segment) :
    segmentsOf (slashed (written leading segments)) = segments := by
  apply List.map_injective_iff.mpr (fun _ _ => String.toList_injective)
  rw [map_segmentsOf, toList_written, steps_spell leading (isPlain_of_segments h)]

/-- The slash at the front is read back too. -/
theorem isRooted_written (h : ∀ segment ∈ segments, IsSegment segment) :
    isRooted (written leading segments).toList = leading := by
  rw [toList_written, isRooted_spell leading (isPlain_of_segments h)]

end

/-- The normal form of a text is made of its segments. -/
theorem text_ofString (s : String) : (ofString s).text = written (isRooted s.toList) (segmentsOf (slashed s)) := by
  apply String.toList_injective
  rw [toList_written, map_segmentsOf, ofString, ofChars, String.toList_ofList, normalize]

theorem ofString_text (p : Path) : ofString p.text = p :=
  ofChars_chars p

/-- Two texts have one normal form exactly if they have the same segments behind the same kind of front. -/
theorem ofString_eq_iff {s t : String} : ofString s = ofString t ↔
    isRooted s.toList = isRooted t.toList ∧ segmentsOf (slashed s) = segmentsOf (slashed t) := by
  have segments : ∀ u : String, ∀ segment ∈ segmentsOf (slashed u), IsSegment segment :=
    fun u segment => isSegment_of_mem_segmentsOf
  -- What is read back from the form is what the text was made of, so equal forms have equal segments.
  constructor
  · intro h
    have htext := congrArg Path.text h
    rw [text_ofString, text_ofString] at htext
    constructor
    · rw [← isRooted_written (isRooted s.toList) (segments s), htext, isRooted_written _ (segments t)]
    · rw [← segmentsOf_written _ (segments s), htext, segmentsOf_written _ (segments t)]
  · rintro ⟨hfront, hsegments⟩
    have htext : (ofString s).text = (ofString t).text := by
      rw [text_ofString, text_ofString, hfront, hsegments]
    exact ext_chars (congrArg String.toList htext)

/-- Every text has one normal form. It is a text of segments with single slashes between them, it has no other
    normal form, and it is shared by exactly the texts with these segments and the same kind of front. -/
theorem ofString_canonical (s : String) :
    (∃! form : Bool × List String,
      (∀ segment ∈ form.2, IsSegment segment) ∧ (ofString s).text = written form.1 form.2) ∧
    ofString (ofString s).text = ofString s ∧
    ∀ t : String, ofString s = ofString t ↔
      ((slashed s).toList.head? = some '/' ↔ (slashed t).toList.head? = some '/') ∧
        segmentsOf (slashed s) = segmentsOf (slashed t) := by
  refine ⟨?_, ofString_text _, fun t => ?_⟩
  · have segments : ∀ segment ∈ segmentsOf (slashed s), IsSegment segment :=
      fun segment => isSegment_of_mem_segmentsOf
    refine ⟨(isRooted s.toList, segmentsOf (slashed s)), ⟨segments, text_ofString s⟩, ?_⟩
    -- Any other way to write the text has what is read back from it.
    rintro ⟨leading, others⟩ ⟨hothers, hwritten⟩
    rw [text_ofString] at hwritten
    have hfront := isRooted_written (isRooted s.toList) segments
    have hback := segmentsOf_written (isRooted s.toList) segments
    rw [hwritten, isRooted_written _ hothers] at hfront
    rw [hwritten, segmentsOf_written _ hothers] at hback
    exact Prod.ext hfront hback
  · rw [ofString_eq_iff, Bool.eq_iff_iff, isRooted_iff, isRooted_iff]

example : ofString "\\./a\\.//..\\b/." = ofString "//a/../b" ∧ (ofString "//a/../b").text = "/a/../b" := by decide

end Path

end ThreeWay
