import Mathlib.Data.String.Basic
import ThreeWay.Proofs.Text.Utf8
import ThreeWay.Scan

/-!
# Paths as Chains of Names

A path is a text and a place on a disk is a chain of names, each name a byte string. For the names that
matter here, valid texts without separators and dots, the two are the same thing: `pathOf` and `names`
are inverse to each other.

Everything rests on one fact about slashes. The byte of a slash occurs in the bytes of a text only where
the text has a slash, so cutting a text and cutting its bytes cut at the same places.

A path may have steps that no name stands for, two dots above all, and a name may have bytes that are no text. So
the two are inverse only from ordinary paths to ordinary names, and what holds of all paths is said of their
steps.

## Main definitions

* `Path.IsName`: A byte string that is one ordinary step of a path.
* `Path.names`: The chain of names that a path stands for.
* `Path.IsOrdinary`: A relative path without steps up.

## Theorems

* `encode_intercalate`: Slashes between texts are slashes between their bytes.
* `names_pathOf`, `pathOf_names`: Chains of names and ordinary paths are the same thing.
* `pathOf_injective`: Different chains of names are different paths.
* `toBytes_eq`: The bytes of an ordinary path are its names with slashes between them.
* `bytes_of_mem_names`: What the bytes of a name are not.
-/

namespace ThreeWay

namespace Path

/-- A name that is one ordinary step of a path: a valid text, not empty, without separators, and neither
    one dot nor two. -/
def IsName (name : Bytes) : Prop :=
  ∃ s : String, Utf8.encode s = name ∧ IsPlain s.toList ∧ s.toList ≠ ['.', '.']

instance (name : Bytes) : Decidable (IsName name) :=
  decidable_of_iff (∃ s ∈ Utf8.decode? name, Utf8.encode s = name ∧
      (isStep s.toList = true ∧ '/' ∉ s.toList ∧ '\\' ∉ s.toList) ∧ s.toList ≠ ['.', '.']) <| by
    constructor
    · rintro ⟨s, _, h⟩
      exact ⟨s, h⟩
    · rintro ⟨s, rfl, h⟩
      exact ⟨s, Utf8.decode?_encode s, rfl, h⟩

/-- The chain of names that a path stands for. -/
def names (p : Path) : List Bytes :=
  p.segments.map fun segment => Utf8.encode (String.ofList segment)

/-- A relative path without steps up. -/
structure IsOrdinary (p : Path) : Prop where
  relative : p.isAbsolute = false
  steps : ['.', '.'] ∉ p.segments

instance (p : Path) : Decidable p.IsOrdinary :=
  decidable_of_iff (p.isAbsolute = false ∧ ['.', '.'] ∉ p.segments)
    ⟨fun h => ⟨h.1, h.2⟩, fun h => ⟨h.relative, h.steps⟩⟩

theorem ext_chars {p q : Path} (h : p.chars = q.chars) : p = q := by
  rcases p with ⟨s, hs⟩
  rcases q with ⟨t, ht⟩
  have hst : s = t := String.toList_injective h
  subst hst
  rfl

/-- Paths are ordered by their texts. -/
instance : IsStrictTotalOrder Path (· < ·) where
  trichotomous p q hpq hqp := by
    have ht : p.text = q.text := le_antisymm (not_lt.mp hqp) (not_lt.mp hpq)
    exact ext_chars (congrArg String.toList ht)
  irrefl p h := lt_irrefl p.text h
  trans p q r hpq hqr := lt_trans (a := p.text) hpq hqr

theorem isPlain_of_mem_segments {p : Path} {piece : List Char} (h : piece ∈ p.segments) :
    IsPlain piece :=
  isPlain_of_mem_steps h

/-- The text of a relative path is its steps with slashes between them. -/
theorem chars_eq_intercalate {p : Path} (h : p.isAbsolute = false) :
    p.chars = ['/'].intercalate p.segments := by
  have hn : Path.normalize p.chars = p.chars := p.normal
  -- A path is spelled from its steps, and no step holds a separator.
  have hb : '\\' ∉ p.chars := by
    rw [← hn, Path.normalize, spell]
    have hi := backslash_not_mem_intercalate fun piece hp => isPlain_of_mem_segments (p := p) hp
    unfold segments at hi
    split_ifs
    · rw [List.mem_cons, not_or]
      exact ⟨by decide, hi⟩
    · exact hi
  have hr : isRooted p.chars = false := by
    rw [isRooted, map_separator_eq_self hb]
    exact h
  rw [Path.normalize, spell, if_neg (by rw [hr]; exact Bool.false_ne_true)] at hn
  exact hn.symm

theorem segments_of_chars {p : Path} {pieces : List (List Char)} (h : ∀ piece ∈ pieces, IsPlain piece)
    (hc : p.chars = ['/'].intercalate pieces) : p.segments = pieces := by
  have hs := steps_spell false h
  rw [spell, if_neg Bool.false_ne_true] at hs
  rw [segments, hc, hs]

/-- Slashes between texts are slashes between their bytes. -/
theorem encode_intercalate (pieces : List (List Char)) :
    Utf8.encode (String.ofList (['/'].intercalate pieces)) =
      [RawPath.slash].intercalate (pieces.map fun piece => Utf8.encode (String.ofList piece)) := by
  unfold Utf8.encode
  simp only [String.toList_ofList]
  -- Piece by piece. Between two pieces there is one slash in the text and one in the bytes.
  induction pieces with
  | nil => rfl
  | cons piece rest ih =>
      cases rest with
      | nil => simp
      | cons other rest =>
          rw [List.intercalate_cons_cons, List.flatMap_append, List.flatMap_append, ih]
          simp only [List.map_cons]
          rw [List.intercalate_cons_cons]
          rfl

/-- What the bytes of a name are not, and what they do not hold. -/
theorem IsName.bytes {name : Bytes} (h : IsName name) :
    name ≠ [] ∧ name ≠ [RawPath.dot] ∧ name ≠ [RawPath.dot, RawPath.dot] ∧ RawPath.slash ∉ name := by
  rcases h with ⟨s, rfl, ⟨hs, hn, _⟩, hd⟩
  -- Bytes differ where texts differ.
  have ne : ∀ t : String, s.toList ≠ t.toList → Utf8.encode s ≠ Utf8.encode t := by
    intro t ht he
    exact ht (congrArg String.toList (Utf8.encode_injective he))
  rw [isStep, decide_eq_true_iff] at hs
  refine ⟨ne "" hs.1, ne "." hs.2, ne ".." hd, ?_⟩
  intro hm
  exact hn ((Utf8.mem_encode (by decide) s).mp hm)

theorem isName_concat {chain : List Bytes} (h : ∀ name ∈ chain, IsName name) {last : Bytes}
    (hl : IsName last) : ∀ name ∈ chain ++ [last], IsName name := by
  intro name hm
  rcases List.mem_append.mp hm with hm | hm
  · exact h name hm
  · exact List.mem_singleton.mp hm ▸ hl

theorem exists_pieces {chain : List Bytes} (h : ∀ name ∈ chain, IsName name) :
    ∃ pieces : List (List Char),
      chain = pieces.map (fun piece => Utf8.encode (String.ofList piece)) ∧
      ∀ piece ∈ pieces, IsPlain piece ∧ piece ≠ ['.', '.'] := by
  induction chain with
  | nil => exact ⟨[], rfl, by simp⟩
  | cons name chain ih =>
      rcases h name List.mem_cons_self with ⟨s, hs, hp, hd⟩
      rcases ih fun n hn => h n (List.mem_cons_of_mem _ hn) with ⟨pieces, hc, hall⟩
      refine ⟨s.toList :: pieces, ?_, ?_⟩
      · rw [List.map_cons, String.ofList_toList, hs, hc]
      · intro piece hm
        rcases List.mem_cons.mp hm with rfl | hm
        · exact ⟨hp, hd⟩
        · exact hall piece hm

end Path

open ThreeWay.Path

/-- The text of a chain of names is the texts of the names with slashes between them. -/
theorem Scanner.chars_pathOf {pieces : List (List Char)} (h : ∀ piece ∈ pieces, IsPlain piece) :
    (Scanner.pathOf (pieces.map fun piece => Utf8.encode (String.ofList piece))).chars =
      ['/'].intercalate pieces := by
  rw [Scanner.pathOf, ofBytes, ← encode_intercalate, Utf8.decodeLossy_encode, ofString, ofChars]
  unfold chars
  have hs := steps_spell false h
  have hr := isRooted_spell false h
  rw [spell, if_neg Bool.false_ne_true] at hs hr
  simp only [String.toList_ofList, Path.normalize, hs, hr]
  rw [spell, if_neg Bool.false_ne_true]

namespace Path

theorem names_pathOf {chain : List Bytes} (h : ∀ name ∈ chain, IsName name) :
    (Scanner.pathOf chain).names = chain := by
  rcases exists_pieces h with ⟨pieces, rfl, hp⟩
  have plain : ∀ piece ∈ pieces, IsPlain piece := fun piece hm => (hp piece hm).1
  rw [names, segments_of_chars plain (Scanner.chars_pathOf plain)]

theorem pathOf_injective {as bs : List Bytes} (ha : ∀ name ∈ as, IsName name)
    (hb : ∀ name ∈ bs, IsName name) (h : Scanner.pathOf as = Scanner.pathOf bs) : as = bs := by
  rw [← names_pathOf ha, ← names_pathOf hb, h]

theorem isOrdinary_pathOf {chain : List Bytes} (h : ∀ name ∈ chain, IsName name) :
    (Scanner.pathOf chain).IsOrdinary := by
  -- The names are texts, so the path is told by its pieces, and none of these is two dots.
  rcases exists_pieces h with ⟨pieces, rfl, hp⟩
  have plain : ∀ piece ∈ pieces, IsPlain piece := fun piece hm => (hp piece hm).1
  constructor
  · rw [isAbsolute, Scanner.chars_pathOf plain]
    exact decide_eq_false (head?_intercalate plain)
  · rw [segments_of_chars plain (Scanner.chars_pathOf plain)]
    intro hm
    exact (hp _ hm).2 rfl

theorem pathOf_names {p : Path} (h : p.IsOrdinary) : Scanner.pathOf p.names = p := by
  apply ext_chars
  rw [names, Scanner.chars_pathOf fun piece => isPlain_of_mem_segments,
    chars_eq_intercalate h.relative]

theorem isName_of_mem_names {p : Path} (h : p.IsOrdinary) {name : Bytes} (hm : name ∈ p.names) :
    IsName name := by
  rcases List.mem_map.mp hm with ⟨piece, hp, rfl⟩
  refine ⟨String.ofList piece, rfl, ?_, ?_⟩
  · rw [String.toList_ofList]
    exact isPlain_of_mem_segments hp
  · rw [String.toList_ofList]
    intro hd
    exact h.steps (hd ▸ hp)

/-- The bytes of a relative path are those of its steps with slashes between them. -/
theorem toBytes_of_relative {p : Path} (h : p.isAbsolute = false) :
    p.toBytes = [RawPath.slash].intercalate p.names := by
  have hc := chars_eq_intercalate h
  rw [toBytes, names, ← encode_intercalate, ← hc, chars, String.ofList_toList]

/-- The bytes of an ordinary path are its names with slashes between them. -/
theorem toBytes_eq {p : Path} (h : p.IsOrdinary) :
    p.toBytes = [RawPath.slash].intercalate p.names :=
  toBytes_of_relative h.relative

/-- The steps of a path are not empty, no single dots, and hold no slash. -/
theorem bytes_of_mem_names {p : Path} {name : Bytes} (h : name ∈ p.names) :
    name ≠ [] ∧ name ≠ [RawPath.dot] ∧ RawPath.slash ∉ name := by
  rcases List.mem_map.mp h with ⟨step, hstep, rfl⟩
  have plain := isPlain_of_mem_segments hstep
  have hs := plain.1
  rw [isStep, decide_eq_true_iff] at hs
  -- Bytes differ where texts differ.
  have ne : ∀ t : String, step ≠ t.toList → Utf8.encode (String.ofList step) ≠ Utf8.encode t := by
    intro t ht he
    refine ht ?_
    rw [← Utf8.encode_injective he, String.toList_ofList]
  refine ⟨ne "" hs.1, ne "." hs.2, fun hm => plain.2.1 ?_⟩
  have mem := (Utf8.mem_encode (by decide) (String.ofList step)).mp hm
  rwa [String.toList_ofList] at mem

/-- Names with slashes between them start with no slash. -/
theorem head?_intercalate_names {names : List Bytes}
    (plain : ∀ name ∈ names, name ≠ [] ∧ name ≠ [RawPath.dot] ∧ RawPath.slash ∉ name) :
    ([RawPath.slash].intercalate names).head? ≠ some RawPath.slash := by
  cases names with
  | nil => exact fun he => nomatch he
  | cons name chain =>
      have hb := plain name List.mem_cons_self
      -- The first name is not empty, and its first byte is no slash.
      cases name with
      | nil => exact absurd rfl hb.1
      | cons b rest =>
          rw [List.intercalate_cons_cons_left, List.head?_cons]
          intro he
          rw [Option.some.inj he] at hb
          exact hb.2.2 List.mem_cons_self

/-- The bytes of a relative path start with no slash. -/
theorem head?_of_relative {p : Path} (h : p.isAbsolute = false) :
    p.toBytes.head? ≠ some RawPath.slash := by
  rw [toBytes_of_relative h]
  exact head?_intercalate_names fun _ => bytes_of_mem_names

end Path

end ThreeWay
