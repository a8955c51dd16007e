import ThreeWay.Proofs.Path.Names

/-!
# Lying Below a Folder

`startsWith` compares texts, and here it is read as what it stands for: a path lies at or below a folder
exactly when its chain of names continues the chain of the folder.

Comparing texts would be wrong without the slash at the end: `ab` continues the text of `a`. With a slash
behind both texts the relation is plain prefix order, and that form is the one to reason with.

Absolute paths are left out where steps are compared, since the text of the lone slash ends in a slash already. Of
relative paths only the root has no text, and every path lies below it.

## Theorems

* `startsWith_iff`: With a slash behind both texts, lying below is continuing a text.
* `segments_prefix_of_startsWith`, `names_prefix_of_startsWith`: What lies below continues the steps and the
  names.
* `startsWith_iff_segments`: For relative paths, lying below is continuing a list of steps.
* `startsWith_trans`: What lies below a folder lies below everything that the folder lies below.
* `steps_append`: A slash starts a new step.
* `startsWith_pathOf_iff`: Lying below is continuing a chain of names.
* `eq_of_startsWith`: Two members of one folder have nothing in common below them.
-/

namespace ThreeWay

namespace Path

theorem isRoot_iff {p : Path} : p.isRoot = true ↔ p.chars = [] := by
  rw [isRoot, decide_eq_true_iff, chars]
  exact String.toList_eq_nil_iff.symm

/-- With a slash behind both texts, lying at or below a folder is continuing its text. -/
theorem startsWith_iff {p q : Path} :
    p.startsWith q = true ↔ q.isRoot = true ∨ q.chars ++ ['/'] <+: p.chars ++ ['/'] := by
  rw [startsWith, Bool.or_eq_true, Bool.or_eq_true, decide_eq_true_iff, List.isPrefixOf_iff_prefix,
    List.prefix_concat_iff, or_assoc]
  -- A text with a slash behind it continues another one, or is that other one.
  have he : p = q ↔ q.chars ++ ['/'] = p.chars ++ ['/'] := by
    rw [List.append_left_inj]
    constructor
    · rintro rfl
      rfl
    · intro h
      exact (ext_chars h).symm
  rw [he]

theorem startsWith_self (p : Path) : p.startsWith p = true :=
  startsWith_iff.mpr (Or.inr List.prefix_rfl)

/-- What lies below a folder lies below everything that the folder lies below. -/
theorem startsWith_trans {p q r : Path} (hp : p.startsWith q = true) (hq : q.startsWith r = true) :
    p.startsWith r = true := by
  rw [startsWith_iff] at hp hq ⊢
  rcases hq with hr | hq
  · exact Or.inl hr
  · rcases hp with hroot | hp
    · -- Only the root continues the text of the root by a slash.
      left
      rw [isRoot_iff] at hroot ⊢
      rw [hroot] at hq
      have hl := hq.length_le
      simp only [List.length_append, List.length_nil, List.length_singleton] at hl
      exact List.eq_nil_of_length_eq_zero (by omega)
    · exact Or.inr (hq.trans hp)

/-- A slash starts a new step. -/
theorem steps_append (xs ys : List Char) : steps (xs ++ '/' :: ys) = steps xs ++ steps ys := by
  have hs : separator '/' = '/' := separator_eq_self (by decide)
  rw [steps, List.map_append, List.map_cons, hs, List.splitOn_append_cons_self, List.filter_append]
  rfl

/-- A path that lies at or below a folder continues its steps. -/
theorem segments_prefix_of_startsWith {p q : Path} (h : p.startsWith q = true) :
    q.segments <+: p.segments := by
  rw [startsWith, Bool.or_eq_true, Bool.or_eq_true, decide_eq_true_iff,
    List.isPrefixOf_iff_prefix] at h
  -- Three cases, as the test has: the root, the path itself, or a text that goes on behind a slash.
  rcases h with (hroot | rfl) | ⟨rest, hrest⟩
  · rw [segments, isRoot_iff.mp hroot]
    exact List.nil_prefix
  · exact List.prefix_rfl
  · rw [List.append_assoc] at hrest
    rw [segments, segments, ← hrest]
    exact ⟨steps rest, (steps_append q.chars rest).symm⟩

/-- A path that lies at or below a folder continues its chain of names. -/
theorem names_prefix_of_startsWith {p q : Path} (h : p.startsWith q = true) : q.names <+: p.names :=
  (segments_prefix_of_startsWith h).map _

theorem intercalate_append {α : Type} {x : α} {as bs : List (List α)} (ha : as ≠ []) (hb : bs ≠ []) :
    [x].intercalate (as ++ bs) = [x].intercalate as ++ x :: [x].intercalate bs := by
  induction as with
  | nil => exact absurd rfl ha
  | cons a as ih =>
      have hne : as ++ bs ≠ [] := fun h => hb (List.append_eq_nil_iff.mp h).2
      rw [List.cons_append, List.intercalate_cons_of_ne_nil hne]
      -- The last piece of the front is where the slash in between comes from.
      by_cases has : as = []
      · rw [has, List.nil_append, List.intercalate_singleton, List.append_assoc]
        rfl
      · rw [List.intercalate_cons_of_ne_nil has, ih has]
        simp only [List.append_assoc]

/-- A relative path lies at or below another one exactly when its steps continue the other's. -/
theorem startsWith_iff_segments {p q : Path} (hp : p.isAbsolute = false) (hq : q.isAbsolute = false) :
    p.startsWith q = true ↔ q.segments <+: p.segments := by
  refine ⟨segments_prefix_of_startsWith, ?_⟩
  rintro ⟨more, hmore⟩
  rw [startsWith_iff, isRoot_iff, chars_eq_intercalate hp, chars_eq_intercalate hq, ← hmore]
  -- The root needs no slash, and steps that are not continued get none.
  by_cases hroot : q.segments = []
  · left
    rw [hroot, List.intercalate_nil]
  · right
    by_cases hsame : more = []
    · exact ⟨[], by rw [hsame, List.append_nil, List.append_nil]⟩
    · rw [intercalate_append hroot hsame]
      exact ⟨['/'].intercalate more ++ ['/'], by simp⟩

/-- A longer chain of names lies below its front. -/
theorem startsWith_pathOf_append {as bs : List Bytes} (ha : ∀ name ∈ as, IsName name)
    (hb : ∀ name ∈ bs, IsName name) :
    (Scanner.pathOf (as ++ bs)).startsWith (Scanner.pathOf as) = true := by
  have hab : ∀ name ∈ as ++ bs, IsName name := fun name hm =>
    (List.mem_append.mp hm).elim (ha name) (hb name)
  rw [startsWith_iff_segments (isOrdinary_pathOf hab).relative (isOrdinary_pathOf ha).relative]
  -- Names are texts here, so both paths are told by their pieces.
  rcases exists_pieces ha with ⟨xs, rfl, hx⟩
  rcases exists_pieces hb with ⟨ys, rfl, hy⟩
  have plainX : ∀ piece ∈ xs, IsPlain piece := fun piece hm => (hx piece hm).1
  have plainY : ∀ piece ∈ ys, IsPlain piece := fun piece hm => (hy piece hm).1
  have plain : ∀ piece ∈ xs ++ ys, IsPlain piece := fun piece hm =>
    (List.mem_append.mp hm).elim (plainX piece) (plainY piece)
  rw [← List.map_append, segments_of_chars plainX (Scanner.chars_pathOf plainX),
    segments_of_chars plain (Scanner.chars_pathOf plain)]
  exact List.prefix_append xs ys

/-- An ordinary path lies at or below a chain of names exactly when its own chain continues it. -/
theorem startsWith_pathOf_iff {p : Path} (hp : p.IsOrdinary) {chain : List Bytes}
    (hc : ∀ name ∈ chain, IsName name) :
    p.startsWith (Scanner.pathOf chain) = true ↔ chain <+: p.names := by
  constructor
  · intro h
    have hn := names_prefix_of_startsWith h
    rwa [names_pathOf hc] at hn
  · rintro ⟨more, hm⟩
    have names : ∀ name ∈ chain ++ more, IsName name := by
      intro name hn
      rw [hm] at hn
      exact isName_of_mem_names hp hn
    rw [← pathOf_names hp, ← hm]
    exact startsWith_pathOf_append hc fun name hn => names name (List.mem_append_right _ hn)

/-- Two members of one folder have nothing in common below them. -/
theorem eq_of_startsWith {p : Path} {above : List Bytes} {a b : Bytes}
    (hc : ∀ name ∈ above, IsName name) (ha : IsName a) (hb : IsName b)
    (hpa : p.startsWith (Scanner.pathOf (above ++ [a])) = true)
    (hpb : p.startsWith (Scanner.pathOf (above ++ [b])) = true) : a = b := by
  have pa := names_prefix_of_startsWith hpa
  have pb := names_prefix_of_startsWith hpb
  rw [names_pathOf (isName_concat hc ha)] at pa
  rw [names_pathOf (isName_concat hc hb)] at pb
  -- Of two fronts of one chain the shorter is a front of the longer, and these have one length.
  have hab := List.prefix_of_prefix_length_le pa pb (by simp)
  rw [List.prefix_append_right_inj] at hab
  exact List.singleton_inj.mp (hab.eq_of_length rfl)

end Path

end ThreeWay
