import Mathlib.Data.List.Induction
import Mathlib.Data.List.Infix
import Mathlib.Logic.Relation
import ThreeWay.Proofs.Path.Parent

/-!
# The Folders Above a Path

Lying below is asked of two texts, by one of them continuing the other with a slash, and going up cuts a text at
its last slash. Both are about steps: a folder above a path has the same front and fewer of the steps, and each way
up leaves out one step at the end. So the folders that a path is found to lie below are exactly those that are met
on the way up from it, and the order is the one of lists that continue each other.

The way up does not go on forever, as it gets shorter by a step each time. `ancestors` lists it and bounds it by
the length of the text, which is enough, since no text has more steps than characters. For a relative path it ends
at the root of the tree.

A path at the root of the file system has a way up too, and it ends at the lone slash. Only the test of the texts
goes wrong there, so what is said about that test is said of relative paths.

The order of the paths in a tree is not this one. Siblings are compared there by their names, and here they have
nothing to do with each other, also where the name of one continues that of the other.

## Main definitions

* `Path.LiesIn`: Being held by a folder.

## Theorems

* `parent?_eq_some_iff`: Going up leaves out the last step.
* `reaches_iff`: Going up any number of times leaves out steps at the end.
* `isChain_climb`: Every folder on the way up holds the one before it.
* `cons_climb_ofSteps`: The way up has the fronts of the steps, the longest first.
* `mem_cons_ancestors_iff`: The bound of `ancestors` cuts nothing off.
* `eq_of_startsWith_join`: A path lies below one member of a folder only.
* `eq_of_startsWith_both`: Two paths that lie at or below each other are the same.
* `startsWith_order`: Lying below, by steps, by the way up, and as an order.
-/

namespace ThreeWay

namespace Path

/-- Being held by a folder. -/
def LiesIn (p folder : Path) : Prop :=
  p.parent? = some folder

variable {p q : Path}

/-- The folder that holds a path has the front of the path and all of its steps but the last. -/
theorem parent?_eq_some_iff :
    p.parent? = some q ↔ p.isAbsolute = q.isAbsolute ∧ ∃ last, p.segments = q.segments ++ [last] := by
  have plain := isPlain_segments p
  constructor
  · intro h
    -- A path without steps has no parent, and any other one is its parent and one step more.
    rcases List.eq_nil_or_concat p.segments with hnil | ⟨above, last, hsegments⟩
    · rw [eq_ofSteps p, hnil, parent?_ofSteps_nil] at h
      cases h
    · rw [List.concat_eq_append] at hsegments
      rw [hsegments] at plain
      have habove : ∀ step ∈ above, IsPlain step := fun step hm => plain step (List.mem_append_left _ hm)
      have hlast : IsPlain last := plain last (List.mem_append_right _ List.mem_cons_self)
      rw [eq_ofSteps p, hsegments, parent?_ofSteps _ habove hlast, ← isAbsolute_eq] at h
      rw [← Option.some.inj h, isAbsolute_ofSteps habove, (steps_ofSteps _ habove).2]
      exact ⟨rfl, last, hsegments⟩
  · rintro ⟨front, last, hsegments⟩
    rw [hsegments] at plain
    have hlast : IsPlain last := plain last (List.mem_append_right _ List.mem_cons_self)
    rw [eq_ofSteps p, hsegments, parent?_ofSteps _ (isPlain_segments q) hlast, ← isAbsolute_eq, front,
      isAbsolute_eq, ← eq_ofSteps]

/-! ### The Way Up -/

/-- On the way up from a path all fronts of its steps are met, and nothing else. -/
theorem reaches_iff :
    Relation.ReflTransGen LiesIn p q ↔ p.isAbsolute = q.isAbsolute ∧ q.segments <+: p.segments := by
  constructor
  · intro h
    -- One step up leaves out one step at the end.
    induction h with
    | refl => exact ⟨rfl, List.prefix_rfl⟩
    | tail _ hup ih =>
        rcases parent?_eq_some_iff.mp hup with ⟨front, last, hsegments⟩
        exact ⟨ih.1.trans front, (hsegments ▸ List.prefix_append _ [last]).trans ih.2⟩
  · rintro ⟨front, more, hmore⟩
    -- The steps that are left out go one by one, the last of them first.
    induction more using List.reverseRecOn generalizing p with
    | nil =>
        rw [List.append_nil] at hmore
        rw [eq_of_segments front hmore.symm]
    | append_singleton more last ih =>
        rw [← List.append_assoc] at hmore
        have plain : ∀ step ∈ q.segments ++ more, IsPlain step := fun step hm =>
          isPlain_segments p step (hmore ▸ List.mem_append_left _ hm)
        have hback := steps_ofSteps p.isAbsolute plain
        have hup : p.LiesIn (ofSteps p.isAbsolute (q.segments ++ more)) := by
          refine parent?_eq_some_iff.mpr ⟨(isAbsolute_ofSteps plain).symm, last, ?_⟩
          rw [hback.2, hmore]
        exact .head hup (ih ((isAbsolute_ofSteps plain).trans front) hback.2.symm)

/-- Every folder of the list holds the one before it. -/
theorem isChain_climb (n : Nat) (p : Path) : (p :: ancestors.climb n p).IsChain LiesIn := by
  induction n generalizing p with
  | zero => exact .singleton p
  | succ n ih =>
      rw [ancestors.climb]
      cases hup : p.parent? with
      | none => exact .singleton p
      | some q => exact .cons_cons hup (ih q)

/-- A text has at least as many characters as steps. -/
theorem length_le_intercalate {pieces : List (List Char)} (plain : ∀ piece ∈ pieces, IsPlain piece) :
    pieces.length ≤ (['/'].intercalate pieces).length := by
  induction pieces with
  | nil => exact Nat.zero_le _
  | cons piece rest ih =>
      -- No step is empty, so each has a character of its own.
      have hpos : 0 < piece.length := List.length_pos_iff.mpr fun hnil => by
        have hstep := (plain piece List.mem_cons_self).1
        rw [hnil] at hstep
        cases hstep
      have hrest := ih fun other hm => plain other (List.mem_cons_of_mem _ hm)
      by_cases hne : rest = []
      · rw [hne, List.intercalate_singleton]
        exact hpos
      · rw [List.intercalate_cons_of_ne_nil hne, List.length_append, List.length_append, List.length_cons]
        omega

theorem length_segments_le (p : Path) : p.segments.length ≤ p.chars.length := by
  have hspell : spell (isRooted p.chars) p.segments = p.chars := p.normal
  have hbody := length_le_intercalate (isPlain_segments p)
  rw [spell] at hspell
  split_ifs at hspell
  · rw [← hspell, List.length_cons]
    omega
  · rwa [hspell] at hbody

/-- A path and the folders above it have the fronts of its steps, the longest first. -/
theorem cons_climb_ofSteps (rooted : Bool) {steps : List (List Char)} (plain : ∀ step ∈ steps, IsPlain step)
    {n : Nat} (enough : steps.length ≤ n) :
    ofSteps rooted steps :: ancestors.climb n (ofSteps rooted steps) =
      (steps.inits.map (ofSteps rooted)).reverse := by
  -- From the end, where the steps are left out.
  induction steps using List.reverseRecOn generalizing n with
  | nil =>
      have htop : ancestors.climb n (ofSteps rooted []) = [] := by
        cases n with
        | zero => rfl
        | succ n => rw [ancestors.climb, parent?_ofSteps_nil]
      rw [htop]
      rfl
  | append_singleton above last ih =>
      have habove : ∀ step ∈ above, IsPlain step := fun step hm => plain step (List.mem_append_left _ hm)
      have hlast : IsPlain last := plain last (List.mem_append_right _ List.mem_cons_self)
      rw [List.length_append, List.length_singleton] at enough
      cases n with
      | zero => omega
      | succ n =>
          have hup : ancestors.climb (n + 1) (ofSteps rooted (above ++ [last])) =
              ofSteps rooted above :: ancestors.climb n (ofSteps rooted above) := by
            rw [ancestors.climb, parent?_ofSteps rooted habove hlast]
          rw [hup, ih habove (Nat.le_of_succ_le_succ enough), List.inits_append, List.map_append,
            List.reverse_append]
          rfl

theorem cons_ancestors (p : Path) :
    p :: p.ancestors = (p.segments.inits.map (ofSteps p.isAbsolute)).reverse := by
  have hclimb := cons_climb_ofSteps p.isAbsolute (isPlain_segments p) (length_segments_le p)
  rwa [isAbsolute_eq, ← eq_ofSteps, ← isAbsolute_eq] at hclimb

/-- The bound of the list cuts nothing off: all fronts of the steps are in it. -/
theorem mem_cons_ancestors_iff :
    q ∈ p :: p.ancestors ↔ p.isAbsolute = q.isAbsolute ∧ q.segments <+: p.segments := by
  rw [cons_ancestors, List.mem_reverse, List.mem_map]
  constructor
  · rintro ⟨steps, hsteps, rfl⟩
    rw [List.mem_inits] at hsteps
    have plain : ∀ step ∈ steps, IsPlain step := fun step hm => isPlain_segments p step (hsteps.subset hm)
    rw [isAbsolute_ofSteps plain, (steps_ofSteps _ plain).2]
    exact ⟨rfl, hsteps⟩
  · rintro ⟨front, hsegments⟩
    refine ⟨q.segments, (List.mem_inits _ _).mpr hsegments, ?_⟩
    rw [front, isAbsolute_eq, ← eq_ofSteps]

/-- The way up ends at the path that has no steps. -/
theorem getLast?_cons_ancestors (p : Path) :
    (p :: p.ancestors).getLast? = some (ofSteps p.isAbsolute []) := by
  rw [cons_ancestors, List.getLast?_reverse]
  cases p.segments with
  | nil => rfl
  | cons step steps => rw [List.inits_cons, List.map_cons, List.head?_cons]

/-! ### Members of One Folder -/

/-- A path lies below one member of a folder only, however alike the names of the members are. -/
theorem eq_of_startsWith_join {folder : Path} {s t : String} (hs : IsPlain s.toList) (ht : IsPlain t.toList)
    (below : p.startsWith (folder.join s) = true) (other : p.startsWith (folder.join t) = true) : s = t := by
  have hbelow := segments_prefix_of_startsWith below
  have hother := segments_prefix_of_startsWith other
  rw [segments_join, (steps_of_isPlain hs).1] at hbelow
  rw [segments_join, (steps_of_isPlain ht).1] at hother
  -- Of two fronts of the same steps the shorter is a front of the longer, and these have one length.
  have hst := List.prefix_of_prefix_length_le hbelow hother (by simp)
  rw [List.prefix_append_right_inj] at hst
  exact String.toList_injective (List.singleton_inj.mp (hst.eq_of_length rfl))

/-- Two paths that lie at or below each other are the same. -/
theorem eq_of_startsWith_both (hp : p.isAbsolute = false) (hq : q.isAbsolute = false)
    (below : p.startsWith q = true) (above : q.startsWith p = true) : p = q := by
  have hpq := segments_prefix_of_startsWith below
  have hqp := segments_prefix_of_startsWith above
  exact eq_of_segments (hp.trans hq.symm) (hqp.eq_of_length (le_antisymm hqp.length_le hpq.length_le))

/-- A relative path lies at or below another one exactly if the steps of that one are a front of its own, and
    exactly if that one is met on the way up from it. So this is an order, in which a folder whose name goes on
    behind another one's has nothing in common with it, and the way up ends at the root. -/
theorem startsWith_order (hp : p.isAbsolute = false) (hq : q.isAbsolute = false) :
    (p.startsWith q = true ↔ q.segments <+: p.segments) ∧
    (p.startsWith q = true ↔ Relation.ReflTransGen LiesIn p q) ∧
    (p.startsWith q = true ↔ q ∈ p :: p.ancestors) ∧
    p.startsWith p = true ∧
    (∀ r : Path, p.startsWith q = true → q.startsWith r = true → p.startsWith r = true) ∧
    (p.startsWith q = true → q.startsWith p = true → p = q) ∧
    (∀ name more : String, IsSegment name → IsSegment (name ++ more) → more ≠ "" →
      p.startsWith (q.join (name ++ more)) = true → p.startsWith (q.join name) = false) ∧
    (p :: p.ancestors).IsChain LiesIn ∧ (p :: p.ancestors).getLast? = some root ∧ root.parent? = none := by
  have same : p.isAbsolute = q.isAbsolute := hp.trans hq.symm
  have steps := startsWith_iff_segments hp hq
  refine ⟨steps, ?_, ?_, startsWith_self p, fun r => startsWith_trans, eq_of_startsWith_both hp hq, ?_,
    isChain_climb _ p, ?_, ?_⟩
  · rw [steps, reaches_iff, and_iff_right same]
  · rw [steps, mem_cons_ancestors_iff, and_iff_right same]
  · intro name more hname hlonger hne hother
    -- Below both siblings, the path would give both the same name.
    rw [Bool.eq_false_iff]
    intro hbelow
    have hnames := eq_of_startsWith_join (isPlain_iff.mpr hname) (isPlain_iff.mpr hlonger) hbelow hother
    have hchars := congrArg String.toList hnames
    rw [String.toList_append, List.self_eq_append_right] at hchars
    exact hne (String.toList_eq_nil_iff.mp hchars)
  · rw [getLast?_cons_ancestors, hp, ofSteps_nil.1]
  · rw [← ofSteps_nil.1, parent?_ofSteps_nil]

example : (ofString "folder2/a.txt").startsWith (ofString "folder") = false := by decide

/-- Steps that go up count as steps here, and nothing is resolved. -/
theorem startsWith_order_of_dots :
    (ofString "é/../b").isAbsolute = false ∧ (ofString "é/..").isAbsolute = false ∧
      (ofString "é/../b").startsWith (ofString "é/..") = true ∧
      Relation.ReflTransGen LiesIn (ofString "é/../b") (ofString "é/..") ∧
      (ofString "é/../b" :: (ofString "é/../b").ancestors).getLast? = some root := by
  have hp : (ofString "é/../b").isAbsolute = false := by decide
  have hq : (ofString "é/..").isAbsolute = false := by decide
  rcases startsWith_order hp hq with ⟨steps, way, _, _, _, _, _, _, top, _⟩
  have below := steps.mpr (by decide)
  exact ⟨hp, hq, below, way.mp below, top⟩

end Path

end ThreeWay
