import Mathlib.Data.List.Infix
import ThreeWay.Checkout.Basic
import ThreeWay.Proofs.Disk

/-!
# Locations Inside a Folder

Where a path below a folder leads to if only its text is looked at. Nothing on a disk is asked here: a name
goes down, two dots go up, and the top is above itself.

A location is inside a folder if its components start with those of the folder and if the components that
follow never lead out, not even for a while. For the steps of a path this is a matter of counting. It leads
out exactly if some steps at its front have more of the kind that goes up than of the kind that goes down.

That a front of the steps leads out is the right condition and not that all of them do: once outside, a path may
come back by names that are only by chance those of the root. The root must have a location with a name in it, as
two dots at the top lead nowhere.

## Main definitions

* `RawPath.location`: The names that components lead to, taken one by one.
* `RawPath.Inside`: A location inside a folder.
* `Path.Climbs`: Steps that lead above where they start.

## Theorems

* `prefix_of_not_climbing`, `exists_front_of_climbing`: Steps that stay below where they started, and steps that
  leave it.
* `inside_iff_not_climbs`: The same for the components of a location.
* `components_join_names`: Names that are joined to a raw path add their components.
* `components_fileOf`: The components of the location of a path.
* `inside_fileOf_iff`: The location of a path is inside the root unless its steps climb.
-/

namespace ThreeWay

namespace RawPath

/-- The names that one more component leads to. -/
def Component.goFrom (here : List Bytes) : Component → List Bytes
  | .root => []
  | .current => here
  | .parent => here.dropLast
  | .name bytes => here ++ [bytes]

/-- The names that components lead to, taken one by one from the top. -/
def location (cs : List Component) : List Bytes :=
  cs.foldl Component.goFrom []

/-- A raw path that starts with a folder and then never leaves it. -/
structure Inside (folder p : RawPath) : Prop where
  below : folder.components <+: p.components
  stays : ∀ front, folder.components <+: front → front <+: p.components →
    location folder.components <+: location front

end RawPath

namespace Path

/-- Steps of which some front has more that go up than go down. -/
def Climbs (steps : List (List Char)) : Prop :=
  ∃ front, front <+: steps ∧ front.length < 2 * front.count ['.', '.']

instance (steps : List (List Char)) : Decidable (Climbs steps) :=
  decidable_of_iff (∃ front ∈ steps.inits, front.length < 2 * front.count ['.', '.'])
    ⟨fun ⟨front, hf, hc⟩ => ⟨front, (List.mem_inits front steps).mp hf, hc⟩,
      fun ⟨front, hf, hc⟩ => ⟨front, (List.mem_inits front steps).mpr hf, hc⟩⟩

/-- The component that a step is. -/
def component (step : List Char) : RawPath.Component :=
  if step = ['.', '.'] then .parent else .name (Utf8.encode (String.ofList step))

end Path

open RawPath ThreeWay.Path

section

variable {base : List Bytes}

/-- Steps that do not go up more often than down, the depth that was reached before included, stay below
    where they started. -/
theorem prefix_of_not_climbing (steps : List (List Char)) (reached : List Bytes)
    (h : ∀ front, front <+: steps → 2 * front.count ['.', '.'] ≤ front.length + reached.length) :
    base <+: (steps.map component).foldl Component.goFrom (base ++ reached) := by
  induction steps generalizing reached with
  | nil => exact List.prefix_append base reached
  | cons step steps ih =>
      rw [List.map_cons, List.foldl_cons]
      -- A step up takes back what was reached before, and the count says that there is something to take back.
      by_cases hs : step = ['.', '.']
      · have one := h [step] (List.cons_prefix_cons.mpr ⟨rfl, List.nil_prefix⟩)
        rw [hs] at one
        rw [List.count_singleton_self, List.length_singleton] at one
        have deep : reached ≠ [] := List.ne_nil_of_length_pos (by omega)
        rw [component, if_pos hs, Component.goFrom, List.dropLast_append_of_ne_nil deep]
        refine ih reached.dropLast fun front hf => ?_
        have more := h (step :: front) (List.cons_prefix_cons.mpr ⟨rfl, hf⟩)
        rw [hs, List.count_cons_self, List.length_cons] at more
        rw [List.length_dropLast]
        omega
      · rw [component, if_neg hs, Component.goFrom, List.append_assoc]
        refine ih _ fun front hf => ?_
        have more := h (step :: front) (List.cons_prefix_cons.mpr ⟨rfl, hf⟩)
        rw [List.count_cons_of_ne hs, List.length_cons] at more
        rw [List.length_append, List.length_singleton]
        omega

/-- Steps that go up more often than down leave where they started. -/
theorem exists_front_of_climbing (hb : base ≠ []) (steps : List (List Char)) (reached : List Bytes)
    (h : ∃ front, front <+: steps ∧ front.length + reached.length < 2 * front.count ['.', '.']) :
    ∃ front, front <+: steps ∧
      ¬ base <+: (front.map component).foldl Component.goFrom (base ++ reached) := by
  induction steps generalizing reached with
  | nil =>
      rcases h with ⟨front, hf, hc⟩
      rw [List.prefix_nil.mp hf] at hc
      cases hc
  | cons step steps ih =>
      rcases h with ⟨_ | ⟨first, front⟩, hfront, hc⟩
      · cases hc
      rcases List.cons_prefix_cons.mp hfront with ⟨rfl, hf⟩
      by_cases hs : first = ['.', '.']
      · rw [hs, List.count_cons_self, List.length_cons] at hc
        by_cases deep : reached = []
        · -- Nothing was reached below the start, so this step leads out.
          refine ⟨[first], List.cons_prefix_cons.mpr ⟨rfl, List.nil_prefix⟩, fun out => ?_⟩
          rw [List.map_singleton, List.foldl_cons, List.foldl_nil, component, if_pos hs,
            Component.goFrom, deep, List.append_nil] at out
          have short := out.length_le
          rw [List.length_dropLast] at short
          have := List.length_pos_of_ne_nil hb
          omega
        · have positive := List.length_pos_of_ne_nil deep
          rcases ih reached.dropLast ⟨front, hf, by rw [List.length_dropLast]; omega⟩ with ⟨out, ho, hn⟩
          refine ⟨first :: out, List.cons_prefix_cons.mpr ⟨rfl, ho⟩, ?_⟩
          rwa [List.map_cons, List.foldl_cons, component, if_pos hs, Component.goFrom,
            List.dropLast_append_of_ne_nil deep]
      -- A name goes one step deeper, and the rest has to climb by one step more.
      · rw [List.count_cons_of_ne hs, List.length_cons] at hc
        have hl : front.length + (reached ++ [Utf8.encode (String.ofList first)]).length <
            2 * front.count ['.', '.'] := by
          rw [List.length_append, List.length_singleton]
          omega
        rcases ih _ ⟨front, hf, hl⟩ with ⟨out, ho, hn⟩
        refine ⟨first :: out, List.cons_prefix_cons.mpr ⟨rfl, ho⟩, ?_⟩
        rwa [List.map_cons, List.foldl_cons, component, if_neg hs, Component.goFrom,
          List.append_assoc]

end

/-- A location whose components are those of a folder and then some steps is inside the folder unless the
    steps climb. -/
theorem inside_iff_not_climbs {folder p : RawPath} {steps : List (List Char)}
    (below : location folder.components ≠ [])
    (hp : p.components = folder.components ++ steps.map component) :
    RawPath.Inside folder p ↔ ¬ Climbs steps := by
  have start : location folder.components = location folder.components ++ [] := (List.append_nil _).symm
  -- A location is told from where the folder is, with what the other components add.
  have reached : ∀ cs, location (folder.components ++ cs) =
      cs.foldl Component.goFrom (location folder.components ++ []) := by
    intro cs
    rw [← start, location, List.foldl_append]
    rfl
  constructor
  · rintro ⟨_, stays⟩ ⟨front, hf, hc⟩
    rcases exists_front_of_climbing below steps [] ⟨front, hf, hc⟩ with ⟨out, ho, hn⟩
    refine hn ?_
    rw [← reached]
    refine stays _ (List.prefix_append _ _) ?_
    rw [hp]
    exact (List.prefix_append_right_inj _).mpr (ho.map component)
  · intro climbs
    refine ⟨hp ▸ List.prefix_append _ _, ?_⟩
    rintro _ ⟨cs, rfl⟩ hcs
    rw [hp, List.prefix_append_right_inj] at hcs
    rw [reached]
    -- A front of the components stands for a front of the steps.
    obtain ⟨front, hf, rfl⟩ : ∃ front, front <+: steps ∧ front.map component = cs :=
      ⟨steps.take cs.length, List.take_prefix _ _, by
        rw [List.map_take, ← List.prefix_iff_eq_take.mp hcs]⟩
    refine prefix_of_not_climbing front [] fun out ho => not_lt.mp fun hc => ?_
    exact climbs ⟨out, ho.trans hf, hc⟩

/-! ### The Location of a Path -/

namespace RawPath

theorem pieces_append (front rest : Bytes) :
    pieces ⟨front ++ slash :: rest⟩ = pieces ⟨front⟩ ++ pieces ⟨rest⟩ :=
  List.splitOn_append_cons_self front rest

/-- What follows a slash adds the components of its pieces. -/
theorem components_append (front rest : Bytes) :
    components ⟨front ++ slash :: rest⟩ =
      components ⟨front ++ [slash]⟩ ++ (pieces ⟨rest⟩).filterMap Component.ofPiece := by
  have empty : (pieces ⟨[]⟩).filterMap Component.ofPiece = [] := by decide
  -- What is looked at besides the pieces are the first one of them and the slash at the front.
  have first : (pieces ⟨front ++ slash :: rest⟩).head? = (pieces ⟨front ++ [slash]⟩).head? := by
    rw [pieces_append, pieces_append]
    cases hp : pieces ⟨front⟩ with
    | nil => exact absurd hp (List.splitOn_ne_nil _ _)
    | cons piece more => rfl
  have absolute : isAbsolute ⟨front ++ slash :: rest⟩ = isAbsolute ⟨front ++ [slash]⟩ := by
    cases front with
    | nil => rfl
    | cons b more => rfl
  rw [components, components, absolute, first, pieces_append, pieces_append, List.filterMap_append,
    List.filterMap_append, empty, List.append_nil, List.append_assoc]

/-- A slash at the end adds nothing. -/
theorem components_slash {front : Bytes} (hne : front ≠ []) :
    components ⟨front ++ [slash]⟩ = components ⟨front⟩ := by
  have empty : (pieces ⟨[]⟩).filterMap Component.ofPiece = [] := by decide
  have first : (pieces ⟨front ++ [slash]⟩).head? = (pieces ⟨front⟩).head? := by
    rw [pieces_append]
    cases hp : pieces ⟨front⟩ with
    | nil => exact absurd hp (List.splitOn_ne_nil _ _)
    | cons piece more => rfl
  have absolute : isAbsolute ⟨front ++ [slash]⟩ = isAbsolute ⟨front⟩ := by
    cases front with
    | nil => exact absurd rfl hne
    | cons b more => rfl
  rw [components, components, absolute, first, pieces_append, List.filterMap_append, empty,
    List.append_nil]

/-- What is joined to a raw path adds the components of its pieces. -/
theorem components_join (root : RawPath) {rel : Bytes} (hrel : rel.head? ≠ some slash)
    (hdot : (pieces ⟨rel⟩).head? ≠ some [dot]) :
    (root.join ⟨rel⟩).components =
      root.components ++ (pieces ⟨rel⟩).filterMap Component.ofPiece := by
  rcases root with ⟨bytes⟩
  -- Nothing is put in front of a path that is joined to the empty one.
  by_cases hroot : bytes = []
  · have relative : isAbsolute ⟨rel⟩ = false := decide_eq_false hrel
    have top : components ⟨[]⟩ = [] := by decide
    have hj : join ⟨bytes⟩ ⟨rel⟩ = ⟨rel⟩ := by
      rw [join, relative, if_neg Bool.false_ne_true, if_pos (Or.inl hroot), hroot]
      rfl
    rw [hj, hroot, top, components, relative, if_neg Bool.false_ne_true, if_neg hdot]
  · -- With or without a slash at its end, the root comes first.
    rcases Disk.bytes_join hroot hrel with hb | ⟨front, hf, hb⟩
    · have hj : join ⟨bytes⟩ ⟨rel⟩ = ⟨bytes ++ slash :: rel⟩ := congrArg RawPath.mk hb
      rw [hj, components_append, components_slash hroot]
    · have hj : join ⟨bytes⟩ ⟨rel⟩ = ⟨front ++ slash :: rel⟩ := congrArg RawPath.mk hb
      rw [hj, components_append, ← hf]

/-- Names that are joined to a raw path add their components. -/
theorem components_join_names (root : RawPath) {names : List Bytes}
    (plain : ∀ name ∈ names, name ≠ [] ∧ name ≠ [dot] ∧ slash ∉ name) :
    (root.join ⟨[slash].intercalate names⟩).components =
      root.components ++ names.filterMap Component.ofPiece := by
  cases names with
  | nil => exact components_join root (by decide) (by decide)
  | cons first more =>
      have hp : pieces ⟨[slash].intercalate (first :: more)⟩ = first :: more :=
        List.splitOn_intercalate _ (fun name hm => (plain name hm).2.2) (List.cons_ne_nil _ _)
      rw [components_join _ (head?_intercalate_names plain), hp]
      rw [hp, List.head?_cons]
      exact fun hd => (plain first List.mem_cons_self).2.1 (Option.some.inj hd)

end RawPath

namespace Path

/-- The bytes of a step are no dot, and they are two dots for the step that goes up only. -/
theorem ofPiece_step {step : List Char} (h : IsPlain step) :
    RawPath.Component.ofPiece (Utf8.encode (String.ofList step)) = some (component step) := by
  -- Bytes differ where texts differ.
  have iff : ∀ t : List Char, Utf8.encode (String.ofList step) = Utf8.encode (String.ofList t) ↔
      step = t := by
    intro t
    constructor
    · intro he
      simpa using congrArg String.toList (Utf8.encode_injective he)
    · rintro rfl
      rfl
  have plain := h.1
  rw [isStep, decide_eq_true_iff] at plain
  have full : ¬ (Utf8.encode (String.ofList step) = [] ∨
      Utf8.encode (String.ofList step) = [RawPath.dot]) :=
    not_or.mpr ⟨fun he => plain.1 ((iff []).mp he), fun he => plain.2 ((iff ['.']).mp he)⟩
  have up : Utf8.encode (String.ofList step) = [RawPath.dot, RawPath.dot] ↔ step = ['.', '.'] :=
    iff ['.', '.']
  rw [RawPath.Component.ofPiece, if_neg full, component]
  by_cases hs : step = ['.', '.']
  · rw [if_pos (up.mpr hs), if_pos hs]
  · rw [if_neg (mt up.mp hs), if_neg hs]

/-- The components of the names of a path are those of its steps. -/
theorem filterMap_ofPiece_names (p : Path) :
    p.names.filterMap RawPath.Component.ofPiece = p.segments.map component := by
  rw [names, List.filterMap_map, ← List.filterMap_eq_map]
  exact List.filterMap_congr fun step hs => ofPiece_step (isPlain_of_mem_segments hs)

end Path

/-- The location of a relative path has the components of the root and then those of its steps. -/
theorem Checkout.components_fileOf (c : Checkout) {p : Path} (h : p.isAbsolute = false) :
    (c.fileOf p).components = c.root.components ++ p.segments.map component := by
  -- The root of the tree has no steps, and its location is the root itself.
  by_cases hroot : p.isRoot = true
  · have none : p.segments = [] := by
      rw [segments, chars, of_decide_eq_true hroot]
      rfl
    rw [fileOf, if_pos hroot, none]
    exact (List.append_nil _).symm
  · rw [fileOf, if_neg hroot, toRaw, toBytes_of_relative h,
      components_join_names _ fun _ => bytes_of_mem_names, filterMap_ofPiece_names]

/-- The location of a relative path is inside the root unless its steps climb. -/
theorem Checkout.inside_fileOf_iff (c : Checkout) {p : Path} (h : p.isAbsolute = false)
    (below : location c.root.components ≠ []) :
    RawPath.Inside c.root (c.fileOf p) ↔ ¬ Climbs p.segments :=
  inside_iff_not_climbs below (c.components_fileOf h)

end ThreeWay
