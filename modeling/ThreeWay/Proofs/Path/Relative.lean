import ThreeWay.Disk.Read
import ThreeWay.Proofs.Path.Inside
import ThreeWay.Proofs.Path.Parent
import ThreeWay.Proofs.Text.Lossy

/-!
# From a Root and Back

A raw path is taken off a root by components, and what is left becomes a path. A path is joined to a root by steps.
The two have to fit, although one looks at bytes and the other at characters, and although the bytes need not be a
text at all.

They fit because the steps of a path are those of the components, one by one. What is dropped between two
components, slashes and single dots, makes no step, and what an invalid part becomes does not depend on what stands
next to it. Only the front is not a matter of steps: a path is absolute if its first component is the root, and the
root is left over only where nothing was taken off.

A backslash breaks this. It is an ordinary byte of a component and ends a step, and at the front of what is left over
it makes the path absolute.

What is left over is spelled with slashes and read again. Where it is the root alone its text would be empty, so
that case has a spelling of its own, and every lemma about spelling looks at it first.

The components of a raw path are made of its pieces between slashes, and a piece that is empty or a dot makes
none. Its steps are made of its text, in which a piece may be no text at all; but a slash is a byte of the ASCII
range, so what is read between two slashes is what stands between them (`steps_intercalate`). That is the only
place where bytes and characters meet. From there on both sides are lists, and a root that is taken off is a front
of a list.

## Main definitions

* `RawPath.Component.steps`: The steps that a component becomes.

## Theorems

* `dropPrefix?_eq_some_iff`: What is left are the components behind the front.
* `steps_of_ofPiece_eq_none`, `flatMap_steps_pieces`: Pieces that stand for nothing make no step.
* `steps_intercalate`: Pieces with slashes between them have the steps of the pieces.
* `segments_ofBytes`, `isAbsolute_ofBytes`: A raw path becomes a path by its components.
* `isAbsolute_iff_head?`, `root_not_mem_tail`: The root is the first component or none.
* `isAbsolute_ofComponents`, `segments_ofComponents`: Components that are spelled keep their steps and their
  front.
* `relativeTo_eq_ok_iff`, `relativeTo_of_not_prefix`, `exists_relativeTo_iff`: When a root is taken off, and what
  is said where it is not.
* `isAbsolute_join_rest`: The front comes from the root that is taken off, or from what is left over.
* `join_of_relativeTo`: What is left of a raw path leads from the root to it.
* `relativeTo_join_names`: Names that are joined to a root are what leads to them from there.
* `relativeTo_inverse`: Taking a root off, and joining it again.
-/

namespace ThreeWay

namespace RawPath

/-- The steps that a component becomes. -/
def Component.steps (c : Component) : List (List Char) :=
  Path.steps (Utf8.decodeLossy c.bytes).toList

theorem dropPrefix?_eq_some_iff {front cs rest : List Component} :
    dropPrefix? front cs = some rest ↔ cs = front ++ rest := by
  -- Component by component, as they are taken off.
  induction front generalizing cs with
  | nil => exact Option.some_inj
  | cons c front ih =>
      cases cs with
      | nil => exact iff_of_false (fun h => nomatch h) (fun h => nomatch h)
      | cons d cs =>
          rw [dropPrefix?, List.cons_append, List.cons.injEq]
          split_ifs with same
          · rw [ih, and_iff_right same.symm]
          · exact iff_of_false (fun h => nomatch h) fun h => same h.1.symm

theorem dropPrefix?_eq_none_iff {front cs : List Component} :
    dropPrefix? front cs = none ↔ ¬ front <+: cs := by
  rw [Option.eq_none_iff_forall_ne_some]
  constructor
  · rintro h ⟨rest, hrest⟩
    exact h rest (dropPrefix?_eq_some_iff.mpr hrest.symm)
  · intro h rest hrest
    exact h ⟨rest, (dropPrefix?_eq_some_iff.mp hrest).symm⟩

/-- What a piece stands for has the bytes of the piece and is no root. -/
theorem of_ofPiece {piece : Bytes} {c : Component} (h : Component.ofPiece piece = some c) :
    c.bytes = piece ∧ c ≠ .root := by
  rw [Component.ofPiece] at h
  split_ifs at h with empty up
  · cases h
    refine ⟨up.symm, fun hc => ?_⟩
    cases hc
  · cases h
    refine ⟨rfl, fun hc => ?_⟩
    cases hc

/-- A piece that stands for nothing makes no step. -/
theorem steps_of_ofPiece_eq_none {piece : Bytes} (h : Component.ofPiece piece = none) :
    Path.steps (Utf8.decodeLossy piece).toList = [] := by
  rw [Component.ofPiece] at h
  split_ifs at h with empty
  -- The empty piece and the single dot, neither of which counts as a step.
  rcases empty with rfl | rfl <;> decide

variable {p base : RawPath}

/-- The components of pieces become the steps of the pieces. -/
theorem flatMap_steps_pieces (pieces : List Bytes) :
    (pieces.filterMap Component.ofPiece).flatMap Component.steps =
      pieces.flatMap fun piece => Path.steps (Utf8.decodeLossy piece).toList := by
  induction pieces with
  | nil => rfl
  | cons piece rest ih =>
      rw [List.flatMap_cons, ← ih]
      cases hc : Component.ofPiece piece with
      | none => rw [List.filterMap_cons_none hc, steps_of_ofPiece_eq_none hc, List.nil_append]
      | some c => rw [List.filterMap_cons_some hc, List.flatMap_cons, Component.steps, (of_ofPiece hc).1]

/-- Pieces with slashes between them have the steps of the pieces. -/
theorem steps_intercalate (pieces : List Bytes) :
    Path.steps (Utf8.decodeLossy ([slash].intercalate pieces)).toList =
      pieces.flatMap fun piece => Path.steps (Utf8.decodeLossy piece).toList := by
  rw [Utf8.decodeLossy_intercalate]
  induction pieces with
  | nil => decide
  | cons piece rest ih =>
      -- The last piece has no slash behind it.
      by_cases hne : rest = []
      · rw [hne, List.map_singleton, List.intercalate_singleton, List.flatMap_singleton]
      · rw [List.map_cons, List.intercalate_cons_of_ne_nil (mt List.map_eq_nil_iff.mp hne), List.append_assoc,
          List.singleton_append, Path.steps_append, ih, List.flatMap_cons]

/-- A raw path becomes a path with the steps of its components. -/
theorem segments_ofBytes (p : RawPath) : (Path.ofBytes p.bytes).segments = p.components.flatMap Component.steps := by
  have whole : [slash].intercalate p.pieces = p.bytes := List.intercalate_splitOn slash
  -- What is put in front of the pieces, the root or a single dot, makes no step.
  have front : ∀ cs : List Component, (∀ c ∈ cs, c.steps = []) →
      (cs ++ p.pieces.filterMap Component.ofPiece).flatMap Component.steps =
        (p.pieces.filterMap Component.ofPiece).flatMap Component.steps := by
    intro cs hcs
    rw [List.flatMap_append, List.flatMap_eq_nil_iff.mpr hcs, List.nil_append]
  rw [Path.ofBytes, Path.ofString, Path.segments_ofChars, ← whole, steps_intercalate, ← flatMap_steps_pieces,
    components, front]
  split_ifs
  · decide
  · decide
  · exact fun _ hc => absurd hc List.not_mem_nil

/-- Without backslashes a raw path becomes an absolute path if it is one. -/
theorem isAbsolute_ofBytes {bs : Bytes} (free : (0x5C : UInt8) ∉ bs) :
    (Path.ofBytes bs).isAbsolute = isAbsolute ⟨bs⟩ := by
  have noBackslash : '\\' ∉ (Utf8.decodeLossy bs).toList :=
    mt (Utf8.mem_decodeLossy (b := 0x5C) (by decide) (by decide)).mp free
  rw [Path.ofBytes, Path.ofString, Path.isAbsolute_ofChars, Path.isRooted, Path.map_separator_eq_self noBackslash]
  exact decide_eq_decide.mpr (Utf8.head?_decodeLossy (b := slash) (by decide) (by decide))

/-! ### Components -/

/-- The root is a component at the front only. -/
theorem root_not_mem_tail (p : RawPath) : .root ∉ p.components.tail := by
  have body : .root ∉ p.pieces.filterMap Component.ofPiece := fun hm => by
    rcases List.mem_filterMap.mp hm with ⟨piece, _, hc⟩
    exact (of_ofPiece hc).2 rfl
  -- A piece is never the root, so the root is only what is put in front.
  rw [components]
  split_ifs
  · exact body
  · exact body
  · exact fun hm => body (List.mem_of_mem_tail hm)

/-- A raw path is absolute if its first component is the root. -/
theorem isAbsolute_iff_head? : p.isAbsolute = true ↔ p.components.head? = some .root := by
  rw [components]
  cases p.isAbsolute with
  | true => exact iff_of_true rfl rfl
  | false =>
      refine iff_of_false Bool.false_ne_true fun h => ?_
      rw [if_neg Bool.false_ne_true] at h
      split_ifs at h
      · cases h
      · rcases List.mem_filterMap.mp (List.mem_of_head? h) with ⟨piece, _, hc⟩
        exact (of_ofPiece hc).2 rfl

/-- What stands before the first slash. -/
theorem exists_first_piece (p : RawPath) : ∃ first rest, p.pieces = first :: rest ∧
    (p.bytes = first ∨ ∃ more, p.bytes = first ++ slash :: more) := by
  have whole : [slash].intercalate p.pieces = p.bytes := List.intercalate_splitOn slash
  cases hp : p.pieces with
  | nil => exact absurd hp (List.splitOn_ne_nil _ _)
  | cons first rest =>
      refine ⟨first, rest, rfl, ?_⟩
      rw [hp] at whole
      by_cases hne : rest = []
      · rw [hne, List.intercalate_singleton] at whole
        exact Or.inl whole.symm
      · rw [List.intercalate_cons_of_ne_nil hne, List.append_assoc, List.singleton_append] at whole
        exact Or.inr ⟨_, whole.symm⟩

/-- Only the empty path has no components. -/
theorem bytes_eq_nil_of_components (h : p.components = []) : p.bytes = [] := by
  rcases exists_first_piece p with ⟨first, rest, hp, hbytes⟩
  rw [components, List.append_eq_nil_iff] at h
  have front := h.1
  have body := h.2
  split_ifs at front with absolute current
  rw [hp, List.head?_cons, Option.some.injEq] at current
  rw [hp, List.filterMap_eq_nil_iff] at body
  have none := body first List.mem_cons_self
  rw [Component.ofPiece] at none
  split_ifs at none with empty
  -- A single dot at the front would be a component, so the first piece is empty. Then so is the path, or it starts
  -- with a slash.
  rcases empty with rfl | rfl
  · rcases hbytes with hbytes | ⟨more, hbytes⟩
    · exact hbytes
    · exact absurd (decide_eq_true (congrArg List.head? hbytes)) absolute
  · exact absurd rfl current

/-- A component that is not the root has the bytes of something between two slashes. -/
theorem bytes_of_mem_components {c : Component} (h : c ∈ p.components) (hc : c ≠ .root) :
    c.bytes ≠ [] ∧ slash ∉ c.bytes ∧ ∀ b ∈ c.bytes, b ∈ p.bytes := by
  have whole : [slash].intercalate p.pieces = p.bytes := List.intercalate_splitOn slash
  have piece : ∀ piece ∈ p.pieces, slash ∉ piece ∧ ∀ b ∈ piece, b ∈ p.bytes :=
    fun piece hm => Path.not_mem_of_mem_splitOn hm
  rw [components, List.mem_append] at h
  -- The component at the front, or one of the pieces.
  rcases h with h | h
  · split_ifs at h with absolute current
    · exact absurd (List.mem_singleton.mp h) hc
    · rw [List.mem_singleton.mp h]
      exact ⟨List.cons_ne_nil _ _, by decide, (piece _ (List.mem_of_head? current)).2⟩
    · exact absurd h List.not_mem_nil
  · rcases List.mem_filterMap.mp h with ⟨bytes, hm, hof⟩
    rw [(of_ofPiece hof).1]
    refine ⟨?_, piece _ hm⟩
    rintro rfl
    cases hof

theorem bytes_ofComponents {cs : List Component} (h : cs ≠ [.root]) :
    (ofComponents cs).bytes = [slash].intercalate (cs.map Component.bytes) := by
  rw [ofComponents]
  exact h

/-- Components that are spelled keep their steps. -/
theorem segments_ofComponents (cs : List Component) :
    (Path.ofBytes (ofComponents cs).bytes).segments = cs.flatMap Component.steps := by
  by_cases top : cs = [.root]
  · rw [top]
    decide
  · rw [Path.ofBytes, Path.ofString, Path.segments_ofChars, bytes_ofComponents top, steps_intercalate,
      List.flatMap_map]
    rfl

/-- Components that are spelled keep the root at the front, and get none where there was none. -/
theorem isAbsolute_ofComponents {cs : List Component}
    (plain : ∀ c ∈ cs, c ≠ .root → c.bytes ≠ [] ∧ slash ∉ c.bytes) :
    (ofComponents cs).isAbsolute = true ↔ cs.head? = some .root := by
  rw [isAbsolute, decide_eq_true_iff]
  cases cs with
  | nil => exact iff_of_false (Option.some_ne_none _).symm (Option.some_ne_none _).symm
  | cons c rest =>
      rw [List.head?_cons, Option.some.injEq]
      by_cases hc : c = .root
      · -- The root has no bytes of its own, so a slash comes next, also where it stands alone.
        subst hc
        refine iff_of_true ?_ rfl
        cases rest with
        | nil => rfl
        | cons d rest => rfl
      · refine iff_of_false (fun h => ?_) hc
        have hbytes := plain c List.mem_cons_self hc
        rw [bytes_ofComponents fun he => hc (List.cons.inj he).1, List.map_cons] at h
        cases hb : c.bytes with
        | nil => exact hbytes.1 hb
        | cons b more =>
            rw [hb, List.intercalate_cons_cons_left, List.head?_cons, Option.some.injEq] at h
            exact hbytes.2 (hb ▸ h ▸ List.mem_cons_self)

/-! ### Taking a Root Off -/

theorem relativeTo_eq_ok_iff {r : Path} : p.relativeTo base = .ok r ↔
    ∃ rest, p.components = base.components ++ rest ∧ r = Path.ofBytes (ofComponents rest).bytes := by
  rw [relativeTo, relativeTo?]
  cases hdrop : dropPrefix? base.components p.components with
  | none =>
      refine iff_of_false (fun h => nomatch h) ?_
      rintro ⟨rest, hrest, _⟩
      exact dropPrefix?_eq_none_iff.mp hdrop ⟨rest, hrest.symm⟩
  | some rest =>
      have hrest := dropPrefix?_eq_some_iff.mp hdrop
      constructor
      · intro h
        exact ⟨rest, hrest, (Except.ok.inj h).symm⟩
      · rintro ⟨other, hother, rfl⟩
        rw [List.append_cancel_left (hrest.symm.trans hother)]
        rfl

/-- A raw path that does not lie below the root is refused, with both. -/
theorem relativeTo_of_not_prefix (h : ¬ base.components <+: p.components) :
    p.relativeTo base = .error (.outsideRoot p base) := by
  rw [relativeTo, relativeTo?, dropPrefix?_eq_none_iff.mpr h]
  rfl

theorem exists_relativeTo_iff : (∃ r, p.relativeTo base = .ok r) ↔ base.components <+: p.components := by
  constructor
  · rintro ⟨r, hr⟩
    rcases relativeTo_eq_ok_iff.mp hr with ⟨rest, hrest, _⟩
    exact ⟨rest, hrest.symm⟩
  · rintro ⟨rest, hrest⟩
    exact ⟨_, relativeTo_eq_ok_iff.mpr ⟨rest, hrest.symm, rfl⟩⟩

section

variable {rest : List Component} (hrest : p.components = base.components ++ rest)

include hrest

/-- The root is left over only where nothing was taken off. -/
theorem root_not_mem_rest (hne : base.components ≠ []) : .root ∉ rest := by
  intro hm
  have htail := root_not_mem_tail p
  rw [hrest, List.tail_append_of_ne_nil hne] at htail
  exact htail (List.mem_append_right _ hm)

theorem backslash_not_mem_rest (free : (0x5C : UInt8) ∉ p.bytes) : (0x5C : UInt8) ∉ (ofComponents rest).bytes := by
  by_cases top : rest = [.root]
  · rw [top]
    decide
  · intro hm
    rw [bytes_ofComponents top] at hm
    rcases Path.mem_intercalate (by decide) hm with ⟨bytes, hbytes, hb⟩
    rcases List.mem_map.mp hbytes with ⟨c, hc, rfl⟩
    have notRoot : c ≠ .root := fun he => by
      rw [he] at hb
      cases hb
    exact free ((bytes_of_mem_components (hrest ▸ List.mem_append_right _ hc) notRoot).2.2 _ hb)

/-- What is left over is absolute if it starts with the root. -/
theorem isAbsolute_rest (free : (0x5C : UInt8) ∉ p.bytes) :
    (Path.ofBytes (ofComponents rest).bytes).isAbsolute = true ↔ rest.head? = some .root := by
  rw [isAbsolute_ofBytes (backslash_not_mem_rest hrest free)]
  refine isAbsolute_ofComponents fun c hc hne => ?_
  have hbytes := bytes_of_mem_components (hrest ▸ List.mem_append_right _ hc) hne
  exact ⟨hbytes.1, hbytes.2.1⟩

/-- The front of a path comes from the root that is taken off, or from what is left over if that is empty. -/
theorem isAbsolute_join_rest (free : (0x5C : UInt8) ∉ p.bytes) (freeBase : (0x5C : UInt8) ∉ base.bytes) :
    ((Path.ofBytes base.bytes).join (Path.ofBytes (ofComponents rest).bytes).text).isAbsolute =
      (Path.ofBytes p.bytes).isAbsolute := by
  have leftover := isAbsolute_rest hrest free
  have whole : (Path.ofBytes p.bytes).isAbsolute = true ↔ (base.components ++ rest).head? = some .root := by
    rw [isAbsolute_ofBytes free, ← hrest]
    exact isAbsolute_iff_head?
  have front : (Path.ofBytes base.bytes).isAbsolute = true ↔ base.components.head? = some .root := by
    rw [isAbsolute_ofBytes freeBase]
    exact isAbsolute_iff_head?
  rw [Path.isAbsolute_join, Bool.eq_iff_iff, whole]
  -- Nothing was taken off exactly where the root has no components, and then it is the empty path.
  by_cases hne : base.components = []
  · have hroot : (Path.ofBytes base.bytes).isRoot = true := by
      rw [bytes_eq_nil_of_components hne]
      decide
    rw [if_pos hroot, hne, List.nil_append, ← leftover, Path.isAbsolute_eq]
    rfl
  · rw [List.head?_append_of_ne_nil _ hne, ← front]
    split_ifs with hroot
    · -- A single dot was taken off, and behind it there is no root.
      have relative : (Path.ofBytes base.bytes).isAbsolute = false := by
        rw [Path.isAbsolute, Path.isRoot_iff.mp hroot]
        rfl
      have noRoot := mt leftover.mp fun h => root_not_mem_rest hrest hne (List.mem_of_head? h)
      rw [relative]
      refine iff_of_false (fun h => noRoot ?_) Bool.false_ne_true
      rwa [Path.isAbsolute_eq]
    · exact Iff.rfl

end

/-- What is left of a raw path leads from the root to it. -/
theorem join_of_relativeTo {r : Path} (free : (0x5C : UInt8) ∉ p.bytes) (freeBase : (0x5C : UInt8) ∉ base.bytes)
    (h : p.relativeTo base = .ok r) : (Path.ofBytes base.bytes).join r.text = Path.ofBytes p.bytes := by
  rcases relativeTo_eq_ok_iff.mp h with ⟨rest, hrest, rfl⟩
  apply Path.eq_of_segments (isAbsolute_join_rest hrest free freeBase)
  have hsteps := Path.segments_join (Path.ofBytes base.bytes) (Path.ofBytes (ofComponents rest).bytes).text
  rw [hsteps, segments_ofBytes, segments_ofBytes, hrest, List.flatMap_append, ← segments_ofComponents rest]
  rfl

/-- Names that are joined to a root are what leads to them from there. -/
theorem relativeTo_join_names (base : RawPath) {names : List Bytes}
    (plain : ∀ name ∈ names, name ≠ [] ∧ name ≠ [dot] ∧ slash ∉ name) :
    (base.join ⟨[slash].intercalate names⟩).relativeTo base = .ok (Scanner.pathOf names) := by
  -- Every name is a piece that counts, so no name is dropped and each keeps its bytes.
  have spelled : (names.filterMap Component.ofPiece).map Component.bytes = names := by
    induction names with
    | nil => rfl
    | cons name names ih =>
        have hname := plain name List.mem_cons_self
        have hof : ∃ c, Component.ofPiece name = some c := by
          rw [Component.ofPiece, if_neg (not_or.mpr ⟨hname.1, hname.2.1⟩)]
          split_ifs
          · exact ⟨_, rfl⟩
          · exact ⟨_, rfl⟩
        rcases hof with ⟨c, hc⟩
        rw [List.filterMap_cons_some hc, List.map_cons, (of_ofPiece hc).1,
          ih fun other hm => plain other (List.mem_cons_of_mem _ hm)]
  have noRoot : names.filterMap Component.ofPiece ≠ [.root] := fun he => by
    have hm : .root ∈ names.filterMap Component.ofPiece := he ▸ List.mem_cons_self
    rcases List.mem_filterMap.mp hm with ⟨name, _, hc⟩
    exact (of_ofPiece hc).2 rfl
  refine relativeTo_eq_ok_iff.mpr ⟨_, components_join_names base plain, ?_⟩
  rw [bytes_ofComponents noRoot, spelled, Scanner.pathOf]

/-- A relative path that is joined to a root is what leads to it from there. -/
theorem relativeTo_join_toRaw (base : RawPath) {key : Path} (h : key.isAbsolute = false) :
    (base.join key.toRaw).relativeTo base = .ok key := by
  have hjoin := relativeTo_join_names base fun _ hm => Path.bytes_of_mem_names (p := key) hm
  rw [Scanner.pathOf, ← Path.toBytes_of_relative h, Path.toBytes, Path.ofBytes, Utf8.decodeLossy_encode,
    Path.ofString_text] at hjoin
  exact hjoin

/-- A root is taken off a raw path exactly if its components are a front of those of the path, and what is left
    leads back from the root to the path. The other way round, what a relative path is joined to is taken off again.
    So a scan calls a file by the path that leads to it from the root, and finds it where that path leads. -/
theorem relativeTo_inverse (free : (0x5C : UInt8) ∉ p.bytes) (freeBase : (0x5C : UInt8) ∉ base.bytes) :
    ((∃ r, p.relativeTo base = .ok r) ↔ base.components <+: p.components) ∧
    (¬ base.components <+: p.components → p.relativeTo base = .error (.outsideRoot p base)) ∧
    (∀ r, p.relativeTo base = .ok r → (Path.ofBytes base.bytes).join r.text = Path.ofBytes p.bytes) ∧
    (∀ key : Path, key.isAbsolute = false → (base.join key.toRaw).relativeTo base = .ok key) ∧
    ∀ (c : Scanner) (below : List Bytes), c.root = base →
      (∀ name ∈ below, name ≠ [] ∧ name ≠ [dot] ∧ slash ∉ name) →
      (c.fileOf below).relativeTo base = .ok (Scanner.pathOf below) ∧
      ((∀ name ∈ below, Path.IsName name) → base.join (Scanner.pathOf below).toRaw = c.fileOf below) := by
  refine ⟨exists_relativeTo_iff, relativeTo_of_not_prefix, fun r => join_of_relativeTo free freeBase,
    fun key => relativeTo_join_toRaw base, ?_⟩
  rintro c below rfl plain
  refine ⟨relativeTo_join_names c.root plain, fun named => ?_⟩
  have hbytes := Path.bytes_toRaw named
  rw [Scanner.fileOf, ← hbytes]

namespace Sample

/-- A path with everything in it that counts for nothing, a step up, and a name that is no text. -/
def wild : RawPath :=
  ⟨Utf8.encode "./a//b/../" ++ 0xFF :: Utf8.encode "/./c"⟩

/-- A root with a dot in front and a dot behind. -/
def dotted : RawPath :=
  .ofString "./a/."

end Sample

open RawPath.Sample in
/-- What is no text becomes the same on both ways, and a step up is kept. -/
theorem relativeTo_inverse_of_wild :
    (0x5C ∉ wild.bytes ∧ 0x5C ∉ dotted.bytes) ∧
    wild.relativeTo dotted = .ok (Path.ofString "b/../\ufffd/c") ∧
    (Path.ofBytes dotted.bytes).join (Path.ofString "b/../\ufffd/c").text = Path.ofBytes wild.bytes := by
  have free : 0x5C ∉ wild.bytes := by decide
  have freeBase : 0x5C ∉ dotted.bytes := by decide
  have below : wild.relativeTo dotted = .ok (Path.ofString "b/../\ufffd/c") := by decide
  exact ⟨⟨free, freeBase⟩, below, (relativeTo_inverse free freeBase).2.2.1 _ below⟩

end RawPath

end ThreeWay
