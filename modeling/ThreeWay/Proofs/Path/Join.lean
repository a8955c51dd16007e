import ThreeWay.Proofs.Disk
import ThreeWay.Proofs.Path.Below
import ThreeWay.Repository.History

/-!
# Members of a Folder by Path

A listing names its members by joining their names to the path of the folder, and reads the last name of
a path back. Both go through the text of the path. For ordinary names they do what they should: joining
adds one name to the chain, and the last name of a chain is its last name.

A path is looked up in a commit by its chain of names. That chain is refused where the path is not one
that a commit can record, so a chain of ordinary names comes from an ordinary path.

The raw path of a file is built from the root name by name while a disk is walked, and at once where a path is
looked up. `join_toRaw` says that it is the same raw path.

## Main definitions

* `IsAddress`: A path that can be looked up.

## Theorems

* `chars_pathOf_append`: The text of a longer chain continues that of a shorter one.
* `splitLast_append`: A text is split at its last slash.
* `join_pathOf`: Joining adds a name.
* `fileName_pathOf`, `parent?_pathOf`: The last segment is the last name, and the parent lacks it.
* `join_join`: Joining twice is joining with a slash between the two.
* `join_toRaw`: A raw path is joined one name at a time.
* `treeNames_pathOf`: A chain of names is looked up as it is.
* `isOrdinary_of_treeNames`: Only ordinary paths are looked up by ordinary names.
-/

namespace ThreeWay.Path

open Scanner

theorem ofChars_chars (p : Path) : ofChars p.chars = p := by
  apply ext_chars
  rw [ofChars, chars, String.toList_ofList]
  exact p.normal

theorem IsName.plain {s : String} (h : IsName (Utf8.encode s)) : IsPlain s.toList := by
  rcases h with ⟨t, ht, plain, _⟩
  rw [Utf8.encode_injective ht] at plain
  exact plain

theorem isRoot_pathOf {names : List Bytes} (h : ∀ name ∈ names, IsName name) (hne : names ≠ []) :
    (pathOf names).isRoot = false := by
  rw [Bool.eq_false_iff]
  intro hroot
  have hnames := names_pathOf h
  rw [Path.names, segments, isRoot_iff.mp hroot] at hnames
  exact hne hnames.symm

theorem chars_pathOf_singleton {s : String} (hs : IsName (Utf8.encode s)) :
    (pathOf [Utf8.encode s]).chars = s.toList := by
  have hc := @chars_pathOf [s.toList] fun piece hm => List.mem_singleton.mp hm ▸ hs.plain
  rw [List.map_singleton, String.ofList_toList, List.intercalate_singleton] at hc
  exact hc

/-- The text of a longer chain continues that of a shorter one. -/
theorem chars_pathOf_append {as bs : List Bytes} (ha : ∀ name ∈ as, IsName name)
    (hb : ∀ name ∈ bs, IsName name) (hane : as ≠ []) (hbne : bs ≠ []) :
    (pathOf (as ++ bs)).chars = (pathOf as).chars ++ '/' :: (pathOf bs).chars := by
  rcases exists_pieces ha with ⟨ps, rfl, hps⟩
  rcases exists_pieces hb with ⟨qs, rfl, hqs⟩
  have plainL : ∀ piece ∈ ps, IsPlain piece := fun piece hm => (hps piece hm).1
  have plainR : ∀ piece ∈ qs, IsPlain piece := fun piece hm => (hqs piece hm).1
  rw [← List.map_append, chars_pathOf plainL, chars_pathOf plainR,
    chars_pathOf fun piece hm => (List.mem_append.mp hm).elim (plainL piece) (plainR piece)]
  exact intercalate_append (fun he => hane (he ▸ rfl)) fun he => hbne (he ▸ rfl)

theorem chars_pathOf_concat {names : List Bytes} (h : ∀ name ∈ names, IsName name) (hne : names ≠ [])
    {s : String} (hs : IsName (Utf8.encode s)) :
    (pathOf (names ++ [Utf8.encode s])).chars = (pathOf names).chars ++ '/' :: s.toList := by
  rw [chars_pathOf_append h (fun name hm => List.mem_singleton.mp hm ▸ hs) hne (List.cons_ne_nil _ _),
    chars_pathOf_singleton hs]

/-- Joining a name to a path adds it to the chain of names. -/
theorem join_pathOf {names : List Bytes} (h : ∀ name ∈ names, IsName name) {s : String}
    (hs : IsName (Utf8.encode s)) : (pathOf names).join s = pathOf (names ++ [Utf8.encode s]) := by
  -- The root has no text in front of which a slash could stand.
  cases names with
  | nil =>
      have hpath : pathOf [Utf8.encode s] = ofString s := by
        rw [pathOf, List.intercalate_singleton, ofBytes, Utf8.decodeLossy_encode]
      exact hpath.symm
  | cons name names =>
      have hne : name :: names ≠ [] := List.cons_ne_nil _ _
      have hroot : ¬ (pathOf (name :: names)).isRoot = true := by
        rw [isRoot_pathOf h hne]
        exact Bool.false_ne_true
      rw [join, if_neg hroot, ← chars_pathOf_concat h hne hs, ofChars_chars]

/-- Without a slash there is nothing to split off. -/
theorem splitLast_of_not_mem {cs : List Char} (h : '/' ∉ cs) : splitLast cs = (none, cs) := by
  induction cs with
  | nil => rfl
  | cons c cs ih =>
      rw [List.mem_cons, not_or] at h
      rw [splitLast, ih h.2]
      exact if_neg (Ne.symm h.1)

theorem splitLast_append {front last : List Char} (h : '/' ∉ last) :
    splitLast (front ++ '/' :: last) = (some front, last) := by
  induction front with
  | nil =>
      rw [List.nil_append, splitLast, splitLast_of_not_mem h]
      exact if_pos rfl
  | cons c front ih => rw [List.cons_append, splitLast, ih]

/-- The last segment of a path is its last name. -/
theorem fileName_pathOf {names : List Bytes} (h : ∀ name ∈ names, IsName name) {s : String}
    (hs : IsName (Utf8.encode s)) : (pathOf (names ++ [Utf8.encode s])).fileName = s := by
  have hslash : '/' ∉ s.toList := hs.plain.2.1
  have hroot : ¬ (pathOf (names ++ [Utf8.encode s])).isRoot = true := by
    rw [isRoot_pathOf (isName_concat h hs) (List.append_ne_nil_of_right_ne_nil _ (List.cons_ne_nil _ _))]
    exact Bool.false_ne_true
  have hlast : (splitLast (pathOf (names ++ [Utf8.encode s])).chars).2 = s.toList := by
    cases names with
    | nil => rw [List.nil_append, chars_pathOf_singleton hs, splitLast_of_not_mem hslash]
    | cons name names =>
        rw [chars_pathOf_concat h (List.cons_ne_nil _ _) hs, splitLast_append hslash]
  rw [fileName, fileName?, if_neg hroot, hlast, String.ofList_toList]
  rfl

/-- The folder that holds a path is reached without its last name. -/
theorem parent?_pathOf {names : List Bytes} (h : ∀ name ∈ names, IsName name) {s : String}
    (hs : IsName (Utf8.encode s)) :
    (pathOf (names ++ [Utf8.encode s])).parent? = some (pathOf names) := by
  have hslash : '/' ∉ s.toList := hs.plain.2.1
  have hroot := isRoot_pathOf (isName_concat h hs)
    (List.append_ne_nil_of_right_ne_nil _ (List.cons_ne_nil _ _))
  -- A lone slash has no names.
  have hlone : (pathOf (names ++ [Utf8.encode s])).text ≠ "/" := by
    intro he
    have hrel := (isOrdinary_pathOf (isName_concat h hs)).relative
    rw [isAbsolute, chars, he] at hrel
    exact absurd hrel (by decide)
  rw [parent?, if_neg (by simp [hroot, hlone])]
  cases names with
  | nil =>
      rw [List.nil_append, chars_pathOf_singleton hs, splitLast_of_not_mem hslash]
      rfl
  | cons name names =>
      have hne : name :: names ≠ [] := List.cons_ne_nil _ _
      rw [chars_pathOf_concat h hne hs, splitLast_append hslash]
      cases hfront : (pathOf (name :: names)).chars with
      | nil => exact absurd (isRoot_iff.mpr hfront) (by rw [isRoot_pathOf h hne]; decide)
      | cons c cs => simp only [← hfront, ofChars_chars]

theorem bytes_toRaw {names : List Bytes} (h : ∀ name ∈ names, IsName name) :
    (pathOf names).toRaw.bytes = [RawPath.slash].intercalate names := by
  rw [toRaw, toBytes_eq (isOrdinary_pathOf h), names_pathOf h]

theorem toRaw_singleton {name : Bytes} (h : IsName name) : (pathOf [name]).toRaw = ⟨name⟩ := by
  have hbytes := bytes_toRaw (List.forall_mem_singleton.mpr h)
  rw [List.intercalate_singleton] at hbytes
  cases hraw : (pathOf [name]).toRaw with
  | mk bytes =>
      rw [hraw] at hbytes
      rw [RawPath.mk.injEq]
      exact hbytes

/-- The raw path of a chain of names ends in its last name, so it is not empty and has no slash at its
    end. -/
theorem ends_toRaw {names : List Bytes} (h : ∀ name ∈ names, IsName name) (hne : names ≠ []) :
    (pathOf names).toRaw.bytes ≠ [] ∧ (pathOf names).toRaw.bytes.getLast? ≠ some RawPath.slash := by
  -- The last name is not empty and has no slash, whatever stands in front of it.
  rcases List.eq_nil_or_concat names with rfl | ⟨front, last, rfl⟩
  · exact absurd rfl hne
  · rw [List.concat_eq_append] at h ⊢
    have hlast := (h last (List.mem_append_right _ List.mem_cons_self)).bytes
    have hends : ∃ start, [RawPath.slash].intercalate (front ++ [last]) = start ++ last := by
      by_cases hfront : front = []
      · exact ⟨[], by rw [hfront, List.nil_append, List.intercalate_singleton, List.nil_append]⟩
      · refine ⟨[RawPath.slash].intercalate front ++ [RawPath.slash], ?_⟩
        rw [intercalate_append hfront (List.cons_ne_nil _ _), List.intercalate_singleton,
          List.append_assoc]
        rfl
    rcases hends with ⟨start, hstart⟩
    rw [bytes_toRaw h, hstart]
    refine ⟨List.append_ne_nil_of_right_ne_nil _ hlast.1, ?_⟩
    rw [List.getLast?_append, List.getLast?_eq_some_getLast hlast.1, Option.some_or]
    intro hslash
    exact hlast.2.2.2 (Option.some.inj hslash ▸ List.getLast_mem hlast.1)

/-- Joining twice is joining with a slash between the two. -/
theorem join_join (root : RawPath) {p q : RawPath} {last : Bytes} (hne : p.bytes ≠ [])
    (hends : p.bytes.getLast? ≠ some RawPath.slash) (hfront : p.bytes.head? ≠ some RawPath.slash)
    (hlast : last.head? ≠ some RawPath.slash) (hq : q.bytes = p.bytes ++ RawPath.slash :: last) :
    (root.join p).join ⟨last⟩ = root.join q := by
  rcases p with ⟨front⟩
  rcases q with ⟨both⟩
  simp only at hne hends hfront hq
  subst hq
  have relative : ¬ (RawPath.mk front).isAbsolute = true := by
    rw [RawPath.isAbsolute, decide_eq_true_iff]
    exact hfront
  have relativeLast : ¬ (RawPath.mk last).isAbsolute = true := by
    rw [RawPath.isAbsolute, decide_eq_true_iff]
    exact hlast
  have relativeBoth : ¬ (RawPath.mk (front ++ RawPath.slash :: last)).isAbsolute = true := by
    rw [RawPath.isAbsolute, decide_eq_true_iff, List.head?_append_of_ne_nil _ hne]
    exact hfront
  have between : ∀ start : Bytes, ¬ (start ++ front = [] ∨
      (start ++ front).getLast? = some RawPath.slash) := by
    intro start
    rw [not_or, List.getLast?_append, List.getLast?_eq_some_getLast hne, Option.some_or,
      ← List.getLast?_eq_some_getLast hne]
    exact ⟨List.append_ne_nil_of_right_ne_nil _ hne, hends⟩
  simp only [RawPath.join, if_neg relative, if_neg relativeLast, if_neg relativeBoth]
  -- A root that ends in a slash gets no other one, and neither does the empty one.
  by_cases hroot : root.bytes = [] ∨ root.bytes.getLast? = some RawPath.slash
  · rw [if_pos hroot, if_pos hroot, if_neg (between root.bytes), List.append_assoc]
  · have hb := between (root.bytes ++ [RawPath.slash])
    rw [List.append_assoc, List.singleton_append] at hb
    rw [if_neg hroot, if_neg hroot, if_neg hb, List.append_assoc]
    rfl

/-- The raw path of a chain of names is joined one name at a time. -/
theorem join_toRaw (root : RawPath) {names : List Bytes} (h : ∀ name ∈ names, IsName name)
    (hne : names ≠ []) {last : Bytes} (hl : IsName last) :
    (root.join (pathOf names).toRaw).join ⟨last⟩ = root.join (pathOf (names ++ [last])).toRaw := by
  have hends := ends_toRaw h hne
  have hlast : last.head? ≠ some RawPath.slash := fun hs => hl.bytes.2.2.2 (List.mem_of_head? hs)
  refine join_join root hends.1 hends.2 (head?_toRaw (isOrdinary_pathOf h)) hlast ?_
  rw [bytes_toRaw h, bytes_toRaw (isName_concat h hl), intercalate_append hne (List.cons_ne_nil _ _),
    List.intercalate_singleton]

/-- An ordinary path without zero bytes is looked up by its names. -/
theorem treeNames_of_isOrdinary {p : Path} (h : p.IsOrdinary) (hz : ∀ name ∈ p.names, 0 ∉ name) :
    p.treeNames = .ok p.names := by
  have hup : ¬ p.segments.head? = some ['.', '.'] := fun he => h.steps (List.mem_of_head? he)
  -- The zero byte of the text would be one of the bytes of a name.
  have hzero : '\x00' ∉ p.chars := by
    intro hm
    have hbyte : (0 : UInt8) ∈ p.toBytes := (Utf8.mem_encode (by decide) _).mpr hm
    rw [toBytes_eq h] at hbyte
    rcases mem_intercalate (by decide) hbyte with ⟨name, hn, h0⟩
    exact hz name hn h0
  rw [treeNames, h.relative, if_neg (by simp [hup, hzero]), names]

theorem treeNames_pathOf {names : List Bytes} (h : ∀ name ∈ names, IsName name ∧ 0 ∉ name) :
    (pathOf names).treeNames = .ok names := by
  have named : ∀ name ∈ names, IsName name := fun name hm => (h name hm).1
  have hnames := names_pathOf named
  rw [treeNames_of_isOrdinary (isOrdinary_pathOf named), hnames]
  rw [hnames]
  exact fun name hm => (h name hm).2

/-- A path that is looked up by ordinary names is ordinary. -/
theorem isOrdinary_of_treeNames {p : Path} {names : List Bytes} (h : p.treeNames = .ok names)
    (named : ∀ name ∈ names, IsName name) : p.IsOrdinary ∧ p.names = names := by
  unfold treeNames at h
  split_ifs at h with hbad
  have hnames : p.names = names := Except.ok.inj h
  refine ⟨⟨?_, fun hm => ?_⟩, hnames⟩
  · rw [Bool.or_eq_true, Bool.or_eq_true, not_or, not_or] at hbad
    exact Bool.eq_false_iff.mpr hbad.1.1
  -- Two dots would be one of the names, and they are no ordinary one.
  · have hmem : Utf8.encode (String.ofList ['.', '.']) ∈ names :=
      hnames ▸ List.mem_map.mpr ⟨_, hm, rfl⟩
    exact (named _ hmem).bytes.2.2.1 rfl

/-- A path that can be looked up wherever there are paths: an ordinary one below the root, without zero
    bytes. -/
structure IsAddress (p : Path) : Prop where
  ordinary : p.IsOrdinary
  belowRoot : p.names ≠ []
  zeroFree : ∀ name ∈ p.names, 0 ∉ name

theorem isAddress_pathOf {names : List Bytes} (h : ∀ name ∈ names, IsName name ∧ 0 ∉ name)
    (hne : names ≠ []) : (pathOf names).IsAddress := by
  have named : ∀ name ∈ names, IsName name := fun name hm => (h name hm).1
  refine ⟨isOrdinary_pathOf named, ?_, ?_⟩ <;> rw [names_pathOf named]
  · exact hne
  · exact fun name hm => (h name hm).2

theorem IsAddress.treeNames {p : Path} (h : p.IsAddress) : p.treeNames = .ok p.names :=
  treeNames_of_isOrdinary h.ordinary h.zeroFree

theorem IsAddress.isRoot {p : Path} (h : p.IsAddress) : p.isRoot = false := by
  have hroot := isRoot_pathOf (fun _ hm => isName_of_mem_names h.ordinary hm) h.belowRoot
  rw [pathOf_names h.ordinary] at hroot
  exact hroot

end ThreeWay.Path
