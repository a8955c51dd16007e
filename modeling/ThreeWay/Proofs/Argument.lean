import ThreeWay.CommandLine.Execute
import ThreeWay.Proofs.Path.Inside
import ThreeWay.Proofs.Path.Parent
import ThreeWay.Proofs.Run

/-!
# Where a Path Argument Leads

A path that is given as an argument has to be relative to the root of the working tree. The text is checked
as it was given, and the path that it names is made afterwards, so the check does not see what the path
becomes.

Two kinds of texts pass it and lead out of the working tree. A text that starts with a backslash is not
absolute, but its path is, and an absolute path takes the place of the root when it is joined to it. And two
dots are kept in a path, so a text of which some front goes up more often than down leads above the root.
Every other text leads to a location inside.

What the local side of a path is depends on nothing but what the disk answers about that location.

That the root is not the top of the disk is assumed, since every location is inside of that one and nothing could
lead out.

## Theorems

* `accepted_iff`: A text is accepted unless it starts with a slash.
* `isAbsolute_of_accepted`: A text that is accepted may still name an absolute path, if it starts with a
  backslash.
* `location_of_argument`: Where a text leads that is accepted as a path.
* `argument_stays_inside`: Steps up are no harm as long as they lead not above the root.
* `backslash_leads_out`: The backslash alone is accepted, and what is read for it is the top of the disk.
-/

namespace ThreeWay

open Host ThreeWay.Path

variable {s : Synchronizer} {text : String}

/-- A text that starts with a slash is a raw path that does. -/
theorem isAbsolute_of_head {text : String} (h : text.toList.head? = some '/') :
    RawPath.isAbsolute ⟨Utf8.encode text⟩ = true := by
  cases htext : text.toList with
  | nil =>
      rw [htext] at h
      cases h
  | cons c rest =>
      rw [htext, List.head?_cons, Option.some.injEq] at h
      rw [RawPath.isAbsolute, Utf8.encode, htext, h]
      rfl

/-- A text is accepted unless it starts with a slash. -/
theorem accepted_iff : statusOf s text ≠ .error (.absolutePath text) ↔
    (RawPath.ofString text).isAbsolute = false := by
  rw [statusOf]
  -- The test is the first thing that is done, and only then is the path made.
  cases (RawPath.ofString text).isAbsolute with
  | true => exact ⟨fun h => absurd rfl h, fun h => absurd h.symm Bool.false_ne_true⟩
  | false =>
      refine ⟨fun _ => rfl, fun _ h => ?_⟩
      rw [if_neg Bool.false_ne_true] at h
      -- What fails later fails for another reason.
      cases hs : s.status (Path.ofString text) with
      | ok report =>
          rw [hs] at h
          cases h
      | error e =>
          rw [hs] at h
          cases h

/-- A text that is accepted names a relative path, unless it starts with a backslash. -/
theorem isAbsolute_of_accepted (accepted : statusOf s text ≠ .error (.absolutePath text)) :
    (Path.ofString text).isAbsolute = true ↔ text.toList.head? = some '\\' := by
  have hs : text.toList.head? ≠ some '/' := fun h =>
    Bool.false_ne_true ((accepted_iff.mp accepted).symm.trans (isAbsolute_of_head h))
  rw [Path.ofString, isAbsolute_ofChars, isRooted, List.head?_map, decide_eq_true_iff]
  cases hc : text.toList.head? with
  | none => exact iff_of_false (fun h => by cases h) (fun h => by cases h)
  | some c =>
      rw [hc, ne_eq, Option.some.injEq] at hs
      rw [Option.map_some, Option.some.injEq, Option.some.injEq, separator]
      -- A separator of a text is a slash or a backslash, and the slash was refused.
      by_cases hb : c = '\\'
      · rw [if_pos hb]
        exact ⟨fun _ => hb, fun _ => rfl⟩
      · rw [if_neg hb]
        exact ⟨fun h => absurd h hs, fun h => absurd h hb⟩

/-- What is read for a text that is accepted as a path. The local side depends on nothing but what the disk
    answers about one location. For a text that starts with no backslash, this location is inside the
    working tree exactly if the steps of the text do not climb. For a text that starts with a backslash,
    it is the path itself, from the top of the disk and wherever the root is. -/
theorem location_of_argument (s : Synchronizer) (text : String)
    (accepted : statusOf s text ≠ .error (.absolutePath text))
    (below : RawPath.location s.checkout.root.components ≠ []) :
    (∀ (disk : Disk) (folder : Bool),
      disk.stat (s.checkout.fileOf (.ofString text)) =
        s.checkout.disk.stat (s.checkout.fileOf (.ofString text)) →
      disk.blobId (s.checkout.fileOf (.ofString text)) =
        s.checkout.disk.blobId (s.checkout.fileOf (.ofString text)) →
      { s.checkout with disk }.localVariant (.ofString text) folder =
        s.checkout.localVariant (.ofString text) folder) ∧
    (text.toList.head? ≠ some '\\' →
      (RawPath.Inside s.checkout.root (s.checkout.fileOf (.ofString text)) ↔
        ¬ Climbs (steps text.toList))) ∧
    (text.toList.head? = some '\\' →
      s.checkout.fileOf (.ofString text) = (Path.ofString text).toRaw ∧
        (Path.ofString text).toRaw.isAbsolute = true) := by
  have absolute := isAbsolute_of_accepted accepted
  refine ⟨fun disk folder hstat hid => ?_, fun relative => ?_, fun backslash => ?_⟩
  · have same : ({ s.checkout with disk } : Checkout).fileOf (.ofString text) =
        s.checkout.fileOf (.ofString text) := rfl
    simp only [Checkout.localVariant, same, hstat, hid]
  · rw [← segments_ofChars]
    exact s.checkout.inside_fileOf_iff (Bool.eq_false_iff.mpr (mt absolute.mp relative)) below
  · have head : (Path.ofString text).text.toList.head? = some '/' :=
      of_decide_eq_true (absolute.mpr backslash)
    have rooted : (Path.ofString text).toRaw.isAbsolute = true := isAbsolute_of_head head
    -- A path with a slash in front is not the empty one, which alone stands for the root.
    have notRoot : ¬ (Path.ofString text).isRoot = true := by
      intro hroot
      rw [of_decide_eq_true hroot] at head
      cases head
    refine ⟨?_, rooted⟩
    rw [Checkout.fileOf, if_neg notRoot, RawPath.join, if_pos rooted]

namespace Host.Sample

/-- An empty working tree before the first commit. Both revisions are the head. -/
def bare : Synchronizer where
  checkout := {
    disk := ⟨[Utf8.encode "w"], .nil⟩
    root := .ofString "/w"
    repository := Repository.empty "main"
    settings := { Settings.default with target := some Repository.headName } }
  signal := none

/-- The top of the disk is a folder. -/
theorem stat_top : bare.checkout.disk.stat ⟨[RawPath.slash]⟩ =
    .ok (.folder () (.folder (Utf8.encode "w") () .nil .nil)) := by
  have pieces : RawPath.pieces ⟨[RawPath.slash]⟩ = [[], []] := by decide
  rw [Disk.stat, Disk.resolve, if_neg (by decide), if_neg (by decide), if_neg (by decide), pieces,
    Disk.follow_skip (Or.inl rfl), Disk.follow_skip (Or.inl rfl), Disk.follow_nil]
  rfl

end Host.Sample

open Host.Sample in
/-- Steps up are no harm as long as they lead not above the root. -/
theorem argument_stays_inside :
    (statusOf bare "a\\..\\b" ≠ .error (.absolutePath "a\\..\\b") ∧
      RawPath.location bare.checkout.root.components ≠ []) ∧
    RawPath.Inside bare.checkout.root (bare.checkout.fileOf (.ofString "a\\..\\b")) := by
  have accepted : statusOf bare "a\\..\\b" ≠ .error (.absolutePath "a\\..\\b") :=
    accepted_iff.mpr (by decide)
  have below : RawPath.location bare.checkout.root.components ≠ [] := by decide
  refine ⟨⟨accepted, below⟩, ?_⟩
  exact ((location_of_argument bare _ accepted below).2.1 (by decide)).mpr (by decide)

open Host.Sample in
/-- A lone backslash is accepted as a path, its local side is the folder at the top of the disk, and that is
    not inside the working tree. -/
theorem backslash_leads_out :
    statusOf bare "\\" ≠ .error (.absolutePath "\\") ∧
    bare.triple (.ofString "\\") =
      .ok ⟨some (.ofFolder (.at (.ofString "\\") .workingTree)), none, none⟩ ∧
    ¬ RawPath.Inside bare.checkout.root (bare.checkout.fileOf (.ofString "\\")) := by
  refine ⟨accepted_iff.mpr (by decide), ?_, fun inside => ?_⟩
  -- Nothing was committed, so only the local side can be there.
  · have hnone : ∀ path, bare.checkout.namedVariant path Repository.headName = .ok none :=
      fun path => rfl
    have hloc : bare.checkout.fileOf (.ofString "\\") = ⟨[RawPath.slash]⟩ := by decide
    have hlocal : bare.checkout.localVariant (.ofString "\\") false =
        .ok (some (.ofFolder (.at (.ofString "\\") .workingTree))) := by
      simp only [Checkout.localVariant, hloc, stat_top]
    have hbase : bare.checkout.variant (.ofString "\\") bare.settings.sourceRevision = .ok none := hnone _
    have hremote : bare.checkout.variant (.ofString "\\") (.named Repository.headName) = .ok none :=
      hnone _
    have htarget : bare.target = .ok (.named Repository.headName) := rfl
    have hroot : (Path.ofString "\\").isRoot = false := by decide
    simp only [Synchronizer.triple, hbase, htarget, hremote, Run.ok_bind, hroot, Option.any,
      Bool.or_false, hlocal]
    rfl
  · exact absurd inside.below (by decide)

end ThreeWay
