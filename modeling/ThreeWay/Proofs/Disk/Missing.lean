import ThreeWay.Proofs.Path.Join

/-!
# Paths at Which Nothing Stands

A path below a folder can fail to lead anywhere in two ways, and the system tells them apart. Where a name is
missing in a folder that is there, the answer is that nothing was found. Where the path cannot be followed in
the first place, it is refused: a file stands in the place of a folder, or a name or the path is too long.

Which of the two it is depends on the names in the order in which they come. A name that is missing ends the
search, and nobody looks at the names behind it.

A store takes the first answer for a file that is absent and the second one for a failure. So where a file
replaced a folder, everything that was below the folder cannot be asked about.

## Main definitions

* `Disk.Obstructed`: A chain of names that cannot be followed.
* `Disk.Refuses`: A path that cannot be followed.

## Theorems

* `follow_obstructed`, `follow_missing`: A chain of names that leads to nothing.
* `not_obstructed_of_lookup`: What stands somewhere can be reached.
* `stat_of_refused`, `stat_of_not_refused`: The answers of the system about such paths.
* `short_of_below`: A folder above a file does not lie too deep for the system.
* `not_refused_of_leaf`: A file of the working tree is not refused.
-/

namespace ThreeWay

namespace Disk

/-- A chain of names below a folder that cannot be followed: it asks a folder for a name that is too long, or
    goes on behind a file. -/
inductive Obstructed : Forest FileEntry Unit → List Bytes → Prop
  | longName (members : Forest FileEntry Unit) (name : Bytes) (rest : List Bytes)
      (long : nameLimit < name.length) : Obstructed members (name :: rest)
  | behindFile (members : Forest FileEntry Unit) (name : Bytes) (rest : List Bytes) (value : FileEntry)
      (found : members.find? name = some (.leaf value)) (left : rest ≠ []) :
      Obstructed members (name :: rest)
  | inside (members inner : Forest FileEntry Unit) (name : Bytes) (rest : List Bytes)
      (found : members.find? name = some (.folder () inner)) (blocked : Obstructed inner rest) :
      Obstructed members (name :: rest)

/-- A path below a folder that cannot be followed: it is too long as a whole, or its names are obstructed. -/
def Refuses (root : RawPath) (members : Forest FileEntry Unit) (p : Path) : Prop :=
  pathLimit ≤ (root.join p.toRaw).bytes.length ∨ Obstructed members p.names

section

variable {d : Disk} {members : Forest FileEntry Unit} {location names : List Bytes} (links : Nat)

theorem follow_long {name : Bytes} (step : IsStep name) (long : nameLimit < name.length)
    (here rest : List Bytes) (followLast : Bool) :
    d.follow links here (name :: rest) followLast = .error .nameTooLong := by
  rw [follow, if_neg (not_or.mpr ⟨step.notEmpty, step.notDot⟩), if_neg step.notUp, if_pos long]

theorem lookup_name (members : Forest FileEntry Unit) (name : Bytes) :
    (Forest.Entry.folder () members : DiskEntry).lookup [name] = members.find? name :=
  Option.bind_fun_some (members.find? name)

/-- What stands behind a name of a folder. -/
theorem look_name (stands : StandsAt d location (.folder () members)) (name : Bytes) :
    d.look (location ++ [name]) = members.find? name :=
  (stands.look [name]).trans (lookup_name members name)

/-- A chain of names that cannot be followed is refused. -/
theorem follow_obstructed (stands : StandsAt d location (.folder () members))
    (steps : ∀ name ∈ names, IsStep name) (h : Obstructed members names) :
    ∃ fault, fault ≠ .notFound ∧ d.follow links location names true = .error fault := by
  -- By the folders on the way to what blocks it. A name on the way may be too long itself, and then it is refused
  -- there.
  induction h generalizing location with
  | longName members name rest long =>
      exact ⟨_, SystemFault.noConfusion, follow_long links (steps name List.mem_cons_self) long _ _ _⟩
  | behindFile members name rest value found left =>
      have step := steps name List.mem_cons_self
      by_cases long : nameLimit < name.length
      · exact ⟨_, SystemFault.noConfusion, follow_long links step long _ _ _⟩
      · have regular := stands.regular [name] value
          ((lookup_name members name).trans found)
        refine ⟨.notADirectory, SystemFault.noConfusion, ?_⟩
        rw [follow_step step (Nat.not_lt.mp long), look_name stands, found]
        cases value with
        | link target => exact regular.elim
        | regular content executable => exact if_neg left
  | inside members inner name rest found blocked ih =>
      have step := steps name List.mem_cons_self
      by_cases long : nameLimit < name.length
      · exact ⟨_, SystemFault.noConfusion, follow_long links step long _ _ _⟩
      · have hbelow := stands.below ((lookup_name members name).trans found)
        rcases ih hbelow (fun n hm => steps n (List.mem_cons_of_mem _ hm)) with ⟨fault, hfault, hf⟩
        refine ⟨fault, hfault, ?_⟩
        rw [follow_folder step (Nat.not_lt.mp long) ((look_name stands name).trans found), hf]

/-- A chain of names that can be followed, and leads to nothing, ends where something is missing. -/
theorem follow_missing (stands : StandsAt d location (.folder () members))
    (steps : ∀ name ∈ names, IsStep name) (free : ¬ Obstructed members names)
    (missing : (Forest.Entry.folder () members : DiskEntry).lookup names = none) :
    d.follow links location names true = .error .notFound ∨
      ∃ there, d.follow links location names true = .ok (there, none) := by
  induction names generalizing location members with
  | nil => cases missing
  | cons name rest ih =>
      have step := steps name List.mem_cons_self
      have short : name.length ≤ nameLimit :=
        Nat.not_lt.mp fun long => free (.longName members name rest long)
      have hlookup := Forest.Entry.lookup_append (.folder () members : DiskEntry) [name] rest
      rw [List.singleton_append, missing, lookup_name] at hlookup
      -- The name is missing here and now, or what it stands for leads on or not.
      cases found : members.find? name with
      | none =>
          rw [follow_step step short, look_name stands, found]
          by_cases last : rest = []
          · exact Or.inr ⟨_, if_pos last⟩
          · exact Or.inl (if_neg last)
      | some entry =>
          rw [found] at hlookup
          cases entry with
          | leaf value =>
              -- Names behind a file would obstruct the way, and without names the file is what was found.
              have last : rest = [] := by
                by_contra left
                exact free (.behindFile members name rest value found left)
              rw [last] at hlookup
              cases hlookup
          | folder value inner =>
              have hbelow :=
                stands.below ((lookup_name members name).trans found)
              rw [follow_folder step short ((look_name stands name).trans found)]
              exact ih hbelow (fun n hm => steps n (List.mem_cons_of_mem _ hm))
                (fun blocked => free (.inside members inner name rest found blocked)) hlookup.symm

end

/-- What stands somewhere can be reached. -/
theorem not_obstructed_of_lookup {members : Forest FileEntry Unit}
    (short : members.AllNames fun name => name.length ≤ nameLimit) {names : List Bytes}
    {entry : DiskEntry} (h : members.lookup names = some entry) : ¬ Obstructed members names := by
  have hnames := (short.of_lookup h).1
  intro blocked
  -- Each kind of obstacle contradicts that the chain leads somewhere.
  induction blocked with
  | longName members name rest long =>
      exact absurd long (Nat.not_lt.mpr (hnames name List.mem_cons_self))
  | behindFile members name rest value found left =>
      rw [Forest.lookup, found, Option.bind_some] at h
      cases rest with
      | nil => exact left rfl
      | cons next rest => cases h
  | inside members inner name rest found blocked ih =>
      rw [Forest.lookup, found, Option.bind_some] at h
      cases rest with
      | nil => cases blocked
      | cons next rest =>
          exact ih (short.of_find? found).2 h fun n hm => hnames n (List.mem_cons_of_mem _ hm)

/-- A path is no longer than one with more behind the root. The root may end in a slash. -/
theorem length_join_le {root : RawPath} (hroot : root.bytes ≠ []) {rel more : RawPath}
    (hrel : rel.bytes.head? ≠ some RawPath.slash) (hmore : more.bytes.head? ≠ some RawPath.slash)
    (h : rel.bytes.length < more.bytes.length) :
    (root.join rel).bytes.length ≤ (root.join more).bytes.length := by
  -- A slash may or may not be put in between, so the lengths are known up to one.
  have lengths : ∀ rel : RawPath, rel.bytes.head? ≠ some RawPath.slash →
      root.bytes.length + rel.bytes.length ≤ (root.join rel).bytes.length ∧
        (root.join rel).bytes.length ≤ root.bytes.length + rel.bytes.length + 1 := by
    rintro ⟨rel⟩ hrel
    rcases bytes_join hroot hrel with hs | ⟨front, hf, hs⟩
    · rw [hs]
      simp only [List.length_append, List.length_cons]
      omega
    · rw [hs, hf]
      simp only [List.length_append, List.length_cons, List.length_nil]
      omega
  have hr := lengths rel hrel
  have hm := lengths more hmore
  omega

namespace IsWorkingTree

section

variable {d : Disk} {root : RawPath} {members : Forest FileEntry Unit}
  (tree : d.IsWorkingTree root members)

include tree

/-- The path to the folder is not empty. -/
theorem bytes_root : root.bytes ≠ [] := by
  rcases tree.holds with ⟨below, hroot⟩
  intro hempty
  simp only [resolve, hempty, List.contains_nil, Bool.false_eq_true, if_false, if_true,
    reduceCtorEq] at hroot

/-- A folder with a file somewhere below it does not lie too deep for the system. -/
theorem short_of_below {names more : List Bytes} (hne : names ≠ []) {value : FileEntry}
    (h : members.lookup (names ++ more) = some (.leaf value)) :
    (root.join (Scanner.pathOf names).toRaw).bytes.length < pathLimit := by
  have named : ∀ name ∈ names ++ more, Path.IsName name :=
    fun name hm => ((tree.named.of_lookup h).1 name hm).1
  have short := tree.short_of_lookup h
  -- The folder has a shorter path than the file, and the file is not too deep.
  by_cases hmore : more = []
  · rwa [hmore, List.append_nil] at short
  · have hfront : ∀ name ∈ names, Path.IsName name := fun name hm => named name (List.mem_append_left _ hm)
    refine lt_of_le_of_lt (length_join_le tree.bytes_root (Path.head?_toRaw (Path.isOrdinary_pathOf hfront))
      (Path.head?_toRaw (Path.isOrdinary_pathOf named)) ?_) short
    rw [Path.bytes_toRaw hfront, Path.bytes_toRaw named, Path.intercalate_append hne hmore,
      List.length_append, List.length_cons]
    omega

end

variable {d : Disk} {root : RawPath} {members : Forest FileEntry Unit}
  (tree : d.IsWorkingTree root members) {p : Path} (address : p.IsAddress)

include tree address

/-- A path below the folder is followed by its names, unless it is too long. -/
theorem resolve_names : ∃ links location, StandsAt d location (.folder () members) ∧
    d.resolve (root.join p.toRaw) true =
      if pathLimit ≤ (root.join p.toRaw).bytes.length then .error .nameTooLong
      else d.follow links location p.names true := by
  have hz : 0 ∉ p.toRaw.bytes := by
    intro hm
    rw [Path.toRaw, Path.toBytes_eq address.ordinary] at hm
    rcases Path.mem_intercalate (by decide) hm with ⟨name, hn, hmem⟩
    exact address.zeroFree name hn hmem
  rcases tree.holds with ⟨below, hroot⟩
  rcases resolve_join hroot (Path.head?_toRaw address.ordinary) with ⟨hlook, links, hr⟩
  rw [if_neg hz, Path.splitOn_toRaw address.ordinary address.belowRoot] at hr
  exact ⟨links, _, tree.standsAt ⟨below, rfl⟩ hlook, hr⟩

/-- A path that cannot be followed is refused, which is another answer than that nothing was found. -/
theorem stat_of_refused (refused : Refuses root members p) :
    ∃ fault, fault ≠ .notFound ∧ d.stat (root.join p.toRaw) = .error fault := by
  rcases tree.resolve_names address with ⟨links, location, stands, hr⟩
  rw [stat, hr]
  -- The length of the whole path comes first.
  by_cases long : pathLimit ≤ (root.join p.toRaw).bytes.length
  · rw [if_pos long]
    exact ⟨_, SystemFault.noConfusion, rfl⟩
  · rcases follow_obstructed links stands
      (fun name hn => (Path.isName_of_mem_names address.ordinary hn).isStep) (refused.resolve_left long) with
      ⟨fault, hfault, hf⟩
    rw [if_neg long, hf]
    exact ⟨fault, hfault, rfl⟩

/-- A path that can be followed leads to what stands at the end of its names, or nothing is found. -/
theorem stat_of_not_refused (free : ¬ Refuses root members p) :
    d.stat (root.join p.toRaw) =
      match members.lookup p.names with
      | some entry => .ok entry
      | none => .error .notFound := by
  rw [Refuses, not_or, Nat.not_le] at free
  cases hl : members.lookup p.names with
  | some entry => exact tree.stat_of_lookup address.ordinary hl free.1
  | none =>
      rcases tree.resolve_names address with ⟨links, location, stands, hr⟩
      have missing : (Forest.Entry.folder () members : DiskEntry).lookup p.names = none :=
        (Forest.Entry.lookup_folder () members address.belowRoot).trans hl
      rw [stat, hr, if_neg (Nat.not_le.mpr free.1)]
      rcases follow_missing links stands (fun name hn => (Path.isName_of_mem_names address.ordinary hn).isStep) free.2
        missing with hf | ⟨there, hf⟩
      · rw [hf]
        rfl
      · rw [hf]
        rfl

/-- A file of the working tree is not refused. -/
theorem not_refused_of_leaf {value : FileEntry} (h : members.lookup p.names = some (.leaf value)) :
    ¬ Refuses root members p := by
  have short := tree.short _ ((Forest.mem_leaves_iff tree.distinct p.names value).mpr h)
  simp only [Path.pathOf_names address.ordinary] at short
  refine not_or.mpr ⟨Nat.not_le.mpr short, ?_⟩
  exact not_obstructed_of_lookup (tree.named.imp fun _ hn => hn.2.2) h

end IsWorkingTree

end Disk

end ThreeWay
