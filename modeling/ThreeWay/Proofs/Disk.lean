import ThreeWay.Disk.Basic
import ThreeWay.Proofs.Forest
import ThreeWay.Proofs.Path.Names

/-!
# Files Below a Folder of a Disk

Looking up a path on a disk follows links and dots, and has limits on names and paths. Below a folder
that holds no links all of this is over: an ordinary path leads exactly to what stands at the end of its
chain of names. With links it does so where no link stands at the end.

The way to the folder itself may be as crooked as it likes. `follow_append` cuts the lookup of a longer
path at the folder: the front is the lookup of the folder, and what is left starts at its location.

A lookup is a recursion on what is left of a path, with links counted down, and `follow_step` is its only step
that can go wrong. The inductions over a whole lookup have a case for each way in which it goes on or ends, and
most of these end with something that is not a folder.

The folder comes in three strengths, since not all that is said of it needs the same. `HoldsFolder` is what a
listing needs: the disk holds the folder with all that is below it, links and long paths included. `HoldsTree`
adds that no file lies deeper than the system can reach, so every file can be read by its path. `IsWorkingTree`
leaves out links, and then a path leads nowhere but to what stands at its names; scans are about these. Each is
the one before it with more fields, and a lemma about a weaker one serves the stronger ones.

Places are locations, that is chains of names from the root of the disk, and not paths: two paths may lead to one
location, and `SeenAt` says what is seen there whichever path it was. It is closed under going down
(`SeenAt.below`), which is all that the induction along a path needs.

Two facts connect a path of the program with the chain of names of a place. Its bytes are those of the folder and
then the names with slashes between them (`bytes_join`), and cut at the slashes they are the names again
(`Path.splitOn_toRaw`). Names that stand for themselves, which are not empty and no dots, are then taken one by
one.

## Main definitions

* `Disk.HoldsFolder`: A folder that a path leads to, with everything below it.
* `Disk.HoldsTree`: The same with no file too deep for the system.
* `Disk.IsWorkingTree`: The same without links.
* `Disk.SeenAt`: What stands at a location, with everything below it.
* `Disk.StandsAt`: The same without links.

## Theorems

* `HoldsTree.holdsFolder`, `IsWorkingTree.holdsTree`: The stronger folders are the weaker ones.
* `follow_nil`, `follow_skip`, `follow_up`: The steps that cannot go wrong.
* `follow_step`, `follow_folder`, `follow_link`: One step of a lookup.
* `follow_append`: A path behind a folder is followed from the location of the folder.
* `follow_of_slash`: A slash at the end of a folder does no harm.
* `look_place`, `cases_of_lookFrom`: What stands at a location below the folder, and above it.
* `follow_of_lookup`: A chain of names is followed one by one to what stands at its end.
* `cases_of_list`: What is listed is a folder that the disk holds, or a folder on the way to it.
* `seenAt_of_look`, `SeenAt.below`, `StandsAt.below`: A held folder is seen, and so is what is in it.
* `lookup_of_follow`: Below a folder without links there is no other way to it.
* `bytes_join`, `Path.splitOn_toRaw`: The path of a place as bytes, and as names again.
* `resolve_place`: A folder in the root of the system is found by its name.
* `resolve_join`: A path below a folder is followed from the location of the folder.
* `stat_of_lookup`, `lookup_of_stat`: What stands at an ordinary path below a folder.
* `isFile_join_iff`: An ordinary path leads to a file exactly when its chain of names does.
-/

namespace ThreeWay

namespace Disk

variable {d : Disk}

/-- A regular file, no link. -/
def IsRegular : FileEntry → Prop
  | .regular _ _ => True
  | .link _ => False

instance : DecidablePred IsRegular
  | .regular _ _ => isTrue trivial
  | .link _ => isFalse id

/-- A folder of regular files and folders that a path leads to. The disk holds it with everything below
    it, its names are ordinary and differ within each folder, and no file lies too deep for the system. -/
structure IsWorkingTree (d : Disk) (root : RawPath) (members : Forest FileEntry Unit) : Prop where
  holds : ∃ below, d.resolve root true = .ok (d.place ++ below, some (.folder () members))
  distinct : members.Distinct
  named : members.AllNames fun name => Path.IsName name ∧ 0 ∉ name ∧ name.length ≤ nameLimit
  regular : members.AllLeaves IsRegular
  short : ∀ e ∈ members.leaves, (root.join (Scanner.pathOf e.1).toRaw).bytes.length < pathLimit

/-- A folder that a path leads to, with links or without. The disk holds it with everything below it, its names
    are ordinary and differ within each folder, and no file lies too deep for the system. -/
structure HoldsTree (d : Disk) (root : RawPath) (members : Forest FileEntry Unit) : Prop where
  holds : ∃ below, d.resolve root true = .ok (d.place ++ below, some (.folder () members))
  distinct : members.Distinct
  named : members.AllNames fun name => Path.IsName name ∧ 0 ∉ name ∧ name.length ≤ nameLimit
  short : ∀ e ∈ members.leaves, (root.join (Scanner.pathOf e.1).toRaw).bytes.length < pathLimit

/-- A folder that a path leads to, with links or without, however deep it goes. The disk holds it with
    everything below it, and its names are ordinary and differ within each folder. -/
structure HoldsFolder (d : Disk) (root : RawPath) (members : Forest FileEntry Unit) : Prop where
  holds : ∃ below, d.resolve root true = .ok (d.place ++ below, some (.folder () members))
  distinct : members.Distinct
  named : members.AllNames fun name => Path.IsName name ∧ 0 ∉ name ∧ name.length ≤ nameLimit

theorem HoldsTree.holdsFolder {root : RawPath} {members : Forest FileEntry Unit}
    (tree : d.HoldsTree root members) : d.HoldsFolder root members :=
  ⟨tree.holds, tree.distinct, tree.named⟩

theorem IsWorkingTree.holdsTree {root : RawPath} {members : Forest FileEntry Unit}
    (tree : d.IsWorkingTree root members) : d.HoldsTree root members :=
  ⟨tree.holds, tree.distinct, tree.named, tree.short⟩

/-- A name that stands for itself in a path. -/
structure IsStep (name : Bytes) : Prop where
  notEmpty : name ≠ []
  notDot : name ≠ [RawPath.dot]
  notUp : name ≠ [RawPath.dot, RawPath.dot]

theorem IsStep.of_not {name : Bytes} (hn : ¬ (name = [] ∨ name = [RawPath.dot]))
    (hu : name ≠ [RawPath.dot, RawPath.dot]) : IsStep name :=
  ⟨fun e => hn (Or.inl e), fun e => hn (Or.inr e), hu⟩

theorem follow_nil (links : Nat) (here : List Bytes) (followLast : Bool) :
    d.follow links here [] followLast = .ok (here, d.look here) := by
  rw [follow]

theorem follow_skip {name : Bytes} (h : name = [] ∨ name = [RawPath.dot]) (links : Nat)
    (here rest : List Bytes) (followLast : Bool) :
    d.follow links here (name :: rest) followLast = d.follow links here rest followLast := by
  rw [follow, if_pos h]

theorem follow_up (links : Nat) (here rest : List Bytes) (followLast : Bool) :
    d.follow links here ([RawPath.dot, RawPath.dot] :: rest) followLast =
      d.follow links here.dropLast rest followLast := by
  rw [follow, if_neg (by decide), if_pos rfl]

section

variable {name : Bytes} (h : IsStep name) (short : name.length ≤ nameLimit)

include h short

theorem follow_step (links : Nat) (here rest : List Bytes) (followLast : Bool) :
    d.follow links here (name :: rest) followLast =
      match d.look (here ++ [name]) with
      | none => if rest = [] then .ok (here ++ [name], none) else .error .notFound
      | some (.folder _ _) => d.follow links (here ++ [name]) rest followLast
      | some (.leaf (.regular content executable)) =>
        if rest = [] then .ok (here ++ [name], some (.leaf (.regular content executable)))
        else .error .notADirectory
      | some (.leaf (.link target)) =>
        if rest = [] ∧ ¬ followLast then .ok (here ++ [name], some (.leaf (.link target)))
        else
          match links with
          | 0 => .error .tooManyLinks
          | links + 1 =>
            if target = [] then .error .notFound
            else
              let start := if target.head? = some RawPath.slash then [] else here
              d.follow links start (target.splitOn RawPath.slash ++ rest) followLast := by
  rw [follow, if_neg (not_or.mpr ⟨h.notEmpty, h.notDot⟩), if_neg h.notUp]
  exact if_neg (Nat.not_lt.mpr short)

theorem follow_folder {links : Nat} {here rest : List Bytes} {followLast : Bool}
    {members : Forest FileEntry Unit}
    (hl : d.look (here ++ [name]) = some (.folder () members)) :
    d.follow links here (name :: rest) followLast =
      d.follow links (here ++ [name]) rest followLast := by
  rw [follow_step h short, hl]

/-- A link is followed by reading its target in front of what is left of the path. -/
theorem follow_link {links : Nat} {here rest : List Bytes} {target : Bytes}
    (hl : d.look (here ++ [name]) = some (.leaf (.link target))) (ht : target ≠ []) :
    d.follow (links + 1) here (name :: rest) true =
      d.follow links (if target.head? = some RawPath.slash then [] else here)
        (target.splitOn RawPath.slash ++ rest) true := by
  rw [follow_step h short, hl]
  simp only [not_true_eq_false, and_false, if_false, ht]

end

/-- A path behind a folder is followed from the location of the folder. -/
theorem follow_append {links : Nat} {here xs location : List Bytes} {members : Forest FileEntry Unit}
    (h : d.follow links here xs true = .ok (location, some (.folder () members))) :
    d.look location = some (.folder () members) ∧
      ∃ left, ∀ ys, d.follow links here (xs ++ ys) true = d.follow left location ys true := by
  -- The induction is on the lookup of the folder. Where it goes on, the longer path goes on in the same
  -- way, and where it ends there is no folder, except at the very end.
  induction links, here, xs using Disk.follow.induct d true with
  | case1 links here =>
      rw [follow_nil] at h
      have he := Except.ok.inj h
      rw [Prod.mk.injEq] at he
      rw [← he.1]
      exact ⟨he.2, links, fun ys => rfl⟩
  | case2 links here name rest hn ih =>
      rw [follow_skip hn] at h
      rcases ih h with ⟨hl, left, hleft⟩
      refine ⟨hl, left, fun ys => ?_⟩
      rw [List.cons_append, follow_skip hn, hleft]
  | case3 links here rest _ ih =>
      rw [follow_up] at h
      rcases ih h with ⟨hl, left, hleft⟩
      refine ⟨hl, left, fun ys => ?_⟩
      rw [List.cons_append, follow_up, hleft]
  | case4 links here name rest hn hu long =>
      rw [follow, if_neg hn, if_neg hu, if_pos long] at h
      cases h
  | case5 links here name hn hu short there hl =>
      rw [follow_step (.of_not hn hu) (Nat.not_lt.mp short), hl] at h
      simp at h
  | case6 links here name rest hn hu short there hl hr =>
      rw [follow_step (.of_not hn hu) (Nat.not_lt.mp short), hl] at h
      simp [hr] at h
  | case7 links here name rest hn hu short there value members' hl ih =>
      have step := IsStep.of_not hn hu
      rw [follow_folder step (Nat.not_lt.mp short) hl] at h
      rcases ih h with ⟨hl', left, hleft⟩
      refine ⟨hl', left, fun ys => ?_⟩
      rw [List.cons_append, follow_folder step (Nat.not_lt.mp short) hl, hleft]
  | case8 links here name hn hu short there content executable hl =>
      rw [follow_step (.of_not hn hu) (Nat.not_lt.mp short), hl] at h
      simp at h
  | case9 links here name rest hn hu short there content executable hl hr =>
      rw [follow_step (.of_not hn hu) (Nat.not_lt.mp short), hl] at h
      simp [hr] at h
  | case10 links here name rest hn hu short there target hl hlast => exact absurd rfl hlast.2
  | case11 here name rest hn hu short there target hl hlast =>
      rw [follow_step (.of_not hn hu) (Nat.not_lt.mp short), hl] at h
      simp at h
  | case12 here name rest hn hu short there hlast links hl =>
      rw [follow_step (.of_not hn hu) (Nat.not_lt.mp short), hl] at h
      simp at h
  | case13 here name rest hn hu short there target hl hlast links ht start ih =>
      have step := IsStep.of_not hn hu
      rw [follow_link step (Nat.not_lt.mp short) hl ht] at h
      -- The target of the link takes the place of the name, in front of the rest of either path.
      rcases ih h with ⟨hl', left, hleft⟩
      refine ⟨hl', left, fun ys => ?_⟩
      rw [List.cons_append, follow_link step (Nat.not_lt.mp short) hl ht, ← List.append_assoc]
      exact hleft ys

/-- A folder that is found behind a slash at the end is found without it. -/
theorem follow_of_slash {links : Nat} {here xs location : List Bytes}
    {members : Forest FileEntry Unit}
    (h : d.follow links here (xs ++ [[]]) true = .ok (location, some (.folder () members))) :
    d.follow links here xs true = .ok (location, some (.folder () members)) := by
  -- The same induction as for a longer path, with the slash for what is left.
  induction links, here, xs using Disk.follow.induct d true with
  | case1 links here =>
      rw [List.nil_append, follow_skip (Or.inl rfl)] at h
      exact h
  | case2 links here name rest hn ih =>
      rw [List.cons_append, follow_skip hn] at h
      rw [follow_skip hn]
      exact ih h
  | case3 links here rest _ ih =>
      rw [List.cons_append, follow_up] at h
      rw [follow_up]
      exact ih h
  | case4 links here name rest hn hu long =>
      rw [List.cons_append, follow, if_neg hn, if_neg hu, if_pos long] at h
      cases h
  | case5 links here name hn hu short there hl =>
      rw [List.cons_append, follow_step (.of_not hn hu) (Nat.not_lt.mp short), hl] at h
      simp at h
  | case6 links here name rest hn hu short there hl hr =>
      rw [List.cons_append, follow_step (.of_not hn hu) (Nat.not_lt.mp short), hl] at h
      simp at h
  | case7 links here name rest hn hu short there value members' hl ih =>
      have step := IsStep.of_not hn hu
      rw [List.cons_append, follow_folder step (Nat.not_lt.mp short) hl] at h
      rw [follow_folder step (Nat.not_lt.mp short) hl]
      exact ih h
  | case8 links here name hn hu short there content executable hl =>
      -- Behind a file even the slash is too much.
      rw [List.cons_append, follow_step (.of_not hn hu) (Nat.not_lt.mp short), hl] at h
      simp at h
  | case9 links here name rest hn hu short there content executable hl hr =>
      rw [List.cons_append, follow_step (.of_not hn hu) (Nat.not_lt.mp short), hl] at h
      simp at h
  | case10 links here name rest hn hu short there target hl hlast => exact absurd rfl hlast.2
  | case11 here name rest hn hu short there target hl hlast =>
      rw [List.cons_append, follow_step (.of_not hn hu) (Nat.not_lt.mp short), hl] at h
      simp at h
  | case12 here name rest hn hu short there hlast links hl =>
      rw [List.cons_append, follow_step (.of_not hn hu) (Nat.not_lt.mp short), hl] at h
      simp at h
  | case13 here name rest hn hu short there target hl hlast links ht start ih =>
      have step := IsStep.of_not hn hu
      rw [List.cons_append, follow_link step (Nat.not_lt.mp short) hl ht, ← List.append_assoc] at h
      rw [follow_link step (Nat.not_lt.mp short) hl ht]
      exact ih h

/-- What lies below the folder that the disk holds is looked up in it. -/
theorem look_place (d : Disk) (rest : List Bytes) :
    d.look (d.place ++ rest) = (Forest.Entry.folder () d.tree).lookup rest := by
  unfold look
  induction d.place with
  | nil => rw [List.nil_append, look.lookFrom]
  | cons name place ih => rw [List.cons_append, look.lookFrom, if_pos rfl, ih]

/-- A folder that stands at a location is one that the disk holds, or it lies on the way there and has one
    member. -/
theorem cases_of_lookFrom {place location : List Bytes} {members : Forest FileEntry Unit}
    (h : look.lookFrom d place location = some (.folder () members)) :
    (∃ names, (Forest.Entry.folder () d.tree).lookup names = some (.folder () members)) ∨
      ∃ name ∈ place, members = .folder name () .nil .nil := by
  induction place generalizing location with
  | nil =>
      rw [look.lookFrom] at h
      exact Or.inl ⟨location, h⟩
  | cons name place ih =>
      -- Above the folder that the disk holds each folder has one member, the next name of the place.
      cases location with
      | nil =>
          cases h
          exact Or.inr ⟨name, List.mem_cons_self, rfl⟩
      | cons other rest =>
          rw [look.lookFrom] at h
          split_ifs at h
          exact (ih h).imp_right fun ⟨n, hn, hm⟩ => ⟨n, List.mem_cons_of_mem _ hn, hm⟩

theorem cases_of_list {path : RawPath} {members : Forest FileEntry Unit} (h : d.list path = .ok members) :
    (∃ names, (Forest.Entry.folder () d.tree).lookup names = some (.folder () members)) ∨
      ∃ name ∈ d.place, members = .folder name () .nil .nil := by
  cases hr : d.resolve path true with
  | error fault =>
      rw [list, stat, hr] at h
      cases h
  | ok answer =>
      -- Nothing, a file or a folder was found, and only a folder is listed.
      rcases answer with ⟨location, _ | _ | ⟨_, found⟩⟩
      · rw [list, stat, hr] at h
        cases h
      · rw [list, stat, hr] at h
        cases h
      · rw [list, stat, hr] at h
        cases h
        rw [resolve] at hr
        split_ifs at hr
        exact cases_of_lookFrom (follow_append hr).1

/-- What stands at a location of a disk, together with everything below it. -/
structure SeenAt (d : Disk) (location : List Bytes) (e : DiskEntry) : Prop where
  look : ∀ names, d.look (location ++ names) = e.lookup names

/-- The same without links. -/
structure StandsAt (d : Disk) (location : List Bytes) (e : DiskEntry) : Prop extends SeenAt d location e where
  regular : ∀ names value, e.lookup names = some (.leaf value) → IsRegular value

section

variable {e : DiskEntry} {location : List Bytes}

theorem SeenAt.look_self (h : SeenAt d location e) : d.look location = some e := by
  have hn := h.look []
  rw [List.append_nil] at hn
  exact hn

/-- A folder that the disk holds stands at its location, with its members below it. -/
theorem seenAt_of_look {members : Forest FileEntry Unit} (hp : ∃ below, location = d.place ++ below)
    (h : d.look location = some (.folder () members)) :
    SeenAt d location (.folder () members) where
  look names := by
    rcases hp with ⟨below, rfl⟩
    rw [look_place] at h
    rw [List.append_assoc, look_place, Forest.Entry.lookup_append, h]
    rfl

/-- What stands behind a name stands one step further down. -/
theorem SeenAt.below (h : SeenAt d location e) {name : Bytes} {entry : DiskEntry}
    (he : e.lookup [name] = some entry) : SeenAt d (location ++ [name]) entry where
  look names := by
    rw [List.append_assoc, h.look, Forest.Entry.lookup_append, he]
    rfl

theorem StandsAt.below (h : StandsAt d location e) {name : Bytes} {entry : DiskEntry}
    (he : e.lookup [name] = some entry) : StandsAt d (location ++ [name]) entry where
  toSeenAt := h.toSeenAt.below he
  regular names value hv := by
    refine h.regular ([name] ++ names) value ?_
    rw [Forest.Entry.lookup_append, he]
    exact hv

/-- A chain of names that leads to a folder or a regular file is followed to its end. On the way there are
    only folders, so links beside it do not matter. -/
theorem follow_of_lookup {names : List Bytes} {entry : DiskEntry} (links : Nat)
    (seen : SeenAt d location e)
    (hsteps : ∀ name ∈ names, IsStep name ∧ name.length ≤ nameLimit)
    (h : e.lookup names = some entry) (direct : ∀ target, entry ≠ .leaf (.link target)) :
    d.follow links location names true = .ok (location ++ names, some entry) := by
  induction names generalizing location e with
  | nil =>
      rw [follow_nil, seen.look_self, List.append_nil, ← h]
      rfl
  | cons name names ih =>
      rcases hsteps name List.mem_cons_self with ⟨step, short⟩
      have hn : d.look (location ++ [name]) = e.lookup [name] := seen.look [name]
      have hcut := Forest.Entry.lookup_append e [name] names
      rw [List.cons_append, List.nil_append, h] at hcut
      cases hb : e.lookup [name] with
      | none =>
          rw [hb] at hcut
          cases hcut
      | some below =>
          have hbelow := seen.below hb
          rw [hb, Option.bind_some] at hcut
          cases below with
          | folder value members =>
              rw [follow_folder step short (hn.trans hb),
                ih hbelow (fun n hm => hsteps n (List.mem_cons_of_mem _ hm)) hcut.symm,
                List.append_assoc]
              rfl
          | leaf value =>
              -- Nothing lies below a file, so the chain ends here.
              cases names with
              | cons _ _ => cases hcut
              | nil =>
                  cases hcut
                  cases value with
                  | link target => exact absurd rfl (direct target)
                  | regular content executable =>
                      rw [follow_step step short, hn.trans hb]
                      rfl

/-- What following a chain of names finds below a folder without links stands at its end. -/
theorem lookup_of_follow {names : List Bytes} {entry : DiskEntry} {links : Nat} {found : List Bytes}
    (stands : StandsAt d location e) (hsteps : ∀ name ∈ names, IsStep name)
    (h : d.follow links location names true = .ok (found, some entry)) :
    e.lookup names = some entry := by
  induction names generalizing location e with
  | nil =>
      rw [follow_nil, stands.look_self] at h
      exact (Prod.mk.inj (Except.ok.inj h)).2
  | cons name names ih =>
      have step := hsteps name List.mem_cons_self
      -- A name that is too long is refused before anything is looked up.
      by_cases long : nameLimit < name.length
      · rw [follow, if_neg (not_or.mpr ⟨step.notEmpty, step.notDot⟩), if_neg step.notUp,
          if_pos long] at h
        cases h
      · have short := Nat.not_lt.mp long
        have hn : d.look (location ++ [name]) = e.lookup [name] := stands.look [name]
        have hcut := Forest.Entry.lookup_append e [name] names
        rw [List.cons_append, List.nil_append] at hcut
        rw [hcut]
        cases hb : e.lookup [name] with
        | none =>
            -- A name that leads nowhere is an answer at the end of a path only, and no entry.
            rw [follow_step step short, hn.trans hb] at h
            simp only at h
            split_ifs at h
            cases h
        | some below =>
            have hbelow := stands.below hb
            rw [Option.bind_some]
            cases below with
            | folder value members =>
                rw [follow_folder step short (hn.trans hb)] at h
                exact ih hbelow (fun n hm => hsteps n (List.mem_cons_of_mem _ hm)) h
            | leaf value =>
                have regular := stands.regular [name] value hb
                cases value with
                | link target => exact regular.elim
                | regular content executable =>
                    -- The system follows a path through a file only if nothing is left of it.
                    rw [follow_step step short, hn.trans hb] at h
                    simp only at h
                    split_ifs at h with hr
                    rw [hr]
                    exact (Prod.mk.inj (Except.ok.inj h)).2

end

/-- The bytes of a path below a folder, whose own path may end in a slash. -/
theorem bytes_join {root : RawPath} (hroot : root.bytes ≠ []) {rel : Bytes}
    (hrel : rel.head? ≠ some RawPath.slash) :
    (root.join ⟨rel⟩).bytes = root.bytes ++ RawPath.slash :: rel ∨
      ∃ front, root.bytes = front ++ [RawPath.slash] ∧
        (root.join ⟨rel⟩).bytes = front ++ RawPath.slash :: rel := by
  have hr : (RawPath.mk rel).isAbsolute = false := decide_eq_false hrel
  rw [RawPath.join, if_neg (by rw [hr]; exact Bool.false_ne_true)]
  by_cases hs : root.bytes.getLast? = some RawPath.slash
  · right
    rw [if_pos (Or.inr hs)]
    rcases List.getLast?_eq_some_iff.mp hs with ⟨front, hf⟩
    exact ⟨front, hf, by simp [hf]⟩
  · left
    rw [if_neg (not_or.mpr ⟨hroot, hs⟩)]

/-- A path below a folder is followed from the location of the folder. -/
theorem resolve_join {root : RawPath} {location : List Bytes} {members : Forest FileEntry Unit}
    (h : d.resolve root true = .ok (location, some (.folder () members))) {rel : Bytes}
    (hrel : rel.head? ≠ some RawPath.slash) :
    d.look location = some (.folder () members) ∧
    ∃ links, d.resolve (root.join ⟨rel⟩) true =
      if 0 ∈ rel then .error .nulInPath
      else if pathLimit ≤ (root.join ⟨rel⟩).bytes.length then .error .nameTooLong
      else d.follow links location (rel.splitOn RawPath.slash) true := by
  unfold resolve at h ⊢
  split_ifs at h with hz he hlong
  have hz' : 0 ∉ root.bytes := by simpa using hz
  have hsz : (0 : UInt8) ≠ RawPath.slash := by decide
  -- A slash at the end of the root is not repeated, and what is followed for it alone is an empty name.
  rcases bytes_join he hrel with hb | ⟨front, hf, hb⟩
  · rcases follow_append h with ⟨hl, links, hfollow⟩
    refine ⟨hl, links, ?_⟩
    rw [RawPath.pieces, hb, List.splitOn_append_cons_self, ← hfollow]
    have hc : (root.bytes ++ RawPath.slash :: rel).contains 0 = decide (0 ∈ rel) := by
      simp [hz', hsz]
    have hne : root.bytes ++ RawPath.slash :: rel ≠ [] := by simp
    simp only [hc, hne, decide_eq_true_eq, if_false]
    rfl
  · have hp : root.pieces = front.splitOn RawPath.slash ++ [[]] := by
      rw [RawPath.pieces, hf, List.splitOn_append_cons_self]
      rfl
    rw [hp] at h
    rcases follow_append (follow_of_slash h) with ⟨hl, links, hfollow⟩
    refine ⟨hl, links, ?_⟩
    rw [RawPath.pieces, hb, List.splitOn_append_cons_self, ← hfollow]
    have hfz : 0 ∉ front := fun hm => hz' (hf ▸ List.mem_append_left _ hm)
    have hc : (front ++ RawPath.slash :: rel).contains 0 = decide (0 ∈ rel) := by
      simp [hfz, hsz]
    have hne : front ++ RawPath.slash :: rel ≠ [] := by simp
    simp only [hc, hne, decide_eq_true_eq, if_false]

end Disk

namespace Path

/-- An ordinary name stands for itself in a path. -/
theorem IsName.isStep {name : Bytes} (h : IsName name) : Disk.IsStep name :=
  ⟨h.bytes.1, h.bytes.2.1, h.bytes.2.2.1⟩

theorem mem_intercalate {b : UInt8} (hb : b ≠ RawPath.slash) {chain : List Bytes}
    (h : b ∈ [RawPath.slash].intercalate chain) : ∃ name ∈ chain, b ∈ name := by
  induction chain with
  | nil => cases h
  | cons name chain ih =>
      -- Behind the last name there is no slash.
      by_cases hc : chain = []
      · rw [hc, List.intercalate_singleton] at h
        exact ⟨name, List.mem_cons_self, h⟩
      · rw [List.intercalate_cons_of_ne_nil hc] at h
        rcases List.mem_append.mp h with h | h
        · rcases List.mem_append.mp h with h | h
          · exact ⟨name, List.mem_cons_self, h⟩
          · exact absurd (List.mem_singleton.mp h) hb
        · rcases ih h with ⟨n, hn, hm⟩
          exact ⟨n, List.mem_cons_of_mem _ hn, hm⟩

/-- The pieces of the raw path of an ordinary path are its names. -/
theorem splitOn_toRaw {p : Path} (h : p.IsOrdinary) (hne : p.names ≠ []) :
    p.toRaw.bytes.splitOn RawPath.slash = p.names := by
  rw [toRaw, toBytes_eq h]
  exact List.splitOn_intercalate _ (fun n hn => (isName_of_mem_names h hn).bytes.2.2.2) hne

theorem head?_toRaw {p : Path} (h : p.IsOrdinary) : p.toRaw.bytes.head? ≠ some RawPath.slash :=
  head?_of_relative h.relative

end Path

namespace Disk

variable {d : Disk} {root : RawPath} {members : Forest FileEntry Unit}

/-- A folder that stands in the root of the system is found by its name. -/
theorem resolve_place {name : Bytes} (h : Path.IsName name) (short : name.length ≤ nameLimit)
    (zero : 0 ∉ name) (members : Forest FileEntry Unit) :
    resolve ⟨[name], members⟩ ⟨RawPath.slash :: name⟩ true =
      .ok ([name], some (.folder () members)) := by
  have look : (Disk.mk [name] members).look [name] = some (.folder () members) :=
    look_place ⟨[name], members⟩ []
  have pieces : RawPath.pieces ⟨RawPath.slash :: name⟩ = [[], name] :=
    (List.splitOn_append_cons_self [] name).trans
      (congrArg ([] :: ·) (List.splitOn_eq_singleton h.bytes.2.2.2))
  have hzero : (RawPath.slash :: name).contains 0 = false := by
    have hslash : (0 : UInt8) ≠ RawPath.slash := by decide
    simp [hslash, zero]
  have hshort : ¬ pathLimit ≤ (RawPath.slash :: name).length := by
    rw [List.length_cons, pathLimit]
    rw [nameLimit] at short
    omega
  -- The slash in front is an empty name, and the name behind it is the only step.
  rw [resolve, hzero, if_neg Bool.false_ne_true, if_neg (List.cons_ne_nil _ _), if_neg hshort, pieces,
    follow_skip (Or.inl rfl), follow_folder h.isStep short look, follow_nil, List.nil_append, look]

namespace HoldsFolder

variable (tree : d.HoldsFolder root members)

include tree

/-- What stands at the end of a chain of names below the folder is what its path leads to, if it is no
    link and the path is not too long. -/
theorem stat_join {p : Path} (hp : p.IsOrdinary) {entry : DiskEntry}
    (h : members.lookup p.names = some entry) (direct : ∀ target, entry ≠ .leaf (.link target)) :
    d.stat (root.join p.toRaw) =
      if pathLimit ≤ (root.join p.toRaw).bytes.length then .error .nameTooLong else .ok entry := by
  have hne : p.names ≠ [] := by
    intro he
    rw [he] at h
    cases h
  have named := (tree.named.of_lookup h).1
  -- Neither the names nor the slashes between them hold the byte that no path may hold.
  have hz : 0 ∉ p.toRaw.bytes := by
    intro hm
    rw [Path.toRaw, Path.toBytes_eq hp] at hm
    rcases Path.mem_intercalate (by decide) hm with ⟨name, hn, hmem⟩
    exact (named name hn).2.1 hmem
  rcases tree.holds with ⟨below, hroot⟩
  rcases resolve_join hroot (Path.head?_toRaw hp) with ⟨hlook, links, hr⟩
  have hl : (Forest.Entry.folder () members : DiskEntry).lookup p.names = some entry :=
    (Forest.Entry.lookup_folder () members hne).trans h
  have hf := follow_of_lookup links (seenAt_of_look ⟨below, rfl⟩ hlook)
    (fun name hn => ⟨(named name hn).1.isStep, (named name hn).2.2⟩) hl direct
  rw [if_neg hz, Path.splitOn_toRaw hp hne, hf] at hr
  rw [stat, hr]
  -- The length of the path is asked about before any name is.
  by_cases long : pathLimit ≤ (root.join p.toRaw).bytes.length
  · rw [if_pos long, if_pos long]
    rfl
  · rw [if_neg long, if_neg long]
    rfl

theorem stat_root : d.stat root = .ok (.folder () members) := by
  rcases tree.holds with ⟨below, hroot⟩
  rw [stat, hroot]
  rfl

end HoldsFolder

namespace HoldsTree

variable (tree : d.HoldsTree root members)

include tree

/-- What stands at the end of a chain of names below the folder is what its path leads to, if it is no
    link. -/
theorem stat_of_lookup {p : Path} (hp : p.IsOrdinary) {entry : DiskEntry}
    (h : members.lookup p.names = some entry) (direct : ∀ target, entry ≠ .leaf (.link target))
    (short : (root.join p.toRaw).bytes.length < pathLimit) : d.stat (root.join p.toRaw) = .ok entry := by
  rw [tree.holdsFolder.stat_join hp h direct, if_neg (Nat.not_le.mpr short)]

theorem stat_root : d.stat root = .ok (.folder () members) :=
  tree.holdsFolder.stat_root

end HoldsTree

namespace IsWorkingTree

variable (tree : d.IsWorkingTree root members)

include tree

/-- The folder stands at its location, with its members below it. -/
theorem standsAt {location : List Bytes} (hp : ∃ below, location = d.place ++ below)
    (h : d.look location = some (.folder () members)) :
    StandsAt d location (.folder () members) where
  toSeenAt := seenAt_of_look hp h
  regular names value h := by
    cases names with
    | nil => cases h
    | cons name names =>
        have hl : members.lookup (name :: names) = some (.leaf value) := h
        exact tree.regular.of_lookup hl

/-- What stands at the end of a chain of names below the folder is what its path leads to. -/
theorem stat_of_lookup {p : Path} (hp : p.IsOrdinary) {entry : DiskEntry}
    (h : members.lookup p.names = some entry)
    (short : (root.join p.toRaw).bytes.length < pathLimit) : d.stat (root.join p.toRaw) = .ok entry := by
  refine tree.holdsTree.stat_of_lookup hp h ?_ short
  rintro target rfl
  exact tree.regular.of_lookup h

/-- What an ordinary path below the folder leads to stands at the end of its chain of names. -/
theorem lookup_of_stat {p : Path} (hp : p.IsOrdinary) (hne : p.names ≠ []) {entry : DiskEntry}
    (h : d.stat (root.join p.toRaw) = .ok entry) : members.lookup p.names = some entry := by
  rcases tree.holds with ⟨below, hroot⟩
  rcases resolve_join hroot (Path.head?_toRaw hp) with ⟨hlook, links, hr⟩
  rw [stat, hr, Path.splitOn_toRaw hp hne] at h
  -- A path with a zero byte or one that is too long leads to nothing.
  split_ifs at h with hz hlong
  · cases h
  · cases h
  · cases hf : d.follow links (d.place ++ below) p.names true with
    | error fault =>
        rw [hf] at h
        cases h
    | ok answer =>
        rcases answer with ⟨found, stands⟩
        rw [hf] at h
        cases stands with
        | none => cases h
        | some e =>
            cases h
            rw [← Forest.Entry.lookup_folder () members hne]
            exact lookup_of_follow (tree.standsAt ⟨below, rfl⟩ hlook)
              (fun name hn => (Path.isName_of_mem_names hp hn).isStep) hf

theorem stat_root : d.stat root = .ok (.folder () members) :=
  tree.holdsTree.stat_root

/-- No file lies too deep for the system. -/
theorem short_of_lookup {names : List Bytes} {value : FileEntry}
    (h : members.lookup names = some (.leaf value)) :
    (root.join (Scanner.pathOf names).toRaw).bytes.length < pathLimit :=
  tree.short (names, value) ((Forest.mem_leaves_iff tree.distinct names value).mpr h)

/-- The folder itself is no file. -/
theorem isFile_root : d.isFile (root.join Path.root.toRaw) = false := by
  rcases tree.holds with ⟨below, hroot⟩
  have hb : Path.root.toRaw.bytes = [] := rfl
  rcases resolve_join hroot (by simp : ([] : Bytes).head? ≠ some RawPath.slash) with ⟨hlook, links, hr⟩
  have hskip : d.follow links (d.place ++ below) [[]] true =
      .ok (d.place ++ below, some (.folder () members)) := by
    rw [follow_skip (Or.inl rfl), follow_nil, hlook]
  have hs : ([] : Bytes).splitOn RawPath.slash = [[]] := rfl
  rw [if_neg List.not_mem_nil, hs, hskip] at hr
  have he : Path.root.toRaw = ⟨[]⟩ := rfl
  rw [isFile, stat, he, hr]
  split_ifs <;> rfl

/-- An ordinary path leads to a file exactly when its chain of names does. -/
theorem isFile_join_iff {p : Path} (hp : p.IsOrdinary) :
    d.isFile (root.join p.toRaw) = true ↔ ∃ value, members.lookup p.names = some (.leaf value) := by
  -- The root is a folder, and no chain without names leads to a file.
  by_cases hne : p.names = []
  · have hroot : p = Path.root := by
      rw [← Path.pathOf_names hp, hne]
      rfl
    rw [hroot, tree.isFile_root]
    constructor
    · intro h
      cases h
    · rintro ⟨value, h⟩
      cases h
  · constructor
    · intro h
      unfold isFile at h
      split at h
      · rename_i value hs
        exact ⟨value, tree.lookup_of_stat hp hne hs⟩
      · cases h
    · rintro ⟨value, h⟩
      have short := tree.short_of_lookup h
      rw [Path.pathOf_names hp] at short
      rw [isFile, tree.stat_of_lookup hp h short]

end IsWorkingTree

end Disk

end ThreeWay
