import ThreeWay.Error
import ThreeWay.Forest

/-!
# Disks

A file system as a value: a folder with everything below it, and the place of that folder. Nothing
stands beside the way down to the folder, so a path that leaves it finds the folders on that way and
nothing else.

Looking up a path follows the rules of the system: every name but the last must be a folder or a link
to one, two dots lead up from where the links have led, and a link is followed by reading its target in
front of what is left of the path. A link is followed at most `linkLimit` times.

Everything on a disk can be read: nobody is refused a file or a folder, no read goes wrong half-way, and nothing
changes between two looks. A look fails only for what the names and the kinds of the entries say, and for names
and paths that are too long.

## Main definitions

* `gitFolderName`: The folder of a working tree that holds the repository.
* `FileEntry`: A regular file or a symbolic link.
* `Disk`: A folder, and where it stands.
* `Disk.look`: What stands at a location.
* `Disk.resolve`: The location that a path leads to.
* `Disk.stat`, `Disk.read`, `Disk.list`: Kind, content and members of what a path leads to.
-/

namespace ThreeWay

/-- The folder of a working tree that holds the repository. Scans and listings leave it out. -/
def gitFolderName : String := ".git"

/-- A file of a disk that is no folder. -/
inductive FileEntry where
  | regular (content : Bytes) (executable : Bool)
  | link (target : Bytes)
deriving DecidableEq, Inhabited

/-- What stands at a location of a disk. -/
abbrev DiskEntry := Forest.Entry FileEntry Unit

/-- A folder with everything below it, at the end of a chain of names. -/
structure Disk where
  place : List Bytes
  tree : Forest FileEntry Unit
deriving Inhabited

namespace Disk

/-- How often links are followed on one path. -/
def linkLimit : Nat := 40

/-- The longest name of a file, in bytes. -/
def nameLimit : Nat := 255

/-- One more than the longest path, in bytes. -/
def pathLimit : Nat := 4096

/-- The raw path of a location. -/
def rawPath (location : List Bytes) : RawPath :=
  ⟨location.flatMap (RawPath.slash :: ·)⟩

/-- The raw path of the folder. -/
def rootPath (d : Disk) : RawPath :=
  rawPath d.place

/-- What stands at a location: below the folder what the folder holds, and on the way to it the one
    next name. -/
def look (d : Disk) (location : List Bytes) : Option DiskEntry :=
  lookFrom d.place location
where
  /-- What stands at a location, seen from a folder on the way. -/
  lookFrom : List Bytes → List Bytes → Option DiskEntry
    | [], rest => (Forest.Entry.folder () d.tree).lookup rest
    -- What stands beside the next name is not part of the value, and neither is what lies below.
    | name :: _, [] => some (.folder () (.folder name () .nil .nil))
    | name :: place, other :: rest => if name = other then lookFrom place rest else none

/-- The location that the names of a path lead to, starting from a folder. The last name may be
    missing there; every other name must lead to a folder. A path that ends in a slash has an empty
    last name, which asks for a folder. -/
def follow (d : Disk) (links : Nat) (here : List Bytes) (todo : List Bytes) (followLast : Bool) :
    Except SystemFault (List Bytes × Option DiskEntry) :=
  match todo with
  | [] => .ok (here, d.look here)
  | name :: rest =>
    if name = [] ∨ name = [RawPath.dot] then d.follow links here rest followLast
    -- Two dots lead up from where the links have led, and the top is above itself.
    else if name = [RawPath.dot, RawPath.dot] then d.follow links here.dropLast rest followLast
    else if nameLimit < name.length then .error .nameTooLong
    else
      let there := here ++ [name]
      match d.look there with
      -- Only the last name may be missing: whoever writes there has the location.
      | none => if rest = [] then .ok (there, none) else .error .notFound
      | some (.folder _ _) => d.follow links there rest followLast
      | some (.leaf (.regular content executable)) =>
        if rest = [] then .ok (there, some (.leaf (.regular content executable)))
        else .error .notADirectory
      | some (.leaf (.link target)) =>
        -- A link that is not followed is what stands there; one with a rest always is followed.
        if rest = [] ∧ ¬ followLast then .ok (there, some (.leaf (.link target)))
        else
          match links with
          | 0 => .error .tooManyLinks
          | links + 1 =>
            if target = [] then .error .notFound
            else
              -- The target is read from the top, or else from the folder that holds the link.
              let start := if target.head? = some RawPath.slash then [] else here
              d.follow links start (target.splitOn RawPath.slash ++ rest) followLast
termination_by (links, todo.length)

/-- The location that an absolute path leads to, and what stands there. -/
def resolve (d : Disk) (path : RawPath) (followLast : Bool) :
    Except SystemFault (List Bytes × Option DiskEntry) :=
  if path.bytes.contains 0 then .error .nulInPath
  else if path.bytes = [] then .error .notFound
  else if pathLimit ≤ path.bytes.length then .error .nameTooLong
  else d.follow linkLimit [] path.pieces followLast

/-- What an absolute path leads to. -/
def stat (d : Disk) (path : RawPath) : Except SystemFault DiskEntry := do
  match ← d.resolve path true with
  | (_, some entry) => return entry
  | (_, none) => .error .notFound

/-- Whether a path leads to a regular file. -/
def isFile (d : Disk) (path : RawPath) : Bool :=
  match d.stat path with
  | .ok (.leaf _) => true
  | _ => false

/-- Whether a path leads to a folder. -/
def isFolder (d : Disk) (path : RawPath) : Bool :=
  match d.stat path with
  | .ok (.folder _ _) => true
  | _ => false

/-- The content of the file that a path leads to. -/
def read (d : Disk) (path : RawPath) : Except SystemFault Bytes := do
  match ← d.stat path with
  | .leaf (.regular content _) => return content
  | .leaf (.link _) => .error .notFound
  | .folder _ _ => .error .isADirectory

/-- The members of the folder that a path leads to. -/
def list (d : Disk) (path : RawPath) : Except SystemFault (Forest FileEntry Unit) := do
  match ← d.stat path with
  | .folder _ members => return members
  | .leaf _ => .error .notADirectory

/-- The path without links and dots that leads to the same place. -/
def canonical (d : Disk) (path : RawPath) : Except SystemFault RawPath := do
  match ← d.resolve path true with
  | (location, some _) => return if location = [] then ⟨[RawPath.slash]⟩ else rawPath location
  | (_, none) => .error .notFound

end Disk

end ThreeWay
