import ThreeWay.Disk.Basic

/-!
# Changing a disk

Writing files, making folders and links, and removing what stands at a path. Paths are relative to the
folder of the disk; a change outside of it does nothing.

## Main definitions

* `Disk.locate`: Where a change at a path takes place.
* `Disk.write`, `Disk.makeFolder`, `Disk.link`, `Disk.remove`: The changes.
-/

namespace ThreeWay.Disk

/-- The names of a relative path that count. -/
def names (path : RawPath) : List Bytes :=
  path.pieces.filter fun piece => piece ≠ [] ∧ piece ≠ [RawPath.dot]

/-- The names below the folder at which a change takes place: where the path leads, or the path's own
    names where it leads nowhere yet. -/
def locate (d : Disk) (path : RawPath) (followLast : Bool) : List Bytes :=
  match d.resolve (d.rootPath.join path) followLast with
  | .ok (location, _) => location.drop d.place.length
  -- A folder on the way is missing, so no link is either and the names are the location.
  | .error _ => names path

/-- Put an entry at a chain of names below the folder. -/
def putAt (d : Disk) (spot : List Bytes) (entry : DiskEntry) : Disk :=
  { d with tree := d.tree.put () entry spot }

/-- Write a file, with the folders above it. A file that is written again stays executable. -/
def write (d : Disk) (path : RawPath) (content : Bytes) : Disk :=
  let place := d.locate path true
  let executable :=
    match d.tree.lookup place with
    | some (.leaf (.regular _ executable)) => executable
    | _ => false
  d.putAt place (.leaf (.regular content executable))

/-- Make a folder, with the folders above it. A folder that is there already stays. -/
def makeFolder (d : Disk) (path : RawPath) : Disk :=
  let place := d.locate path true
  match d.tree.lookup place with
  | some _ => d
  | none => d.putAt place (.folder () .nil)

/-- Make a symbolic link, with the folders above it. -/
def link (d : Disk) (path : RawPath) (target : Bytes) : Disk :=
  d.putAt (d.locate path false) (.leaf (.link target))

/-- Remove what stands at a path: a file, a link, or a folder with everything below it. -/
def remove (d : Disk) (path : RawPath) : Disk :=
  { d with tree := d.tree.delete (d.locate path false) }

end ThreeWay.Disk
