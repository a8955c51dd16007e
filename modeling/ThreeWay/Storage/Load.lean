import ThreeWay.Storage.IndexFile
import ThreeWay.Storage.Objects
import ThreeWay.Storage.References

/-!
# Loading a repository

A repository as its folder on a disk holds it.

## Main definitions

* `Repository.ofFolder`: The repository that a folder holds.
* `Repository.enclosing`: The nearest repository from a place upwards.
-/

namespace ThreeWay.Repository

/-- The repository that a folder holds. -/
def ofFolder (f : Forest FileEntry Unit) : Repository where
  objects := Storage.database ((f.find? (Utf8.encode "objects")).elim .nil (·.members))
  index := Storage.indexOf (Storage.arrayOf (Storage.contentOf f "index"))
  references := Storage.referencesOf f
  head := Storage.headOf f
  log := Storage.logOf f

/-- The nearest repository from a place upwards. -/
def enclosing (d : Disk) (start : RawPath) : Except RepositoryError Repository := do
  let folder := Disk.rawPath (← Discovery.find d start)
  match d.list folder with
  | .ok members => return ofFolder members
  | .error fault => .error (.object (.unreadable folder fault))

end ThreeWay.Repository
