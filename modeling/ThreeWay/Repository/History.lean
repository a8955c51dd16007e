import ThreeWay.Repository.Walk
import ThreeWay.Variant

/-!
# The history of a path

The commits that changed what is recorded at a path. A commit changed a path when its entry differs from
the entries of all its parents, so a merge that took over one side's entry is left out. A commit without
parents changed every path that it records.

Entries are compared by object id. The path may lead to a folder, and the empty path stands for the
whole tree. As in a walk, a parent that the database does not have is passed over.

## Main definitions

* `Path.treeNames`: The chain of names by which a path is looked up in a tree.
* `Commit.idAt`: What a commit records at a chain of names.
* `History.touches`: Whether a commit changed what is recorded there.
* `History.commits`: The commits that did, newest first, up to a limit.
* `Ancestry`: Their ids, and whether there are more.
* `CommitInfo`: What is told about a commit.
-/

namespace ThreeWay

/-- The chain of names by which a path is looked up in a tree or in the index. A path that is absolute or
    starts above the root is refused, and so is one that holds a zero byte. -/
def Path.treeNames (p : Path) : Except ObjectError (List Bytes) :=
  if p.isAbsolute || p.segments.head? = some ['.', '.'] || p.chars.contains '\x00' then
    .error (.invalidPath p.text)
  else .ok (p.segments.map fun segment => Utf8.encode (String.ofList segment))

/-- What a commit records at a chain of names. -/
def Commit.idAt (c : Commit) (names : List Bytes) : Option ObjectId :=
  (c.tree.find? names).map TreeEntry.id

/-- What is told about a commit. -/
structure CommitInfo where
  id : ObjectId
  hash : String
  message : String
  author : String
  timestamp : Timestamp
deriving DecidableEq, Inhabited

namespace CommitInfo

/-- The number of digits of a short id. -/
def shortLength : Nat := 7

/-- What is told about a commit: its id, the first line of its message, its author and its time, as far as the
    calendar goes. -/
def ofCommit (c : Commit) : CommitInfo where
  id := c.id
  hash := c.id.short shortLength
  message := c.summary
  author := c.authorName
  timestamp := c.time.orStart

end CommitInfo

/-- The ids of the commits that changed a path, newest first, and whether older ones were left out. -/
structure Ancestry where
  commits : List CommitId
  truncated : Bool
deriving DecidableEq, Inhabited

namespace History

/-- Whether a commit changed what is recorded at a chain of names. -/
def touches (db : Database) (names : List Bytes) (c : Commit) : Bool :=
  match c.parents with
  | [] => (c.idAt names).isSome
  -- A merge that takes the path over from one of its parents did not change it.
  | parents => parents.all fun p => (db.commit? p).bind (·.idAt names) ≠ c.idAt names

/-- The commits that can be reached from a start and changed what is recorded at a chain of names. -/
def all (db : Database) (start : Commit) (names : List Bytes) : List Commit :=
  (Walk.topological db [start]).filter (touches db names)

/-- The first commits that changed a path. -/
def commits (db : Database) (start : Commit) (path : Path) (limit : Nat) :
    Except ObjectError (List Commit) := do
  return (all db start (← path.treeNames)).take limit

/-- The ids of the commits that changed a path, up to a limit. One commit more is looked for, which
    tells a history that was cut off from one that ends at the limit. -/
def ancestry (db : Database) (start : Commit) (path : Path) (limit : Nat) :
    Except ObjectError Ancestry := do
  let found ← commits db start path (limit + 1)
  return ⟨(found.take limit).map fun c => ⟨c.id.hex⟩, limit < found.length⟩

/-- The last commit that changed a path. -/
def lastChange (db : Database) (start : Commit) (path : Path) :
    Except ObjectError (Option CommitInfo) := do
  return (← commits db start path 1).head?.map CommitInfo.ofCommit

end History

end ThreeWay
