import ThreeWay.Disk.Edit
import ThreeWay.Ignore.Verdict
import ThreeWay.Repository.Basic

/-!
# Workspaces

A disk with a repository whose working tree is the folder of the disk. The files of the disk are changed
by writing them; the repository is changed by staging, committing and switching.

On the disk the repository shows as a folder with a head, objects and references, so that a search for a
repository finds it. What the repository records is not written there.

## Main definitions

* `Workspace`: A disk and a repository.
* `Workspace.prepare`: A workspace with a fresh repository.
* `Workspace.isLeftOut`: Whether the ignore files leave out a member of a folder.
* `Workspace.isTracked`, `Workspace.holdsTracked`: Whether the index has a file, or something below a folder.
* `Workspace.newFiles`: The files that are neither tracked nor left out.
-/

namespace ThreeWay

/-- A disk with a repository whose working tree is the folder of the disk. -/
structure Workspace where
  disk : Disk
  repository : Repository
deriving Inhabited

namespace Workspace

/-- The branch on which the head of a fresh repository stands. -/
def firstBranch : String := "main"

/-- The configuration of a fresh repository. -/
def configuration (bare : Bool) : String :=
  let tree := if bare then "true" else "false"
  s!"[core]\n\trepositoryformatversion = 0\n\tfilemode = true\n\tbare = {tree}\n"

/-- The files of a fresh repository, with their content. -/
def freshFiles (bare : Bool) : List (String × String) :=
  [("HEAD", s!"ref: {Repository.branchName firstBranch}\n"), ("config", configuration bare),
    ("info/exclude", "")]

/-- The folders of a fresh repository. -/
def freshFolders : List String :=
  ["objects/info", "objects/pack", "refs/heads", "refs/tags"]

/-- A disk with a fresh repository: in a folder of its own, or in the folder of the disk itself if the
    repository is bare. -/
def lay (d : Disk) (bare : Bool) : Disk :=
  let folder := RawPath.ofString (if bare then "" else gitFolderName)
  let withFiles := (freshFiles bare).foldl (fun d (name, text) =>
    d.write (folder.join (.ofString name)) (Utf8.encode text)) d
  freshFolders.foldl (fun d name => d.makeFolder (folder.join (.ofString name))) withFiles

/-- A workspace with a fresh repository. -/
def prepare (d : Disk) (bare : Bool) : Workspace where
  disk := lay d bare
  repository := .empty firstBranch

/-- Whether a name is reserved for the repository, in any case of letters. -/
def isReserved (name : Bytes) : Bool :=
  (Utf8.decodeLossy name).toLower = gitFolderName

/-- The path of a chain of names, as the index has it. -/
def pathOf (names : List Bytes) : Bytes :=
  [RawPath.slash].intercalate names

/-- Whether the ignore files leave out a member of a folder. Where they do not speak about the member, it
    fares like the folder. -/
def isLeftOut (w : Workspace) (above : List Bytes) (leftOut : Bool) (name : Bytes) (isFolder : Bool) :
    Bool :=
  let files := Ignore.ruleFiles w.disk w.disk.rootPath above
  (Ignore.verdict? files (above ++ [name]) isFolder).getD leftOut

/-- Whether the index has a file. -/
def isTracked (w : Workspace) (names : List Bytes) : Bool :=
  w.repository.index.any (·.path = pathOf names)

/-- Whether the index has something below a folder. -/
def holdsTracked (w : Workspace) (names : List Bytes) : Bool :=
  w.repository.index.any fun e => Index.isBelow e.path (pathOf names)

/-- Whether a folder holds a repository of its own. -/
def isForeign (members : Forest FileEntry Unit) : Bool :=
  (members.find? (Utf8.encode gitFolderName)).isSome

/-- The files of a folder that are neither tracked nor left out, as chains of names. A folder that is left
    out, or that holds a repository of its own, is entered only for what is tracked below it. -/
def newFiles (w : Workspace) (above : List Bytes) (leftOut : Bool) :
    Forest FileEntry Unit → List (List Bytes)
  | .nil => []
  | .leaf name _ rest =>
    let names := above ++ [name]
    let others := w.newFiles above leftOut rest
    if isReserved name || w.isTracked names || w.isLeftOut above leftOut name false then others
    else names :: others
  | .folder name _ members rest =>
    let names := above ++ [name]
    let others := w.newFiles above leftOut rest
    if isReserved name then others
    else
      let hidden := w.isLeftOut above leftOut name true
      -- A hidden folder is entered for what is tracked, and what is new there stays hidden with it.
      if w.holdsTracked names || !(hidden || isForeign members) then
        w.newFiles names hidden members ++ others
      else others

end Workspace

end ThreeWay
