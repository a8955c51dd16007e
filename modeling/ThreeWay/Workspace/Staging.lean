import ThreeWay.Workspace.Basic

/-!
# Staging

Taking the state of files on the disk into the index. A file is recorded with its mode; a link is recorded
as the text it leads to. Staging a file settles an unfinished merge of it, and staging a path at which
no file stands takes the path out of the index.

## Main definitions

* `recorded`: What the index records for a file.
* `Workspace.stage`: Take one path into the index.
* `Workspace.stageAll`: Take every change into the index.
-/

namespace ThreeWay

/-- What the index records for a file: its mode and the content behind its id. -/
def recorded : FileEntry → LeafMode × Bytes
  | .regular content executable => (if executable then .executable else .regular, content)
  | .link target => (.link, target)

namespace Workspace

/-- Put an entry with the given content into the index. -/
def stageContent (w : Workspace) (path : Bytes) (mode : LeafMode) (content : Bytes) : Workspace :=
  { w with repository := { w.repository with
      objects := w.repository.objects.recordBlob content
      index := w.repository.index.stage path mode (.ofBlob content) } }

/-- Take a path out of the index. -/
def unstage (w : Workspace) (path : Bytes) : Workspace :=
  { w with repository := { w.repository with index := w.repository.index.remove path } }

/-- Take one path into the index. A submodule stays while a folder stands in its place. -/
def stage (w : Workspace) (names : List Bytes) : Workspace :=
  let path := pathOf names
  match w.disk.tree.lookup names with
  | some (.leaf file) =>
    let (mode, content) := recorded file
    w.stageContent path mode content
  | some (.folder _ _) =>
    let isSubmodule := (w.repository.index.find? path 0).any (·.mode = .submodule)
    if isSubmodule then w else w.unstage path
  | none => w.unstage path

/-- Take every change into the index: of the files that are in it, and of those that are new and not left
    out. -/
def stageAll (w : Workspace) : Workspace :=
  let tracked := w.repository.index.map IndexEntry.names
  let found := w.newFiles [] false w.disk.tree
  (tracked ++ found).foldl stage w

end Workspace

end ThreeWay
