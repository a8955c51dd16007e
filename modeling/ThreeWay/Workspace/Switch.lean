import ThreeWay.Workspace.Staging

/-!
# Switching

Putting the head on another branch, with the index and the working tree forced to what the branch records.
Tracked files that the branch does not have go away, and so do new files; files that are left out by the
ignore files stay where the branch leaves room for them.

A folder in which nothing is tracked goes away as a whole as soon as it holds one new file, and stays as a
whole if it holds nothing but what is left out.

## Main definitions

* `Workspace.kept`: What stays of a folder.
* `Workspace.restore`: A forest with the files of a tree put into it.
* `Workspace.switch`: The switch.
-/

namespace ThreeWay.Workspace

/-- Whether something in a folder is left out. -/
def holdsHidden (w : Workspace) (above : List Bytes) (leftOut : Bool) : Forest FileEntry Unit → Bool
  | .nil => false
  | .leaf name _ rest =>
    w.isLeftOut above leftOut name false || w.holdsHidden above leftOut rest
  | .folder name _ members rest =>
    let hidden := w.isLeftOut above leftOut name true
    hidden || w.holdsHidden (above ++ [name]) hidden members || w.holdsHidden above leftOut rest

/-- Whether a folder in which nothing is tracked stays as a whole. -/
def staysWhole (w : Workspace) (names : List Bytes) (hidden : Bool) (members : Forest FileEntry Unit) :
    Bool :=
  hidden || isForeign members ||
    ((w.newFiles names hidden members).isEmpty && w.holdsHidden names hidden members)

/-- Whether a tree has a folder at the end of a chain of names. -/
def hasFolder (target : Tree) (names : List Bytes) : Bool :=
  (target.find? names).any Forest.Entry.isFolder

/-- What stays of a folder when a tree is about to be put into it. -/
def kept (w : Workspace) (target : Tree) (above : List Bytes) (leftOut : Bool) :
    Forest FileEntry Unit → Forest FileEntry Unit
  | .nil => .nil
  | .leaf name file rest =>
    let others := w.kept target above leftOut rest
    let stays := isReserved name ||
      (w.isLeftOut above leftOut name false && !w.isTracked (above ++ [name]))
    if stays then .leaf name file others else others
  | .folder name value members rest =>
    let names := above ++ [name]
    let others := w.kept target above leftOut rest
    if isReserved name then .folder name value members others
    else
      let hidden := w.isLeftOut above leftOut name true
      if w.holdsTracked names || hasFolder target names then
        match w.kept target names hidden members with
        -- Nothing of the folder stays, so the folder does not either.
        | .nil => others
        | below => .folder name value below others
      else if w.staysWhole names hidden members then .folder name value members others
      else others

/-- The file that a leaf of a tree records. A submodule is no file. -/
def fileOf (objects : Database) (leaf : Leaf) : Option FileEntry :=
  let content := (objects.blob? leaf.id).getD []
  match leaf.mode with
  | .regular => some (.regular content false)
  | .executable => some (.regular content true)
  | .link => some (.link content)
  | .submodule => none

/-- A forest with the files of a tree put into it. A submodule is a folder of its own. -/
def restore (objects : Database) (target : Tree) (f : Forest FileEntry Unit) : Forest FileEntry Unit :=
  target.leaves.foldl (fun f (names, leaf) =>
    match fileOf objects leaf, f.lookup names with
    | some file, _ => f.put () (.leaf file) names
    | none, some (.folder _ _) => f
    | none, _ => f.put () (.folder () .nil) names) f

/-- Put the head on a branch, and force the index and the working tree to what a tree records. -/
def switch (w : Workspace) (branch : String) (target : Tree) : Workspace where
  disk := { w.disk with
    tree := restore w.repository.objects target (w.kept target [] false w.disk.tree) }
  repository := { w.repository.switch (.branch (Repository.branchName branch)) with
    index := .ofTree target }

end ThreeWay.Workspace
