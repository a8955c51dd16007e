import ThreeWay.Disk.Basic
import ThreeWay.Ignore.Rule
import ThreeWay.Repository.History
import ThreeWay.Settings.Basic

/-!
# Ignored paths

Whether the ignore files of a working tree leave a path out. For the path itself, and then for each
folder above it, the rules are asked in this order: the built-in ones, those of the ignore files from the
nearest folder up to the root, and those of the repository's own exclude file. Within a file the last
rule that speaks about the path decides, and the first file with such a rule decides over the others.

These are all the rules there are. A configuration could name one more file of them (`core.excludesFile`) and have
names compared without regard to case (`core.ignorecase`); no configuration is part of a working tree here, so
neither happens.

## Main definitions

* `Ignore.builtIn`: Rules that always hold.
* `Ignore.ruleFiles`: The rules of all files, in the order in which they are asked.
* `Ignore.verdict?`: What rules say about a path.
* `Ignore.isIgnored`: Whether a path is left out.
-/

namespace ThreeWay.Ignore

/-- Rules that always hold: they leave out the dots and the repository's folder. -/
def builtIn : List IgnoreRule :=
  IgnoreRule.parse [] (Utf8.encode ".\n..\n.git\n")

/-- The rules of a file on the disk; none if it cannot be read. -/
def readRules (d : Disk) (file : RawPath) (base : Bytes) : List IgnoreRule :=
  match d.read file with
  | .ok content => IgnoreRule.parse base content
  | .error _ => []

/-- The names of a folder after every step up is taken. A step up from the root stays there. -/
def settleNames (names : List Bytes) : List Bytes :=
  names.foldl (fun found name => if name = [RawPath.dot, RawPath.dot] then found.dropLast
    else found ++ [name]) []

/-- A folder and the folders above it, the nearest first and the root last. -/
def upwards (names : List Bytes) : List (List Bytes) :=
  (List.range (names.length + 1)).reverse.map names.take

/-- The rules that are asked about paths in a folder, one list for each file. -/
def ruleFiles (d : Disk) (root : RawPath) (folder : List Bytes) : List (List IgnoreRule) :=
  let inTree := (upwards (settleNames folder)).map fun names =>
    let base := names.flatMap (· ++ [RawPath.slash])
    readRules d (root.join ⟨base ++ Utf8.encode ignoreFileName⟩) base
  let exclude := (root.join (.ofString gitFolderName)).join (.ofString "info/exclude")
  builtIn :: inTree ++ [readRules d exclude []]

/-- What the rules of one file say about a path: its last rule that speaks about it decides. -/
def fileVerdict? (rules : List IgnoreRule) (names : List Bytes) (isFolder : Bool) : Option Bool :=
  (rules.reverse.find? (·.applies names isFolder)).map fun rule => !rule.negated

/-- What the rules of several files say about a path: the first file that says something decides. -/
def verdict? (files : List (List IgnoreRule)) (names : List Bytes) (isFolder : Bool) : Option Bool :=
  files.findSome? (fileVerdict? · names isFolder)

/-- Whether rules leave out a path: asked about the path first, and then about the folders above it. -/
def isLeftOut (files : List (List IgnoreRule)) (names : List Bytes) (isFolder : Bool) : Bool :=
  let folders := (upwards names.dropLast).filter (· ≠ [])
  let asked := (names, isFolder) :: folders.map fun folder => (folder, true)
  (asked.findSome? fun (names, isFolder) => verdict? files names isFolder).getD false

/-- Whether the ignore files of a working tree leave a path out. The root never is. What is a folder on
    the disk is asked about as a folder. -/
def isIgnored (d : Disk) (root : RawPath) (path : Path) (isFolder : Bool) : Except Error Bool :=
  if path.isRoot then .ok false
  else
    match path.treeNames with
    | .error e => .error (.ofObject path e)
    | .ok names =>
      let isFolder := isFolder || d.isFolder (root.join path.toRaw)
      .ok (isLeftOut (ruleFiles d root names.dropLast) names isFolder)

end ThreeWay.Ignore
