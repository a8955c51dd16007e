import ThreeWay.Disk.Hash
import ThreeWay.Ignore.Verdict
import ThreeWay.Repository.Discovery
import ThreeWay.Repository.History
import ThreeWay.Repository.Resolve
import ThreeWay.Scan
import ThreeWay.Settings.Load

/-!
# Checkouts

A repository together with its working tree and settings. A checkout answers what stands at a path in the
working tree, in the index, or at a revision.

A file of the working tree carries the id that the repository would give its content. A file of a revision
also carries the commits that changed it. What a revision records at a path may be neither a file nor a
folder; then nothing stands there.

## Main definitions

* `Checkout`: A disk, the root of the working tree, a repository and settings.
* `Checkout.enclosing`: The checkout that a place on the disk belongs to.
* `Checkout.localVariant`, `Checkout.stagedVariant`, `Checkout.namedVariant`: What stands at a path.
* `Checkout.variant`: The same at any revision.
-/

namespace ThreeWay

/-- A repository with its working tree and settings. -/
structure Checkout where
  disk : Disk
  root : RawPath
  repository : Repository
  settings : Settings

namespace Checkout

/-- The checkout that a place on the disk belongs to, with the settings found at its root. -/
def enclosing (d : Disk) (repository : Repository) (start : RawPath) :
    Except RepositoryError Checkout := do
  let root ← Discovery.workingTree d start
  match Settings.loadRoot d root with
  | .ok settings => return ⟨d, root, repository, settings⟩
  | .error e => .error (.file e)

/-- The checkout that a place on the disk belongs to, with the given settings. -/
def enclosingWith (d : Disk) (repository : Repository) (start : RawPath) (settings : Settings) :
    Except RepositoryError Checkout := do
  return ⟨d, ← Discovery.workingTree d start, repository, settings⟩

/-- Where a path lies on the disk. -/
def fileOf (c : Checkout) (path : Path) : RawPath :=
  if path.isRoot then c.root else c.root.join path.toRaw

/-- Whether a path has the name of the ignore file that is never left out. -/
def isRuleFile (c : Checkout) (path : Path) : Bool :=
  path.fileName? = some c.settings.ignoreFile

/-- What scans and listings leave out. -/
def ignoreRules (c : Checkout) : IgnoreRules where
  isIgnored := Ignore.isIgnored c.disk c.root
  isRuleFile := c.isRuleFile

/-- An answer of the repository, with its failure as an error. -/
def ask : Except RepositoryError α → Except Error α
  | .ok a => .ok a
  | .error e => .error (.repository e)

/-- An answer of the object database, with its failure as an error. -/
def askObjects : Except ObjectError α → Except Error α
  | .ok a => .ok a
  | .error e => .error (.repository (.object e))

/-- What stands at a path of the working tree. Where nothing stands, a folder that is asked for is a
    handle that does not exist. -/
def localVariant (c : Checkout) (path : Path) (folder : Bool) : Except Error (Option Variant) :=
  let file := c.fileOf path
  match c.disk.stat file with
  | .ok (.folder _ _) => .ok (some (.ofFolder (.at path .workingTree)))
  | .ok (.leaf _) => do
    let id ← askObjects (c.disk.blobId file)
    return some (.blob { Blob.at path .workingTree with contentId := some ⟨id.hex⟩ })
  | .error .notFound =>
    .ok (if folder then some (.ofFolder { Folder.at path .workingTree with present := false })
      else none)
  | .error fault => .error (.repository (.file (.io file fault)))

/-- The plain entry of the index at a path. The root and a path that no entry can have are not looked
    up. -/
def stagedEntry (c : Checkout) (path : Path) : Except Error (Option IndexEntry) :=
  match path.isRoot, path.treeNames with
  | false, .ok _ => .ok (c.repository.index.find? path.toBytes 0)
  | _, _ => .error (.unlistable path.text)

/-- What stands at a path of the index. A folder stands wherever an entry lies at or below the path, one
    of an unfinished merge too. -/
def stagedVariant (c : Checkout) (path : Path) : Except Error (Option Variant) := do
  let folder : Variant := .ofFolder (.at path .index)
  if path.isRoot then return some folder
  else
    match ← c.stagedEntry path with
    | some e => return some (.blob { Blob.at path .index with contentId := some ⟨e.id.hex⟩ })
    | none =>
      let holds := c.repository.index.any fun e => e.place.startsWith path
      return if holds then some folder else none

/-- What a commit records at a path, as a variant of a revision. -/
def recordedVariant (c : Checkout) (start : Commit) (path : Path) (spec : String) :
    Except Error (Option Variant) := do
  let revision := Revision.named spec
  match start.tree.find? (← askObjects path.treeNames) with
  | none => return none
  | some (.folder id _) =>
    return some (.ofFolder { Folder.at path revision with treeId := some ⟨id.hex⟩ })
  | some (.leaf leaf) =>
    -- Only a file has a history here. A folder is told apart by its tree id.
    if leaf.mode.isFile then
      let history ← askObjects
        (History.ancestry c.repository.objects start path c.settings.ancestryLimit)
      return some (.blob { Blob.at path revision with
        contentId := some ⟨leaf.id.hex⟩
        ancestry := some history.commits
        truncated := history.truncated })
    else return none

/-- What stands at a path of a revision. -/
def namedVariant (c : Checkout) (path : Path) (spec : String) : Except Error (Option Variant) := do
  match ← ask (c.repository.resolveCommit spec) with
  | none => return none
  | some start => c.recordedVariant start path spec

/-- What stands at a path. -/
def variant (c : Checkout) (path : Path) : Revision → Except Error (Option Variant)
  | .workingTree => c.localVariant path false
  | .index => c.stagedVariant path
  | .named spec => c.namedVariant path spec

/-- The last commit that changed a path as of a revision. -/
def lastChange (c : Checkout) (path : Path) (spec : String) : Except Error (Option CommitInfo) := do
  match ← ask (c.repository.resolveCommit spec) with
  | none => return none
  | some start => askObjects (History.lastChange c.repository.objects start path)

end Checkout

end ThreeWay
