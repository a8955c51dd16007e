import ThreeWay.Ascending
import ThreeWay.Disk.Basic
import ThreeWay.Run
import ThreeWay.Store.Basic

/-!
# Scanning a working tree

What changed in a folder on disk against a reference: a list of paths with the content id that each of
them had.

The walk goes through the folder in the order of names. What the reference knows and the walk meets is
taken out of the reference; what is left at the end was deleted, or lies below an ignored folder. An
ignored folder is not entered, and what the reference holds below it is forgotten, except for ignore
files: those are looked up on the disk in the end. Everything that is named like the repository's
folder is passed over.

A failure to hash one file, or to ask the ignore rules about one path, is recorded and the scan goes
on. So is a folder that cannot be walked at all, because nothing stands there or something else does. Below it the
walk reads every entry that it meets, since a disk has no entries that cannot be read.

## Main definitions

* `Reference`: Paths and content ids, in ascending order of paths.
* `IgnoreRules`: What a scan leaves out.
* `Change`, `Skipped`, `Outcome`: What a scan finds.
* `Scanner`: A folder on a disk, a way to hash files, ignore rules and a signal.
* `Scanner.scan`: The scan.
-/

namespace ThreeWay

/-- The files of an earlier state with their content ids, in ascending order of paths. -/
abbrev Reference := List (Path × ContentId)

/-- What a scan leaves out. An ignore file itself is never left out. -/
structure IgnoreRules where
  isIgnored : Path → Bool → Except Error Bool
  isRuleFile : Path → Bool

/-- Rules that leave nothing out. -/
def IgnoreRules.none : IgnoreRules where
  isIgnored _ _ := .ok false
  isRuleFile _ := false

/-- How a path differs from the reference. -/
inductive ChangeKind where
  | addition
  | deletion
  | modification
deriving DecidableEq, Inhabited

/-- A file that differs from the reference. -/
structure Change where
  path : Path
  kind : ChangeKind
deriving DecidableEq, Inhabited

/-- The last segment of the path of a change. -/
def Change.displayName (c : Change) : String :=
  c.path.fileName

/-- A path that could not be inspected, and why. -/
structure Skipped where
  path : Path
  reason : Error
deriving DecidableEq

/-- What a scan finds: changes in ascending order of paths, and what was skipped in the order in which
    it was met. -/
structure Outcome where
  changes : List Change
  skipped : List Skipped

namespace Outcome

/-- Nothing found. -/
def empty : Outcome :=
  ⟨[], []⟩

/-- Record a change; it replaces one at the same path. -/
def record (o : Outcome) (path : Path) (kind : ChangeKind) : Outcome :=
  { o with changes := insertAt Change.path ⟨path, kind⟩ o.changes }

/-- Record a path that could not be inspected. -/
def skip (o : Outcome) (path : Path) (reason : Error) : Outcome :=
  { o with skipped := o.skipped ++ [⟨path, reason⟩] }

/-- The change at the path with exactly this text. -/
def get? (o : Outcome) (text : String) : Option Change :=
  o.changes.find? (·.path.text = text)

/-- The number of changes of a kind. -/
def count (o : Outcome) (kind : ChangeKind) : Nat :=
  o.changes.countP (·.kind = kind)

end Outcome

/-- A folder on a disk, and what a scan of it needs. -/
structure Scanner where
  disk : Disk
  root : RawPath
  hash : RawPath → Except Error ContentId
  rules : IgnoreRules
  signal : Option Signal

namespace Scanner

/-- The state of a scan: what of the reference was not met yet, and what was found. -/
structure State where
  remaining : Reference
  outcome : Outcome

namespace State

/-- Record a change. -/
def record (s : State) (path : Path) (kind : ChangeKind) : State :=
  { s with outcome := s.outcome.record path kind }

/-- Record a path that could not be inspected. -/
def skip (s : State) (path : Path) (reason : Error) : State :=
  { s with outcome := s.outcome.skip path reason }

/-- Take a path out of what remains. -/
def meet (s : State) (path : Path) : State :=
  { s with remaining := s.remaining.filter (·.1 ≠ path) }

/-- Forget what remains at and below a folder, except for ignore files. -/
def forget (s : State) (folder : Path) (isRuleFile : Path → Bool) : State :=
  { s with remaining := s.remaining.filter fun (p, _) => !p.startsWith folder || isRuleFile p }

end State

/-- Ask whether a file is left out. -/
def isExcluded (c : Scanner) (path : Path) : Run (Except Error Bool) := do
  if ← Run.serve (.ruleFile path) (.ok (c.rules.isRuleFile path)) then return .ok false
  else Run.serveAny (.ignored path) (c.rules.isIgnored path false)

/-- Compare a file with the content id that it had. -/
def compare (c : Scanner) (path : Path) (file : RawPath) (expected : ContentId) (s : State) :
    Run State := do
  match ← Run.serveAny (.hash file) (c.hash file) with
  | .ok found => return if found = expected then s else s.record path .modification
  | .error e => return s.skip path e

/-- The path that a chain of names below the root stands for. -/
def pathOf (below : List Bytes) : Path :=
  Path.ofBytes ([RawPath.slash].intercalate below)

/-- The raw path of a chain of names below the root. -/
def fileOf (c : Scanner) (below : List Bytes) : RawPath :=
  c.root.join ⟨[RawPath.slash].intercalate below⟩

/-- Meet a file of the working tree. -/
def visitFile (c : Scanner) (below : List Bytes) (s : State) : Run State := do
  let path := pathOf below
  -- The reference is asked first, and the path leaves it even when the file is then skipped or
  -- excluded: only what the walk did not meet may count as deleted.
  let known := s.remaining.lookup path
  let s := s.meet path
  match ← c.isExcluded path with
  | .error e => return s.skip path e
  | .ok true => return s
  | .ok false =>
    match known with
    | none => return s.record path .addition
    | some expected => c.compare path (c.fileOf below) expected s

/-- Walk through the members of a folder. -/
def walk (c : Scanner) (above : List Bytes) : Forest FileEntry Unit → State → Run State
  | .nil, s => return s
  | .leaf name _ rest, s => do
    Run.checkpoint c.signal
    -- A file of that name points to a repository elsewhere.
    let s ← if name = Utf8.encode gitFolderName then pure s else c.visitFile (above ++ [name]) s
    c.walk above rest s
  | .folder name _ members rest, s => do
    Run.checkpoint c.signal
    let s ←
      if name = Utf8.encode gitFolderName then pure s
      else
        let path := pathOf (above ++ [name])
        match ← Run.serveAny (.ignored path) (c.rules.isIgnored path true) with
        | .ok true => pure (s.forget path c.rules.isRuleFile)
        | .ok false => c.walk (above ++ [name]) members s
        -- The folder is not entered, but its files stay in what remains and are settled one by one.
        | .error e => pure (s.skip path e)
    c.walk above rest s

/-- Settle what the walk did not meet: compare it if it is a file on the disk after all, and report a
    deletion otherwise. -/
def settle (c : Scanner) : Reference → State → Run State
  | [], s => return s
  | (path, expected) :: rest, s => do
    Run.checkpoint c.signal
    let s ← match ← c.isExcluded path with
      | .error e => pure (s.skip path e)
      | .ok true => pure s
      | .ok false =>
        let file := c.root.join path.toRaw
        -- A file below a skipped folder or behind a link is there without having been met.
        if c.disk.isFile file then c.compare path file expected s
        else pure (s.record path .deletion)
    c.settle rest s

/-- Walk through the root. A root that is no folder has no members; one that is missing is skipped. -/
def walkRoot (c : Scanner) (s : State) : Run State := do
  match c.disk.stat c.root with
  | .ok (.folder _ members) => c.walk [] members s
  -- Nothing is met, so the whole reference is left to be settled.
  | .ok (.leaf _) => return s
  | .error fault =>
    Run.checkpoint c.signal
    let reason := s!"IO error for operation on {c.root}: {fault.message}"
    return s.skip .root (.contentRead c.root.display (.other reason))

/-- Scan the folder against a reference. -/
def scan (c : Scanner) (reference : Except Error Reference) : Run Outcome := do
  let remaining ← Run.ofExcept reference
  let s ← c.walkRoot ⟨remaining, .empty⟩
  let s ← c.settle s.remaining s
  return s.outcome

end Scanner

end ThreeWay
