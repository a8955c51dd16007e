import ThreeWay.CommandLine.Execute
import ThreeWay.Storage.Load

/-!
# The program

Reads the working tree around the start of a command line from the disk, runs the command line on it, and
shows the answer.

## Main definitions

* `Main.readFolder`: A folder of the disk with everything below it.
* `Main.hostOf`: What a command line runs on.
* `main`: The program.
-/

namespace ThreeWay.Main

/-- The names of an absolute path. -/
def namesOf (path : String) : List Bytes :=
  ((Utf8.encode path).splitOn RawPath.slash).filter (· ≠ [])

/-- The path of names. -/
def pathOf (names : List Bytes) : String :=
  (Disk.rawPath names).display

/-- Where a path leads to, if it leads anywhere. -/
def placeOf? (path : String) : IO (Option String) := do
  match ← (IO.FS.realPath path).toBaseIO with
  | .ok place => return some place.toString
  | .error _ => return none

/-- The content of a file. A file that cannot be read is taken for an empty one: a disk has no such files. -/
def readFile (path : String) : IO Bytes := do
  match ← (IO.FS.readBinFile path).toBaseIO with
  | .ok content => return content.toList
  | .error _ => return []

/-- A folder of the disk with everything below it. A link is read as a link to where it leads in the end, or
    to nothing if it leads nowhere. -/
partial def readFolder (path : String) : IO (Forest FileEntry Unit) := do
  let mut found : List (Bytes × DiskEntry) := []
  for entry in ← (← IO.FS.realPath path).readDir do
    let below := path ++ "/" ++ entry.fileName
    let content : DiskEntry ← match (← entry.path.symlinkMetadata).type with
      | .dir => pure (.folder () (← readFolder below))
      | .symlink => pure (.leaf (.link (Utf8.encode ((← placeOf? below).getD ""))))
      | _ => pure (.leaf (.regular (← readFile below) false))
    found := (Utf8.encode entry.fileName, content) :: found
  return .ofEntries (ascending Prod.fst found)

/-- Whether a folder holds something with a name. -/
def holds (folder : List Bytes) (name : String) : IO Bool := do
  return (← placeOf? (pathOf (folder ++ [Utf8.encode name]))).isSome

/-- The folder around a place that holds a repository under its usual name, or is one. A folder with the
    usual name itself counts as the folder above it. -/
def rootOf (place : List Bytes) : IO (Option (List Bytes)) := do
  for above in Ignore.upwards place do
    if ← holds above gitFolderName then return some above
    let parts ← ["HEAD", "objects", "refs"].mapM (holds above)
    if parts.all id then
      return some (if above.getLast? = some (Utf8.encode gitFolderName) then above.dropLast else above)
  return none

/-- The disk that matters for a place. Where there is no repository, no file matters. -/
def diskAround (place : Option String) : IO Disk := do
  let names := (place.map namesOf).getD []
  match ← rootOf names with
  | some root => return ⟨root, ← readFolder (pathOf root)⟩
  | none => return ⟨names, .nil⟩

/-- What a command line runs on. -/
def hostOf (args : List String) : IO Host := do
  let target ← IO.getEnv "TSYNC_TARGET"
  let terminal ← (← IO.getStdout).isTty
  let ink := Ink.ofSurroundings (← IO.getEnv "CLICOLOR_FORCE") (← IO.getEnv "NO_COLOR")
    (← IO.getEnv "CLICOLOR") terminal
  let place ← match Invocation.parse args target with
    | .ok inv => if inv.command.isSome then placeOf? inv.folder else pure none
    | .error _ => pure none
  let disk ← diskAround place
  let start := (place.map RawPath.ofString).getD ⟨[]⟩
  return ⟨disk, fun _ => start, Repository.enclosing disk, target, ink⟩

/-- Show an answer and tell the exit code. -/
def answer (ink : Ink) (reply : Reply) : IO UInt32 := do
  match reply with
  | .text output => IO.print output
  | .failure e => IO.eprintln (ink.paint (.strong .red) "error" ++ ": " ++ e.message)
  | .usage => IO.eprintln "error: the arguments have no valid form\n\nFor more information, try '--help'."
  return reply.exitCode.toUInt32

end ThreeWay.Main

/-- The program. -/
def main (args : List String) : IO UInt32 := do
  let host ← ThreeWay.Main.hostOf args
  ThreeWay.Main.answer host.ink (host.run args)
