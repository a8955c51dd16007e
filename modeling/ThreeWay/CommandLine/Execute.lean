import ThreeWay.CommandLine.Arguments
import ThreeWay.CommandLine.Text
import ThreeWay.Json.Encode
import ThreeWay.Json.Printer

/-!
# Running a command line

The answer to a command line: a text with exit code zero, a failure with exit code one, or a hint at the
usage with exit code two. Nothing is shown before a command has succeeded as a whole.

## Main definitions

* `Host`: Where a command line runs.
* `CommandError`: Why a command fails.
* `Reply`: The answer.
* `Host.run`: Running a command line.
-/

namespace ThreeWay

/-- Where a command line runs: a disk, the place on it that a given path stands for, the repositories on the
    disk, and the target that the surroundings name. -/
structure Host where
  disk : Disk
  placeOf : RawPath → RawPath
  repositoryAt : RawPath → Except RepositoryError Repository
  target : Option String
  ink : Ink

/-- Why a command fails. -/
inductive CommandError where
  | absolutePath (path : String)
  | failed (e : Error)
deriving DecidableEq

/-- The wording of a failure. -/
def CommandError.message : CommandError → String
  | .absolutePath path => s!"'{path}' must be relative to the repository root"
  | .failed e => e.message

/-- The answer to a command line. -/
inductive Reply where
  | text (output : String)
  | failure (e : CommandError)
  | usage
deriving DecidableEq

/-- The exit code of an answer. -/
def Reply.exitCode : Reply → Nat
  | .text _ => 0
  | .failure _ => 1
  | .usage => 2

namespace Host

/-- The name and the version of the program. -/
def versionText : String :=
  "tsync 0.1.0\n"

/-- What the program can do. -/
def helpText : String :=
  unlines [
    "Three-way status of a working tree against two revisions", "",
    "Usage: tsync [OPTIONS] [COMMAND]", "",
    "Commands:",
    "  status [PATHS]...  Classify paths as incoming, outgoing or conflicting",
    "  diff [PATH]        Show a hierarchical diff of a path between two revisions",
    "  changes            List working-tree changes against the source revision", "",
    "Options:",
    "  -v, --verbose          Enable verbose output",
    "  -C, --repo <REPO>      Run as if started in this directory",
    "      --source <SOURCE>  Base revision",
    "      --target <TARGET>  Remote revision",
    "      --json             Output as JSON (commands)",
    "      --left <LEFT>      Left side of the diff (diff)",
    "      --right <RIGHT>    Right side of the diff (diff)",
    "  -h, --help             Print help",
    "  -V, --version          Print version"]

/-- What is shown without a command. -/
def banner (ink : Ink) : String :=
  let name := ink.paint (.strong .green) "tsync"
  let hint := ink.paint (.plain .cyan) "tsync --help"
  unlines [s!"{name} tree-sync CLI", "", s!"Run {hint} for available commands."]

/-- The settings of a repository with what a command line overrides. -/
def override (settings : Settings) (inv : Invocation) : Settings :=
  { settings with
    source := inv.source.getD settings.source
    target := inv.target <|> settings.target }

/-- The synchronizer that a command line asks for. A place without a repository is named as it was
    given. -/
def synchronizer (h : Host) (inv : Invocation) : Except CommandError Synchronizer :=
  let given := RawPath.ofString inv.folder
  let start := h.placeOf given
  let found := do
    -- A repository without a working tree is refused before anything is read from it.
    let _ ← Discovery.workingTree h.disk start
    Checkout.enclosing h.disk (← h.repositoryAt start) start
  match found with
  | .ok c => .ok ⟨{ c with settings := override c.settings inv }, none⟩
  | .error (.notARepository _) => .error (.failed (.repository (.notARepository given)))
  | .error e => .error (.failed (.repository e))

/-- An answer of a synchronizer. -/
def ask : Except Error α → Except CommandError α
  | .ok a => .ok a
  | .error e => .error (.failed e)

/-- The verdict on a path that was given as an argument. -/
def statusOf (s : Synchronizer) (path : String) : Except CommandError StatusReport :=
  if (RawPath.ofString path).isAbsolute then .error (.absolutePath path)
  else ask (s.status (Path.ofString path))

/-- A value as it is shown. -/
def showJson (v : JsonValue) : String :=
  v.pretty ++ "\n"

/-- The text that a command shows. -/
def execute (ink : Ink) (s : Synchronizer) : Command → Except CommandError String
  | .status [] json => do
    let report ← ask s.pending.outcome
    return if json then showJson report.toJson else unlines (ink.pending s report)
  | .status paths json => do
    let reports ← paths.mapM (statusOf s)
    return if json then showJson (.list StatusReport.toJson reports) else unlines (ink.status s reports)
  | .diff path left right json => do
    let right := right.getD s.settings.sourceRevision
    let path := Path.ofString (path.getD "")
    let found ← ask (s.diff path left right).outcome
    return if json then showJson found.toJson else unlines (ink.difference found path left right)
  | .changes json => do
    let found ← ask s.scan.outcome
    let source := s.settings.source
    return if json then showJson (found.toJson source) else unlines (ink.changes found source)

/-- The answer to a command line. -/
def run (h : Host) (args : List String) : Reply :=
  match Invocation.parse args h.target with
  | .error .usage => .usage
  | .error .version => .text versionText
  | .error .help => .text helpText
  | .ok inv =>
    match inv.command with
    | none => .text (banner h.ink)
    | some command =>
      match h.synchronizer inv >>= (execute h.ink · command) with
      | .ok text => .text text
      | .error e => .failure e

end Host

end ThreeWay
