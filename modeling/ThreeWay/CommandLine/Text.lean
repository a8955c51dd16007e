import ThreeWay.CommandLine.Style
import ThreeWay.Synchronizer

/-!
# Reports as text

The lines in which the answers of a synchronizer are shown.

## Main definitions

* `Ink.status`, `Ink.pending`: Verdicts on some paths, and on all that are not in sync.
* `Ink.difference`: A difference, indented by depth.
* `Ink.changes`: What changed in the working tree.
* `unlines`: Lines as one text.
-/

namespace ThreeWay

/-- Lines as one text, each with a line break at its end. -/
def unlines (lines : List String) : String :=
  String.join (lines.map (· ++ "\n"))

namespace Ink

/-- The mark and the style of a verdict. -/
def mark (ink : Ink) (s : Status) : String × Style :=
  if s.isInSync then (ink.paint .faint "=", .faint)
  else
    match s.direction with
    | .conflicting =>
      if s.pseudo then (ink.paint (.plain .yellow) "~", .plain .yellow)
      else (ink.paint (.strong .red) "!", .plain .red)
    | .incoming => (ink.paint (.plain .cyan) "<", .plain .cyan)
    | .outgoing => (ink.paint (.plain .green) ">", .plain .green)
    | .none => (" ", .faint)

/-- The width of the column of labels. -/
def labelWidth : Nat := 28

/-- A text filled up with blanks. -/
def padded (width : Nat) (text : String) : String :=
  text ++ String.ofList (List.replicate (width - text.length) ' ')

/-- The label of a verdict, filled up to the width of its column. A verdict without a direction is shown as
    it is. -/
def label (ink : Ink) (s : Status) : String :=
  let text := padded labelWidth s.label
  if !s.isInSync && s.direction = .none then text else ink.paint (ink.mark s).2 text

/-- The line of one path. The last change on the remote side is told unless the path is in sync. -/
def line (ink : Ink) (r : StatusReport) : String :=
  let change := match r.remoteChange with
    | some c => if r.status.isInSync then "" else ink.paint .faint s!" ({c.hash} {c.message})"
    | none => ""
  s!"  {(ink.mark r.status).1} {ink.label r.status} {r.path}{change}"

/-- The lines above verdicts: the two revisions, and the branch if there is one. -/
def heading (ink : Ink) (settings : Settings) (branch : Option String) : List String :=
  let place := match branch with
    | some name => ink.paint .faint s!" (on {name})"
    | none => ""
  let title := ink.paint (.strong .blue) "Status"
  let source := ink.paint (.plain .yellow) settings.source
  let between := ink.paint .faint "vs"
  let target := ink.paint (.plain .yellow) (settings.target.getD "?")
  [s!"{title} {source} {between} {target}{place}", ""]

/-- The verdicts on some paths. -/
def status (ink : Ink) (s : Synchronizer) (reports : List StatusReport) : List String :=
  ink.heading s.settings s.checkout.repository.currentBranch? ++ reports.map ink.line

/-- The mark of good news. -/
def good (ink : Ink) : String :=
  ink.paint (.strong .green) "OK"

/-- The mark of what could not be inspected. -/
def unknown (ink : Ink) : String :=
  ink.paint (.plain .yellow) "?"

/-- The section of what could not be inspected. -/
def skippedSection (ink : Ink) (skipped : List Skipped) : List String :=
  if skipped.isEmpty then []
  else
    ["", ink.paint (.strong .yellow) "Skipped:"] ++ skipped.map fun s =>
      s!"  {ink.unknown} {s.path} ({s.reason.message})"

/-- The line that counts conflicts, where there are any. -/
def conflictSection (ink : Ink) (count : Nat) : List String :=
  let sign := ink.paint (.strong .red) "!"
  let number := ink.paint (.plain .red) (toString count)
  if count = 0 then [] else ["", s!"{sign} {number} conflicting path(s)"]

/-- All verdicts that are not in sync. -/
def pending (ink : Ink) (s : Synchronizer) (r : PendingReport) : List String :=
  if r.entries.isEmpty && r.skipped.isEmpty then [s!"{ink.good} Everything is in sync."]
  else
    ink.status s r.entries ++ ink.skippedSection r.skipped ++ ink.conflictSection r.conflicts.length

/-- The line of one node of a difference. A folder has a slash behind its name. -/
def node (ink : Ink) (n : DiffNode) : String :=
  let name := if n.isTree then n.name ++ "/" else n.name
  let (sign, signStyle, nameStyle) : String × Style × Style := match n.kind with
    | .addition => ("+", .plain .green, .plain .green)
    | .deletion => ("-", .plain .red, .plain .red)
    | .change => ("~", .plain .yellow, if n.isTree then .emphatic else .plain .yellow)
  s!"{ink.paint signStyle sign} {ink.paint nameStyle name}"

/-- A difference. If both sides are folders they are not themselves a difference; otherwise the sides come
    first and what lies below them is indented one level more. -/
def difference (ink : Ink) (n : DiffNode) (path : Path) (left right : Revision) : List String :=
  let shown := if path.isRoot then "." else path.text
  let title := ink.paint (.strong .blue) "Diff"
  let place := ink.paint (.plain .yellow) shown
  let sides := [left, right].map fun r => ink.paint (.plain .cyan) r.toString
  let heading := [title ++ " " ++ place ++ " " ++ String.intercalate ".." sides, ""]
  let below (level : Nat) := n.walk.map fun (depth, m) =>
    String.ofList (List.replicate (2 * (depth + level + 1)) ' ') ++ ink.node m
  if n.left.any Variant.isTree && n.right.any Variant.isTree then
    if n.isEmpty then heading ++ [s!"{ink.good} No differences."]
    else heading ++ below 0 ++ ["", s!"{n.size} difference(s)"]
  -- The node itself counts here, as one of its sides is a file or missing.
  else heading ++ ["  " ++ ink.node n] ++ below 1 ++ ["", s!"{n.size + 1} difference(s)"]

/-- The mark of a change of the working tree. -/
def changeMark (ink : Ink) : ChangeKind → String
  | .addition => ink.paint (.plain .green) "A"
  | .modification => ink.paint (.plain .yellow) "M"
  | .deletion => ink.paint (.plain .red) "D"

/-- What changed in the working tree. -/
def changes (ink : Ink) (o : Outcome) (source : String) : List String :=
  let title := ink.paint (.strong .blue) "Changes"
  let between := ink.paint .faint "against"
  let shown := ink.paint (.plain .yellow) source
  if o.changes.isEmpty && o.skipped.isEmpty then [s!"{ink.good} Working tree matches {shown}."]
  else
    [s!"{title} {between} {shown}", ""] ++
      (o.changes.map fun c => s!"  {ink.changeMark c.kind} {c.path}") ++
      (o.skipped.map fun s =>
        s!"  {ink.unknown} {s.path} ({ink.paint .faint s.reason.message})") ++
      ["", s!"{o.count .addition} added, {o.count .modification} modified, {o.count .deletion} deleted"]

end Ink

end ThreeWay
