import ThreeWay.Json.Value
import ThreeWay.Synchronizer

/-!
# Answers as JSON

The JSON form of everything that a report is made of. The members of an object stand in the order of the
fields, and a field without a value is null.

## Main definitions

* `Variant.toJson`, `Status.toJson`, `CommitInfo.toJson`: The parts of a report.
* `StatusReport.toJson`, `PendingReport.toJson`: Reports.
* `DiffNode.toJson`: A difference with those below it.
* `Outcome.toJson`: What a scan found against a revision.
-/

namespace ThreeWay

/-- A list of values. -/
def JsonValue.list (f : α → JsonValue) (xs : List α) : JsonValue :=
  .array (xs.map f)

/-- The JSON form of a path. -/
def Path.toJson (p : Path) : JsonValue :=
  .string p.text

/-- The JSON form of a revision. -/
def Revision.toJson : Revision → JsonValue
  | .workingTree => .object [("kind", .string "working_tree")]
  | .index => .object [("kind", .string "index")]
  | .named spec => .object [("kind", .string "named"), ("spec", .string spec)]

/-- The JSON form of a file. -/
def Blob.toJson (b : Blob) : JsonValue :=
  .object [
    ("type", .string "blob"), ("exists", .bool b.present), ("name", .string b.name),
    ("path", b.path.toJson), ("revision", b.revision.toJson),
    ("content_id", .optional (fun id => .string id.text) b.contentId),
    ("ancestry", .optional (.list fun id => .string id.text) b.ancestry),
    ("ancestry_truncated", .bool b.truncated)]

/-- The JSON form of a folder. -/
def Folder.toJson (f : Folder) : JsonValue :=
  .object [
    ("type", .string "tree"), ("exists", .bool f.present), ("name", .string f.name),
    ("path", f.path.toJson), ("revision", f.revision.toJson),
    ("tree_id", .optional (fun id => .string id.text) f.treeId)]

/-- The JSON form of a variant. The members of a folder are left out. -/
def Variant.toJson : Variant → JsonValue
  | .blob b => b.toJson
  | .tree f _ => f.toJson

/-- The JSON word for a direction. -/
def Direction.word : Direction → String
  | .none => "none"
  | .incoming => "incoming"
  | .outgoing => "outgoing"
  | .conflicting => "conflicting"

/-- The JSON word for a kind of change. -/
def SyncChange.word : SyncChange → String
  | .inSync => "in_sync"
  | .addition => "addition"
  | .deletion => "deletion"
  | .change => "change"

/-- The JSON form of a verdict. -/
def Status.toJson (s : Status) : JsonValue :=
  .object [
    ("direction", .string s.direction.word), ("change", .string s.change.word),
    ("pseudo_conflict", .bool s.pseudo)]

/-- The JSON form of what is told about a commit. -/
def CommitInfo.toJson (c : CommitInfo) : JsonValue :=
  .object [
    ("id", .string c.id.hex), ("hash", .string c.hash), ("message", .string c.message),
    ("author", .string c.author), ("timestamp", .string c.timestamp.render)]

/-- The JSON form of the verdict on a path. -/
def StatusReport.toJson (r : StatusReport) : JsonValue :=
  .object [
    ("path", r.path.toJson), ("status", r.status.toJson),
    ("local", .optional Variant.toJson r.local), ("base", .optional Variant.toJson r.base),
    ("remote", .optional Variant.toJson r.remote),
    ("base_change", .optional CommitInfo.toJson r.baseChange),
    ("remote_change", .optional CommitInfo.toJson r.remoteChange)]

/-- The JSON form of a path that could not be inspected. -/
def Skipped.toJson (s : Skipped) : JsonValue :=
  .object [("path", s.path.toJson), ("reason", .string s.reason.message)]

/-- The JSON form of what is not in sync. -/
def PendingReport.toJson (r : PendingReport) : JsonValue :=
  .object [("entries", .list StatusReport.toJson r.entries), ("skipped", .list Skipped.toJson r.skipped)]

/-- The JSON word for a kind of difference. -/
def DiffKind.word : DiffKind → String
  | .addition => "addition"
  | .deletion => "deletion"
  | .change => "change"

mutual

/-- The JSON form of a difference with those below it. -/
def DiffNode.toJson : DiffNode → JsonValue
  | ⟨left, right, kind, children⟩ =>
    .object [
      ("left", .optional Variant.toJson left), ("right", .optional Variant.toJson right),
      ("kind", .string kind.word), ("children", .array (DiffNode.listToJson children))]

/-- The JSON forms of a list of differences. -/
def DiffNode.listToJson : List DiffNode → List JsonValue
  | [] => []
  | n :: rest => n.toJson :: DiffNode.listToJson rest

end

/-- The JSON word for how a path differs from the reference. -/
def ChangeKind.word : ChangeKind → String
  | .addition => "addition"
  | .deletion => "deletion"
  | .modification => "modification"

/-- The JSON form of a change. -/
def Change.toJson (c : Change) : JsonValue :=
  .object [
    ("display_name", .string c.displayName), ("kind", .string c.kind.word), ("path", c.path.toJson)]

/-- The JSON form of what a scan found against a revision. -/
def Outcome.toJson (o : Outcome) (source : String) : JsonValue :=
  .object [
    ("changes", .list Change.toJson o.changes), ("has_changes", .bool !o.changes.isEmpty),
    ("skipped", .list Skipped.toJson o.skipped), ("source", .string source)]

/-- The JSON form of settings. -/
def Settings.toJson (s : Settings) : JsonValue :=
  .object [
    ("source", .string s.source), ("target", .optional .string s.target),
    ("ancestry_limit", .nat s.ancestryLimit), ("ignore_file", .string s.ignoreFile),
    ("byte_compare", .bool s.byteCompare)]

end ThreeWay
