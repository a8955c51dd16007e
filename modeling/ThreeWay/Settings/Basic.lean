import ThreeWay.Error

/-!
# Settings

What a repository's settings file may say. Every field may be left out.

A settings file is read as a list of named values, whatever its format. A field that is named twice is an
error, a name that is no field is passed over.

## Main definitions

* `settingsFileNames`: Where settings are looked for, in this order.
* `ignoreFileName`, `defaultAncestryLimit`: The usual name of an ignore file and the usual cap on a history.
* `Settings`: The settings.
* `Settings.sourceRevision`, `Settings.targetRevision`: The two revisions that they name.
* `FieldReader`: How the values of one format become fields.
* `Settings.ofFields`: The settings of a list of named values.
-/

namespace ThreeWay

/-- The names under which settings are looked for, in this order. -/
def settingsFileNames : List String :=
  [".tsync.toml", ".tsync.json", ".tsync.yaml", ".tsync.yml"]

/-- The usual name of an ignore file. -/
def ignoreFileName : String := ".gitignore"

/-- The usual cap on the commits of a history. -/
def defaultAncestryLimit : Nat := 256

/-- What a repository's settings say. `source` names the base revision and `target` the remote one;
    `ancestryLimit` caps histories, `ignoreFile` is always reported by a scan, and `byteCompare` makes
    bytes decide even where ids are known. -/
structure Settings where
  source : String
  target : Option String
  ancestryLimit : Nat
  ignoreFile : String
  byteCompare : Bool
deriving DecidableEq

namespace Settings

/-- The settings of a repository that has none. -/
def default : Settings where
  source := "HEAD"
  target := none
  ancestryLimit := defaultAncestryLimit
  ignoreFile := ignoreFileName
  byteCompare := false

instance : Inhabited Settings := ⟨default⟩

/-- The base revision. -/
def sourceRevision (s : Settings) : Revision :=
  .named s.source

/-- The remote revision, if one is named. -/
def targetRevision (s : Settings) : Except RepositoryError Revision :=
  match s.target with
  | some spec => .ok (.named spec)
  | none => .error .missingTarget

/-- One more than the greatest number that a field may hold. -/
def numberLimit : Nat := 1 <<< 64

/-- The names of the fields, in the order in which a list of values gives them. -/
def fieldNames : List String :=
  ["source", "target", "ancestry_limit", "ignore_file", "byte_compare"]

end Settings

/-- How the values of one format become fields. -/
structure FieldReader (α : Type) where
  text : α → Option String
  optionalText : α → Option (Option String)
  number : α → Option Nat
  flag : α → Option Bool

namespace Settings

/-- Settings with one field set from a value; a name that is no field changes nothing. -/
def setField (r : FieldReader α) (s : Settings) (name : String) (value : α) : Option Settings :=
  match name with
  | "source" => (r.text value).map fun v => { s with source := v }
  | "target" => (r.optionalText value).map fun v => { s with target := v }
  | "ancestry_limit" =>
    (r.number value).bind fun v =>
      if v < numberLimit then some { s with ancestryLimit := v } else none
  | "ignore_file" => (r.text value).map fun v => { s with ignoreFile := v }
  | "byte_compare" => (r.flag value).map fun v => { s with byteCompare := v }
  | _ => some s

/-- Set fields one after the other. -/
def setFields (r : FieldReader α) (s : Settings) (fields : List (String × α)) : Option Settings :=
  fields.foldlM (fun s (name, value) => s.setField r name value) s

/-- Whether each field is named at most once. -/
def namesOnce (names : List String) : Bool :=
  -- Names that are no field may stand there more than once.
  fieldNames.all fun name => names.count name ≤ 1

/-- The settings of a list of named values. -/
def ofFields (r : FieldReader α) (fields : List (String × α)) : Option Settings :=
  if namesOnce (fields.map Prod.fst) then default.setFields r fields else none

/-- The settings of a list of values without names, which stand in the order of the fields. -/
def ofValues (r : FieldReader α) (values : List α) : Option Settings :=
  if values.length ≤ fieldNames.length then default.setFields r (fieldNames.zip values) else none

end Settings

end ThreeWay
