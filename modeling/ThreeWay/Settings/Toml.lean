import ThreeWay.Settings.Basic
import ThreeWay.Toml.Parser

/-!
# Settings in TOML

The keys of the document's top table name the fields.

## Main definitions

* `Settings.ofToml?`: The settings that a text writes.
-/

namespace ThreeWay.Settings

/-- How TOML values become fields. The format has no null, so an optional text is a text. -/
def tomlFields : FieldReader TomlNode where
  text
    | .string text => some text
    | _ => none
  optionalText
    | .string text => some (some text)
    | _ => none
  number
    | .integer (.ofNat n) => some n
    | _ => none
  flag
    | .boolean value => some value
    | _ => none

/-- The settings that a text writes. -/
def ofToml? (text : String) : Option Settings := do
  let entries ← TomlNode.parse? text.toList
  ofFields tomlFields entries

end ThreeWay.Settings
