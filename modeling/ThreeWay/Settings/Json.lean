import ThreeWay.Json.Parser
import ThreeWay.Settings.Basic

/-!
# Settings in JSON

An object names the fields; an array gives their values in order.

## Main definitions

* `Settings.ofJson?`: The settings that a text writes.
-/

namespace ThreeWay.Settings

/-- How JSON values become fields. -/
def jsonFields : FieldReader JsonValue where
  text
    | .string text => some text
    | _ => none
  optionalText
    | .null => some none
    | .string text => some (some text)
    | _ => none
  number := JsonValue.natural?
  flag
    | .bool value => some value
    | _ => none

/-- The settings that a text writes. -/
def ofJson? (text : String) : Option Settings :=
  match JsonValue.parse? text.toList with
  | some (.object members) => ofFields jsonFields members
  | some (.array items) => ofValues jsonFields items
  | _ => none

end ThreeWay.Settings
