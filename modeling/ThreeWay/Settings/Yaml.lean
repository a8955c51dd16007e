import ThreeWay.Settings.Basic
import ThreeWay.Yaml.Node

/-!
# Settings in YAML

A mapping names the fields. A text field takes any scalar as it is written, while numbers and flags must
be written plainly.

## Main definitions

* `Settings.ofYaml?`: The settings that a text writes.
-/

namespace ThreeWay.Settings

/-- The full name of a tag of the format's own. -/
def yamlTag (name : String) : Option String :=
  some ("tag:yaml.org,2002:" ++ name)

/-- Whether a scalar may be read as more than text: it is plain, or a literal block with the tag of the
    type. -/
def isTyped (style : YamlStyle) (tag : Option String) (name : String) : Bool :=
  style = .plain ∨ (style = .literal ∧ tag = yamlTag name)

/-- Whether a plain scalar stands for nothing. -/
def isYamlNull (text : String) : Bool :=
  text = "null" ∨ text = "Null" ∨ text = "NULL" ∨ text = "~"

/-- The digits of a base as a number; there must be at least one. -/
def ofBase (base : Nat) (cs : List Char) : Option Nat :=
  if cs = [] then none
  else cs.foldlM (fun n c =>
    (Hex.digit? c).bind fun d => if d < base then some (n * base + d) else none) 0

/-- The natural number that a plain scalar writes: decimal without zeros in front, or with the mark of
    another base, after an optional plus sign. -/
def yamlNatural? (text : String) : Option Nat :=
  let cs := text.toList
  let unsigned := if cs.head? = some '+' then cs.tail else cs
  let padded := unsigned.head? = some '0' ∧ 1 < unsigned.length ∧ unsigned.all Char.isDigit
  match unsigned with
  | '0' :: 'x' :: digits => ofBase 16 digits
  | '0' :: 'o' :: digits => ofBase 8 digits
  | '0' :: 'b' :: digits => ofBase 2 digits
  | digits => if padded then none else ofBase 10 digits

/-- How YAML nodes become fields. -/
def yamlFields : FieldReader YamlNode where
  text
    | .scalar text _ _ => some text
    | _ => none
  optionalText
    | .scalar text style tag =>
      if tag = yamlTag "null" then
        -- The tag asks for nothing, so a text that does not write it is refused.
        if isYamlNull text then some none else none
      else if tag = none ∧ style = .plain ∧ (text = "" ∨ isYamlNull text) then some none
      else some (some text)
    | _ => none
  number
    | .scalar text style tag => if isTyped style tag "int" then yamlNatural? text else none
    | _ => none
  flag
    | .scalar text style tag =>
      if isTyped style tag "bool" then
        if text = "true" ∨ text = "True" ∨ text = "TRUE" then some true
        else if text = "false" ∨ text = "False" ∨ text = "FALSE" then some false
        else none
      else none
    | _ => none

/-- The names and values of a mapping whose keys are scalars. -/
def namedNodes (pairs : List (YamlNode × YamlNode)) : Option (List (String × YamlNode)) :=
  pairs.mapM fun (key, value) =>
    match key with
    | .scalar name _ _ => some (name, value)
    | _ => none

/-- The settings that a text writes. An empty document leaves every field out. -/
def ofYaml? (text : String) : Option Settings := do
  match ← YamlNode.parse? text.toList with
  | .mapping pairs => ofFields yamlFields (← namedNodes pairs)
  | .scalar "" .plain _ => some default
  | _ => none

end ThreeWay.Settings
