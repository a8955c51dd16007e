import ThreeWay.Json.Value
import ThreeWay.Text.Hex

/-!
# Printing JSON

A value over several lines: two blanks for each level, a member or an item on each line. Empty arrays
and objects stay on their line.

## Main definitions

* `JsonValue.quote`: A text between quotes, with the escapes that the format asks for.
* `JsonValue.pretty`: A value over several lines.
-/

namespace ThreeWay.JsonValue

/-- A character inside quotes. Only quotes, backslashes and control characters are escaped. -/
def escape (c : Char) : List Char :=
  if c = '"' then ['\\', '"']
  else if c = '\\' then ['\\', '\\']
  else if c = '\n' then ['\\', 'n']
  else if c = '\r' then ['\\', 'r']
  else if c = '\t' then ['\\', 't']
  else if c = Char.ofNat 8 then ['\\', 'b']
  else if c = Char.ofNat 12 then ['\\', 'f']
  else if c.toNat < 0x20 then
    ['\\', 'u', '0', '0', Hex.digit (c.toNat / 16), Hex.digit (c.toNat % 16)]
  else [c]

/-- A text between quotes. -/
def quote (s : String) : String :=
  String.ofList ('"' :: s.toList.flatMap escape ++ ['"'])

/-- The blanks in front of a line. -/
def indent (level : Nat) : String :=
  String.ofList (List.replicate (2 * level) ' ')

/-- Lines between brackets, with commas; nothing between them where there are no lines. -/
def bracket (opening closing : String) (level : Nat) (lines : List String) : String :=
  -- Empty brackets stand together, without a line between them.
  if lines.isEmpty then opening ++ closing
  else
    let inner := lines.map (indent (level + 1) ++ ·)
    opening ++ "\n" ++ String.intercalate ",\n" inner ++ "\n" ++ indent level ++ closing

mutual

/-- A value whose first line stands at a level. -/
def prettyAt (level : Nat) : JsonValue → String
  | .null => "null"
  | .bool true => "true"
  | .bool false => "false"
  | .number digits => digits
  | .string text => quote text
  | .brokenString => quote ""
  | .array items => bracket "[" "]" level (prettyItems (level + 1) items)
  | .object members => bracket "\x7b" "\x7d" level (prettyMembers (level + 1) members)

/-- The items of an array. -/
def prettyItems (level : Nat) : List JsonValue → List String
  | [] => []
  | v :: rest => prettyAt level v :: prettyItems level rest

/-- The members of an object. -/
def prettyMembers (level : Nat) : List (String × JsonValue) → List String
  | [] => []
  | (key, v) :: rest => (quote key ++ ": " ++ prettyAt level v) :: prettyMembers level rest

end

/-- A value over several lines. -/
def pretty (v : JsonValue) : String :=
  prettyAt 0 v

end ThreeWay.JsonValue
