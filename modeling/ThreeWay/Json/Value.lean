/-!
# JSON values

The values of the JSON format. An object keeps its members in the order in which they are written, and
a number keeps its digits.

A text may write half of a surrogate pair, which is no character. Such a text is a value of its own, so
that a reader may pass over it without accepting it as text.

## Main definitions

* `JsonValue`: A value.
-/

namespace ThreeWay

/-- A value of the JSON format. -/
inductive JsonValue where
  | null
  | bool (value : Bool)
  | number (digits : String)
  | string (text : String)
  | brokenString
  | array (items : List JsonValue)
  | object (members : List (String × JsonValue))
deriving Inhabited

namespace JsonValue

/-- A natural number. -/
def nat (n : Nat) : JsonValue :=
  .number (toString n)

/-- An optional value, null where there is none. -/
def optional (f : α → JsonValue) : Option α → JsonValue
  | none => .null
  | some a => f a

end JsonValue

end ThreeWay
