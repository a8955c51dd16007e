import ThreeWay.Json.Value
import ThreeWay.Text.Hex
import ThreeWay.Text.Reader

/-!
# Reading JSON

The strict grammar of the format: no comments, no trailing commas, no leading zeros, nothing after the
value but blanks, and only the escapes that the format names.

## Main definitions

* `JsonValue.parse?`: The value that a text writes.
* `JsonValue.natural?`: The number of a value that is written with digits only.
-/

namespace ThreeWay.JsonValue

/-- Whether a character may stand between values. -/
def isBlank (c : Char) : Bool :=
  c = ' ' ∨ c = '\n' ∨ c = '\r' ∨ c = '\t'

/-- Take blanks. -/
def blanks : Reader Unit := do
  let _ ← Reader.takeWhile isBlank

/-- One piece of a string: a 16-bit unit written as an escape, or a character that stands for
    itself. -/
inductive Piece where
  | unit (n : Nat)
  | char (c : Char)

/-- The value of four hexadecimal digits. -/
def readUnit : Reader Nat := do
  let digits ← Reader.takeExactly 4 fun c => (Hex.digit? c).isSome
  return digits.foldl (fun n c => n * 16 + (Hex.digit? c).getD 0) 0

/-- What follows a backslash. -/
def readEscape : Reader Piece := do
  match ← Reader.next with
  | '"' => return .char '"'
  | '\\' => return .char '\\'
  | '/' => return .char '/'
  | 'b' => return .char (Char.ofNat 8)
  | 'f' => return .char (Char.ofNat 12)
  | 'n' => return .char '\n'
  | 'r' => return .char '\r'
  | 't' => return .char '\t'
  | 'u' => return .unit (← readUnit)
  | _ => failure

/-- The characters that pieces write. Two units that make a surrogate pair are one character; half a
    pair is none. -/
def joinPieces : List Piece → Option (List Char)
  | [] => some []
  | .char c :: rest => (c :: ·) <$> joinPieces rest
  | .unit n :: rest =>
    if n < 0xD800 ∨ 0xDFFF < n then (Char.ofNat n :: ·) <$> joinPieces rest
    else
      match rest with
      | .unit m :: rest =>
        if n < 0xDC00 ∧ 0xDC00 ≤ m ∧ m ≤ 0xDFFF then
          (Char.ofNat (0x10000 + (n - 0xD800) * 0x400 + (m - 0xDC00)) :: ·) <$> joinPieces rest
        else none
      | _ => none

/-- What follows the opening quote of a string, up to and with the closing one. Control characters must
    be escaped. -/
def readPieces : Reader (List Piece) :=
  Reader.many do
    match ← Reader.next with
    | '"' => return none
    | '\\' => some <$> readEscape
    | c => if c.toNat < 0x20 then failure else return some (.char c)

/-- A string, from its opening quote on; `none` where it holds half a surrogate pair. -/
def readString : Reader (Option String) := do
  Reader.expect "\""
  -- Half a pair is no failure of the syntax, so the text goes on behind such a string.
  return (joinPieces (← readPieces)).map String.ofList

/-- The digits after a point, if there is one. -/
def readFraction : Reader (List Char) := do
  if ← Reader.accept "." then return '.' :: (← Reader.takeWhile1 Char.isDigit) else return []

/-- The sign of an exponent. -/
def readSign : Reader (List Char) := do
  if ← Reader.accept "-" then return ['-']
  if ← Reader.accept "+" then return ['+']
  return []

/-- An exponent, if there is one. -/
def readExponent : Reader (List Char) := do
  match ← Reader.peek with
  | some 'e' | some 'E' =>
    let mark ← Reader.next
    let sign ← readSign
    return mark :: sign ++ (← Reader.takeWhile1 Char.isDigit)
  | _ => return []

/-- The digits of a number. A zero in front stands alone. -/
def readNumber : Reader String := do
  let sign := if ← Reader.accept "-" then ['-'] else []
  let whole ← Reader.takeWhile1 Char.isDigit
  -- A zero in front of other digits is no number.
  if whole.head? = some '0' ∧ whole.length ≠ 1 then failure
  let fraction ← readFraction
  let exponent ← readExponent
  return String.ofList (sign ++ whole ++ fraction ++ exponent)

mutual

/-- A value, of at most `n` characters. -/
def readValue : Nat → Reader JsonValue
  | 0 => failure
  | n + 1 => do
    blanks
    match ← Reader.peek with
    | some '"' =>
      match ← readString with
      | some text => return .string text
      | none => return .brokenString
    | some '[' =>
      Reader.expect "["
      blanks
      if ← Reader.accept "]" then return .array [] else return .array (← readItems n)
    | some '{' =>
      Reader.expect "\x7b"
      blanks
      if ← Reader.accept "\x7d" then return .object [] else return .object (← readMembers n)
    | some 'n' => Reader.expect "null"; return .null
    | some 't' => Reader.expect "true"; return .bool true
    | some 'f' => Reader.expect "false"; return .bool false
    | _ => return .number (← readNumber)

/-- The items of an array, up to and with the closing bracket. -/
def readItems : Nat → Reader (List JsonValue)
  | 0 => failure
  | n + 1 => do
    let item ← readValue n
    blanks
    if ← Reader.accept "," then return item :: (← readItems n)
    Reader.expect "]"
    return [item]

/-- The members of an object, up to and with the closing brace. -/
def readMembers : Nat → Reader (List (String × JsonValue))
  | 0 => failure
  | n + 1 => do
    blanks
    match ← readString with
    | none => failure
    | some key =>
      blanks
      Reader.expect ":"
      let value ← readValue n
      blanks
      if ← Reader.accept "," then return (key, value) :: (← readMembers n)
      Reader.expect "\x7d"
      return [(key, value)]

end

/-- The value that a text writes. -/
def parse? (text : List Char) : Option JsonValue :=
  Reader.readAll (do let v ← readValue (2 * text.length + 2); blanks; return v) text

/-- The number of a value that is written with digits only. -/
def natural? : JsonValue → Option Nat
  | .number digits =>
    if digits.toList.all Char.isDigit then some (decimal digits.toList) else none
  | _ => none

end ThreeWay.JsonValue
