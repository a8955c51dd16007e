import ThreeWay.Text.Hex
import ThreeWay.Text.Reader
import ThreeWay.Toml.Document

/-!
# Reading TOML

Version 1.0 of the format. A document is read line by line: a key with a value, a header, a double header,
or nothing. Strings, numbers, dates and times are checked to the last digit, since a document with one
bad value is refused as a whole.

## Main definitions

* `TomlNode.parse?`: The entries of the document that a text writes.
-/

namespace ThreeWay.TomlNode

/-- A blank within a line. -/
def isBlank (c : Char) : Bool :=
  c = ' ' ∨ c = '\t'

/-- Whether a character may stand in a comment. -/
def isCommentChar (c : Char) : Bool :=
  c = '\t' ∨ (0x20 ≤ c.toNat ∧ c.toNat ≠ 0x7F)

/-- Whether a character may stand in a bare key. -/
def isKeyChar (c : Char) : Bool :=
  c.isAlphanum ∨ c = '_' ∨ c = '-'

/-- Take blanks within a line. -/
def blanks : Reader Unit := do
  let _ ← Reader.takeWhile isBlank

/-- Take the end of a line, if it comes next. -/
def newline : Reader Bool := do
  if ← Reader.accept "\n" then return true
  Reader.accept "\x0d\n"

/-- Take a comment, if one comes next. -/
def comment : Reader Unit := do
  if ← Reader.accept "#" then
    let _ ← Reader.takeWhile isCommentChar

/-- Take blanks, comments and ends of lines. -/
def blankLines : Reader Unit := do
  let _ ← Reader.many do
    blanks
    comment
    if ← newline then return some () else return none

/-- The number that hexadecimal digits write. -/
def hexadecimal (digits : List Char) : Nat :=
  digits.foldl (fun n c => n * 16 + (Hex.digit? c).getD 0) 0

/-- A character written by its number with `n` digits. -/
def readCodePoint (n : Nat) : Reader Char := do
  let digits ← Reader.takeExactly n fun c => (Hex.digit? c).isSome
  let code := hexadecimal digits
  if code < 0xD800 ∨ (0xDFFF < code ∧ code < 0x110000) then return Char.ofNat code else failure

/-- What follows a backslash. -/
def readEscape : Reader Char := do
  match ← Reader.next with
  | 'b' => return Char.ofNat 8
  | 't' => return '\t'
  | 'n' => return '\n'
  | 'f' => return Char.ofNat 12
  | 'r' => return '\r'
  | '"' => return '"'
  | '\\' => return '\\'
  | 'u' => readCodePoint 4
  | 'U' => readCodePoint 8
  | _ => failure

/-- Whether a character may stand for itself in a string. -/
def isStringChar (c : Char) : Bool :=
  isCommentChar c

/-- A string on one line between double quotes, after the opening one. -/
def readBasic : Reader (List Char) :=
  Reader.many do
    match ← Reader.next with
    | '"' => return none
    | '\\' => some <$> readEscape
    | c => if isStringChar c then return some c else failure

/-- A string on one line between single quotes, after the opening one. -/
def readLiteral : Reader (List Char) :=
  Reader.many do
    match ← Reader.next with
    | '\'' => return none
    | c => if isStringChar c then return some c else failure

/-- How many quotes come next, at most five: three close a string, and up to two more belong to it. -/
def quoteRun (quote : Char) : Reader Nat := do
  return min 5 ((← Reader.rest).takeWhile (· = quote)).length

/-- Blanks and ends of lines after a backslash at the end of a line. -/
def readContinuation : Reader Unit := do
  blanks
  if !(← newline) then failure
  let _ ← Reader.many do
    blanks
    if ← newline then return some () else return none

/-- One step of a string over several lines: characters, or its end. -/
def multiLineStep (quote : Char) (escapes : Bool) : Reader (Option (List Char) × Bool) := do
  let quotes ← quoteRun quote
  if 3 ≤ quotes then
    let _ ← Reader.takeExactly quotes fun _ => true
    -- The last three close the string, and what stands in front of them belongs to it.
    return (some (List.replicate (quotes - 3) quote), true)
  if ← newline then return (some ['\n'], false)
  match ← Reader.next with
  | '\\' =>
    if escapes then
      match ← Reader.peek with
      | some c =>
        if isBlank c ∨ c = '\n' ∨ c = '\r' then
          readContinuation
          return (some [], false)
        else return (some [← readEscape], false)
      | none => failure
    else return (some ['\\'], false)
  | c => if isStringChar c then return (some [c], false) else failure

/-- The steps of a string over several lines, at most `n`. -/
def multiLineFrom (quote : Char) (escapes : Bool) : Nat → Reader (List Char)
  | 0 => failure
  | n + 1 => do
    let (chars, closed) ← multiLineStep quote escapes
    let chars := chars.getD []
    if closed then return chars
    return chars ++ (← multiLineFrom quote escapes n)

/-- A string over several lines, after its opening quotes. The end of the first line does not count. -/
def readMultiLine (quote : Char) (escapes : Bool) : Reader (List Char) := do
  let _ ← newline
  multiLineFrom quote escapes ((← Reader.rest).length + 1)

/-- A string in any of the four forms. -/
def readString : Reader String := do
  if ← Reader.accept "\"\"\"" then return String.ofList (← readMultiLine '"' true)
  if ← Reader.accept "\"" then return String.ofList (← readBasic)
  if ← Reader.accept "'''" then return String.ofList (← readMultiLine '\'' false)
  Reader.expect "'"
  return String.ofList (← readLiteral)

/-- One name of a key: bare, or a string on one line. -/
def readName : Reader String := do
  if ← Reader.accept "\"" then return String.ofList (← readBasic)
  if ← Reader.accept "'" then return String.ofList (← readLiteral)
  return String.ofList (← Reader.takeWhile1 isKeyChar)

/-- The names of a dotted key after the first one. -/
def readMoreNames : Reader (List String) :=
  Reader.many do
    blanks
    if ← Reader.accept "." then
      blanks
      some <$> readName
    else return none

/-- A key: names with dots between them. -/
def readKey : Reader (List String) := do
  blanks
  let first ← readName
  let more ← readMoreNames
  return first :: more

/-- Digits for which a test holds, with single underscores between them. -/
def readDigits (isDigit : Char → Bool) : Reader (List Char) := do
  let text ← Reader.takeWhile1 fun c => isDigit c ∨ c = '_'
  let groups := text.splitOn '_'
  if groups.any List.isEmpty then failure
  return groups.flatten

/-- The number that digits of a base write. -/
def ofDigits (base : Nat) (digits : List Char) : Nat :=
  digits.foldl (fun n c => n * base + (Hex.digit? c).getD 0) 0

/-- An integer, if it lies within 64 bits. -/
def integer? (n : Int) : Reader TomlNode :=
  if -(1 <<< 63) ≤ n ∧ n < 1 <<< 63 then return .integer n else failure

/-- Whether the text goes on with the fraction or the exponent of a float. -/
def atFloatPart : Reader Bool := do
  let following ← Reader.peek
  return following = some '.' ∨ following = some 'e' ∨ following = some 'E'

/-- The fraction and the exponent of a float. -/
def readFloatPart : Reader Unit := do
  if ← Reader.accept "." then
    let _ ← readDigits Char.isDigit
  match ← Reader.peek with
  | some 'e' | some 'E' =>
    let _ ← Reader.next
    if !(← Reader.accept "+") then
      let _ ← Reader.accept "-"
    let _ ← readDigits Char.isDigit
  | _ => return ()

/-- A decimal integer or a float. -/
def readDecimal : Reader TomlNode := do
  let negative ← Reader.accept "-"
  if !negative then
    let _ ← Reader.accept "+"
  if ← Reader.accept "inf" then return .float
  if ← Reader.accept "nan" then return .float
  let digits ← readDigits Char.isDigit
  -- Zeros in front are refused in floats too, so this stands before the fraction.
  if digits.head? = some '0' ∧ digits.length ≠ 1 then failure
  if ← atFloatPart then
    readFloatPart
    return .float
  let n : Int := decimal digits
  integer? (if negative then -n else n)

/-- A number of any form. -/
def readNumber : Reader TomlNode := do
  let radix (base : Nat) (isDigit : Char → Bool) : Reader TomlNode := do
    let digits ← readDigits isDigit
    integer? (ofDigits base digits)
  if ← Reader.accept "0x" then radix 16 fun c => (Hex.digit? c).isSome
  else if ← Reader.accept "0o" then radix 8 fun c => ((Hex.digit? c).getD 16) < 8
  else if ← Reader.accept "0b" then radix 2 fun c => ((Hex.digit? c).getD 16) < 2
  else readDecimal

/-- A number of exactly `n` digits within bounds. -/
def readField (n low high : Nat) : Reader Nat := do
  let value := decimal (← Reader.takeExactly n Char.isDigit)
  if low ≤ value ∧ value ≤ high then return value else failure

/-- The days of a month. -/
def daysIn (year month : Nat) : Nat :=
  if month = 2 then
    if year % 4 = 0 ∧ (year % 100 ≠ 0 ∨ year % 400 = 0) then 29 else 28
  else if month = 4 ∨ month = 6 ∨ month = 9 ∨ month = 11 then 30
  else 31

/-- A date. -/
def readDate : Reader Unit := do
  let year ← readField 4 0 9999
  Reader.expect "-"
  let month ← readField 2 1 12
  Reader.expect "-"
  let _ ← readField 2 1 (daysIn year month)

/-- A time of day, with an optional fraction of a second. -/
def readTime : Reader Unit := do
  let _ ← readField 2 0 23
  Reader.expect ":"
  let _ ← readField 2 0 59
  Reader.expect ":"
  let _ ← readField 2 0 60
  if ← Reader.accept "." then
    let _ ← Reader.takeWhile1 Char.isDigit

/-- The distance from universal time, if it is given. -/
def readOffset : Reader Unit := do
  match ← Reader.peek with
  | some 'Z' | some 'z' =>
    let _ ← Reader.next
  | some '+' | some '-' =>
    let _ ← Reader.next
    let _ ← readField 2 0 23
    Reader.expect ":"
    let _ ← readField 2 0 59
  | _ => return ()

/-- The time after a date, if there is one. A blank may stand in front of it only if a time follows. -/
def readTimeAfterDate : Reader Unit := do
  match ← Reader.rest with
  | 'T' :: _ | 't' :: _ =>
    let _ ← Reader.next
    readTime
    readOffset
  -- A blank and no digit is the end of the value, so nothing is taken.
  | ' ' :: c :: _ =>
    if c.isDigit then
      let _ ← Reader.next
      readTime
      readOffset
  | _ => return ()

/-- Whether the text goes on with digits and then a mark. -/
def startsWithDigits (n : Nat) (mark : Char) : Reader Bool := do
  let text ← Reader.rest
  return (text.take n).length = n ∧ (text.take n).all Char.isDigit ∧ text[n]? = some mark

/-- A number, a date or a time. -/
def readNumeric : Reader TomlNode := do
  if ← startsWithDigits 4 '-' then
    readDate
    readTimeAfterDate
    return .dateTime
  if ← startsWithDigits 2 ':' then
    readTime
    return .dateTime
  readNumber

/-- How deep values may be nested. -/
def nestingLimit : Nat := 80

mutual

/-- A value, nested at most `levels` deep. -/
def readValue (levels : Nat) : Nat → Reader TomlNode
  | 0 => failure
  | n + 1 => do
    match ← Reader.peek with
    | some '"' | some '\'' => return .string (← readString)
    | some '[' =>
      Reader.expect "["
      if levels = 0 then failure
      return .array (← readItems (levels - 1) n)
    | some '{' =>
      Reader.expect "\x7b"
      if levels = 0 then failure
      blanks
      if ← Reader.accept "\x7d" then return .inline []
      return .inline (← readPairs (levels - 1) n [])
    | some 't' => Reader.expect "true"; return .boolean true
    | some 'f' => Reader.expect "false"; return .boolean false
    | _ => readNumeric

/-- The items of an array, up to and with the closing bracket. -/
def readItems (levels : Nat) : Nat → Reader (List TomlNode)
  | 0 => failure
  | n + 1 => do
    blankLines
    if ← Reader.accept "]" then return []
    let item ← readValue levels n
    blankLines
    if ← Reader.accept "," then return item :: (← readItems levels n)
    Reader.expect "]"
    return [item]

/-- The keys and values of a table between braces, up to and with the closing brace. -/
def readPairs (levels : Nat) : Nat → Entries → Reader Entries
  | 0, _ => failure
  | n + 1, entries => do
    let key ← readKey
    blanks
    Reader.expect "="
    blanks
    let value ← readValue levels n
    -- A table in braces takes its keys like a table under a header, one after the other.
    match defineKey .header entries key value with
    | none => failure
    | some entries =>
      blanks
      if ← Reader.accept "," then readPairs levels n entries
      else
        Reader.expect "\x7d"
        return entries

end

/-- What is left of a line after a key or a header: blanks, a comment, and its end. -/
def endOfLine : Reader Unit := do
  blanks
  comment
  if (← Reader.rest).isEmpty then return ()
  if ← newline then return () else failure

/-- A document so far, and the header that the next keys stand under. -/
structure Progress where
  document : Entries
  header : List String

/-- Read one line. -/
def readLine (p : Progress) : Reader Progress := do
  blanks
  match ← Reader.rest with
  | [] | '#' :: _ | '\n' :: _ | '\r' :: _ =>
    endOfLine
    return p
  | '[' :: '[' :: _ =>
    Reader.expect "[["
    let path ← readKey
    blanks
    Reader.expect "]]"
    endOfLine
    match appendTable p.document path with
    | some document => return ⟨document, path⟩
    | none => failure
  | '[' :: _ =>
    Reader.expect "["
    let path ← readKey
    blanks
    Reader.expect "]"
    endOfLine
    match defineTable p.document path with
    | some document => return ⟨document, path⟩
    | none => failure
  | text =>
    let key ← readKey
    blanks
    Reader.expect "="
    blanks
    let value ← readValue nestingLimit (2 * text.length + 2)
    endOfLine
    match defineBelow p.document p.header key value with
    | some document => return { p with document }
    | none => failure

/-- Read lines, at most `n`, until the text is used up. -/
def readLines : Nat → Progress → Reader Entries
  | 0, _ => failure
  | n + 1, p => do
    let p ← readLine p
    if (← Reader.rest).isEmpty then return p.document
    readLines n p

/-- The entries of the document that a text writes. A byte order mark in front does not count. -/
def parse? (text : List Char) : Option Entries :=
  let body := if text.head? = some '\ufeff' then text.tail else text
  Reader.readAll (readLines (body.length + 1) ⟨[], []⟩) body

end ThreeWay.TomlNode
