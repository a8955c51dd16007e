import ThreeWay.Regex.Basic

/-!
# Reading regular expressions

The extended form of regular expressions: alternatives between bars, groups in parentheses, sets in
square brackets, repetitions after an expression, and anchors. A backslash takes the meaning from a
mark, or gives one to a letter.

A repetition must follow something to repeat; anchors cannot be repeated. A closing parenthesis without
an opening one stands for itself.

## Main definitions

* `Regex.Parser.set?`: A set in square brackets.
* `Regex.Parser.bounds?`: The bounds of a repetition in braces.
* `Regex.parse?`: The expression that a text writes.
-/

namespace ThreeWay.Regex.Parser

/-- The byte of an ASCII character. -/
def code (c : Char) : UInt8 :=
  UInt8.ofNat c.toNat

/-- What follows a named part of a set up to its end, and what comes behind. -/
def named? (mark : Char) : Bytes → Option (Bytes × Bytes)
  | [] => none
  | [_] => none
  | a :: b :: rest =>
    if a = code mark ∧ b = code ']' then some ([], rest)
    else (named? mark (b :: rest)).map fun (name, rest) => (a :: name, rest)

/-- One element of a set: a byte or a class. -/
def element? : Bytes → Option (ByteSet.Item × Bytes)
  | [] => none
  | b :: rest =>
    let mark := rest.headD 0
    if b ≠ code '[' then some (.byte b, rest)
    else if mark = code ':' then do
      let (name, rest) ← named? ':' (rest.drop 1)
      return (.named (← ByteClass.ofName? name), rest)
    else if mark = code '.' ∨ mark = code '=' then do
      match ← named? (Char.ofNat mark.toNat) (rest.drop 1) with
      | ([single], rest) => some (.byte single, rest)
      | _ => none
    else some (.byte b, rest)

/-- A range between two elements, which must be bytes in ascending order. -/
def range? : ByteSet.Item → ByteSet.Item → Option ByteSet.Item
  | .range low _, .range high _ => if low ≤ high then some (.range low high) else none
  | _, _ => none

/-- The elements of a set up to its closing bracket. A bracket at the front stands for itself, and so
    does a hyphen at the front or at the end. -/
def elements? : Nat → Bool → Bytes → Option (List ByteSet.Item × Bytes)
  | 0, _, _ => none
  | n + 1, first, text => do
    if !first && text.head? = some (code ']') then return ([], text.drop 1)
    -- A hyphen that is neither the first nor the last byte only stands inside of a range.
    if !first && text.head? = some (code '-') && text[1]? ≠ some (code ']') then none
    let (item, rest) ← element? text
    let (item, rest) ←
      if rest.head? = some (code '-') && rest[1]? ≠ some (code ']') then do
        let (high, rest) ← element? (rest.drop 1)
        pure (← range? item high, rest)
      else pure (item, rest)
    let (items, rest) ← elements? n false rest
    return (item :: items, rest)

/-- A set, behind its opening bracket. -/
def set? (text : Bytes) : Option (ByteSet × Bytes) := do
  let negated := text.head? = some (code '^')
  let (items, rest) ← elements? (text.length + 1) true (if negated then text.drop 1 else text)
  return (⟨negated, items⟩, rest)

/-- The number at the front of a text, if there is one. -/
def number (text : Bytes) : Option Nat × Bytes :=
  let digits := text.takeWhile ByteClass.digit.has
  let value := digits.foldl (fun n d => n * 10 + (d.toNat - 0x30)) 0
  (if digits = [] then none else some value, text.drop digits.length)

/-- The greatest bound of a repetition. -/
def maxBound : Nat := 32767

/-- The bounds of a repetition, behind its opening brace. -/
def bounds? (text : Bytes) : Option (Nat × Option Nat × Bytes) := do
  let (low, rest) := number text
  let (low, high, rest) ←
    match rest with
    | [] => none
    | b :: rest =>
      if b = code '}' then low.map fun low => (low, some low, rest)
      else if b = code ',' then
        let (high, rest) := number rest
        match rest with
        | [] => none
        | b :: rest => if b = code '}' then some (low.getD 0, high, rest) else none
      else none
  if maxBound < high.getD low then none
  else if (high.any fun high => high < low) then none
  else return (low, high, rest)

/-- The repetitions behind an expression. -/
def repetitions? : Nat → Regex → Bytes → Option (Regex × Bytes)
  | 0, _, _ => none
  | _ + 1, r, [] => some (r, [])
  | n + 1, r, b :: rest =>
    if b = code '*' then repetitions? n (.star r) rest
    else if b = code '+' then repetitions? n (.seq r (.star r)) rest
    else if b = code '?' then repetitions? n (.alt .empty r) rest
    else if b = code '{' then do
      let (low, high, rest) ← bounds? rest
      repetitions? n (r.repeated low high) rest
    else some (r, b :: rest)

/-- A class with the underscore, possibly negated. -/
def classEscape (negated : Bool) (name : ByteClass) (more : List ByteSet.Item) : Regex :=
  .byte ⟨negated, .named name :: more⟩

/-- The expression that a backslash in front of a byte stands for. A digit would refer back to a group,
    which is not supported. -/
def escape? (b : UInt8) : Option Regex :=
  if b = code 'w' then some (classEscape false .alnum [.byte 0x5F])
  else if b = code 'W' then some (classEscape true .alnum [.byte 0x5F])
  else if b = code 's' then some (classEscape false .space [])
  else if b = code 'S' then some (classEscape true .space [])
  else if ByteClass.within 0x31 0x39 b then none
  else some (.byte (.single b))

/-- The anchor that a backslash in front of a byte stands for. -/
def anchor? (b : UInt8) : Option Anchor :=
  [(code '<', .wordStart), (code '>', .wordEnd), (code 'b', .wordEdge), (code 'B', .notWordEdge),
    (0x60, .textStart), (0x27, .textEnd)].lookup b

/-- Whether a byte repeats what stands before it. -/
def isRepetition (b : UInt8) : Bool :=
  [code '*', code '+', code '?', code '{'].contains b

mutual

/-- Alternatives between bars, up to the end of the text or of a group. -/
def alternatives? : Nat → Bool → Bytes → Option (Regex × Bytes)
  | 0, _, _ => none
  | n + 1, inGroup, text => do
    let (r, rest) ← sequence? n inGroup text
    if rest.head? = some (code '|') then
      let (s, rest) ← alternatives? n inGroup (rest.drop 1)
      return (.alt r s, rest)
    else return (r, rest)

/-- One expression after the other, up to a bar, the end of the text or of a group. -/
def sequence? : Nat → Bool → Bytes → Option (Regex × Bytes)
  | 0, _, _ => none
  | _ + 1, _, [] => some (.empty, [])
  | n + 1, inGroup, b :: rest =>
    if b = code '|' ∨ (inGroup ∧ b = code ')') then some (.empty, b :: rest)
    else do
      let (r, rest) ← expression? n b rest
      let (s, rest) ← sequence? n inGroup rest
      return (.seq r s, rest)

/-- One expression that starts with a byte, with its repetitions. -/
def expression? : Nat → UInt8 → Bytes → Option (Regex × Bytes)
  | 0, _, _ => none
  | n + 1, b, rest =>
    if b = code '^' then some (.anchor .textStart, rest)
    else if b = code '$' then some (.anchor .textEnd, rest)
    -- Nothing stands in front that could be repeated.
    else if isRepetition b then none
    else if b = code '(' then do
      let (r, rest) ← alternatives? n true rest
      if rest.head? = some (code ')') then repetitions? rest.length r (rest.drop 1) else none
    else if b = code '[' then do
      let (s, rest) ← set? rest
      repetitions? (rest.length + 1) (.byte s) rest
    else if b = code '.' then repetitions? (rest.length + 1) (.byte .all) rest
    else if b = code '\\' then
      match rest with
      | [] => none
      | c :: rest =>
        match anchor? c with
        -- An anchor is not repeated.
        | some a => some (.anchor a, rest)
        | none => do repetitions? (rest.length + 1) (← escape? c) rest
    else repetitions? (rest.length + 1) (.byte (.single b)) rest

end

end Parser

/-- The expression that a text writes. -/
def parse? (text : Bytes) : Option Regex := do
  match ← Parser.alternatives? (3 * text.length + 3) false text with
  | (r, []) => some r
  | _ => none

end ThreeWay.Regex
