import ThreeWay.Path.Raw
import ThreeWay.Text.ByteSet

/-!
# Wildcards

Patterns over paths and names. A question mark stands for one byte, a star for any number of them, and
square brackets for one byte of a set; a backslash takes the meaning from the byte behind it.

A pattern over *paths* treats slashes apart: no wildcard stands for a slash, except for two stars between
slashes, which stand for any number of folders. In a pattern over *names* a star stands for anything.

A pattern whose brackets are not closed matches nothing.

## Main definitions

* `Wildcard`: A part of a pattern.
* `Wildcard.parse?`: The parts of a pattern.
* `accepts`: Whether parts match a text.
-/

namespace ThreeWay

/-- A part of a pattern. `star true` also stands for slashes, and `folders` stands for nothing or for
    anything that ends in a slash. -/
inductive Wildcard where
  | byte (b : UInt8)
  | one
  | set (s : ByteSet)
  | star (crossing : Bool)
  | folders
deriving DecidableEq

namespace Wildcard

/-- The byte of an ASCII character. -/
def code (c : Char) : UInt8 :=
  UInt8.ofNat c.toNat

/-- The rest of a set, up to its closing bracket, and what follows. `before` is the byte that a range
    could start from, and `first` tells that a closing bracket still stands for itself. -/
def items? : Nat → Bool → Option UInt8 → Bytes → Option (List ByteSet.Item × Bytes)
  | 0, _, _, _ => none
  | _, _, _, [] => none
  | n + 1, first, before, b :: rest =>
    let single (b : UInt8) (rest : Bytes) := do
      let (items, rest) ← items? n false (some b) rest
      return (ByteSet.Item.byte b :: items, rest)
    -- The first byte of a set is never its end, so a set can hold its own closing bracket.
    if !first && b = code ']' then some ([], rest)
    else if b = code '\\' then
      match rest with
      | [] => none
      | c :: rest => single c rest
    else
      match before, b = code '-' && (rest.head?.any (· ≠ code ']')) with
      -- A minus sign between two bytes is a range; at either end of the set it stands for itself.
      | some low, true => do
        let escaped := rest.head? = some (code '\\')
        match if escaped then rest.drop 1 else rest with
        | [] => none
        | high :: rest =>
          let (items, rest) ← items? n false none rest
          return (.range low high :: items, rest)
      | _, _ =>
        if b = code '[' && rest.head? = some (code ':') then
          let name := (rest.drop 1).takeWhile (· ≠ code ']')
          let after := (rest.drop 1).drop name.length
          if after = [] then none
          -- No class is written here, so the bracket is an ordinary member.
          else if name.getLast? ≠ some (code ':') then single b rest
          else do
            let named ← ByteClass.ofName? name.dropLast
            let (items, rest) ← items? n false none (after.drop 1)
            return (.named named :: items, rest)
        else single b rest

/-- A set, behind its opening bracket. -/
def set? (text : Bytes) : Option (ByteSet × Bytes) := do
  let negated := text.head?.any fun b => b = code '!' || b = code '^'
  let (items, rest) ← items? (text.length + 1) true none (if negated then text.drop 1 else text)
  return (⟨negated, items⟩, rest)

/-- The part that a run of stars stands for, given what follows, and what is left of that. `free` tells
    that the run stands at the front or behind a slash. -/
def stars (paths : Bool) (many free : Bool) (rest : Bytes) : Wildcard × Bytes :=
  let closed := rest = [] || rest.head? = some RawPath.slash ||
    [code '\\', RawPath.slash].isPrefixOf rest
  if !paths then (.star true, rest)
  -- Two stars count as folders only with a slash, or an end of the pattern, on both sides.
  else if many && free && closed then
    if rest.head? = some RawPath.slash then (.folders, rest.drop 1) else (.star true, rest)
  else (.star false, rest)

/-- The parts of a text. `free` tells that it stands at the front or behind a slash. -/
def parseFrom (paths : Bool) : Nat → Bool → Bytes → Option (List Wildcard)
  | 0, _, _ => none
  | _ + 1, _, [] => some []
  | n + 1, free, b :: rest =>
    if b = code '\\' then
      match rest with
      | [] => none
      | c :: rest => (parseFrom paths n (c = RawPath.slash) rest).map (.byte c :: ·)
    else if b = code '?' then (parseFrom paths n false rest).map (.one :: ·)
    else if b = code '*' then
      let after := rest.dropWhile (· = code '*')
      let (part, after) := stars paths (after.length < rest.length) free after
      (parseFrom paths n (part = .folders) after).map (part :: ·)
    else if b = code '[' then do
      let (s, rest) ← set? rest
      return .set s :: (← parseFrom paths n false rest)
    else (parseFrom paths n (b = RawPath.slash) rest).map (.byte b :: ·)

/-- The parts of a pattern over paths or over names. -/
def parse? (paths : Bool) (pattern : Bytes) : Option (List Wildcard) :=
  parseFrom paths (pattern.length + 1) true pattern

/-- What may be left of a text behind a star. -/
def behindStar (crossing : Bool) : Bytes → List Bytes
  | [] => [[]]
  | b :: rest =>
    if crossing || b ≠ RawPath.slash then (b :: rest) :: behindStar crossing rest else [b :: rest]

/-- What may be left of a text behind a number of folders. -/
def behindFolders : Bytes → List Bytes
  | [] => []
  | b :: rest => if b = RawPath.slash then rest :: behindFolders rest else behindFolders rest

/-- Whether the parts of a pattern match a text. -/
def accepts (paths : Bool) : List Wildcard → Bytes → Bool
  | [], text => text.isEmpty
  | .byte b :: parts, text =>
    match text with
    | [] => false
    | c :: rest => b = c && accepts paths parts rest
  | .one :: parts, text =>
    match text with
    | [] => false
    | c :: rest => !(paths && c = RawPath.slash) && accepts paths parts rest
  | .set s :: parts, text =>
    match text with
    | [] => false
    | c :: rest => s.has c && !(paths && c = RawPath.slash) && accepts paths parts rest
  | .star crossing :: parts, text =>
    (behindStar crossing text).any fun rest => accepts paths parts rest
  | .folders :: parts, text =>
    (text :: behindFolders text).any fun rest => accepts paths parts rest

/-- Whether a pattern over paths or over names matches a text. -/
def isMatch (paths : Bool) (pattern text : Bytes) : Bool :=
  (parse? paths pattern).any fun parts => accepts paths parts text

end Wildcard

end ThreeWay
