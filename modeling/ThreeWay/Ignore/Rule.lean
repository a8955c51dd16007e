import ThreeWay.Ignore.Wildcard

/-!
# Ignore rules

The lines of an ignore file. A line holds a pattern; an exclamation mark in front of it turns the verdict
around, a slash at its end limits it to folders, and a slash anywhere else ties it to the folder of the
file. Blanks at the end do not count, unless a backslash stands in front of them. A line that starts with
a hash sign is a comment.

A rule that turns a verdict around without wildcards is dropped when no earlier rule of its file gives
a verdict that it could turn around.

## Main definitions

* `IgnoreRule`: A rule.
* `IgnoreRule.ofLine`: The rule of a line.
* `IgnoreRule.parse`: The rules of a file.
* `IgnoreRule.applies`: Whether a rule speaks about a path.
-/

namespace ThreeWay

/-- A rule of an ignore file. `base` is the folder of the file with a slash behind it, empty for the
    root; `anchored` ties the pattern to that folder. -/
structure IgnoreRule where
  pattern : Bytes
  base : Bytes
  negated : Bool
  folderOnly : Bool
  anchored : Bool
  wild : Bool
deriving DecidableEq

namespace IgnoreRule

/-- The byte of an ASCII character. -/
def code (c : Char) : UInt8 :=
  UInt8.ofNat c.toNat

/-- Whether a byte ends a line unless a backslash stands in front of it. -/
def endsLine (b : UInt8) : Bool :=
  b = 0x0A || b = 0x0B || b = 0x0C

/-- The bytes of a line, each with the mark whether a backslash stands in front of it, and what
    follows. -/
def splitLine (escaped : Bool) : Bytes → List (UInt8 × Bool) × Bytes
  | [] => ([], [])
  | b :: rest =>
    if !escaped && endsLine b then ([], b :: rest)
    else
      let (line, after) := splitLine (!escaped && b = code '\\') rest
      ((b, escaped) :: line, after)

/-- What follows behind the end of the line, past empty lines. -/
def nextLine (text : Bytes) : Bytes :=
  (text.dropWhile (· ≠ 0x0A)).dropWhile fun b => b = 0x0A || b = 0x0D

/-- A pattern without the blanks at its end that have no backslash in front of them. -/
def trimEnd (pattern : List (UInt8 × Bool)) : List (UInt8 × Bool) :=
  (pattern.reverse.dropWhile fun (b, escaped) => !escaped && (b = 0x20 || b = 0x09)).reverse

/-- A pattern without the backslashes that stand in front of blanks or at the end. -/
def unescape : Bytes → Bytes
  | [] => []
  | b :: rest =>
    if b = code '\\' then
      match rest with
      | [] => []
      | c :: rest => if ByteClass.space.has c then c :: unescape rest else b :: c :: unescape rest
    else b :: unescape rest

/-- Whether a byte is a wildcard. -/
def isWildcard (b : UInt8) : Bool :=
  b = code '*' || b = code '?' || b = code '['

/-- The rule of a line, unless nothing is left of its pattern. -/
def ofLine (base : Bytes) (negated : Bool) (line : List (UInt8 × Bool)) : Option IgnoreRule :=
  let slashes := line.countP fun (b, _) => b = RawPath.slash
  -- Slashes and wildcards are counted in the line as it is written, before its ends are cut.
  let wild := line.any fun (b, escaped) => isWildcard b && !escaped
  let line := if line.head?.any (·.1 = RawPath.slash) then line.drop 1 else line
  let line := if line.getLast?.any (·.1 = 0x0D) then line.dropLast else line
  let line := trimEnd line
  if line = [] then none
  else
    let folderOnly := line.getLast?.any (·.1 = RawPath.slash)
    let line := if folderOnly then line.dropLast else line
    some {
      pattern := unescape (line.map Prod.fst)
      base := base
      negated := negated
      folderOnly := folderOnly
      -- A slash at the end alone does not tie the pattern to its folder.
      anchored := if folderOnly then 1 < slashes else 0 < slashes
      wild := wild }

/-- Whether a pattern without wildcards is turned around by a rule without wildcards: they are equal, or
    the shorter one is a single name and the last name of the longer one. -/
def turnsAroundPlain (rule negation : IgnoreRule) : Bool :=
  let short := if rule.pattern.length < negation.pattern.length then rule.pattern else negation.pattern
  let long := if rule.pattern.length < negation.pattern.length then negation.pattern else rule.pattern
  !rule.negated &&
    (short = long ||
      (!short.contains RawPath.slash && (RawPath.slash :: short).isSuffixOf long))

/-- Whether a rule without wildcards may turn the verdict of an earlier rule around. -/
def turnsAround (rule negation : IgnoreRule) : Bool :=
  if rule.wild then
    Wildcard.isMatch rule.anchored (rule.base ++ rule.pattern) (negation.base ++ negation.pattern)
  else turnsAroundPlain rule negation

/-- The rules of the lines of a text, after the rules of earlier lines. -/
def parseFrom (base : Bytes) : Nat → Bytes → List IgnoreRule → List IgnoreRule
  | 0, _, rules => rules
  | _, [], rules => rules
  | n + 1, b :: rest, rules =>
    -- A lone star or dot as the last byte is a name of its own, without a base.
    if rest = [] && (b = code '*' || b = code '.') then rules ++ [⟨[b], [], false, false, false, false⟩]
    else if b = code '#' then parseFrom base n (nextLine rest) rules
    else
      let negated := b = code '!'
      let (line, after) := splitLine false (if negated then rest else b :: rest)
      match ofLine base negated line with
      | none => parseFrom base n (nextLine after) rules
      | some rule =>
        -- A negation that turns no earlier rule around is dropped, unless it has wildcards.
        let kept := !rule.negated || rule.wild || rules.any (turnsAround · rule)
        parseFrom base n (nextLine after) (if kept then rules ++ [rule] else rules)

/-- What may stand in front of a text to mark its encoding. -/
def encodingMark : Bytes := [0xEF, 0xBB, 0xBF]

/-- The rules of an ignore file in a folder. A zero byte ends the file. -/
def parse (base : Bytes) (content : Bytes) : List IgnoreRule :=
  let text := if encodingMark.isPrefixOf content then content.drop encodingMark.length else content
  let text := text.takeWhile (· ≠ 0)
  parseFrom base (text.length + 1) text []

/-- Whether a rule speaks about a path, given by its names. A rule that is not anchored looks at the last
    name alone. -/
def applies (rule : IgnoreRule) (names : List Bytes) (isFolder : Bool) : Bool :=
  let path := [RawPath.slash].intercalate names
  let text := if rule.anchored then path.drop rule.base.length else names.getLast?.getD []
  (isFolder || !rule.folderOnly) && rule.base.isPrefixOf path &&
    Wildcard.isMatch rule.anchored rule.pattern text

end IgnoreRule

end ThreeWay
