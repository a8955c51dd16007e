import ThreeWay.Text.Hex
import ThreeWay.Text.Reader

/-!
# YAML tokens

The tokens of a YAML text, version 1.1 of the format. Indentation becomes tokens of its own: a block
opens where a deeper entry or key starts and closes where a line starts further left.

A key is known as one only when its colon is met. So the start of anything that may turn out to be a key
on its line is remembered, one candidate for each level of brackets, and the tokens for the key and for
the block that it opens are put in front of it afterwards.

## Main definitions

* `YamlToken`: A token.
* `YamlLexer`: The state of the pass over a text.
* `YamlToken.ofText?`: The tokens of a text.
-/

namespace ThreeWay

/-- How a scalar is written. -/
inductive YamlStyle where
  | plain
  | quoted
  | literal
  | folded
deriving DecidableEq, Inhabited

/-- A token of a YAML text. -/
inductive YamlToken where
  | versionDirective
  | tagDirective (handle target : String)
  | documentStart
  | documentEnd
  | blockSequence
  | blockMapping
  | blockEnd
  | flowSequence
  | flowSequenceEnd
  | flowMapping
  | flowMappingEnd
  | entry
  | flowEntry
  | key
  | value
  | alias (name : String)
  | anchor (name : String)
  | tag (handle suffix : String)
  | scalar (text : String) (style : YamlStyle)
deriving DecidableEq, Inhabited

/-- A place where a key may have started: how many tokens stand in front of it, and where it is.
    A required one stands where the block's next key must stand. -/
structure YamlCandidate where
  required : Bool
  tokens : Nat
  index : Nat
  line : Nat
  column : Nat

/-- The state of the pass over a text. `tokens` holds the latest token first, `indents` the enclosing
    indentations, and `candidates` a possible key for each level of brackets, the innermost first. -/
structure YamlLexer where
  rest : List Char
  index : Nat
  line : Nat
  column : Nat
  tokens : List YamlToken
  indent : Int
  indents : List Int
  keyAllowed : Bool
  candidates : List (Option YamlCandidate)

namespace YamlLexer

/-- Whether a character ends a line. -/
def isBreak (c : Char) : Bool :=
  c = '\n' ∨ c = '\r' ∨ c.toNat = 0x85 ∨ c.toNat = 0x2028 ∨ c.toNat = 0x2029

/-- Whether a character is a blank within a line. -/
def isBlank (c : Char) : Bool :=
  c = ' ' ∨ c = '\t'

/-- Whether there is nothing, a blank or the end of a line in front of a text. -/
def atSpace : List Char → Bool
  | [] => true
  | c :: _ => isBlank c || isBreak c

/-- Whether there is nothing or the end of a line in front of a text. -/
def atLineEnd : List Char → Bool
  | [] => true
  | c :: _ => isBreak c

/-- Whether a text starts with a mark that stands between documents. -/
def atDocumentMark (cs : List Char) : Bool :=
  (cs.take 3 = ['-', '-', '-'] ∨ cs.take 3 = ['.', '.', '.']) ∧ atSpace (cs.drop 3)

/-- The state before a text. -/
def start (text : List Char) : YamlLexer where
  rest := text
  index := 0
  line := 0
  column := 0
  tokens := []
  indent := -1
  indents := []
  keyAllowed := true
  candidates := [none]

/-- The number of enclosing brackets. -/
def flowLevel (x : YamlLexer) : Nat :=
  x.candidates.length - 1

/-- Whether the text stands inside brackets. -/
def inFlow (x : YamlLexer) : Bool :=
  x.flowLevel ≠ 0

/-- Pass over `n` characters of one line. -/
def skip (x : YamlLexer) (n : Nat) : YamlLexer :=
  { x with rest := x.rest.drop n, index := x.index + n, column := x.column + n }

/-- Pass over the end of a line. -/
def skipLine (x : YamlLexer) : YamlLexer :=
  let n := if x.rest.take 2 = ['\r', '\n'] then 2 else 1
  { x with rest := x.rest.drop n, index := x.index + n, line := x.line + 1, column := 0 }

/-- What the end of a line is read as. -/
def lineBreak (cs : List Char) : List Char :=
  match cs with
  | c :: _ => if c.toNat = 0x2028 ∨ c.toNat = 0x2029 then [c] else ['\n']
  | [] => []

/-- Add a token at the end. -/
def push (x : YamlLexer) (t : YamlToken) : YamlLexer :=
  { x with tokens := t :: x.tokens }

/-- Put a token behind the first `n` tokens. -/
def insert (x : YamlLexer) (n : Nat) (t : YamlToken) : YamlLexer :=
  { x with tokens := x.tokens.insertIdx (x.tokens.length - n) t }

/-- Close the blocks that are indented deeper than a column. -/
def unroll (x : YamlLexer) (column : Int) : YamlLexer :=
  if x.inFlow then x else go x column x.indents
where
  /-- Close one block after the other. -/
  go (x : YamlLexer) (column : Int) : List Int → YamlLexer
    | [] => x
    | outer :: indents =>
      if column < x.indent then
        go { x with tokens := .blockEnd :: x.tokens, indent := outer, indents } column indents
      else x

/-- Open a block at a column that is deeper than the current one. Its token is put behind the first
    `n` tokens, or at the end. -/
def roll (x : YamlLexer) (column : Nat) (n : Option Nat) (t : YamlToken) : YamlLexer :=
  if x.inFlow then x
  else if x.indent < column then
    let x := { x with indents := x.indent :: x.indents, indent := column }
    match n with
    | some n => x.insert n t
    | none => x.push t
  else x

/-- Give up the possible key of the innermost level; it must not be a required one. -/
def dropCandidate (x : YamlLexer) : Option YamlLexer :=
  match x.candidates with
  | some candidate :: outer =>
    if candidate.required then none else some { x with candidates := none :: outer }
  | _ => some x

/-- Remember that a key may start here. -/
def markCandidate (x : YamlLexer) : Option YamlLexer :=
  if x.keyAllowed then do
    let x ← x.dropCandidate
    let candidate : YamlCandidate :=
      { required := !x.inFlow && x.indent = x.column
        tokens := x.tokens.length, index := x.index, line := x.line, column := x.column }
    return { x with candidates := some candidate :: x.candidates.tail }
  else some x

/-- Give up possible keys of earlier lines, and those that are too long to be keys. -/
def dropStale (x : YamlLexer) : Option YamlLexer := do
  let kept ← x.candidates.mapM fun candidate =>
    match candidate with
    | none => some none
    | some c =>
      if c.line < x.line ∨ c.index + 1024 < x.index then
        if c.required then none else some none
      else some (some c)
  return { x with candidates := kept }

/-- Pass over blanks, comments and ends of lines, at most `n` characters. -/
def skipToToken : Nat → YamlLexer → YamlLexer
  | 0, x => x
  | n + 1, x =>
    match x.rest with
    | [] => x
    | c :: cs =>
      if x.column = 0 ∧ c = '\ufeff' then skipToToken n (x.skip 1)
      else if c = ' ' ∨ (c = '\t' ∧ (x.inFlow ∨ ¬ x.keyAllowed)) then skipToToken n (x.skip 1)
      else if c = '#' then skipToToken n (x.skip (1 + (cs.takeWhile (!isBreak ·)).length))
      else if isBreak c then
        let x := x.skipLine
        skipToToken n (if x.inFlow then x else { x with keyAllowed := true })
      else x

/-- The characters of a name: letters, digits, underscores and hyphens. -/
def isNameChar (c : Char) : Bool :=
  c.isAlphanum ∨ c = '_' ∨ c = '-'

/-- An anchor or an alias, from its mark on. -/
def readAnchor (x : YamlLexer) (token : String → YamlToken) : Option YamlLexer := do
  let x ← x.markCandidate
  let x := { x with keyAllowed := false }
  let name := x.rest.tail.takeWhile isNameChar
  let x := x.skip (1 + name.length)
  let ends := atSpace x.rest || (x.rest.head?.any fun c => "?:,]\x7d%@`".toList.contains c)
  if name = [] ∨ ¬ ends then none else some (x.push (token (String.ofList name)))

/-- Whether a character may stand in the name of a tag. -/
def isTagChar (c : Char) : Bool :=
  isNameChar c ∨ ";/?:@&=+$.%!~*'()".toList.contains c

/-- Whether a character may stand in a tag between angle brackets. -/
def isLocatorChar (c : Char) : Bool :=
  isTagChar c ∨ c = ',' ∨ c = '[' ∨ c = ']'

/-- The text that percent escapes write. -/
def unescapeTag : List Char → Option (List Char)
  | [] => some []
  | '%' :: a :: b :: rest => do
    let high ← Hex.digit? a
    let low ← Hex.digit? b
    let more ← unescapeTag rest
    return Char.ofNat (high * 16 + low) :: more
  | '%' :: _ => none
  | c :: rest => (c :: ·) <$> unescapeTag rest

/-- A tag, from its mark on. -/
def readTag (x : YamlLexer) : Option YamlLexer := do
  let x ← x.markCandidate
  let x := { x with keyAllowed := false }
  let (x, handle, suffix) ←
    if x.rest.take 2 = ['!', '<'] then
      let body := (x.rest.drop 2).takeWhile isLocatorChar
      if body = [] ∨ (x.rest.drop (2 + body.length)).head? ≠ some '>' then none
      else some (x.skip (3 + body.length), [], body)
    else
      let name := x.rest.tail.takeWhile isNameChar
      if (x.rest.drop (1 + name.length)).head? = some '!' then
        let handle := '!' :: name ++ ['!']
        let body := (x.rest.drop handle.length).takeWhile isTagChar
        if body = [] then none
        else some (x.skip (handle.length + body.length), handle, body)
      else
        let body := x.rest.tail.takeWhile isTagChar
        some (x.skip (1 + body.length), ['!'], body)
  let suffix ← unescapeTag suffix
  if atSpace x.rest || (x.inFlow && x.rest.head? = some ',') then
    some (x.push (.tag (String.ofList handle) (String.ofList suffix)))
  else none

/-- Blanks and ends of lines between two parts of a scalar. `blanks` are those on the first line,
    `first` is the first end of a line, and `more` are the others. -/
structure Gap where
  blanks : List Char
  first : List Char
  more : List Char
  crossed : Bool

/-- No blanks. -/
def Gap.none : Gap :=
  ⟨[], [], [], false⟩

/-- What a gap is read as: its blanks, or its ends of lines with the first one folded away. -/
def Gap.text (g : Gap) : List Char :=
  if g.crossed then
    if g.first.head? = some '\n' then
      if g.more = [] then [' '] else g.more
    else g.first ++ g.more
  else g.blanks

/-- Pass over a gap, at most `n` characters. A blank may be refused where it stands. -/
def readGap (refuses : YamlLexer → Gap → Bool) : Nat → YamlLexer → Gap → Option (YamlLexer × Gap)
  | 0, x, g => some (x, g)
  | n + 1, x, g =>
    match x.rest with
    | [] => some (x, g)
    | c :: _ =>
      if isBlank c then
        if refuses x g then .none
        else
          readGap refuses n (x.skip 1) (if g.crossed then g else { g with blanks := g.blanks ++ [c] })
      else if isBreak c then
        let ending := lineBreak x.rest
        readGap refuses n x.skipLine <|
          if g.crossed then { g with more := g.more ++ ending }
          else { g with blanks := [], first := ending, crossed := true }
      else some (x, g)

/-- How many characters come before a plain scalar ends or a blank is met; `none` where the text breaks
    the rules of plain scalars in brackets. -/
def plainLength (inFlow : Bool) : List Char → Option Nat
  | [] => some 0
  | c :: cs =>
    if isBlank c ∨ isBreak c then some 0
    else if inFlow ∧ c = ':' ∧ (cs.head?.any fun d => ",?[]\x7b\x7d".toList.contains d) then none
    else if c = ':' ∧ atSpace cs then some 0
    else if inFlow ∧ ",[]\x7b\x7d".toList.contains c then some 0
    else (1 + ·) <$> plainLength inFlow cs

/-- The parts of a plain scalar, at most `n`. `gap` stands between the text so far and the next part. -/
def readPlainFrom (indent : Int) : Nat → YamlLexer → List Char → Gap →
    Option (YamlLexer × List Char × Bool)
  | 0, x, text, gap => some (x, text, gap.crossed)
  | n + 1, x, text, gap => do
    -- The gap in front is not part of the scalar unless more of it follows, so it is left out here.
    if x.column = 0 ∧ atDocumentMark x.rest then return (x, text, gap.crossed)
    if x.rest.head? = some '#' then return (x, text, gap.crossed)
    let length ← plainLength x.inFlow x.rest
    let (text, gap) :=
      if length = 0 then (text, gap) else (text ++ gap.text ++ x.rest.take length, Gap.none)
    let x := x.skip length
    if x.rest = [] ∨ ¬ atSpace x.rest then return (x, text, gap.crossed)
    let refuses (y : YamlLexer) (g : Gap) : Bool :=
      g.crossed && (y.column : Int) < indent && y.rest.head? = some '\t'
    let (x, gap) ← readGap refuses (x.rest.length + 1) x gap
    if ¬ x.inFlow ∧ (x.column : Int) < indent then return (x, text, gap.crossed)
    readPlainFrom indent n x text gap

/-- A plain scalar. -/
def readPlain (x : YamlLexer) : Option YamlLexer := do
  let x ← x.markCandidate
  let x := { x with keyAllowed := false }
  let (x, text, crossed) ← readPlainFrom (x.indent + 1) (x.rest.length + 1) x [] .none
  let x := if crossed then { x with keyAllowed := true } else x
  return x.push (.scalar (String.ofList text) .plain)

/-- The character that one letter after a backslash stands for. -/
def escapeOf (c : Char) : Option Char :=
  match c with
  | '0' => some (Char.ofNat 0)
  | 'a' => some (Char.ofNat 7)
  | 'b' => some (Char.ofNat 8)
  | 't' | '\t' => some '\t'
  | 'n' => some '\n'
  | 'v' => some (Char.ofNat 11)
  | 'f' => some (Char.ofNat 12)
  | 'r' => some '\r'
  | 'e' => some (Char.ofNat 27)
  | ' ' => some ' '
  | '"' => some '"'
  | '/' => some '/'
  | '\\' => some '\\'
  | 'N' => some (Char.ofNat 0x85)
  | '_' => some (Char.ofNat 0xA0)
  | 'L' => some (Char.ofNat 0x2028)
  | 'P' => some (Char.ofNat 0x2029)
  | _ => none

/-- How many hexadecimal digits follow a letter after a backslash. -/
def escapeDigits (c : Char) : Nat :=
  match c with
  | 'x' => 2
  | 'u' => 4
  | 'U' => 8
  | _ => 0

/-- The character that an escape writes, and the length of the escape with its backslash. -/
def readEscape (cs : List Char) : Option (Char × Nat) :=
  match cs with
  | [] => none
  | c :: rest =>
    match escapeOf c with
    | some d => some (d, 2)
    | none => do
      let n := escapeDigits c
      let digits ← (rest.take n).mapM Hex.digit?
      let code := digits.foldl (fun v d => v * 16 + d) 0
      if n = 0 ∨ digits.length ≠ n then none
      else if (0xD800 ≤ code ∧ code ≤ 0xDFFF) ∨ 0x10FFFF < code then none
      else some (Char.ofNat code, 2 + n)

/-- The characters of a quoted scalar up to a blank, the end of a line or the closing quote. An escaped
    end of a line crosses to the next line without leaving anything. -/
def readQuotedPart (double : Bool) : Nat → YamlLexer → List Char →
    Option (YamlLexer × List Char × Bool)
  | 0, x, text => some (x, text, false)
  | n + 1, x, text =>
    match x.rest with
    | [] => some (x, text, false)
    | c :: cs =>
      if isBlank c ∨ isBreak c then some (x, text, false)
      else if double then
        if c = '"' then some (x, text, false)
        else if c = '\\' then
          if cs.head?.any isBreak then some ((x.skip 1).skipLine, text, true)
          else
            match readEscape cs with
            | none => none
            | some (d, length) => readQuotedPart double n (x.skip length) (text ++ [d])
        else readQuotedPart double n (x.skip 1) (text ++ [c])
      else if c = '\'' then
        if cs.head? = some '\'' then readQuotedPart double n (x.skip 2) (text ++ ['\''])
        else some (x, text, false)
      else readQuotedPart double n (x.skip 1) (text ++ [c])

/-- The parts of a quoted scalar, at most `n`, up to the closing quote. -/
def readQuotedFrom (double : Bool) : Nat → YamlLexer → List Char → Option (YamlLexer × List Char)
  | 0, _, _ => none
  | n + 1, x, text => do
    -- A document cannot end inside of quotes.
    if x.column = 0 ∧ atDocumentMark x.rest then failure
    let (x, text, crossed) ← readQuotedPart double (x.rest.length + 1) x text
    if x.rest = [] then failure
    if ¬ crossed ∧ x.rest.head? = some (if double then '"' else '\'') then
      return (x.skip 1, text)
    let (x, gap) ← readGap (fun _ _ => false) (x.rest.length + 1) x { Gap.none with crossed }
    readQuotedFrom double n x (text ++ gap.text)

/-- A quoted scalar, from its opening quote on. -/
def readQuoted (x : YamlLexer) (double : Bool) : Option YamlLexer := do
  let x ← x.markCandidate
  let x := { x with keyAllowed := false }
  let (x, text) ← readQuotedFrom double (x.rest.length + 2) (x.skip 1) []
  return x.push (.scalar (String.ofList text) .quoted)

/-- What becomes of the ends of lines after a block scalar. -/
inductive Chomping where
  | strip
  | clip
  | keep
deriving DecidableEq

/-- The marks after the opening of a block scalar: what becomes of its last ends of lines, and how deep
    it is indented, in either order. -/
def readBlockMarks (cs : List Char) : Option (Chomping × Option Nat × Nat) :=
  let chomping? (c : Char) : Option Chomping :=
    if c = '+' then some .keep else if c = '-' then some .strip else none
  let depth? (c : Char) : Option Nat :=
    if c.isDigit then some (c.toNat - '0'.toNat) else none
  match cs with
  | c :: rest =>
    match chomping? c, depth? c with
    | some chomping, _ =>
      match rest.head?.bind depth? with
      | some 0 => none
      | some depth => some (chomping, some depth, 2)
      | none => some (chomping, none, 1)
    | none, some 0 => none
    | none, some depth =>
      match rest.head?.bind chomping? with
      | some chomping => some (chomping, some depth, 2)
      | none => some (.clip, some depth, 1)
    | none, none => some (.clip, none, 0)
  | [] => some (.clip, none, 0)

/-- Pass over empty lines in front of a line of a block scalar, at most `n` lines, and collect their
    ends. `indent` is zero while it is still open, and `deepest` is the deepest line so far. -/
def readEmptyLines (indent : Nat) : Nat → YamlLexer → List Char → Nat →
    Option (YamlLexer × List Char × Nat)
  | 0, x, ends, deepest => some (x, ends, deepest)
  | n + 1, x, ends, deepest =>
    let blanks := (x.rest.takeWhile (· = ' ')).length
    let x := x.skip (if indent = 0 then blanks else min blanks (indent - x.column))
    let deepest := max deepest x.column
    match x.rest with
    | c :: _ =>
      if (indent = 0 ∨ x.column < indent) ∧ c = '\t' then none
      else if isBreak c then
        readEmptyLines indent n x.skipLine (ends ++ lineBreak x.rest) deepest
      else some (x, ends, deepest)
    | [] => some (x, ends, deepest)

/-- The lines of a block scalar, at most `n`. `held` is the end of the line before, and `ends` are those
    of the empty lines after it. -/
def readBlockLines (folded : Bool) (indent : Nat) : Nat → YamlLexer → List Char → List Char →
    List Char → Bool → Option (YamlLexer × List Char × List Char × List Char)
  | 0, x, text, held, ends, _ => some (x, text, held, ends)
  | n + 1, x, text, held, ends, blankBefore =>
    if x.column ≠ indent ∨ x.rest = [] then some (x, text, held, ends)
    else do
      let blankHere := x.rest.head?.any isBlank
      let joint :=
        -- A single end of a line becomes a blank. In front of empty lines it goes away, and next to
        -- a line that starts with a blank it stays.
        if folded ∧ held.head? = some '\n' ∧ ¬ blankBefore ∧ ¬ blankHere then
          if ends = [] then [' '] else []
        else held
      let line := x.rest.takeWhile (!isBreak ·)
      let x := x.skip line.length
      let held := lineBreak x.rest
      let x := if x.rest = [] then x else x.skipLine
      let (x, more, _) ← readEmptyLines indent (x.rest.length + 1) x [] 0
      readBlockLines folded indent n x (text ++ joint ++ ends ++ line) held more blankHere

/-- A block scalar, from its opening mark on. -/
def readBlock (x : YamlLexer) (folded : Bool) : Option YamlLexer := do
  let x ← x.dropCandidate
  let x := { x with keyAllowed := true }
  let (chomping, depth, marks) ← readBlockMarks x.rest.tail
  let x := x.skip (1 + marks)
  let x := x.skip (x.rest.takeWhile isBlank).length
  let x :=
    if x.rest.head? = some '#' then x.skip (x.rest.takeWhile (!isBreak ·)).length else x
  if ¬ atLineEnd x.rest then failure
  let x := if x.rest = [] then x else x.skipLine
  let outer := x.indent.toNat
  -- A depth that is given counts from the enclosing block. One that is not is that of the deepest
  -- line up to the first one that is not empty, but at least one deeper than the block.
  let given := depth.map fun d => if x.indent < 0 then d else outer + d
  let (x, ends, deepest) ← readEmptyLines (given.getD 0) (x.rest.length + 1) x [] 0
  let indent := given.getD (max deepest (max (x.indent + 1).toNat 1))
  let (x, text, held, ends) ← readBlockLines folded indent (x.rest.length + 1) x [] [] ends false
  let tail :=
    match chomping with
    | .strip => []
    | .clip => held
    | .keep => held ++ ends
  return x.push (.scalar (String.ofList (text ++ tail)) (if folded then .folded else .literal))

/-- Take the blanks in front of a text. -/
def skipBlanks (x : YamlLexer) : YamlLexer :=
  x.skip (x.rest.takeWhile isBlank).length

/-- Close what stands open where a document starts or ends. -/
def closeDocument (x : YamlLexer) : Option YamlLexer := do
  let x ← (x.unroll (-1)).dropCandidate
  return { x with keyAllowed := false }

/-- A version directive, after its name: version one, with one part after the point. -/
def readVersion (x : YamlLexer) : Option YamlLexer :=
  let x := x.skipBlanks
  let major := x.rest.takeWhile Char.isDigit
  let x := x.skip major.length
  let minor := x.rest.tail.takeWhile Char.isDigit
  if x.rest.head? = some '.' ∧ decimal major = 1 ∧ (decimal minor = 1 ∨ decimal minor = 2) ∧
      major ≠ [] ∧ minor ≠ [] then
    some ((x.skip (1 + minor.length)).push .versionDirective)
  else none

/-- A tag directive, after its name: a handle and what it stands for. -/
def readTagDirective (x : YamlLexer) : Option YamlLexer := do
  let x := x.skipBlanks
  let handle := '!' :: x.rest.tail.takeWhile isNameChar
  let closed := (x.rest.drop handle.length).head? = some '!'
  let handle := if closed then handle ++ ['!'] else handle
  if x.rest.head? ≠ some '!' ∨ (¬ closed ∧ handle.length ≠ 1) then failure
  let x := x.skip handle.length
  if ¬ (x.rest.head?.any isBlank) then failure
  let x := x.skipBlanks
  let target := x.rest.takeWhile isLocatorChar
  let text ← unescapeTag target
  let x := x.skip target.length
  if target = [] ∨ ¬ atSpace x.rest then failure
  return x.push (.tagDirective (String.ofList handle) (String.ofList text))

/-- A directive, from its mark on. -/
def readDirective (x : YamlLexer) : Option YamlLexer := do
  let x ← x.closeDocument
  let name := x.rest.tail.takeWhile isNameChar
  let x := x.skip (1 + name.length)
  if ¬ atSpace x.rest then failure
  let x ←
    if name = "YAML".toList then x.readVersion
    else if name = "TAG".toList then x.readTagDirective
    else none
  let x := x.skipBlanks
  let x :=
    if x.rest.head? = some '#' then x.skip (x.rest.takeWhile (!isBreak ·)).length else x
  if ¬ atLineEnd x.rest then failure
  return if x.rest = [] then x else x.skipLine

/-- The opening of brackets. -/
def openFlow (x : YamlLexer) (t : YamlToken) : Option YamlLexer := do
  let x ← x.markCandidate
  return ({ x with candidates := none :: x.candidates, keyAllowed := true }.skip 1).push t

/-- The closing of brackets. -/
def closeFlow (x : YamlLexer) (t : YamlToken) : Option YamlLexer := do
  let x ← x.dropCandidate
  let candidates := if x.inFlow then x.candidates.tail else x.candidates
  return ({ x with candidates, keyAllowed := false }.skip 1).push t

/-- A comma. -/
def readComma (x : YamlLexer) : Option YamlLexer := do
  let x ← x.dropCandidate
  return ({ x with keyAllowed := true }.skip 1).push .flowEntry

/-- The mark of an entry of a block sequence. -/
def readEntry (x : YamlLexer) : Option YamlLexer := do
  if ¬ x.inFlow ∧ ¬ x.keyAllowed then failure
  let x := x.roll x.column none .blockSequence
  let x ← x.dropCandidate
  return ({ x with keyAllowed := true }.skip 1).push .entry

/-- The mark of a key. -/
def readKeyMark (x : YamlLexer) : Option YamlLexer := do
  if ¬ x.inFlow ∧ ¬ x.keyAllowed then failure
  let x := x.roll x.column none .blockMapping
  let x ← x.dropCandidate
  return ({ x with keyAllowed := !x.inFlow }.skip 1).push .key

/-- The mark of a value. If a key may have started on this line, it did. -/
def readValueMark (x : YamlLexer) : Option YamlLexer :=
  match x.candidates with
  | some c :: outer =>
    -- Nothing told that this is a key when it was read, so its mark, and the opening of the
    -- block in front of that, are put in where it started.
    let x := (x.insert c.tokens .key).roll c.column (some c.tokens) .blockMapping
    let x := { x with candidates := none :: outer, keyAllowed := false }
    some ((x.skip 1).push .value)
  | _ =>
    if ¬ x.inFlow ∧ ¬ x.keyAllowed then none
    else
      let x := x.roll x.column none .blockMapping
      some (({ x with keyAllowed := !x.inFlow }.skip 1).push .value)

/-- Characters that start no plain scalar. -/
def indicators : List Char :=
  "-?:,[]\x7b\x7d#&*!|>'\"%@`".toList

/-- Whether a plain scalar starts here. -/
def atPlain (x : YamlLexer) : Bool :=
  match x.rest with
  | [] => false
  | c :: cs =>
    (!isBlank c && !isBreak c && !indicators.contains c) ||
    (c = '-' && !(cs.head?.any isBlank)) ||
    (!x.inFlow && (c = '?' || c = ':') && !atSpace cs)

/-- Read the token that starts here. -/
def readToken (x : YamlLexer) : Option YamlLexer :=
  match x.rest with
  | [] => none
  | c :: cs =>
    if x.column = 0 ∧ c = '%' then x.readDirective
    else if x.column = 0 ∧ atDocumentMark x.rest then do
      let y ← x.closeDocument
      return (y.skip 3).push (if c = '-' then .documentStart else .documentEnd)
    else if c = '[' then x.openFlow .flowSequence
    else if c = '{' then x.openFlow .flowMapping
    else if c = ']' then x.closeFlow .flowSequenceEnd
    else if c = '}' then x.closeFlow .flowMappingEnd
    else if c = ',' then x.readComma
    else if c = '-' ∧ atSpace cs then x.readEntry
    else if c = '?' ∧ (x.inFlow ∨ atSpace cs) then x.readKeyMark
    else if c = ':' ∧ (x.inFlow ∨ atSpace cs) then x.readValueMark
    else if c = '*' then x.readAnchor .alias
    else if c = '&' then x.readAnchor .anchor
    else if c = '!' then x.readTag
    else if c = '|' ∧ ¬ x.inFlow then x.readBlock false
    else if c = '>' ∧ ¬ x.inFlow then x.readBlock true
    else if c = '\'' then x.readQuoted false
    else if c = '"' then x.readQuoted true
    else if x.atPlain then x.readPlain
    else none

/-- Read tokens, at most `n`, until the text is used up. -/
def run : Nat → YamlLexer → Option (List YamlToken)
  | 0, _ => none
  | n + 1, x => do
    let x := skipToToken (x.rest.length + 1) x
    -- A key that may have started on an earlier line can no longer be one.
    let x ← x.dropStale
    let x := x.unroll x.column
    if x.rest = [] then
      let x ← x.closeDocument
      return x.tokens.reverse
    run n (← x.readToken)

end YamlLexer

/-- Whether a character may stand in a YAML text at all. -/
def YamlToken.isAllowed (c : Char) : Bool :=
  let n := c.toNat
  n = 0x09 ∨ n = 0x0A ∨ n = 0x0D ∨ (0x20 ≤ n ∧ n ≤ 0x7E) ∨ n = 0x85 ∨ (0xA0 ≤ n ∧ n ≤ 0xFFFD) ∨
    0x10000 ≤ n

/-- The tokens of a text. -/
def YamlToken.ofText? (text : List Char) : Option (List YamlToken) :=
  if text.all isAllowed then YamlLexer.run (text.length + 2) (.start text) else none

end ThreeWay
