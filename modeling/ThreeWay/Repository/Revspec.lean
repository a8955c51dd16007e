import ThreeWay.Object.Database

/-!
# Revision specifications

The text by which a revision is named: a name, followed by steps that lead from one object to another.

| Step | Leads to |
| :-- | :-- |
| `^`, `^2` | the first or second parent |
| `~`, `~3` | the third commit along first parents |
| a caret and a kind in braces | the object of that kind |
| a caret and empty braces | what a tag stands for |
| a caret and a slash with an expression in braces | the newest commit whose message matches |
| `:` | what stands at a path of the tree |
| an at sign and a number in braces | an earlier place of a reference |
| an at sign and a negative number in braces | a branch that was checked out before |
| an at sign and a word that begins with `up` in braces, or `u` | the branch that a branch tracks |
| an at sign and any other text in braces | the place of a reference at a point in time |

Every text can be read. A text that is no specification ends in a step that cannot be taken; whether the
name is looked up before that is noticed makes a difference, because looking it up may fail as well.

## Main definitions

* `RevStep`: A step.
* `Revspec`: A name and steps.
* `Revspec.ofString`: The specification that a text writes.
-/

namespace ThreeWay

/-- A step from one object to another. -/
inductive RevStep where
  | parent (n : Nat)
  | ancestor (n : Nat)
  | peel (kind : ObjectKind)
  | peelTag
  | search (expression : String)
  | path (text : String)
  | logged (n : Nat)
  | checkedOut (n : Nat)
  | tracked
  | dated (text : String)
  | malformed (afterLookup : Bool)
deriving DecidableEq

/-- A name and the steps from there. -/
structure Revspec where
  name : String
  steps : List RevStep
deriving DecidableEq

namespace Revspec

/-- The greatest number that a specification may hold. -/
def maxNumber : Nat := 2147483647

/-- The number at the front of a text, one if there is none, and what follows; nothing if it is too
    great. -/
def number? (cs : List Char) : Option (Nat × List Char) :=
  let digits := cs.takeWhile Char.isDigit
  let value := digits.foldl (fun n c => n * 10 + (c.toNat - '0'.toNat)) 0
  if digits = [] then some (1, cs)
  else if maxNumber < value then none
  else some (value, cs.drop digits.length)

/-- The number of generations that tildes and numbers write, behind the first tilde. -/
def generations? : Nat → List Char → Option (Nat × List Char)
  | 0, _ => none
  | fuel + 1, cs => do
    let (n, rest) ← number? cs
    match rest with
    | '~' :: rest =>
      let (more, rest) ← generations? fuel rest
      -- Tildes and numbers in a row are one step, so their numbers are added.
      return (n + more, rest)
    | _ => return (n, rest)

/-- What stands before a closing brace, and what follows. -/
def braces? (cs : List Char) : Option (String × List Char) :=
  let inner := cs.takeWhile (· ≠ '\x7d')
  if inner.length < cs.length then some (String.ofList inner, cs.drop (inner.length + 1)) else none

/-- Whether a character is a blank. -/
def isBlank (c : Char) : Bool :=
  c = ' ' || ('\t' ≤ c && c ≤ '\r')

/-- The whole number that a text writes, if it writes one that is not too great. -/
def integer? (s : String) : Option Int :=
  let cs := s.toList.dropWhile isBlank
  let (negative, digits) := match cs with
    | '-' :: rest => (true, rest)
    | '+' :: rest => (false, rest)
    | rest => (false, rest)
  if digits = [] ∨ ¬ digits.all Char.isDigit then none
  else
    match number? digits with
    | some (n, _) => some (if negative then -n else n)
    | none => none

/-- The step that braces behind a caret write. -/
def caretStep (inner : String) : RevStep :=
  match inner.toList with
  | [] => .peelTag
  | '/' :: expression => .search (String.ofList expression)
  | _ =>
    match [ObjectKind.commit, .tree, .blob, .tag].find? (·.word = inner) with
    | some kind => .peel kind
    | none => .malformed true

/-- The step that braces behind an at sign write. -/
def atStep (inner : String) : RevStep :=
  match integer? inner with
  | some n =>
    if n < 0 then .checkedOut n.natAbs
    -- Minus zero is no number of switches.
    else if inner.toList.head? = some '-' then .malformed false
    else .logged n.toNat
  | none =>
    if inner.toList.head? = some '-' then .malformed false
    else if inner = "u" ∨ "up".isPrefixOf inner then .tracked
    else .dated inner

/-- The steps that a text writes. Every step takes a character. -/
def stepsFrom : Nat → List Char → List RevStep
  | 0, _ => []
  | _, [] => []
  | fuel + 1, c :: rest =>
    match c, rest with
    -- A malformed step ends the specification, as nothing tells where the next one starts.
    | '^', '\x7b' :: rest =>
      match braces? rest with
      | some (inner, rest) => caretStep inner :: stepsFrom fuel rest
      | none => [.malformed true]
    | '^', rest =>
      match number? rest with
      | some (n, rest) => .parent n :: stepsFrom fuel rest
      | none => [.malformed true]
    | '~', rest =>
      match generations? (rest.length + 1) rest with
      | some (n, rest) => .ancestor n :: stepsFrom fuel rest
      | none => [.malformed false]
    | ':', rest => [.path (String.ofList rest)]
    | '@', '\x7b' :: rest =>
      match braces? rest with
      | some (inner, rest) => atStep inner :: stepsFrom fuel rest
      | none => [.malformed false]
    | _, _ => [.malformed false]

/-- The name at the front of a text, and what follows. An at sign belongs to it unless a brace
    follows. -/
def splitName : List Char → List Char × List Char
  | [] => ([], [])
  | '^' :: rest => ([], '^' :: rest)
  | '~' :: rest => ([], '~' :: rest)
  | ':' :: rest => ([], ':' :: rest)
  | '@' :: '\x7b' :: rest => ([], '@' :: '\x7b' :: rest)
  | c :: rest =>
    let (name, steps) := splitName rest
    (c :: name, steps)

/-- The specification that a text writes. -/
def ofString (s : String) : Revspec :=
  let (name, steps) := splitName s.toList
  ⟨String.ofList name, stepsFrom steps.length steps⟩

end Revspec

end ThreeWay
