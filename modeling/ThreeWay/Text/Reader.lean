/-!
# Reading a text from the front

The readers of the settings formats take characters from the front of a text and fail as a whole when
the text does not have the expected form. Loops carry a bound that the length of the text covers.

## Main definitions

* `Reader`: A computation that takes characters from the front of a text and may fail.
* `Reader.peek`, `Reader.next`, `Reader.accept`, `Reader.takeWhile`: The steps.
* `Reader.many`: A step repeated as long as it applies.
* `Reader.readAll`: The result on a text that has to be used up.
-/

namespace ThreeWay

/-- A computation that takes characters from the front of a text and may fail. -/
abbrev Reader := StateT (List Char) Option

namespace Reader

/-- The next character, which stays in place. -/
def peek : Reader (Option Char) := do
  return (← get).head?

/-- The text that is left. -/
def rest : Reader (List Char) :=
  get

/-- Take the next character. -/
def next : Reader Char := do
  match ← get with
  | [] => failure
  | c :: cs => set cs; return c

/-- Take a text if it comes next, and tell whether it did. -/
def accept (expected : String) : Reader Bool := do
  let cs ← get
  if expected.toList.isPrefixOf cs then
    set (cs.drop expected.toList.length)
    return true
  else return false

/-- Take a text that must come next. -/
def expect (expected : String) : Reader Unit := do
  if ← accept expected then return () else failure

/-- Take characters as long as a test holds. -/
def takeWhile (p : Char → Bool) : Reader (List Char) := do
  let cs ← get
  set (cs.dropWhile p)
  return cs.takeWhile p

/-- Take at least one character for which a test holds, and all that follow. -/
def takeWhile1 (p : Char → Bool) : Reader (List Char) := do
  match ← takeWhile p with
  | [] => failure
  | cs => return cs

/-- Take exactly `n` characters for which a test holds. -/
def takeExactly (n : Nat) (p : Char → Bool) : Reader (List Char) := do
  let cs ← get
  let taken := cs.take n
  if taken.length = n ∧ taken.all p then
    set (cs.drop n)
    return taken
  else failure

/-- Repeat a step until it answers `none`, at most `n` times, and collect its answers. -/
def manyFrom (step : Reader (Option α)) : Nat → Reader (List α)
  | 0 => failure
  | n + 1 => do
    match ← step with
    | none => return []
    | some a => return a :: (← manyFrom step n)

/-- Repeat a step until it answers `none`, and collect its answers. A step that takes a character each
    time is never cut short. -/
def many (step : Reader (Option α)) : Reader (List α) := do
  manyFrom step ((← get).length + 2)

/-- The result of a reader on a text that it has to use up. -/
def readAll (r : Reader α) (text : List Char) : Option α := do
  match ← r.run text with
  | (a, []) => some a
  | _ => none

end Reader

/-- The number that decimal digits write. -/
def decimal (digits : List Char) : Nat :=
  digits.foldl (fun n c => n * 10 + (c.toNat - '0'.toNat)) 0

end ThreeWay
