import ThreeWay.Revision

/-!
# Arguments

What the arguments of a command line ask for. Switches may stand in front of the name of the command and
behind it; the two groups are read one after the other with the same rules. In each group a switch is given
at most once, and a switch that both groups may hold counts as it is given in the second one.

A switch with a value takes it from behind an equals sign, from the rest of a group of letters, or from the
next argument, which must not look like a switch. Two dashes end the switches.

## Main definitions

* `Command`, `Invocation`: What is asked for.
* `Halt`: Why nothing is asked for.
* `Text.trim`: A text without the white space at its ends, as a revision is read.
* `Switch`, `Level`: The switches, and where they may stand.
* `Level.collect`: One group of arguments.
* `Invocation.parse`: The reading of a command line.
-/

namespace ThreeWay

/-- What to do, and how to show it. -/
inductive Command where
  | status (paths : List String) (json : Bool)
  | diff (path : Option String) (left : Revision) (right : Option Revision) (json : Bool)
  | changes (json : Bool)
deriving DecidableEq, Inhabited

/-- What a command line asks for. `folder` is the place to start from. -/
structure Invocation where
  verbose : Bool
  folder : String
  source : Option String
  target : Option String
  command : Option Command
deriving DecidableEq, Inhabited

/-- Why a command line asks for nothing: it has no valid form, or wants to know something about the program
    itself. -/
inductive Halt where
  | usage
  | version
  | help
deriving DecidableEq, Inhabited

/-- The switches. -/
inductive Switch where
  | verbose
  | folder
  | source
  | target
  | json
  | left
  | right
  | version
  | help
deriving DecidableEq, Inhabited

namespace Text

/-- Whether a character is white space, as Unicode counts it. -/
def isBlank (c : Char) : Bool :=
  let n := c.toNat
  (0x09 ≤ n && n ≤ 0x0D) || n = 0x20 || n = 0x85 || n = 0xA0 || n = 0x1680 ||
    (0x2000 ≤ n && n ≤ 0x200A) || n = 0x2028 || n = 0x2029 || n = 0x202F || n = 0x205F || n = 0x3000

/-- Characters without white space at the ends. -/
def trimChars (cs : List Char) : List Char :=
  ((cs.dropWhile isBlank).reverse.dropWhile isBlank).reverse

/-- A text without white space at its ends. -/
def trim (s : String) : String :=
  String.ofList (trimChars s.toList)

end Text

/-- The revision that an argument names. A colon in front is kept for the names of states that are no
    revision of the repository. -/
def Revision.ofArgument? (value : String) : Option Revision :=
  let spec := Text.trim value
  if spec = "" then none
  else if spec = ":worktree" then some .workingTree
  else if spec = ":index" then some .index
  else if spec.toList.head? = some ':' then none
  else some (.named spec)

namespace Switch

/-- The name of a switch behind two dashes. -/
def long : Switch → String
  | .verbose => "verbose"
  | .folder => "repo"
  | .source => "source"
  | .target => "target"
  | .json => "json"
  | .left => "left"
  | .right => "right"
  | .version => "version"
  | .help => "help"

/-- The letter of a switch behind one dash. -/
def short? : Switch → Option Char
  | .verbose => some 'v'
  | .folder => some 'C'
  | .version => some 'V'
  | .help => some 'h'
  | _ => none

/-- Whether a switch has a value. -/
def takesValue : Switch → Bool
  | .folder | .source | .target | .left | .right => true
  | _ => false

/-- Whether a switch may have this value. -/
def accepts (s : Switch) (value : String) : Bool :=
  match s with
  | .folder => value ≠ ""
  | .left | .right => (Revision.ofArgument? value).isSome
  | _ => true

end Switch

/-- Where arguments stand: in front of the name of a command, or behind it. -/
inductive Level where
  | front
  | status
  | diff
  | changes
deriving DecidableEq, Inhabited

/-- What was given at a level: switches with their values, and operands. -/
structure Given where
  switches : List (Switch × String)
  operands : List String
deriving DecidableEq, Inhabited

namespace Given

/-- Nothing given. -/
def empty : Given :=
  ⟨[], []⟩

/-- The value of a switch. -/
def value? (g : Given) (s : Switch) : Option String :=
  g.switches.lookup s

/-- Whether a switch was given. -/
def has (g : Given) (s : Switch) : Bool :=
  (g.value? s).isSome

/-- Note a switch. -/
def note (g : Given) (s : Switch) (value : String) : Except Halt Given :=
  match s with
  | .version => .error .version
  | .help => .error .help
  | s =>
    if g.has s || !s.accepts value then .error .usage
    else .ok { g with switches := g.switches ++ [(s, value)] }

end Given

/-- How the next argument is read. -/
inductive Reading where
  | switches
  | valueOf (s : Switch)
  | operands
deriving DecidableEq, Inhabited

namespace Level

/-- The command that a name stands for. -/
def ofName? : String → Option Level
  | "status" => some .status
  | "diff" => some .diff
  | "changes" => some .changes
  | _ => none

/-- The switches of a level. -/
def switches : Level → List Switch
  | .front => [.verbose, .folder, .source, .target, .version, .help]
  | .diff => [.verbose, .folder, .source, .target, .help, .json, .left, .right]
  | _ => [.verbose, .folder, .source, .target, .help, .json]

/-- Whether a level that holds some operands has room for one more. -/
def hasRoom (level : Level) (operands : List String) : Bool :=
  match level with
  | .status => true
  | .diff => operands.isEmpty
  | _ => false

/-- Whether an argument looks like a switch. A single dash does not. -/
def looksLikeSwitch (arg : String) : Bool :=
  arg.toList.head? = some '-' && arg ≠ "-"

/-- Take an operand. -/
def operand (level : Level) (g : Given) (arg : String) : Except Halt Given :=
  -- The name of a command is told before this, so in front of it no operand has room.
  if level.hasRoom g.operands then .ok { g with operands := g.operands ++ [arg] }
  else .error .usage

/-- Read the letters behind one dash. -/
def letters (level : Level) (g : Given) : List Char → Except Halt (Given × Reading)
  | [] => .ok (g, .switches)
  | c :: rest =>
    match level.switches.find? fun s => s.short? = some c with
    | none => .error .usage
    | some s =>
      if s.takesValue then
        match rest with
        | [] => .ok (g, .valueOf s)
        | '=' :: value => do return (← g.note s (String.ofList value), .switches)
        | value => do return (← g.note s (String.ofList value), .switches)
      -- A letter without a value may be followed by others behind the same dash.
      else do level.letters (← g.note s "") rest

/-- Read what stands behind two dashes. -/
def word (level : Level) (g : Given) (cs : List Char) : Except Halt (Given × Reading) :=
  let name := String.ofList (cs.takeWhile (· ≠ '='))
  match level.switches.find? fun s => s.long = name, cs.dropWhile (· ≠ '=') with
  | none, _ => .error .usage
  | some s, [] => do
    if s.takesValue then return (g, .valueOf s) else return (← g.note s "", .switches)
  | some s, _ :: value => do
    if s.takesValue then return (← g.note s (String.ofList value), .switches) else .error .usage

/-- Read an argument that is neither the name of a command nor a value. -/
def argument (level : Level) (g : Given) (arg : String) : Except Halt (Given × Reading) :=
  match arg.toList with
  | ['-', '-'] => .ok (g, .operands)
  | '-' :: '-' :: cs => level.word g cs
  | '-' :: c :: cs => level.letters g (c :: cs)
  | _ => do return (← level.operand g arg, .switches)

/-- Whether help can be given on what is named. -/
def isTopic : List String → Bool
  | [] => true
  | ["help"] => true
  | [name] => (ofName? name).isSome
  | _ => false

/-- Read the arguments of a level, up to the name of a command. -/
def collect (level : Level) (g : Given) :
    Reading → List String → Except Halt (Given × Option (Level × List String))
  | .valueOf _, [] => .error .usage
  | _, [] => .ok (g, none)
  | .valueOf s, arg :: rest => do
    -- A value that looks like a switch must be written behind an equals sign.
    if looksLikeSwitch arg then .error .usage
    else level.collect (← g.note s arg) .switches rest
  | .operands, arg :: rest => do level.collect (← level.operand g arg) .operands rest
  | .switches, arg :: rest => do
    match if level = .front then ofName? arg else none with
    | some command => return (g, some (command, rest))
    | none =>
      if level = .front ∧ arg = "help" then .error (if isTopic rest then .help else .usage)
      else
        let (g, reading) ← level.argument g arg
        level.collect g reading rest

end Level

namespace Invocation

/-- The command of a level with what was given. -/
def commandOf (level : Level) (g : Given) : Option Command :=
  let json := g.has .json
  let revision (s : Switch) := (g.value? s).bind Revision.ofArgument?
  match level with
  | .front => none
  | .status => some (.status g.operands json)
  | .diff => some (.diff g.operands.head? ((revision .left).getD .workingTree) (revision .right) json)
  | .changes => some (.changes json)

/-- What two groups of arguments ask for. A target that is not given is taken from the surroundings. -/
def ofGroups (front back : Given) (level : Level) (surroundings : Option String) : Invocation :=
  -- What stands nearer to the command decides.
  let value (s : Switch) := back.value? s <|> front.value? s
  { verbose := front.has .verbose || back.has .verbose
    folder := (value .folder).getD "."
    source := value .source
    target := value .target <|> surroundings
    command := commandOf level back }

/-- What a command line asks for. -/
def parse (args : List String) (surroundings : Option String) : Except Halt Invocation := do
  match ← Level.front.collect .empty .switches args with
  | (front, none) => return ofGroups front .empty .front surroundings
  | (front, some (level, rest)) =>
    let (back, _) ← level.collect .empty .switches rest
    return ofGroups front back level surroundings

end Invocation

end ThreeWay
