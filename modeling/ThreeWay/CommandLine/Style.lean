/-!
# Styled text

Text for a terminal. A style is switched on in front of a text and everything is switched off behind it,
so where a text switches everything off itself, its style is switched on again right there.

## Main definitions

* `Style`: Bold or dim, and a colour.
* `Style.apply`: A text in a style.
* `Ink`: Whether styles are used at all.
* `Ink.ofSurroundings`: What variables of the surroundings say about that.
-/

namespace ThreeWay

/-- The colours that are used. -/
inductive Colour where
  | red
  | green
  | yellow
  | blue
  | cyan
deriving DecidableEq, Inhabited

/-- The code of a colour. -/
def Colour.code : Colour → String
  | .red => "31"
  | .green => "32"
  | .yellow => "33"
  | .blue => "34"
  | .cyan => "36"

/-- How a text is shown. -/
structure Style where
  bold : Bool
  dim : Bool
  colour : Option Colour
deriving DecidableEq, Inhabited

namespace Style

/-- A colour alone. -/
def plain (colour : Colour) : Style :=
  ⟨false, false, some colour⟩

/-- A colour in bold. -/
def strong (colour : Colour) : Style :=
  ⟨true, false, some colour⟩

/-- Bold without a colour. -/
def emphatic : Style :=
  ⟨true, false, none⟩

/-- Dim without a colour. -/
def faint : Style :=
  ⟨false, true, none⟩

/-- What switches codes on. -/
def sequence (codes : List String) : String :=
  "\x1b[" ++ String.intercalate ";" codes ++ "m"

/-- What switches a style on. -/
def opening (s : Style) : String :=
  sequence ((if s.bold then ["1"] else []) ++ (if s.dim then ["2"] else []) ++
    (s.colour.map Colour.code).toList)

/-- What switches every style off. -/
def reset : String :=
  sequence ["0"]

/-- A text in a style. -/
def apply (s : Style) (text : String) : String :=
  s.opening ++ String.intercalate (reset ++ s.opening) (text.splitOn reset) ++ reset

end Style

/-- Whether styles are used. -/
structure Ink where
  coloured : Bool
deriving DecidableEq, Inhabited

/-- Whether styles are used, as variables of the surroundings say. Any value but zero forces styles; else a
    wish for no colours decides, and else styles are for a terminal alone, unless zero forbids them. -/
def Ink.ofSurroundings (force forbid wish : Option String) (isTerminal : Bool) : Ink :=
  if force.any (· ≠ "0") then ⟨true⟩
  else if forbid.isSome then ⟨false⟩
  else ⟨isTerminal && !wish.any (· = "0")⟩

/-- A text, in a style if styles are used. -/
def Ink.paint (ink : Ink) (style : Style) (text : String) : String :=
  if ink.coloured then style.apply text else text

end ThreeWay
