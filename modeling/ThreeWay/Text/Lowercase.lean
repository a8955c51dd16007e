import ThreeWay.Text.LetterTable

/-!
# Lower case

The lower-case form of a text. Two characters need more than a table: the dotted capital I becomes two
characters, and a capital sigma becomes the final form at the end of a word.

## Main definitions

* `lowercase`: The lower-case form of a text.
-/

namespace ThreeWay

namespace Letter

/-- Whether a character lies in one of some runs. -/
def inRanges (ranges : List (Nat × Nat)) (c : Char) : Bool :=
  ranges.any fun (first, last) => first ≤ c.toNat && c.toNat ≤ last

/-- The lower-case form of a character that has one of its own. -/
def lower (c : Char) : Char :=
  let n := c.toNat
  match lowerRanges.find? fun (first, last, step, _) =>
      first ≤ n && n ≤ last && (n - first) % step = 0 with
  | some (_, _, _, distance) => Char.ofNat (n + distance).toNat
  | none => c

/-- Whether the next letter in a list is cased, passing over what does not count. -/
def nextIsCased : List Char → Bool
  | [] => false
  | c :: rest =>
    if inRanges ignorableRanges c then nextIsCased rest else inRanges casedRanges c

/-- The lower-case form of a text, given what stands in front of it in reverse. -/
def lowerFrom (before : List Char) : List Char → List Char
  | [] => []
  | c :: rest =>
    let form : List Char :=
      if c = '\u0130' then ['i', '\u0307']
      -- A sigma at the end of a word has a form of its own.
      else if c = '\u03a3' then
        if nextIsCased before && !nextIsCased rest then ['\u03c2'] else ['\u03c3']
      else [lower c]
    form ++ lowerFrom (c :: before) rest

end Letter

/-- The lower-case form of a text. -/
def lowercase (s : String) : String :=
  String.ofList (Letter.lowerFrom [] s.toList)

end ThreeWay
