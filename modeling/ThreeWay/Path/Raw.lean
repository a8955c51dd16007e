import ThreeWay.Path.Basic

/-!
# Raw paths

A path as the file system has it: any bytes, cut by slashes. Backslashes are ordinary bytes here.

A raw path is compared by its *components*. Repeated slashes count as one, a single dot counts only
at the very front, and two dots are a component of their own, not resolved.

## Main definitions

* `RawPath`: A byte string with slashes.
* `RawPath.components`: Its components.
* `RawPath.join`, `RawPath.fileName?`, `RawPath.extension?`: Moving down, last name, text after a dot.
* `RawPath.relativeTo?`: The path that leads from one raw path to another.
-/

namespace ThreeWay

/-- A path in the form that the file system takes. -/
structure RawPath where
  bytes : Bytes
deriving DecidableEq

namespace RawPath

/-- The byte between two names. -/
def slash : UInt8 := 0x2F

/-- The byte of a dot. -/
def dot : UInt8 := 0x2E

/-- One component of a raw path. -/
inductive Component where
  | root
  | current
  | parent
  | name (bytes : Bytes)
deriving DecidableEq

/-- The component that a piece between two slashes stands for, if any. -/
def Component.ofPiece (piece : Bytes) : Option Component :=
  if piece = [] ∨ piece = [dot] then none
  else if piece = [dot, dot] then some .parent
  else some (.name piece)

/-- The bytes of a component. -/
def Component.bytes : Component → Bytes
  | .root => []
  | .current => [dot]
  | .parent => [dot, dot]
  | .name bytes => bytes

/-- The raw path of a text. -/
def ofString (s : String) : RawPath :=
  ⟨Utf8.encode s⟩

instance : Inhabited RawPath := ⟨⟨[]⟩⟩

/-- The text of a raw path, with replacement characters for what is not valid. -/
def display (p : RawPath) : String :=
  Utf8.decodeLossy p.bytes

instance : ToString RawPath := ⟨display⟩

/-- Whether a raw path starts at the root of the file system. -/
def isAbsolute (p : RawPath) : Bool :=
  p.bytes.head? = some slash

/-- The pieces between slashes. -/
def pieces (p : RawPath) : List Bytes :=
  p.bytes.splitOn slash

/-- The components of a raw path: the root for a slash at the front, the current folder for a dot at
    the front of a relative one, then a component for each piece that is neither empty nor a dot. -/
def components (p : RawPath) : List Component :=
  let front : List Component :=
    if p.isAbsolute then [.root] else if p.pieces.head? = some [dot] then [.current] else []
  front ++ p.pieces.filterMap Component.ofPiece

/-- The raw path that a list of components spells. -/
def ofComponents (cs : List Component) : RawPath :=
  ⟨[slash].intercalate (match cs with
    -- The root alone is one slash, which takes two empty pieces.
    | [.root] => [[], []]
    | cs => cs.map Component.bytes)⟩

/-- The last component, if it is a name. -/
def fileName? (p : RawPath) : Option Bytes :=
  match p.components.getLast? with
  | some (.name bytes) => some bytes
  | _ => none

/-- The bytes after the last dot of the file name. A dot at the front of a name starts no
    extension. -/
def extension? (p : RawPath) : Option Bytes := do
  let name ← p.fileName?
  let after := name.reverse.takeWhile (· ≠ dot)
  let before := name.reverse.dropWhile (· ≠ dot)
  match before with
  -- No dot at all, or the only dot in front of the name.
  | [] | [_] => none
  | _ => some after.reverse

/-- A raw path below another. An absolute one replaces it. -/
def join (p q : RawPath) : RawPath :=
  if q.isAbsolute then q
  else if p.bytes = [] ∨ p.bytes.getLast? = some slash then ⟨p.bytes ++ q.bytes⟩
  else ⟨p.bytes ++ slash :: q.bytes⟩

/-- What follows `front` in a list. -/
def dropPrefix? : List Component → List Component → Option (List Component)
  | [], rest => some rest
  | c :: front, d :: rest => if c = d then dropPrefix? front rest else none
  | _ :: _, [] => none

/-- The path below `base` that leads to `p`, if `p` lies there by components. -/
def relativeTo? (p base : RawPath) : Option Path :=
  (dropPrefix? base.components p.components).map fun rest => Path.ofBytes (ofComponents rest).bytes

end RawPath

/-- The raw path of a path. -/
def Path.toRaw (p : Path) : RawPath :=
  ⟨p.toBytes⟩

end ThreeWay
