import ThreeWay.Disk.Basic
import ThreeWay.Text.Utf8

/-!
# Reading files

Content, text and canonical roots, with the path in every failure, and the paths that files have below such a
root. A raw path that does not lie below the root has none, and the failure names both.

## Main definitions

* `RawPath.relativeTo`: The path that leads from a root to a raw path.
* `Disk.readBytes`: The content of a file.
* `Disk.readText`: The content of a file that must be valid text.
* `Disk.canonicalRoot`: A root without links and dots.
-/

namespace ThreeWay

/-- The path below `base` that leads to `p`. -/
def RawPath.relativeTo (p base : RawPath) : Except FileError Path :=
  match p.relativeTo? base with
  | some path => .ok path
  | none => .error (.outsideRoot p base)

namespace Disk

/-- An answer of the system, with the path in front of a failure. -/
def atPath (path : RawPath) : Except SystemFault α → Except FileError α
  | .ok a => .ok a
  | .error fault => .error (.io path fault)

/-- The content of a file. -/
def readBytes (d : Disk) (path : RawPath) : Except FileError Bytes :=
  atPath path (d.read path)

/-- The content of a file that must be valid text. -/
def readText (d : Disk) (path : RawPath) : Except FileError String := do
  let bytes ← d.readBytes path
  match Utf8.decode? bytes with
  | some text => return text
  | none => .error (.io path .invalidUtf8)

/-- A root without links and dots. -/
def canonicalRoot (d : Disk) (path : RawPath) : Except FileError RawPath :=
  atPath path (d.canonical path)

end Disk

end ThreeWay
