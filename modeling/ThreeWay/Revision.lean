/-!
# Revisions

The state of the tree that a file or folder is read from: the live working tree, the staged index, or
whatever a revision specification names.

## Main definitions

* `Revision`: One of the three.
* `Revision.toString`: How a revision is shown.
* `ContentId`, `TreeId`, `CommitId`: Opaque identities of a file's content, a folder and a commit.
-/

namespace ThreeWay

/-- Where a variant was read from. -/
inductive Revision where
  | workingTree
  | index
  | named (spec : String)
deriving DecidableEq, Inhabited

namespace Revision

/-- The revision of the last commit. -/
def head : Revision :=
  .named "HEAD"

/-- How a revision is shown: a named one by its specification. -/
def toString : Revision → String
  | .workingTree => "working tree"
  | .index => "index"
  | .named spec => spec

instance : ToString Revision := ⟨toString⟩

/-- The place of the kind of a revision in their order. -/
def rank : Revision → Nat
  | .workingTree => 0
  | .index => 1
  | .named _ => 2

/-- The working tree comes first, then the index, then named revisions by their specification. -/
def before : Revision → Revision → Bool
  | .named a, .named b => a < b
  | a, b => a.rank < b.rank

/-- Revisions in ascending order; equal ones are all kept. -/
def sort (revisions : List Revision) : List Revision :=
  revisions.mergeSort fun a b => !b.before a

end Revision

/-- The identity of a file's content: an object id or a checksum. -/
structure ContentId where
  text : String
deriving DecidableEq, Inhabited

/-- The identity of a folder: two folders with one identity list the same members. -/
structure TreeId where
  text : String
deriving DecidableEq, Inhabited

/-- The identity of a commit. -/
structure CommitId where
  text : String
deriving DecidableEq, Inhabited

end ThreeWay
