import ThreeWay.Error
import ThreeWay.Variant

/-!
# Stores

What stands behind variants: the bytes of a file and the members of a folder whose listing was left
open. A store answers the same question the same way every time.

## Main definitions

* `Store`: Two questions, each of which may fail.
* `Store.detached`: A store with nothing behind it.
* `Memory`: Contents and listings held in memory, as a store.
-/

namespace ThreeWay

/-- The bytes of files and the members of folders. Members come in ascending order of their names. -/
structure Store where
  content : Blob → Except Error Bytes
  listing : Folder → Except Error (List Variant)

/-- A store with nothing behind it. -/
def Store.detached : Store where
  content b := .error (.contentRead b.path.text .noStore)
  listing f := .error (.contentRead f.path.text .noListing)

/-- Contents and listings, each recorded for a path at a revision. -/
structure Memory where
  contents : List ((Revision × Path) × Bytes)
  listings : List ((Revision × Path) × List Variant)

namespace Memory

/-- No contents and no listings. -/
def empty : Memory :=
  ⟨[], []⟩

/-- Record the content of a file; it takes the place of what was recorded before. -/
def insert (m : Memory) (revision : Revision) (path : Path) (bytes : Bytes) : Memory :=
  { m with contents := ((revision, path), bytes) :: m.contents }

/-- Record the members of a folder; what was recorded before stays in force. -/
def insertListing (m : Memory) (revision : Revision) (path : Path) (members : List Variant) :
    Memory :=
  -- A look-up takes the first one, so the newer one stands behind.
  { m with listings := m.listings ++ [((revision, path), members)] }

/-- The recorded contents and listings as a store. -/
def store (m : Memory) : Store where
  content b :=
    match m.contents.lookup (b.revision, b.path) with
    | some bytes => .ok bytes
    | none => .error (.contentRead b.path.text (.noContent b.revision))
  listing f :=
    match m.listings.lookup (f.revision, f.path) with
    | some members => .ok members
    | none => Store.detached.listing f

/-- A bound on the depth of some variants over this store, unless a folder lies below itself: each
    recorded listing is met at most once on the way down. -/
def depthBound (m : Memory) (vs : List Variant) : Nat :=
  m.listings.foldr (fun entry levels => 1 + Variant.depthList entry.2 + levels)
    (Variant.depthList vs)

end Memory

end ThreeWay
