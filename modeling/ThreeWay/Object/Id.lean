import ThreeWay.Digest.Sha1
import ThreeWay.Text.Hex

/-!
# Object ids

A repository names each object by the SHA-1 digest of its kind, its length and its bytes.

## Main definitions

* `ObjectId`: Forty hexadecimal digits.
* `ObjectId.ofObject`: The id of an object of a kind.
* `ObjectId.ofBlob`: The id of a file's content.
* `ObjectId.parse?`: The id that a text of at most forty digits stands for.
-/

namespace ThreeWay

/-- The name of an object, in lower-case hexadecimal digits. -/
structure ObjectId where
  hex : String
deriving DecidableEq, Inhabited

namespace ObjectId

instance : ToString ObjectId := ⟨hex⟩

/-- The number of digits. -/
def length : Nat := 40

/-- The id of an object: the digest of its kind, a blank, its length, a zero byte, and its bytes. -/
def ofObject (kind : String) (content : Bytes) : ObjectId :=
  let header := Utf8.encode s!"{kind} {content.length}" ++ [0]
  ⟨Hex.encode (Digest.sha1 (header ++ content))⟩

/-- The id of a file's content. -/
def ofBlob (content : Bytes) : ObjectId :=
  ofObject "blob" content

/-- The bytes of an id. -/
def toBytes (id : ObjectId) : Bytes :=
  (Hex.decode? id.hex).getD []

/-- The first digits of an id. -/
def short (id : ObjectId) (n : Nat) : String :=
  String.ofList (id.hex.toList.take n)

/-- Digits of either case as lower-case digits. -/
def digits? (s : String) : Option (List Char) :=
  (s.toList.mapM Hex.digit?).map (·.map Hex.digit)

/-- The id that at least one and at most forty digits stand for; zeros follow a shorter text. -/
def parse? (s : String) : Option ObjectId := do
  let ds ← digits? s
  -- A shorter text is not an abbreviation here: the digits behind it are zeros.
  if ds = [] ∨ length < ds.length then none
  else some ⟨String.ofList (ds ++ List.replicate (length - ds.length) '0')⟩

end ObjectId

end ThreeWay
