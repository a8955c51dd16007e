import ThreeWay.Object.Tree
import ThreeWay.Timestamp

/-!
# Commits and tags

A commit records a tree, the commits before it, who made it and why. Its id is the digest of all of
that, so a commit is known by its id alone. A tag gives a name to an object and is an object itself.

## Main definitions

* `Signature`: Who did something, and when.
* `Commit`: A commit with its tree.
* `Commit.encode`, `Commit.make`: The bytes of a commit, and a commit with its id.
* `Commit.summary`: The first line of a message.
* `Tag`: A tag with a message of its own.
-/

namespace ThreeWay

/-- Who did something, and when. `offset` is the distance of the local time from universal time in
    minutes. -/
structure Signature where
  name : Bytes
  email : Bytes
  time : Timestamp
  offset : Int
deriving DecidableEq, Inhabited

namespace Signature

/-- Whether a byte at an end of a name does not belong to it: a control byte, a blank, or a mark that
    would be misread. -/
def isCrud (b : UInt8) : Bool :=
  b ≤ 0x20 || (Utf8.encode ",:;<>\"\\'").contains b

/-- A name without the bytes at its ends that do not belong to it. -/
def trim (name : Bytes) : Bytes :=
  ((name.dropWhile isCrud).reverse.dropWhile isCrud).reverse

/-- A signature of a moment that is kept in thirty-two bits. -/
def make (name email : String) (time offset : Int) : Signature where
  name := trim (Utf8.encode name)
  email := trim (Utf8.encode email)
  -- An earlier or later moment wraps around.
  time := ⟨(time % (1 <<< 32)).toNat⟩
  offset := offset

/-- The offset as sign, hours and minutes. -/
def offsetText (s : Signature) : String :=
  let minutes := s.offset.natAbs
  (if s.offset < 0 then "-" else "+") ++ Timestamp.padded 2 (minutes / 60) ++
    Timestamp.padded 2 (minutes % 60)

/-- A signature as it is written in an object. -/
def encode (s : Signature) : Bytes :=
  s.name ++ Utf8.encode " <" ++ s.email ++
    Utf8.encode s!"> {s.time.seconds} {s.offsetText}"

end Signature

/-- A commit. -/
structure Commit where
  id : ObjectId
  tree : Tree
  parents : List ObjectId
  author : Signature
  committer : Signature
  message : Bytes
deriving Inhabited

namespace Commit

/-- A line of an object: a word, a blank, and the rest. -/
def line (word : String) (rest : Bytes) : Bytes :=
  Utf8.encode word ++ 0x20 :: rest ++ [0x0A]

/-- The bytes of a commit: tree, parents, author, committer, a blank line, and the message. -/
def encode (tree : ObjectId) (parents : List ObjectId) (author committer : Signature)
    (message : Bytes) : Bytes :=
  line "tree" (Utf8.encode tree.hex) ++
    parents.flatMap (fun p => line "parent" (Utf8.encode p.hex)) ++
    line "author" author.encode ++ line "committer" committer.encode ++ 0x0A :: message

/-- A commit with the id of its bytes. -/
def make (tree : Tree) (parents : List ObjectId) (author committer : Signature) (message : Bytes) :
    Commit where
  id := .ofObject "commit" (encode tree.id parents author committer message)
  tree := tree
  parents := parents
  author := author
  committer := committer
  message := message

/-- When a commit was made. -/
def time (c : Commit) : Timestamp :=
  c.committer.time

/-- The message without line breaks in front of it. -/
def text (c : Commit) : Bytes :=
  c.message.dropWhile (· = 0x0A)

/-- The first line of the message. A message that is not valid text has none. -/
def summary (c : Commit) : String :=
  let text := ((Utf8.decode? c.text).getD "").toList
  let line := text.takeWhile (· ≠ '\n')
  -- A carriage return goes with the line feed behind it; at the end of the message it stays.
  let isBroken := line.length < text.length && line.getLast? = some '\r'
  String.ofList (if isBroken then line.dropLast else line)

/-- The name of the author. -/
def authorName (c : Commit) : String :=
  (Utf8.decode? c.author.name).getD "Unknown"

end Commit

/-- A tag with a message of its own. -/
structure Tag where
  id : ObjectId
  target : ObjectId
  name : String
  message : Bytes
deriving DecidableEq, Inhabited

/-- A tag with the id of its bytes. -/
def Tag.make (target : ObjectId) (kind name : String) (tagger : Signature) (message : Bytes) :
    Tag where
  id := .ofObject "tag" <|
    Commit.line "object" (Utf8.encode target.hex) ++ Commit.line "type" (Utf8.encode kind) ++
      Commit.line "tag" (Utf8.encode name) ++ Commit.line "tagger" tagger.encode ++ 0x0A :: message
  target := target
  name := name
  message := message

end ThreeWay
