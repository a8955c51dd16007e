import ThreeWay.Error
import ThreeWay.Object.Commit

/-!
# The object database

Everything that a repository ever recorded, found by id. Objects are never changed or taken away, and
an object that is already there is not recorded a second time.

A tag stands for another object and a commit for its tree. *Peeling* follows these steps until an
object of the wanted kind is reached.

## Main definitions

* `StoredObject`: A blob, tree, commit or tag.
* `Database`: The recorded objects.
* `Database.find?`, `Database.blob?`, `Database.commit?`: Looking up an id.
* `Database.withPrefix`: The objects whose ids start with some digits.
* `Database.peel`: The object of a kind that an object stands for.
-/

namespace ThreeWay

/-- The kinds of objects. -/
inductive ObjectKind where
  | blob
  | tree
  | commit
  | tag
deriving DecidableEq, Inhabited

/-- The word for a kind of object. -/
def ObjectKind.word : ObjectKind → String
  | .blob => "blob"
  | .tree => "tree"
  | .commit => "commit"
  | .tag => "tag"

/-- An object with its id. -/
inductive StoredObject where
  | blob (id : ObjectId) (content : Bytes)
  | tree (t : Tree)
  | commit (c : Commit)
  | tag (t : Tag)
deriving Inhabited

namespace StoredObject

/-- The id of an object. -/
def id : StoredObject → ObjectId
  | .blob id _ => id
  | .tree t => t.id
  | .commit c => c.id
  | .tag t => t.id

/-- The kind of an object. -/
def kind : StoredObject → ObjectKind
  | .blob _ _ => .blob
  | .tree _ => .tree
  | .commit _ => .commit
  | .tag _ => .tag

end StoredObject

/-- The recorded objects. -/
abbrev Database := List StoredObject

namespace Database

/-- The object with an id. -/
def find? (db : Database) (id : ObjectId) : Option StoredObject :=
  List.find? (fun object => object.id = id) db

/-- Record an object, unless it is recorded already. -/
def record (db : Database) (object : StoredObject) : Database :=
  if (db.find? object.id).isSome then db else object :: db

/-- Record a file's content. -/
def recordBlob (db : Database) (content : Bytes) : Database :=
  db.record (.blob (.ofBlob content) content)

/-- Record a tree with the trees of all folders below it. -/
def recordTree (db : Database) (t : Tree) : Database :=
  t.subtrees.foldl (fun db t => db.record (.tree t)) db

/-- The content of the blob with an id. -/
def blob? (db : Database) (id : ObjectId) : Option Bytes :=
  match db.find? id with
  | some (.blob _ content) => some content
  | _ => none

/-- The commit with an id. -/
def commit? (db : Database) (id : ObjectId) : Option Commit :=
  match db.find? id with
  | some (.commit c) => some c
  | _ => none

/-- The objects whose ids start with the given digits. -/
def withPrefix (db : Database) (digits : List Char) : List StoredObject :=
  List.filter (fun object => digits.isPrefixOf object.id.hex.toList) db

/-- The object that an object stands for: the tree of a commit, the target of a tag. -/
def deref (db : Database) : StoredObject → Except ObjectError StoredObject
  | .commit c => .ok (.tree c.tree)
  | .tag t =>
    match db.find? t.target with
    | some object => .ok object
    | none => .error (.notFound t.target.hex)
  | object => .error (.wrongKind object.id.hex)

/-- Follow objects until one satisfies a test, at most `n` steps. -/
def derefUntil (db : Database) (p : StoredObject → Bool) :
    Nat → StoredObject → Except ObjectError StoredObject
  | 0, object => .error (.wrongKind object.id.hex)
  | n + 1, object => do
    let next ← db.deref object
    if p next then return next else db.derefUntil p n next

/-- The object of the wanted kind that an object stands for. A blob and a tree stand for themselves
    alone, and a commit for its tree: any other wish is no valid request. -/
def peel (db : Database) (wanted : ObjectKind) (object : StoredObject) :
    Except ObjectError StoredObject :=
  if object.kind = wanted then .ok object
  else
    match object.kind, wanted with
    -- A chain of tags names older and older objects, so it passes each recorded one at most once.
    | .tag, _ | .commit, .tree => db.derefUntil (·.kind = wanted) (db.length + 2) object
    | _, _ => .error (.invalidSpec object.id.hex)

/-- What a tag stands for in the end. Any other object stands for itself. -/
def peelTag (db : Database) (object : StoredObject) : Except ObjectError StoredObject :=
  if object.kind = .tag then db.derefUntil (·.kind ≠ .tag) (db.length + 1) object
  else .ok object

/-- The commit that an object stands for. -/
def peelToCommit (db : Database) (object : StoredObject) : Except ObjectError Commit := do
  match ← db.peel .commit object with
  | .commit c => return c
  | other => .error (.wrongKind other.id.hex)

/-- The tree that an object stands for. -/
def peelToTree (db : Database) (object : StoredObject) : Except ObjectError Tree := do
  match ← db.peel .tree object with
  | .tree t => return t
  | other => .error (.wrongKind other.id.hex)

/-- The object that an entry of a tree names. -/
def ofEntry (db : Database) : TreeEntry → Except ObjectError StoredObject
  | .folder id members => .ok (.tree ⟨id, members⟩)
  | .leaf leaf =>
    -- A submodule's commit is recorded in another repository and is mostly not found here.
    let wanted := if leaf.mode.isFile then ObjectKind.blob else .commit
    match db.find? leaf.id with
    | some object => if object.kind = wanted then .ok object else .error (.notFound leaf.id.hex)
    | none => .error (.notFound leaf.id.hex)

end Database

end ThreeWay
