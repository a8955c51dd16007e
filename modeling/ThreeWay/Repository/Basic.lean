import ThreeWay.Index
import ThreeWay.Object.Database

/-!
# Repositories

A repository is its objects, its index, its references and its head. A reference is a name for an object;
the head is the branch that the next commit moves, or a commit itself when it is detached. A branch
without a commit is *unborn*: the head names it, but no reference does.

Every move of a branch or of the head is written into a log, the latest one first.

## Main definitions

* `Head`: What the head stands on.
* `LogEntry`: A move of a reference.
* `Repository`: Objects, index, references, head and log.
* `Repository.reference?`: The object that a reference names.
* `Repository.headId?`, `Repository.currentBranch?`: Where the head stands.
* `Repository.moveBranch`, `Repository.moveHead`, `Repository.switch`: Moving a branch or the head.
-/

namespace ThreeWay

/-- What the head stands on: a branch, given by the full name of its reference, or a commit. -/
inductive Head where
  | branch (reference : String)
  | detached (id : ObjectId)
deriving DecidableEq, Inhabited

/-- A move of a reference to an object. -/
structure LogEntry where
  reference : String
  id : ObjectId
  message : String
deriving DecidableEq, Inhabited

/-- A repository. References are in ascending order of their names, and the log has the latest move in
    front. -/
structure Repository where
  objects : Database
  index : Index
  references : List (String × ObjectId)
  head : Head
  log : List LogEntry
deriving Inhabited

namespace Repository

/-- The name of the head as a reference. -/
def headName : String := "HEAD"

/-- What the names of branches start with. -/
def branchFolder : String := "refs/heads/"

/-- What the names of tags start with. -/
def tagFolder : String := "refs/tags/"

/-- The full name of a branch. -/
def branchName (name : String) : String :=
  branchFolder ++ name

/-- The name of a branch without what all branches start with. -/
def shortName (reference : String) : String :=
  let cs := reference.toList
  let front := branchFolder.toList
  if front.isPrefixOf cs then String.ofList (cs.drop front.length) else reference

/-- A repository without commits, whose head stands on an unborn branch. -/
def empty (branch : String) : Repository where
  objects := []
  index := []
  references := []
  head := .branch (branchName branch)
  log := []

/-- The commit that the head stands on. -/
def headId? (r : Repository) : Option ObjectId :=
  match r.head with
  | .branch reference => r.references.lookup reference
  | .detached id => some id

/-- Whether the head stands on a branch without a commit. -/
def isUnborn (r : Repository) : Bool :=
  r.headId?.isNone

/-- The name of the branch that the head stands on, if it has a commit. -/
def currentBranch? (r : Repository) : Option String :=
  match r.head with
  | .branch reference => (r.references.lookup reference).map fun _ => shortName reference
  | .detached _ => none

/-- The object that a full name stands for, and the name of the reference that holds it: for the head,
    the branch it stands on. -/
def reference? (r : Repository) (name : String) : Option (String × ObjectId) :=
  if name = headName then
    match r.head with
    | .branch reference => (r.references.lookup reference).map fun id => (reference, id)
    | .detached id => some (headName, id)
  else (r.references.lookup name).map fun id => (name, id)

/-- The moves of a reference, the latest one first. -/
def logOf (r : Repository) (reference : String) : List LogEntry :=
  r.log.filter (·.reference = reference)

/-- Record a move. -/
def note (r : Repository) (reference : String) (id : ObjectId) (message : String) : Repository :=
  { r with log := ⟨reference, id, message⟩ :: r.log }

/-- Let a reference name an object. -/
def setReference (r : Repository) (name : String) (id : ObjectId) : Repository :=
  { r with references := insertAt Prod.fst (name, id) r.references }

/-- Move a branch, given by its full name. The log of the head follows if the head stands on that
    branch. A branch that is there already does not move. -/
def moveBranch (r : Repository) (reference : String) (id : ObjectId) (message : String) :
    Repository :=
  if r.references.lookup reference = some id then r
  else
    let moved := (r.setReference reference id).note reference id message
    -- Two entries are written for one move, that of the head on top.
    if r.head = .branch reference then moved.note headName id message else moved

/-- Move whatever the head stands on. -/
def moveHead (r : Repository) (id : ObjectId) (message : String) : Repository :=
  match r.head with
  | .branch reference => r.moveBranch reference id message
  | .detached old =>
    if old = id then r else { r with head := .detached id }.note headName id message

/-- How the head is named in the log. -/
def Head.label : Head → String
  | .branch reference => shortName reference
  | .detached id => id.hex

/-- Put the head on a branch or on a commit. The log keeps no move to an unborn branch, and none from a
    place to itself. -/
def switch (r : Repository) (head : Head) : Repository :=
  if r.head = head then r
  else
    let message := s!"checkout: moving from {Head.label r.head} to {Head.label head}"
    let moved := { r with head := head }
    match moved.headId? with
    | some id => moved.note headName id message
    | none => moved

end Repository

end ThreeWay
