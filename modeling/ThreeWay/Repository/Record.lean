import ThreeWay.Repository.Resolve

/-!
# Recording

Making commits, branches and tags. A commit records the tree of the index and moves whatever the head stands
on. Branches and tags are made over again if they exist.

## Main definitions

* `Repository.commit`: Record the index as a commit.
* `Repository.makeBranch`, `Repository.makeTag`: Let a name stand for an object.
-/

namespace ThreeWay.Repository

/-- Record the index as a commit on top of others, and move the head to it. -/
def commit (r : Repository) (parents : List ObjectId) (author committer : Signature)
    (message : Bytes) : Repository × ObjectId :=
  let tree := r.index.tree
  let made := Commit.make tree parents author committer message
  let objects := (r.objects.recordTree tree).record (.commit made)
  ({ r with objects := objects }.moveHead made.id s!"commit: {made.summary}", made.id)

/-- Let a branch stand for a commit. -/
def makeBranch (r : Repository) (name : String) (id : ObjectId) : Repository :=
  r.moveBranch (branchName name) id s!"branch: Created from {id}"

/-- Let a tag stand for an object. -/
def makeTag (r : Repository) (name : String) (id : ObjectId) : Repository :=
  r.setReference (tagFolder ++ name) id

/-- Let a tag with a message of its own stand for an object. -/
def makeAnnotatedTag (r : Repository) (name : String) (target : StoredObject) (tagger : Signature)
    (message : Bytes) : Repository :=
  let made := Tag.make target.id target.kind.word name tagger message
  { r with objects := r.objects.record (.tag made) }.makeTag name made.id

end ThreeWay.Repository
