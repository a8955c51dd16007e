import ThreeWay.Heap
import ThreeWay.Object.Database

/-!
# Walking through history

The commits that can be reached from some start, in two orders. Both begin by gathering: commits are
taken from a queue that is kept with the newest in front, and the parents of each join the queue once.

* In order of *time*, the newest commit comes first.
* In *topological* order, no commit comes before one of its children. Of the commits that are ready the
  newest comes first.

Parents are looked up in the database. One that is not there is passed over, as if the history ended there; only a
damaged database has such parents, and walks over those are not the subject here.

## Main definitions

* `isNewer`: The order of commits by time.
* `gather`: The commits that can be reached, each once.
* `byTime`, `topological`: The two orders.
-/

namespace ThreeWay.Walk

/-- Whether a commit was made after another. -/
def isNewer (a b : Commit) : Bool :=
  b.time.seconds < a.time.seconds

/-- Put a commit into a queue, behind all commits that are at least as new. -/
def enqueue (c : Commit) : List Commit → List Commit
  | [] => [c]
  | d :: rest => if isNewer c d then c :: d :: rest else d :: enqueue c rest

/-- Let the parents of a commit join the queue unless they were seen before. -/
def joinParents (db : Database) (c : Commit) (queue : List Commit) (seen : List ObjectId) :
    List Commit × List ObjectId :=
  (c.parents.filterMap db.commit?).foldl
    (fun (queue, seen) p =>
      -- A commit counts as seen when it enters the queue, not when it leaves it.
      if seen.contains p.id then (queue, seen) else (enqueue p queue, p.id :: seen))
    (queue, seen)

/-- The commits that leave the queue, at most `n` of them. -/
def gatherUpTo (db : Database) : Nat → List Commit → List ObjectId → List Commit
  | 0, _, _ => []
  | _, [], _ => []
  | n + 1, c :: queue, seen =>
    let (queue, seen) := joinParents db c queue seen
    c :: gatherUpTo db n queue seen

/-- The commits that can be reached from some start commits, each once. Every recorded commit enters the
    queue at most once. -/
def gather (db : Database) (starts : List Commit) : List Commit :=
  gatherUpTo db (starts.length + db.length) starts (starts.map Commit.id)

/-- The commits that can be reached, the newest first. -/
def byTime (db : Database) (starts : List Commit) : List Commit :=
  ((gather db starts).foldl (fun heap c => heap.insert isNewer c) Heap.empty).drain isNewer

/-- The commits of a list that have a given parent. -/
def children (all : List Commit) (id : ObjectId) : List Commit :=
  all.filter (·.parents.contains id)

/-- The commits of a list that are ready once the commit `c` has come, which is the last of `done`: the
    parents of `c` whose children have all come. -/
def freed (all : List Commit) (done : List ObjectId) (c : Commit) : List Commit :=
  let parents := c.parents.reverse.eraseDups.reverse
  (parents.filter fun p => (children all p).all fun child => done.contains child.id).filterMap
    fun p => all.find? (·.id = p)

/-- Take ready commits one after the other, at most `n` of them. -/
def release (all : List Commit) : Nat → Heap Commit → List ObjectId → List Commit
  | 0, _, _ => []
  | n + 1, ready, done =>
    match ready.pop isNewer with
    | none => []
    | some (c, ready) =>
      let done := c.id :: done
      let ready := (freed all done c).foldl (fun heap p => heap.insert isNewer p) ready
      c :: release all n ready done

/-- The commits that can be reached, no commit before one of its children. -/
def topological (db : Database) (starts : List Commit) : List Commit :=
  let all := gather db starts
  let tips := all.filter fun c => (children all c.id).isEmpty
  let ready := tips.foldl (fun heap c => heap.insert isNewer c) Heap.empty
  release all all.length ready []

end ThreeWay.Walk
