/-!
# Status

The verdict on one resource: which side a change travels from, what kind of change it is, and whether
both sides reached the same outcome on their own.

## Main definitions

* `Direction`, `SyncChange`: The two coordinates.
* `Status`: A verdict.
* `Status.label`: Its wording.
-/

namespace ThreeWay

/-- The side that a change travels from. -/
inductive Direction where
  | none
  | incoming
  | outgoing
  | conflicting
deriving DecidableEq, Inhabited

/-- What kind of change a resource saw. -/
inductive SyncChange where
  | inSync
  | addition
  | deletion
  | change
deriving DecidableEq, Inhabited

/-- The verdict on one resource. `pseudo` tells that both sides reached the same outcome. -/
structure Status where
  direction : Direction
  change : SyncChange
  pseudo : Bool
deriving DecidableEq, Inhabited

namespace Direction

/-- The direction seen from the other side. -/
def flip : Direction → Direction
  | .incoming => .outgoing
  | .outgoing => .incoming
  | d => d

/-- The wording of a direction in front of a kind of change. -/
def words : Direction → String
  | .none => ""
  | .incoming => "incoming "
  | .outgoing => "outgoing "
  | .conflicting => "conflicting "

end Direction

namespace SyncChange

/-- The wording of a kind of change. -/
def words : SyncChange → String
  | .inSync => "in sync"
  | .addition => "addition"
  | .deletion => "deletion"
  | .change => "change"

end SyncChange

namespace Status

/-- Nothing to transfer. -/
def inSync : Status :=
  ⟨.none, .inSync, false⟩

/-- A change of the remote side. -/
def incoming (kind : SyncChange) : Status :=
  ⟨.incoming, kind, false⟩

/-- A change of the local side. -/
def outgoing (kind : SyncChange) : Status :=
  ⟨.outgoing, kind, false⟩

/-- A change of both sides, or one whose order is not known. -/
def conflicting (kind : SyncChange) : Status :=
  ⟨.conflicting, kind, false⟩

/-- A conflict in which both sides reached the same outcome. -/
def pseudoConflict (kind : SyncChange) : Status :=
  ⟨.conflicting, kind, true⟩

/-- Whether there is nothing to transfer. -/
def isInSync (s : Status) : Bool :=
  s.change = .inSync

/-- Whether both sides are involved. -/
def isConflict (s : Status) : Bool :=
  s.direction = .conflicting

/-- The wording of a verdict. -/
def label (s : Status) : String :=
  if s.isInSync then "in sync"
  else s.direction.words ++ s.change.words ++ (if s.pseudo then " (pseudo)" else "")

end Status

end ThreeWay
