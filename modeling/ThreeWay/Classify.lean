import ThreeWay.Compare
import ThreeWay.Status

/-!
# Classification

The verdict on a resource from its three sides: local (the working tree), base (the common state) and
remote. The first rule that applies decides:

1. A file and a folder among the existing sides is a conflicting change.
2. Without a base, an addition on whichever sides exist.
3. With a base and no local side, a deletion: ours if the remote still equals the base, a pseudo
   conflict if the remote is gone too, and a conflicting change otherwise.
4. With a local side, it and the remote are compared with the base. If something changed, the order of
   the base and remote histories gives the direction.

A local handle that does not exist falls under rule 4, not under rule 3.

## Main definitions

* `Triple`: The three sides.
* `byLength`: The order of two complete histories.
* `byContainment`: The order of two histories of which one leaves older commits out.
* `classify`: The verdict.
-/

namespace ThreeWay

/-- The three sides of a resource. -/
structure Triple where
  «local» : Option Variant
  base : Option Variant
  remote : Option Variant

namespace Triple

/-- The place of the first side that is there. -/
def path? (t : Triple) : Option Path :=
  (t.local <|> t.base <|> t.remote).map Variant.path

/-- The sides that exist. -/
def existingSides (t : Triple) : List Variant :=
  [t.local, t.base, t.remote].filterMap existing

/-- Whether both a file and a folder exist among the sides. -/
def hasTypeConflict (t : Triple) : Bool :=
  t.existingSides.any Variant.isTree && t.existingSides.any (!·.isTree)

end Triple

/-- The verdict where there is no base. -/
def withoutBase (localExists remoteExists : Bool) : Status :=
  match localExists, remoteExists with
  | true, false => .outgoing .addition
  | true, true => .conflicting .addition
  | false, true => .incoming .addition
  | false, false => .inSync

/-- The direction where the histories are equal: the side whose content changed. -/
def byContent (localChanged remoteChanged : Bool) : Direction :=
  match localChanged, remoteChanged with
  | true, false => .outgoing
  | false, true => .incoming
  | _, _ => .conflicting

/-- The direction from two complete histories, newest first. A longer remote history is ahead if the
    base tip stands at the depth that the lengths tell; a longer base history is ahead; histories of
    one length are ordered only if they have the same tip, and then by content. -/
def byLength (base remote : List CommitId) (localChanged remoteChanged : Bool) : Direction :=
  if base.length < remote.length then
    -- Both histories end at a first commit, so the base tip has as many commits behind it in either.
    if base = [] ∨ remote[remote.length - base.length]? = base.head? then .incoming
    else .conflicting
  else if remote.length < base.length then .outgoing
  else if base.head? ≠ remote.head? then .conflicting
  else byContent localChanged remoteChanged

/-- The direction where a history leaves older commits out: each tip is looked up further down the
    other history. An empty history leaves only the lengths. -/
def byContainment (base remote : List CommitId) (localChanged remoteChanged : Bool) : Direction :=
  match base, remote with
  | baseTip :: olderBase, remoteTip :: olderRemote =>
    if baseTip = remoteTip then byContent localChanged remoteChanged
    -- Lengths say nothing here, as either history may have been cut anywhere.
    else if olderRemote.contains baseTip then .incoming
    else if olderBase.contains remoteTip then .outgoing
    else .conflicting
  | _, _ => byLength base remote localChanged remoteChanged

/-- The direction of a change between a base and a remote that both exist. -/
def directionOf (base remote : Variant) (localChanged remoteChanged : Bool) : Direction :=
  if base.truncated || remote.truncated then
    byContainment base.ancestry remote.ancestry localChanged remoteChanged
  else
    byLength base.ancestry remote.ancestry localChanged remoteChanged

/-- The verdict on three sides. It fails only when a comparison with the base needs bytes that cannot
    be read. -/
def classify (c : Comparator) (t : Triple) : Except Error Status :=
  if t.hasTypeConflict then .ok (.conflicting .change)
  else
    match t.base, t.local with
    | none, _ => .ok (withoutBase (isPresent t.local) (isPresent t.remote))
    | some base, none =>
      -- Deleted in the working tree: the remote decides whether that is ours alone.
      if isPresent t.remote then do
        let same ← c.equal t.remote (some base)
        return if same then .outgoing .deletion else .conflicting .change
      else .ok (.pseudoConflict .deletion)
    | some base, some here => do
      let localSame ← c.equal (some here) (some base)
      -- Still in the working tree, and the base knows it: the remote may have deleted it.
      match existing t.remote with
      | none => return if localSame then .incoming .deletion else .conflicting .change
      | some remote =>
        let remoteSame ← c.equal (some remote) (some base)
        if localSame && remoteSame then return .inSync
        else return ⟨directionOf base remote (!localSame) (!remoteSame), .change, false⟩

end ThreeWay
