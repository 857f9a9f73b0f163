import CoroutineIR.Routine.Basic

/-!
# Regions that suspend

A branch to a region that suspends crosses every region between itself and its target. When the
target is cut into steps the branch becomes a jump between steps, so the regions it leaves have to
be cut up as well: they are marked as suspending, until no branch asks for more.
-/

namespace CoroutineIR

/-- Where a node stands: the innermost region around it and, for a branch, where it goes. -/
structure Placement where
  node : NodeId
  parent : NodeId
  target : Option NodeId
deriving DecidableEq, Repr, Inhabited

namespace Routine

/-- The placements of all nodes from `start` up to `stop`, in the order of a walk. -/
def placementsWithin (r : Routine) :
    Nat → Option NodeId → NodeId → NodeId → Query (List Placement)
  | _, none, _, _ => return []
  | fuel, some n, stop, parent => do
    if n = stop then
      return []
    match fuel with
    | 0 => .error .exhausted
    | fuel + 1 =>
      let node ← r.node n
      let own : Placement := ⟨n, parent, node.kind.branch?.map Branch.target⟩
      match node.kind.region? with
      | some region =>
        let inner ← node.next.mapM fun first =>
          placementsWithin r fuel (some first) region.close n
        let behind := (← r.node region.close).firstNext
        return own :: inner.flatten ++ (← placementsWithin r fuel behind stop parent)
      | none => return own :: (← placementsWithin r fuel node.firstNext stop parent)

/-- The placements of all nodes of the body. -/
def placements (r : Routine) : Query (List Placement) := do
  match (← r.node r.entry).firstNext with
  | none => return []
  | some first => placementsWithin r r.walkFuel (some first) (← r.exit) r.entry

end Routine

/-- The innermost region around a node, as the walk saw it last. -/
def parentIn (placed : List Placement) (n : NodeId) : Option NodeId :=
  (placed.findRev? fun p => p.node = n).map Placement.parent

namespace Edit

/-- Mark a region as suspending and say whether it was not. -/
def markSuspending (n : NodeId) : Edit Bool := do
  match (← kind n).region? with
  | none => return false
  | some region =>
    changeNode n fun d => { d with kind := d.kind.mapRegion ({ · with suspends := true }) }
    return !region.suspends

/-- Mark the regions from `n` outwards until `target`, and say whether one changed. -/
def markUpTo (placed : List Placement) (target : NodeId) : Nat → Option NodeId → Edit Bool
  | _, none => return false
  | fuel, some n => do
    if n = target then
      return false
    match fuel with
    | 0 => throw .exhausted
    | fuel + 1 =>
      let changed ← markSuspending n
      let more ← markUpTo placed target fuel (parentIn placed n)
      return changed || more

/-- Mark the regions a branch crosses if its target suspends. -/
def markCrossed (placed : List Placement) (branch target : NodeId) : Edit Bool := do
  if (← kind target).opensSuspending then
    markUpTo placed target (← get).walkFuel (parentIn placed branch)
  else
    return false

/-- Mark for every branch of the list, and say whether a region changed. -/
def markAllCrossed (placed : List Placement) : List (NodeId × NodeId) → Edit Bool
  | [] => return false
  | (branch, target) :: rest => do
    let changed ← markCrossed placed branch target
    let more ← markAllCrossed placed rest
    return changed || more

/-- Mark until nothing changes any more. -/
def markUntilStable (placed : List Placement) (branches : List (NodeId × NodeId)) : Nat → Edit Unit
  | 0 => throw .exhausted
  | fuel + 1 => do
    if ← markAllCrossed placed branches then
      markUntilStable placed branches fuel

/-- Mark every region that a branch to a suspending region crosses. -/
def spreadSuspension : Edit Unit := do
  let placed ← Action.ask Routine.placements
  let branches := placed.filterMap fun p => p.target.map fun t => (p.node, t)
  markUntilStable placed branches (← get).walkFuel

end Edit

end CoroutineIR
