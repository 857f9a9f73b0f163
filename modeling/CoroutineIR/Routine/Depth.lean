import CoroutineIR.Routine.Basic

/-!
# Depths of branches

A branch carries the number of regions between itself and its target. The number can be derived from
the stream: it is the position of the target among the regions open at the branch, innermost first.
-/

namespace CoroutineIR

namespace Routine

/-- The depth of every branch from `start` up to `stop`, with `open` the regions around it. -/
def branchDepthsWithin (r : Routine) :
    Nat → Option NodeId → NodeId → List NodeId → Query (List (NodeId × Option Nat))
  | _, none, _, _ => return []
  | fuel, some n, stop, enclosing => do
    if n = stop then
      return []
    match fuel with
    | 0 => .error .exhausted
    | fuel + 1 =>
      let node ← r.node n
      let own := node.kind.branch?.toList.map fun b => (n, enclosing.idxOf? b.target)
      match node.kind.region? with
      | some region =>
        let inner ← node.next.mapM fun first =>
          branchDepthsWithin r fuel (some first) region.close (n :: enclosing)
        let behind := (← r.node region.close).firstNext
        return own ++ inner.flatten ++ (← branchDepthsWithin r fuel behind stop enclosing)
      | none => return own ++ (← branchDepthsWithin r fuel node.firstNext stop enclosing)

/-- The depth every live branch has to carry. It is absent if the target does not enclose the
branch. -/
def branchDepths (r : Routine) : Query (List (NodeId × Option Nat)) := do
  branchDepthsWithin r r.walkFuel (← r.node r.entry).firstNext (← r.exit) [r.entry]

end Routine

namespace Edit

/-- Set the depth a branch carries. Other nodes stay as they are. -/
def setBranchDepth (n : NodeId) (depth : Option Nat) : Edit Unit := do
  match ← kind n with
  | .branch guarded b =>
    match depth with
    | some depth => setKind n (.branch guarded { b with depth })
    | none => throw (.refused (.branchTargetUnreachable b.target))
  | _ => return

/-- Derive the depths of all branches again after regions around them were removed. -/
def renumberBranches : Edit Unit := do
  (← Action.ask Routine.branchDepths).forM fun (n, depth) => setBranchDepth n depth

end Edit

end CoroutineIR
