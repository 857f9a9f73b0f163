import CoroutineIR.DeadCode.Backward
import CoroutineIR.Routine.Depth

/-!
# Code that cannot run

A sweep in the direction of control drops everything behind a return or a branch up to the end of
the region, and decides conditionals whose condition is a number: the arm not taken goes, and the
arm taken replaces the conditional. A decided conditional that is still branched to stays as a
block.
-/

namespace CoroutineIR.DeadCode

/-- Cut out a region that cannot be reached: release its opening node and its body, then unlink it.
-/
def cutOut (n close : NodeId) : Edit Unit := do
  let body ← Edit.firstNext n
  Edit.retireNode n
  match body with
  | some first => Edit.retireStrain first close
  | none => return

/-- Remove a node that cannot be reached and say where the stream goes on. -/
def removeDead (n : NodeId) : Pass (Option NodeId) := do
  let node ← Edit.node n
  match node.kind.region? with
  | some region =>
    let behind ← Edit.firstNext region.close
    cutOut n region.close
    Pass.note .trace fun r => return "removing unreachable construct " ++ (← r.nodeLine n)
    Edit.unlinkRange n region.close
    return behind
  | none =>
    Edit.retireNode n
    unlink n
    return node.firstNext

/-- Whether some live branch goes to the node. -/
def isBranchedTo (r : Routine) (n : NodeId) : Query Bool := do
  let kinds ← (← r.liveNodes).mapM fun m => return (← r.node m).kind
  return kinds.any fun kind => kind.branch?.any fun b => b.target = n

/-- The number a conditional tests, read as a truth value. -/
def knownOutcome? (node : Node) : Option Bool :=
  (node.args.head?.bind Operand.lit?).bind Literal.truth?

/-- Keep the arm that is taken as the only arm. -/
def keepTakenArm (n close : NodeId) (taken : Bool) : Edit Unit := do
  if !taken then
    Edit.swapBranches n
  match (← Edit.node n).next[1]? with
  | some first => Edit.retireStrain first close
  | none => throw (.aborted .missing)
  Edit.dropElse n

/-- Dissolve a conditional that has lost its condition, and say where the stream goes on. A
conditional that is still branched to becomes a block. -/
def dissolve (n close : NodeId) (region : Region) : Pass (Option NodeId × Swept) := do
  if ← Pass.ask fun r => isBranchedTo r n then
    Edit.setKind n (.enter .block region)
    let _ ← Edit.setArgs n []
    return (some n, ⟨0, 1⟩)
  Edit.uncountNode n
  let first ← Edit.firstNext n
  let resume ← if first = some close then Edit.firstNext close else pure first
  unlink close
  unlink n
  return (resume, ⟨2, 1⟩)

/-- Decide a conditional and say where the stream goes on. -/
def resolve (n : NodeId) (region : Region) (taken : Bool) : Pass (Option NodeId × Swept) := do
  Pass.note .trace fun r => return "resolving " ++ (← r.nodeLine n) ++ s!" to {taken}"
  let twoArmed := (← Edit.node n).next.length = 2
  if twoArmed then
    keepTakenArm n region.close taken
  else if !taken then
    let behind ← Edit.firstNext region.close
    cutOut n region.close
    Edit.unlinkRange n region.close
    return (behind, ⟨1, 0⟩)
  dissolve n region.close region

/-- Sweep from `start` until `stop`, descending into regions. With `dead`, control does not get
here. -/
def forwardWithin : Nat → Bool → Option NodeId → NodeId → Pass Swept
  | _, _, none, _ => return {}
  | fuel, dead, some n, stop => do
    if n = stop then
      return {}
    match fuel with
    | 0 => throw .exhausted
    | fuel + 1 =>
      if dead then
        let behind ← removeDead n
        return ⟨1, 0⟩ + (← forwardWithin fuel true behind stop)
      let node ← Edit.node n
      match node.kind with
      | .ret | .branch false _ => forwardWithin fuel true node.firstNext stop
      | .enter .cond region =>
        match knownOutcome? node with
        | some taken =>
          let (resume, swept) ← resolve n region taken
          return swept + (← forwardWithin fuel false resume stop)
        | none =>
          let arms ← node.next.mapM fun first => forwardWithin fuel false (some first) region.close
          let behind ← Edit.firstNext region.close
          return arms.foldl (· + ·) {} + (← forwardWithin fuel false behind stop)
      | .enter _ region =>
        let body ← forwardWithin fuel false node.firstNext region.close
        let behind ← Edit.firstNext region.close
        return body + (← forwardWithin fuel false behind stop)
      | _ => forwardWithin fuel false node.firstNext stop

/-- Sweep a routine from its first node to its end. -/
def forward : Pass Swept := do
  let r := (← get).routine
  forwardWithin r.editFuel false (← r.node r.entry).firstNext (← r.exit)

end CoroutineIR.DeadCode
