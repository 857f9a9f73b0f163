import CoroutineIR.Routine.Edge

/-!
# The flow of control

The stream as it runs: branches and jumps between steps are edges, and the edge behind an
unconditional one is not. A branch to a loop goes to its head, a branch to any other region behind
it.
-/

namespace CoroutineIR

/-- A list with neighbouring repetitions left out. -/
def dropRepeats {α : Type} [DecidableEq α] : List α → List α
  | a :: b :: rest => if a = b then dropRepeats (b :: rest) else a :: dropRepeats (b :: rest)
  | l => l

namespace Routine

/-- The node at which control arrives after a branch. -/
def branchArrival (r : Routine) (b : Branch) : Query NodeId := do
  let kind := (← r.node b.target).kind
  if kind.isLoop then
    return b.target
  return kind.partner?.getD b.target

/-- The node at which control arrives after a jump, unless the routine ends. -/
def jumpArrival (node : Node) : Jump → Option NodeId
  | .step n => some n
  | .terminal => none
  | .pending _ => node.firstNext

/-- The nodes that may run right after a node. -/
def flowSuccs (r : Routine) (n : NodeId) : Query (List NodeId) := do
  let node ← r.node n
  let through := node.firstNext.toList
  let succs ← match node.kind with
    | .ret => pure []
    | .branch guarded b => do
      pure ((if guarded then through else []) ++ [← r.branchArrival b])
    | .goto guarded jump =>
      pure ((if guarded then through else []) ++ (jumpArrival node jump).toList)
    | .enter .cond region =>
      match node.next with
      | [first] => pure [first, region.close]
      | next => pure next
    | _ => pure node.next
  return dropRepeats succs

/-- The flow of control as a graph. -/
def flowGraph (r : Routine) : Digraph IrError := ⟨r.nodes.size, r.flowSuccs⟩

/-- The nodes that may run right before each node. -/
def flowPreds (r : Routine) : Query (Array (List NodeId)) := do
  (← r.liveNodes).foldlM (fun preds n => do
    (← r.flowSuccs n).foldlM (fun preds m => Arena.update preds m (· ++ [n])) preds)
    (Array.replicate r.nodes.size [])

end Routine

end CoroutineIR
