import CoroutineIR.Journal
import CoroutineIR.Routine.Access
import CoroutineIR.Routine.Edge

/-!
# Definitions nobody reads

A sweep against the direction of control drops definitions whose destination is never read,
declarations of variables that are no longer used, and the results of calls nobody looks at. A copy
from a variable that is used nowhere else is folded into the definition of that variable: the sweep
meets the definition later and redirects it.
-/

namespace CoroutineIR.DeadCode

/-- How much a sweep has removed. -/
structure Swept where
  /-- Nodes and whole regions taken out. -/
  removed : Nat := 0
  /-- Conditionals decided. -/
  resolved : Nat := 0
deriving DecidableEq, Repr, Inhabited

instance : Add Swept := ⟨fun a b => ⟨a.removed + b.removed, a.resolved + b.resolved⟩⟩

/-- What the sweep does with a node. -/
inductive Verdict where
  | keep
  /-- The call stays, its result goes. -/
  | dropResult
  /-- Sweep the second arm, from its last node up to the opening node. -/
  | descend (last opener : NodeId)
  /-- Unlink a node that accesses nothing. -/
  | unlink
  /-- Fold the copy of a variable used nowhere else into its definition. -/
  | rename (source dest : VarId)
  /-- The copy of a number becomes a definition of it. -/
  | toConst
  /-- Release the accesses of the node and unlink it. -/
  | remove
deriving DecidableEq, Repr, Inhabited

/-- Unlink a node and remark on it. -/
def unlink (n : NodeId) : Pass Unit := do
  Pass.note .trace fun r => return "removing " ++ (← r.nodeLine n)
  Edit.removeNode n

/-- The verdict on a copy between variables. -/
def judgeCopy (r : Routine) (source dest : VarId) : Query Verdict := do
  let origin ← r.var source
  let isSingle := origin.writes = 1 && origin.reads = 1 && !origin.addressable
  return if (← r.var dest).writes = 1 && isSingle then .rename source dest else .keep

/-- Whether a node has a result that is never read. -/
def isUnread (r : Routine) (node : Node) : Query Bool :=
  match node.dest with
  | some v => return (← r.var v).reads = 0
  | none => return false

/-- The verdict on a node, given whether its result is never read. -/
def judgeNode (r : Routine) (n : NodeId) (node : Node) (unread : Bool) : Query Verdict :=
  if node.kind.isPlainCall then
    return if unread then .dropResult else .keep
  else match node.kind, node.args with
  | .close opener, _ =>
    match node.prev[1]? with
    | some last => return .descend last opener
    | none => return .keep
  | .declare .storage, _ =>
    match node.dest with
    | none => .refuse (.malformed n "declaration without variable")
    | some v => do
      let decl ← r.var v
      return if decl.reads = 0 && decl.writes = 0 then .unlink else .keep
  | .declare _, _ => return .keep
  | .ret, _ => return .keep
  | .op .copy, [.var source] =>
    if unread then
      return .remove
    else match node.dest with
    | none => .refuse (.malformed n "copy without destination")
    | some dest => judgeCopy r source dest
  | .op .copy, [.lit value] =>
    return if unread then .remove else if value.isNumeric then .toConst else .keep
  | kind, _ => return if !kind.isCall && unread then .remove else .keep

/-- The verdict on a node. -/
def judge (r : Routine) (n : NodeId) : Query Verdict := do
  let node ← r.node n
  judgeNode r n node (← isUnread r node)

/-- Send the result of a node to the variable its destination was folded into. -/
def redirect (n : NodeId) : Edit Unit := do
  let node ← Edit.node n
  match node.dest with
  | some v =>
    if !node.kind.isDeclaration then
      match (← Edit.var v).foldedInto with
      | some target => Edit.setDest n (some target)
      | none => return
  | none => return

/-- Carry out a verdict, given a way to sweep an arm, and count the nodes removed. -/
def carryOut (sweep : NodeId → NodeId → Pass Nat) (n : NodeId) : Verdict → Pass Nat
  | .keep => return 0
  | .dropResult => do
    Edit.setDest n none
    return 0
  | .descend last opener => sweep last opener
  | .unlink => do
    unlink n
    return 1
  | .rename source dest => do
    Pass.note .trace fun r =>
      return (← r.var source).name ++ " renamed to " ++ (← r.var dest).name
    Edit.changeVar source ({ · with foldedInto := some dest })
    Edit.release dest .write
    Edit.release source .read
    unlink n
    return 1
  | .toConst => do
    Edit.setKind n (.op .const)
    return 0
  | .remove => do
    Edit.uncountNode n
    unlink n
    return 1

/-- Sweep from `start` along first predecessors until `stop`. -/
def backwardWithin : Nat → Option NodeId → NodeId → Pass Nat
  | _, none, _ => return 0
  | fuel, some n, stop => do
    if n = stop then
      return 0
    match fuel with
    | 0 => throw .exhausted
    | fuel + 1 =>
      redirect n
      let previous := (← Edit.node n).firstPrev
      let verdict ← Pass.ask fun r => judge r n
      let removed ← carryOut (fun last opener => backwardWithin fuel (some last) opener) n verdict
      return removed + (← backwardWithin fuel previous stop)

/-- Sweep a routine from its end to its entry. -/
def backward : Pass Nat := do
  let r := (← get).routine
  backwardWithin r.editFuel (← r.node (← r.exit)).firstPrev r.entry

end CoroutineIR.DeadCode
