import CoroutineIR.Routine.Basic
import CoroutineIR.Routine.Nesting

/-!
# What a node does, in order

A node evaluates its operands from left to right, sub-expressions first among them, and then runs.
The events that matter to the collector are reads and writes of variables and the moments at which
it may run, together with the operands that wait on the stack at such a moment. The operands of the
running node itself have been consumed by then.
-/

namespace CoroutineIR

/-- An operand waiting on the stack. -/
inductive Waiting where
  | lit
  /-- Loaded from a variable. -/
  | var (id : VarId)
  /-- The result of a sub-expression. -/
  | temp (id : NodeId)
deriving DecidableEq, Repr, Inhabited

/-- Something a node does. -/
inductive Event where
  | read (id : VarId)
  | write (id : VarId)
  /-- The collector may run while these operands wait. -/
  | collect (waiting : List Waiting)
deriving DecidableEq, Repr, Inhabited

/-- The events of evaluating operands on top of a stack, given those of sub-expressions. -/
def operandEvents (eval : NodeId → List Waiting → Query (List Event)) :
    List Operand → List Waiting → Query (List Event)
  | [], _ => return []
  | .lit _ :: rest, stack => operandEvents eval rest (stack ++ [.lit])
  | .var v :: rest, stack => return .read v :: (← operandEvents eval rest (stack ++ [.var v]))
  | .node n :: rest, stack => do
    let inner ← eval n stack
    return inner ++ (← operandEvents eval rest (stack ++ [.temp n]))

/-- The events of running a node whose operands have been consumed. -/
def Node.ownEvents (node : Node) (stack : List Waiting) : List Event :=
  (if node.kind.mayCollect then [.collect stack] else []) ++
    (if node.kind = .declare .storage then [] else node.dest.toList.map .write)

namespace Routine

/-- The events of evaluating a node on top of a stack. -/
def evaluationWithin (r : Routine) : Nat → NodeId → List Waiting → Query (List Event)
  | 0, _, _ => .error .exhausted
  | fuel + 1, n, stack => do
    let node ← r.node n
    let operands ← operandEvents (evaluationWithin r fuel) node.args stack
    return operands ++ node.ownEvents stack

/-- The events of evaluating a node of the stream. -/
def evaluation (r : Routine) (n : NodeId) : Query (List Event) := evaluationWithin r r.nestFuel n []

/-- The events of a node, with `results` read by the caller once the routine ends. -/
def events (r : Routine) (results : List VarId) (n : NodeId) : Query (List Event) := do
  let own ← r.evaluation n
  let ends ← if (← r.node n).kind = .ret then pure true else do pure (n = (← r.exit) : Bool)
  return if ends then own ++ results.map .read else own

end Routine

end CoroutineIR
