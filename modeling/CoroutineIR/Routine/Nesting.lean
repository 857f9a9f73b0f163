import CoroutineIR.Routine.Basic

/-!
# Sub-expressions

A node together with the sub-expressions in its operands, theirs, and so on, outer nodes first. No
node is nested in itself, so a chain of sub-expressions is no longer than the arena.
-/

namespace CoroutineIR.Routine

/-- Fuel for a chain of distinct sub-expressions, and one identifier outside the arena. -/
def nestFuel (r : Routine) : Nat := r.nodes.size + 1

/-- A node and everything nested in it. -/
def nestedWithin (r : Routine) : Nat → NodeId → Query (List NodeId)
  | 0, _ => .error .exhausted
  | fuel + 1, n => do
    let node ← r.node n
    let inner ← (node.args.filterMap Operand.node?).mapM (nestedWithin r fuel)
    return n :: inner.flatten

/-- A node and everything nested in it, outer nodes first. -/
def nested (r : Routine) (n : NodeId) : Query (List NodeId) := nestedWithin r r.nestFuel n

/-- The nodes nested in a node, without itself. -/
def strictlyNested (r : Routine) (n : NodeId) : Query (List NodeId) :=
  return (← r.nested n).filter (· ≠ n)

/-- Search the sub-expressions among operands until one answers yes. -/
def searchOperands (search : NodeId → Query (Bool × List NodeId)) :
    List Operand → Query (Bool × List NodeId)
  | [] => .ok (false, [])
  | .node n :: rest => do
    let (found, tested) ← search n
    if found then
      return (true, tested)
    let (found, more) ← searchOperands search rest
    return (found, tested ++ more)
  | _ :: rest => searchOperands search rest

/-- Test a node and what is nested in it until a test answers yes. -/
def searchNestedWithin (r : Routine) (p : Node → Bool) : Nat → NodeId → Query (Bool × List NodeId)
  | 0, _ => .error .exhausted
  | fuel + 1, n => do
    let node ← r.node n
    if p node then
      return (true, [n])
    let (found, tested) ← searchOperands (searchNestedWithin r p fuel) node.args
    return (found, n :: tested)

/-- Whether a node or one nested in it satisfies `p`, and the nodes tested to find out. -/
def searchNested (r : Routine) (p : Node → Bool) (n : NodeId) : Query (Bool × List NodeId) :=
  searchNestedWithin r p r.nestFuel n

/-- Whether a node or one nested in it satisfies `p`. -/
def anyNested (r : Routine) (p : Node → Bool) (n : NodeId) : Query Bool :=
  return (← r.searchNested p n).1

end CoroutineIR.Routine
