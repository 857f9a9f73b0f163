import CoroutineIR.Journal
import CoroutineIR.Routine.Access
import CoroutineIR.Routine.Edge

/-!
# Expression trees

A definition whose variable is read once is moved into the operand that reads it, which turns the
stream into expression trees for a stack machine. It is only moved if nothing between it and its use
writes one of its inputs, changes memory or marks the border of a step, and if no operand evaluated
before is written by it. A definition of a literal is replaced by the literal itself. Routines cut
into steps are handled one step at a time.
-/

namespace CoroutineIR.Tree

/-- Whether the search for a definition ends at a node. -/
def isBarrier : NodeKind → Bool
  | .define .. | .step _ | .goto _ _ | .branch _ _ | .enter _ _ | .close _ | .ret => true
  | _ => false

/-- The variables written by a node and everything nested in it. -/
def writtenBy (r : Routine) (n : NodeId) : Query (List VarId) := do
  let dests ← (← r.nested n).mapM fun m => return (← r.node m).dest
  return dests.filterMap id

/-- Whether a node or one nested in it writes one of the variables. -/
def writesAny (r : Routine) (n : NodeId) (vs : List VarId) : Query Bool :=
  r.anyNested (fun d => d.dest.any (· ∈ vs)) n

/-- Whether a node or one nested in it reads one of the variables. -/
def readsAny (r : Routine) (n : NodeId) (vs : List VarId) : Query Bool :=
  r.anyNested (fun d => (d.args.filterMap Operand.var?).any (· ∈ vs)) n

/-- Whether a definition has to stay where it is. `evaluated` are variables whose value has been
taken already, `assigned` are variables written between the definition and its use. -/
def isPinned (r : Routine) (n : NodeId) (node : Node) (evaluated assigned : List VarId) :
    Query Bool := do
  match node.kind with
  | .declare _ => return true
  | .call .finish _ => return true
  | _ =>
    if ← writesAny r n evaluated then
      return true
    readsAny r n assigned

/-- Search against the direction of control for the definition of `v` that can be moved. The
variables written on the way are added to `assigned`. -/
def findDefinitionWithin (r : Routine) (v : VarId) (evaluated : List VarId) :
    Nat → Option NodeId → List VarId → Query (Option NodeId × List VarId)
  | _, none, assigned => return (none, assigned)
  | 0, some _, _ => .error .exhausted
  | fuel + 1, some n, assigned => do
    let node ← r.node n
    if isBarrier node.kind then
      return (none, assigned)
    if node.dest = some v then
      let pinned ← isPinned r n node evaluated assigned
      return (if pinned then none else some n, assigned)
    let written ← if node.dest.isSome then writtenBy r n else pure []
    let assigned := written ++ assigned
    if v ∈ written then
      return (none, assigned)
    if ← r.anyNested (fun d => d.kind.blocksReordering) n then
      return (none, assigned)
    findDefinitionWithin r v evaluated fuel node.firstPrev assigned

/-- Search for the definition of `v` that can be moved to an operand of `n`. -/
def findDefinition (r : Routine) (n : NodeId) (v : VarId) (evaluated assigned : List VarId) :
    Query (Option NodeId × List VarId) := do
  findDefinitionWithin r v evaluated r.walkFuel (← r.node n).firstPrev assigned

/-- What takes the place of a variable whose definition is moved. -/
def replacement (definition : NodeId) (node : Node) : Operand :=
  match node.kind, node.args with
  | .op .const, [.lit value] => .lit value
  | _, _ => .node definition

/-- Move a definition into an operand. -/
def inline (n : NodeId) (index : Nat) (definition : NodeId) : Pass Unit := do
  let operand := replacement definition (← Edit.node definition)
  Edit.setDest definition none
  Edit.removeNode definition
  let _ ← Edit.replaceArg n index operand
  Pass.note .trace fun r => r.nodeLine n

/-- Fill the operands of a node from `index` on, and count the definitions moved. -/
def fillOperands (n : NodeId) : Nat → Nat → List VarId → List VarId → Pass Nat
  | 0, _, _, _ => return 0
  | left + 1, index, evaluated, assigned => do
    match (← Edit.node n).args[index]? with
    | some (.var v) =>
      let single := (← Edit.var v).reads = 1
      let (found, assigned) ← if single then
        Pass.ask fun r => findDefinition r n v evaluated assigned
      else pure (none, assigned)
      let moved ← match found with
        | some definition => do
          inline n index definition
          pure 1
        | none => pure 0
      return moved + (← fillOperands n left (index + 1) (evaluated ++ [v]) assigned)
    | some (.node m) =>
      let written ← Pass.ask fun r => writtenBy r m
      fillOperands n left (index + 1) evaluated (written ++ assigned)
    | _ => fillOperands n left (index + 1) evaluated assigned

/-- Whether a step ends at a node. -/
def endsStep : NodeKind → Bool
  | .step _ | .goto false _ => true
  | _ => false

/-- Build trees from `start` up to `stop`, or to the end of the step, the second arm of a
conditional before the first, and count the definitions moved. -/
def buildWithin : Nat → Option NodeId → Option NodeId → Pass Nat
  | _, none, _ => return 0
  | fuel, some n, stop => do
    if some n = stop then
      return 0
    match fuel with
    | 0 => throw .exhausted
    | fuel + 1 =>
      let node ← Edit.node n
      if node.kind = .op .addrOf then
        return ← buildWithin fuel node.firstNext stop
      let arm ← match node.secondArm? with
        | some (first, close) => buildWithin fuel (some first) (some close)
        | none => pure 0
      let filled ← fillOperands n node.args.length 0 [] []
      if endsStep node.kind then
        return arm + filled
      return arm + filled + (← buildWithin fuel (← Edit.firstNext n) stop)

/-- Build trees in one step after another. -/
def buildFrom : List NodeId → Pass Nat
  | [] => return 0
  | start :: rest => do
    let moved ← buildWithin (← get).routine.editFuel (← Edit.firstNext start) none
    return moved + (← buildFrom rest)

/-- The steps of a routine, or its entry if it has none. -/
def starts (r : Routine) : Query (List NodeId) := do
  let steps ← (← r.liveNodes).filterM fun n => return (← r.node n).kind.isStep
  return if steps.isEmpty then [r.entry] else steps

/-- Rebuild the expression trees of a routine. -/
def buildTrees : Pass Unit := do
  let moved ← buildFrom (← Pass.ask starts)
  Pass.summarize s!"inlined {moved} definitions"

end CoroutineIR.Tree
