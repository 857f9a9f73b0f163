import CoroutineIR.Collector.Event
import CoroutineIR.Collector.Flow
import CoroutineIR.Type.Compare

/-!
# Pointers alive across a collection

A variable that may hold a pointer is alive at a point if its value is read later on some path
without being written before. The sets of variables alive before each node are the least solution of
the flow equations, found by iteration with a worklist. A variable alive at a moment when the
collector may run, or waiting on the operand stack at that moment, has to be seen by it.
-/

namespace CoroutineIR.Collector

/-- What stays fixed while the solution is computed. -/
structure Problem where
  routine : Routine
  types : Registry
  /-- The variables that may hold a pointer. -/
  tracked : BitSet
  /-- The declared results among them. -/
  results : List VarId
  /-- The nodes that may run right before each node. -/
  preds : Array (List NodeId)

/-- What has been found so far. -/
structure Solution where
  /-- The variables alive before each node. -/
  aliveBefore : Array BitSet
  /-- The variables the collector has to see. -/
  marked : BitSet
deriving Inhabited

/-- Whether a variable of the routine may hold a pointer. -/
def isTracked (r : Routine) (tracked : BitSet) (v : VarId) : Query Bool :=
  if v < r.vars.size then .ok (tracked.contains v) else .abort .missing

/-- The variables of a routine that may hold a pointer. -/
def trackedVars (types : Registry) (r : Routine) : Query BitSet := do
  let held ← (Arena.ids r.vars).filterM fun v => do
    if v = r.mem then
      return false
    match (← r.var v).ty with
    | some ty => types.hasPointers ty
    | none => return false
  return .ofList held

/-- The declared results of a routine that may hold a pointer. -/
def trackedResults (r : Routine) (tracked : BitSet) : Query (List VarId) := do
  let dests ← (← r.liveNodes).mapM fun n => do
    let node ← r.node n
    return if node.kind = .declare .result then node.dest else none
  (dests.filterMap id).filterM fun v => isTracked r tracked v

/-- Set up the equations of a routine. -/
def Problem.ofRoutine (types : Registry) (routine : Routine) : Query Problem := do
  let tracked ← trackedVars types routine
  let results ← trackedResults routine tracked
  return { routine, types, tracked, results, preds := ← routine.flowPreds }

namespace Problem

/-- The variables waiting on the stack that may hold a pointer. -/
def waitingVars (p : Problem) : List Waiting → Query (List VarId)
  | [] => return []
  | .var v :: rest => do
    let tracked ← isTracked p.routine p.tracked v
    return (if tracked then [v] else []) ++ (← waitingVars p rest)
  | _ :: rest => waitingVars p rest

/-- Go back over one event: the variables alive before it, and those marked. -/
def undo (p : Problem) (alive marked : BitSet) : Event → Query (BitSet × BitSet)
  | .write v =>
    if v < p.routine.vars.size then .ok (alive.erase v, marked) else .abort .missing
  | .read v => do
    let tracked ← isTracked p.routine p.tracked v
    return (if tracked then alive.insert v else alive, marked)
  | .collect waiting => do
    let vs ← p.waitingVars waiting
    return (alive, vs.foldl BitSet.insert (marked.union alive))

/-- Go back over events, the last one first. -/
def undoAll (p : Problem) : List Event → BitSet → BitSet → Query (BitSet × BitSet)
  | [], alive, marked => return (alive, marked)
  | event :: rest, alive, marked => do
    let (alive, marked) ← p.undoAll rest alive marked
    p.undo alive marked event

/-- The variables alive behind a node. -/
def aliveBehind (p : Problem) (s : Solution) (n : NodeId) : Query BitSet := do
  (← p.routine.flowSuccs n).foldlM (fun alive m => do
    return alive.union (← Arena.fetch s.aliveBefore m)) .empty

/-- Apply the equation of a node, and say whether the variables alive before it changed. -/
def update (p : Problem) (s : Solution) (n : NodeId) : Query (Bool × Solution) := do
  let events ← p.routine.events p.results n
  let (alive, marked) ← p.undoAll events (← p.aliveBehind s n) s.marked
  if alive = (← Arena.fetch s.aliveBefore n) then
    return (false, { s with marked })
  return (true, ⟨← Arena.update s.aliveBefore n fun _ => alive, marked⟩)

/-- Apply equations until the worklist is empty. -/
def iterate (p : Problem) : Nat → UniqueStack NodeId → Solution → Query Solution
  | fuel, worklist, s =>
    match worklist.pop with
    | (none, _) => return s
    | (some n, worklist) =>
      match fuel with
      | 0 => .error .exhausted
      | fuel + 1 => do
        let (changed, s) ← p.update s n
        if changed then
          p.iterate fuel (worklist.pushAll (← Arena.fetch p.preds n)) s
        else
          p.iterate fuel worklist s

/-- Fuel for the iteration: each node is scheduled once at the start, and once more for every
variable that comes alive before one of its successors. -/
def iterationFuel (p : Problem) : Nat :=
  p.routine.nodes.size +
    p.routine.vars.size * p.preds.foldl (fun edges preds => edges + preds.length) 0

/-- The variables the collector has to see. -/
def solve (p : Problem) : Query BitSet := do
  let nodes ← p.routine.flowGraph.reachable p.routine.entry
  let start : Solution := ⟨Array.replicate p.routine.nodes.size .empty, .empty⟩
  let s ← p.iterate p.iterationFuel (.ofList nodes) start
  return s.marked

/-- Whether the result of a node may hold a pointer. -/
def yieldsPointer (p : Problem) (n : NodeId) : Query Bool := do
  match (← p.routine.node n).ty with
  | some ty => p.types.hasPointers ty
  | none => return false

/-- The results of sub-expressions that wait during an event and may hold a pointer. -/
def waitingTemps (p : Problem) : Event → Query (List NodeId)
  | .collect waiting =>
    (waiting.filterMap fun
      | .temp n => some n
      | _ => none).filterM p.yieldsPointer
  | _ => return []

/-- The sub-expressions whose pointer waits on the stack while the collector may run, each once, in
the order they are met. -/
def waitingPointers (p : Problem) : Query (List NodeId) := do
  let found ← (← p.routine.liveNodes).mapM fun n => do
    let temps ← (← p.routine.events p.results n).mapM p.waitingTemps
    return temps.flatten
  return found.flatten.foldl (fun seen n => if n ∈ seen then seen else seen ++ [n]) []

end Problem

end CoroutineIR.Collector
