import CoroutineIR.Collector.Liveness
import CoroutineIR.Journal
import CoroutineIR.Routine.Access

/-!
# Making pointers visible to the collector

Variables alive across a collection are marked. A pointer that waits on the operand stack has no
name the collector could find it by, so it is stored into a variable first: the sub-expression gets
a destination.
-/

namespace CoroutineIR.Collector

/-- Mark a variable as visible to the collector. -/
def expose (v : VarId) : Edit Unit := Edit.changeVar v ({ · with discoverable := true })

/-- Give the result of a sub-expression a place where the collector can see it. -/
def spill (n : NodeId) : Edit Unit := do
  let node ← Edit.node n
  match node.dest with
  | some v => expose v
  | none =>
    let v ← Edit.addTmp node.ty
    expose v
    Edit.setDest n (some v)
    Edit.count v .read

/-- Mark one variable and remark on it. -/
def discover (v : VarId) : Pass Unit := do
  Pass.note .trace fun r => return (← r.var v).name ++ " is discoverable"
  expose v

/-- Mark what the collector has to see, and spill the pointers that wait on the operand stack. -/
def discoverPointers (types : Registry) : Pass Unit := do
  let problem ← Pass.ask (Problem.ofRoutine types)
  let marked ← problem.solve
  let waiting ← problem.waitingPointers
  let vars := marked.members problem.routine.vars.size
  vars.forM discover
  waiting.forM fun n => (spill n : Pass Unit)
  let discovered := vars.length
  let spilled := waiting.length
  Pass.summarize s!"{discovered} discoverable variables, {spilled} spilled operands"

end CoroutineIR.Collector
