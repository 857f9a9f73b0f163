import CoroutineIR.Routine.Nesting

/-!
# Reads and writes of variables

Every node that enters the stream is counted once and every node that leaves it for good is released
once, so that the counts kept with a variable tell how often live nodes read and write it.
-/

namespace CoroutineIR

/-- What a node does with a variable. -/
inductive Access where
  | read
  | write
deriving DecidableEq, Repr, Inhabited

/-- The word for an access in a message. -/
def Access.text : Access → String
  | read => "read"
  | write => "write"

/-- The accesses of one node, without its sub-expressions. Parameters are written by the caller
before the routine starts, and results are read by it afterwards, so declaring one counts for both.
-/
def Node.accesses (n : Node) : List (VarId × Access) :=
  let own :=
    match n.kind, n.dest with
    | _, none => []
    | .declare .storage, some _ => []
    | .declare _, some v => [(v, .read), (v, .write)]
    | _, some v => [(v, .write)]
  own ++ (n.args.filterMap Operand.var?).map fun v => (v, .read)

namespace Routine

/-- The accesses of a node and of everything nested in it. A sub-expression with a destination
stores its value and leaves it to the enclosing node, which therefore reads the destination. -/
def accesses (r : Routine) (n : NodeId) : Query (List (VarId × Access)) := do
  let parts ← (← r.nested n).mapM fun m => do
    let node ← r.node m
    let handedOver := if m = n then [] else node.dest.toList.map fun v => (v, Access.read)
    return node.accesses ++ handedOver
  return parts.flatten

/-- The variables whose address a node, or one nested in it, takes. -/
def addressed (r : Routine) (n : NodeId) : Query (List VarId) := do
  let parts ← (← r.nested n).mapM fun m => do
    let node ← r.node m
    if node.kind = .op .addrOf then
      return (node.args.head?.bind Operand.var?).toList
    else
      return []
  return parts.flatten

end Routine

namespace Edit

/-- Count one more access of a variable. -/
def count (v : VarId) : Access → Edit Unit
  | .read => changeVar v fun d => { d with reads := d.reads + 1 }
  | .write => changeVar v fun d => { d with writes := d.writes + 1 }

/-- Count one access of a variable less. -/
def release (v : VarId) (access : Access) : Edit Unit := do
  let decl ← var v
  match access with
  | .read =>
    if decl.reads = 0 then
      throw (.refused (.countUnderflow decl.name access.text))
    changeVar v fun d => { d with reads := d.reads - 1 }
  | .write =>
    if decl.writes = 0 then
      throw (.refused (.countUnderflow decl.name access.text))
    changeVar v fun d => { d with writes := d.writes - 1 }

/-- Count a node that has just entered the stream. -/
def countNode (n : NodeId) : Edit Unit := do
  let addressed ← Action.ask fun r => r.addressed n
  let accesses ← Action.ask fun r => r.accesses n
  accesses.forM fun (v, access) => count v access
  addressed.forM fun v => changeVar v ({ · with addressable := true })

/-- Release the accesses of a node that is being deleted. -/
def uncountNode (n : NodeId) : Edit Unit := do
  let accesses ← Action.ask fun r => r.accesses n
  accesses.forM fun (v, access) => release v access

/-- Release a deleted node, given a way to release the second arm of a conditional. -/
def retireNodeVia (retireStrain : NodeId → NodeId → Edit Unit) (n : NodeId) : Edit Unit := do
  uncountNode n
  match (← node n).secondArm? with
  | some (first, close) => retireStrain first close
  | none => return

/-- Release every node from `first` up to, but not including, `stop`. -/
def retireStrainWithin : Nat → NodeId → NodeId → Edit Unit
  | fuel, first, stop => do
    if first = stop then
      return
    match fuel with
    | 0 => throw .exhausted
    | fuel + 1 =>
      match ← firstNext first with
      | none => malformed first "strain ends before its construct"
      | some next =>
        retireNodeVia (retireStrainWithin fuel) first
        retireStrainWithin fuel next stop

/-- Release every node from `first` up to, but not including, `stop`. -/
def retireStrain (first stop : NodeId) : Edit Unit := do
  retireStrainWithin (← get).editFuel first stop

/-- Release a deleted node, including the second arm of a conditional. -/
def retireNode (n : NodeId) : Edit Unit := retireNodeVia retireStrain n

/-- Redirect the result of a node; the counted write moves along. -/
def setDest (n : NodeId) (dest : Option VarId) : Edit Unit := do
  match (← node n).dest with
  | some old => release old .write
  | none => pure ()
  match dest with
  | some new => count new .write
  | none => pure ()
  changeNode n ({ · with dest })

/-- Replace all operands of a node and hand out the old ones; counted reads move along. -/
def setArgs (n : NodeId) (args : List Operand) : Edit (List Operand) := do
  (args.filterMap Operand.var?).forM fun v => count v .read
  let old := (← node n).args
  changeNode n ({ · with args })
  (old.filterMap Operand.var?).forM fun v => release v .read
  return old

/-- Replace one operand of a node and hand out the old one. A counted read moves along; a
sub-expression is handed out or taken over with its counts as they are. -/
def replaceArg (n : NodeId) (index : Nat) (arg : Operand) : Edit Operand := do
  match arg with
  | .var v => count v .read
  | _ => pure ()
  match (← node n).args[index]? with
  | none => malformed n s!"no argument {index}"
  | some old =>
    changeNode n fun d => { d with args := d.args.set index arg }
    match old with
    | .var v => release v .read
    | _ => pure ()
    return old

end Edit

end CoroutineIR
