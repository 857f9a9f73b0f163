import CoroutineIR.Folding.Arithmetic
import CoroutineIR.Journal
import CoroutineIR.Routine.Access
import CoroutineIR.Routine.Edge

/-!
# Propagating constants

A variable that is written once, with a literal, and whose address is never taken always holds that
literal. Its definition is removed and operands met later that name it are replaced by the literal.
On request, operations whose operands have all become numbers are evaluated on the way.
-/

namespace CoroutineIR.Folding

/-- What the propagation needs to know. -/
structure Options where
  target : Target
  /-- Whether operations on numbers are evaluated. -/
  arithmetic : Bool
deriving DecidableEq, Repr, Inhabited

/-- The literal a node gives to its destination, if it does nothing else. -/
def literal? (node : Node) : Option Literal :=
  match node.kind, node.args with
  | .op .const, [.lit value] => some value
  | .op .copy, [.lit value] => if value.isNumeric then some value else none
  | _, _ => none

/-- The variable and the literal of a definition that can be folded away. -/
def definition? (r : Routine) (n : NodeId) : Query (Option (VarId × Literal)) := do
  let node ← r.node n
  match node.dest, literal? node with
  | some v, some value =>
    let decl ← r.var v
    return if decl.writes = 1 && !decl.addressable then some (v, value) else none
  | _, _ => return none

/-- Fold a definition away, if the node is one. -/
def foldDefinition (n : NodeId) : Pass Bool := do
  match ← Pass.ask fun r => definition? r n with
  | none => return false
  | some (v, value) =>
    Pass.note .trace fun r => return (← r.var v).name ++ " := " ++ value.text
    Edit.changeVar v ({ · with constant := some value })
    Edit.release v .write
    Edit.removeNode n
    return true

/-- Replace one operand by the literal its variable is known to hold. Only numbers are propagated.
-/
def propagateInto (n : NodeId) (index : Nat) : Edit Unit := do
  match (← Edit.node n).args[index]? with
  | some (.var v) =>
    match (← Edit.var v).constant with
    | some value =>
      if value.isNumeric then
        let _ ← Edit.replaceArg n index (.lit value)
    | none => return
  | _ => return

/-- Replace the operands of a node that are known. -/
def propagate (n : NodeId) : Edit Unit := do
  (List.range (← Edit.node n).args.length).forM fun index => propagateInto n index

/-- The numbers among operands, if all of them are. -/
def numbers? (args : List Operand) : Option (List Literal) :=
  args.mapM fun arg => arg.lit?.filter Literal.isNumeric

/-- The value of an operation on numbers that has a destination. -/
def value? (target : Target) (node : Node) : Query (Option Literal) :=
  match node.kind, node.dest, numbers? node.args with
  | .op code, some _, some values => evaluate target (node.ty.bind Ty.scalar?) code values
  | _, _, _ => return none

/-- Turn an operation on numbers into a definition of its value. -/
def evaluateNode (target : Target) (n : NodeId) : Pass Bool := do
  match ← value? target (← Edit.node n) with
  | none => return false
  | some value =>
    Pass.note .trace fun r => return (← r.nodeLine n) ++ " folded to " ++ value.text
    Edit.setKind n (.op .const)
    let _ ← Edit.setArgs n [.lit value]
    return true

/-- Fold the definitions in a node: itself, or what it becomes. -/
def foldNode (options : Options) (n : NodeId) : Pass Bool := do
  if ← foldDefinition n then
    return true
  propagate n
  if options.arithmetic then
    if ← evaluateNode options.target n then
      return ← foldDefinition n
  return false

/-- Fold the stream from `start` up to `stop`, the second arm of a conditional before the first, and
count the definitions folded away. -/
def foldStrain (options : Options) : Nat → Option NodeId → NodeId → Pass Nat
  | _, none, _ => return 0
  | fuel, some n, stop => do
    if n = stop then
      return 0
    match fuel with
    | 0 => throw .exhausted
    | fuel + 1 =>
      let arm ← match (← Edit.node n).secondArm? with
        | some (first, close) => foldStrain options fuel (some first) close
        | none => pure 0
      let next ← Edit.firstNext n
      let folded ← foldNode options n
      let rest ← foldStrain options fuel next stop
      return arm + (if folded then 1 else 0) + rest

/-- Propagate the constants of a routine. -/
def foldConstants (options : Options) : Pass Unit := do
  let r := (← get).routine
  let folded ← foldStrain options r.editFuel (some r.entry) (← r.exit)
  Pass.summarize s!"folded {folded} constants"

end CoroutineIR.Folding
