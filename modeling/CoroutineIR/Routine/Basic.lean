import CoroutineIR.Container.Arena
import CoroutineIR.Routine.Error
import CoroutineIR.Variable

/-!
# Routines

A routine holds its nodes and variables in two arenas. Nodes that were removed stay in the arena but
can no longer be reached from the entry.
-/

namespace CoroutineIR

/-- The body of one routine. -/
structure Routine where
  vars : Arena Variable
  nodes : Arena Node
  /-- The node that defines the routine. -/
  entry : NodeId
  /-- The variable that stands for memory. -/
  mem : VarId
  /-- The number of the next anonymous variable. -/
  nextTmp : Nat
deriving Repr, Inhabited

/-- A question about a routine. -/
abbrev Query := Attempt IrError

/-- A change of a routine. -/
abbrev Edit := Action IrError Routine

namespace Routine

/-- A node of the routine. -/
def node (r : Routine) (n : NodeId) : Query Node := Arena.fetch r.nodes n

/-- A variable of the routine. -/
def var (r : Routine) (v : VarId) : Query Variable := Arena.fetch r.vars v

/-- The name, the signature and the body of the routine, as its entry defines them. -/
def definition (r : Routine) : Query (String × Signature × Region) := do
  match (← r.node r.entry).kind with
  | .define name sig body => return (name, sig, body)
  | _ => .abort .noDefinition

/-- The name of the routine. -/
def name (r : Routine) : Query String := return (← r.definition).1

/-- The signature of the routine. -/
def signature (r : Routine) : Query Signature := return (← r.definition).2.1

/-- The node that closes the body. -/
def exit (r : Routine) : Query NodeId := return (← r.definition).2.2.close

/-- Whether the routine may suspend and has to be cut into steps. -/
def suspends (r : Routine) : Query Bool := return (← r.definition).2.2.suspends

/-- Fuel for a walk along the stream that only looks. A walk that ends meets each node at most once
for each place it may have to stop at. -/
def walkFuel (r : Routine) : Nat := (r.nodes.size + 1) * (r.nodes.size + 1)

/-- What edits can use up: nodes and their operands, variables and their counted accesses. -/
def supply (r : Routine) : Nat :=
  r.vars.foldl (fun n v => n + v.reads + v.writes + 1)
    (r.nodes.foldl (fun n node => n + node.args.length + 1) 0)

/-- Fuel for a walk along the stream that edits it. An edit uses up a part of the supply, and
between two edits the walk meets each node at most once for each place it may have to stop at. A
walk that releases accesses may go round a cycle until one of them has run out. -/
def editFuel (r : Routine) : Nat :=
  (r.supply + 1) * (r.supply + 1) * (r.supply + 1) * (r.supply + 1)

/-- The routine with one node, which must be there, replaced by its image. -/
def withNode (r : Routine) (n : NodeId) (f : Node → Node) : Query Routine :=
  return { r with nodes := ← Arena.update r.nodes n f }

/-- The routine with one variable, which must be there, replaced by its image. -/
def withVar (r : Routine) (v : VarId) (f : Variable → Variable) : Query Routine :=
  return { r with vars := ← Arena.update r.vars v f }

end Routine

namespace Edit

/-- Look up a node. -/
def node (n : NodeId) : Edit Node := Action.ask fun r => r.node n

/-- Look up what a node does. -/
def kind (n : NodeId) : Edit NodeKind := return (← node n).kind

/-- Look up the first successor of a node. -/
def firstNext (n : NodeId) : Edit (Option NodeId) := return (← node n).firstNext

/-- Look up a variable. -/
def var (v : VarId) : Edit Variable := Action.ask fun r => r.var v

/-- Refuse because the stream is malformed at a node. -/
def malformed {α : Type} (n : NodeId) (reason : String) : Edit α :=
  throw (.refused (.malformed n reason))

/-- Change a node. -/
def changeNode (n : NodeId) (f : Node → Node) : Edit Unit := do
  set (← Action.ask fun r => r.withNode n f)

/-- Change what a node does. -/
def setKind (n : NodeId) (kind : NodeKind) : Edit Unit := changeNode n ({ · with kind })

/-- Change a variable. -/
def changeVar (v : VarId) (f : Variable → Variable) : Edit Unit := do
  set (← Action.ask fun r => r.withVar v f)

/-- Add a node without edges. Its reads and writes are not counted. -/
def addNode (node : Node) : Edit NodeId :=
  modifyGet fun r => (r.nodes.size, { r with nodes := r.nodes.push node })

/-- Add a variable. -/
def addVar (var : Variable) : Edit VarId :=
  modifyGet fun r => (r.vars.size, { r with vars := r.vars.push var })

/-- Add an anonymous variable, numbered in order. -/
def addTmp (ty : Option Ty) : Edit VarId := do
  let count := (← get).nextTmp
  modify ({ · with nextTmp := count + 1 })
  addVar { name := s!"%{count}", ty }

end Edit

end CoroutineIR
