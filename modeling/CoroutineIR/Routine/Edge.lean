import CoroutineIR.Graph.Search
import CoroutineIR.Routine.Basic

/-!
# Edges of the stream

Every edge is kept twice: the `k`-th occurrence of `b` among the successors of `a` belongs to the
`k`-th occurrence of `a` among the predecessors of `b`. A conditional whose arms are both empty is
joined to its closing node twice, so occurrences are told apart by their number.
-/

namespace CoroutineIR

/-- The slot of the occurrence number `nth` of a node in a list of neighbours. -/
def nthSlot (neighbours : List NodeId) (target : NodeId) (nth : Nat) : Option Nat :=
  ((List.range neighbours.length).filter fun i => neighbours[i]? = some target)[nth]?

/-- The number of occurrences of a node before a slot. -/
def occurrencesBefore (neighbours : List NodeId) (target : NodeId) (slot : Nat) : Nat :=
  (neighbours.take slot).count target

/-- A list with its first two entries exchanged. -/
def swapFront {α : Type} : List α → List α
  | a :: b :: rest => b :: a :: rest
  | l => l

namespace Routine

/-- The stream as a graph. -/
def graph (r : Routine) : Digraph IrError := ⟨r.nodes.size, fun n => return (← r.node n).next⟩

/-- The nodes of the stream in the order a depth-first search meets them, the definition first.
Sub-expressions are not included. -/
def liveNodes (r : Routine) : Query (List NodeId) := r.graph.reachable r.entry

/-- The closing node of a conditional with two arms. -/
def twoArmedClose (r : Routine) (n : NodeId) : Query NodeId := do
  let node ← r.node n
  match node.kind with
  | .enter .cond region =>
    if node.next.length ≠ 2 then
      .refuse (.malformed n "if without else branch")
    else if (← r.node region.close).prev.length ≠ 2 then
      .refuse (.malformed n "if without else branch")
    else
      return region.close
  | _ => .refuse (.malformed n "not an if")

end Routine

namespace Edit

/-- Join two nodes by a new edge. -/
def link (source target : NodeId) : Edit Unit := do
  changeNode source fun d => { d with next := d.next ++ [target] }
  changeNode target fun d => { d with prev := d.prev ++ [source] }

/-- Put `new` on the edge that leaves `source` at `nextSlot` and arrives at `target` at `prevSlot`.
-/
def splice (source : NodeId) (nextSlot : Nat) (target : NodeId) (prevSlot : Nat) (new : NodeId) :
    Edit Unit := do
  changeNode source fun d => { d with next := d.next.set nextSlot new }
  changeNode target fun d => { d with prev := d.prev.set prevSlot new }
  changeNode new fun d => { d with prev := d.prev ++ [source], next := d.next ++ [target] }

/-- Put the detached node `new` on an edge named by its slot at the source. -/
def insertAfterSlot (source : NodeId) (slot : Nat) (new : NodeId) : Edit Unit := do
  let next := (← node source).next
  match next[slot]? with
  | none => malformed source s!"no successor {slot}"
  | some target =>
    let nth := occurrencesBefore next target slot
    match nthSlot (← node target).prev source nth with
    | none => malformed target "asymmetric edge"
    | some prevSlot => splice source slot target prevSlot new

/-- Put the detached node `new` on an edge named by its slot at the target. -/
def insertBeforeSlot (target : NodeId) (slot : Nat) (new : NodeId) : Edit Unit := do
  let prev := (← node target).prev
  match prev[slot]? with
  | none => malformed target s!"no predecessor {slot}"
  | some source =>
    let nth := occurrencesBefore prev source slot
    match nthSlot (← node source).next target nth with
    | none => malformed source "asymmetric edge"
    | some nextSlot => splice source nextSlot target slot new

/-- Put `new` on the first edge between two nodes. -/
def insertBetween (source target new : NodeId) : Edit Unit := do
  match nthSlot (← node source).next target 0 with
  | none => malformed source ("no edge to " ++ nodeText target)
  | some slot => insertAfterSlot source slot new

/-- Put `new` between a node and its first predecessor. -/
def insertBefore (n new : NodeId) : Edit Unit := insertBeforeSlot n 0 new

/-- Put `new` between a node and its first successor. -/
def insertAfter (n new : NodeId) : Edit Unit := insertAfterSlot n 0 new

/-- Let a neighbour take the place of a node in a list; without a neighbour the node is left out. -/
def substitute (neighbours : List NodeId) (n : NodeId) : Option NodeId → List NodeId
  | some other => neighbours.map fun m => if m = n then other else m
  | none => neighbours.filter (· ≠ n)

/-- Unlink a node with at most one predecessor and one successor, and join these directly. Counts
stay as they are. -/
def removeNode (n : NodeId) : Edit Unit := do
  let data ← node n
  if 1 < data.prev.length ∨ 1 < data.next.length then
    throw (.refused (.illegalRemoval n data.prev.length data.next.length))
  match data.firstNext with
  | some succ => changeNode succ fun d => { d with prev := substitute d.prev n data.firstPrev }
  | none => pure ()
  match data.firstPrev with
  | some pred => changeNode pred fun d => { d with next := substitute d.next n data.firstNext }
  | none => pure ()
  changeNode n ({ · with prev := [], next := [] })

/-- Unlink everything from `first` to `last`, and join the single predecessor of the one to the
single successor of the other. Counts stay as they are. -/
def unlinkRange (first last : NodeId) : Edit Unit := do
  let head ← node first
  match head.prev with
  | [pred] =>
    let tail ← node last
    match tail.next with
    | [succ] =>
      match nthSlot (← node pred).next first 0 with
      | none => malformed pred "asymmetric edge"
      | some nextSlot =>
        match nthSlot (← node succ).prev last 0 with
        | none => malformed succ "asymmetric edge"
        | some prevSlot =>
          changeNode pred fun d => { d with next := d.next.set nextSlot succ }
          changeNode succ fun d => { d with prev := d.prev.set prevSlot pred }
          changeNode first ({ · with prev := [] })
          changeNode last ({ · with next := [] })
    | next => throw (.refused (.illegalRemoval last tail.prev.length next.length))
  | prev => throw (.refused (.illegalRemoval first prev.length head.next.length))

/-- Exchange the arms of a conditional. -/
def swapBranches (n : NodeId) : Edit Unit := do
  let close ← Action.ask fun r => r.twoArmedClose n
  changeNode n fun d => { d with next := swapFront d.next }
  changeNode close fun d => { d with prev := swapFront d.prev }

/-- Cut off the second arm of a conditional. Its nodes can no longer be reached; the caller has
released their counts. -/
def dropElse (n : NodeId) : Edit Unit := do
  let close ← Action.ask fun r => r.twoArmedClose n
  changeNode n fun d => { d with next := d.next.take 1 }
  changeNode close fun d => { d with prev := d.prev.take 1 }

end Edit

end CoroutineIR
