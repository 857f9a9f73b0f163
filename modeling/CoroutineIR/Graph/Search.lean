import CoroutineIR.Outcome
import CoroutineIR.Container.BitSet
import CoroutineIR.Container.UniqueStack

/-!
# Depth-first search

A search keeps the nodes it has seen and a stack of nodes whose successors are still to be looked
at. A node is marked, pushed and reported the first time it is met, so it is reported once even when
it is reached along several edges. Several runs may share one search; a later run reports only what
the earlier ones did not reach.
-/

namespace CoroutineIR

/-- A graph on the numbers below `size`. Asking for successors may fail. -/
structure Digraph (ε : Type) where
  /-- The number of nodes. -/
  size : Nat
  /-- The successors of a node, in order. -/
  succs : Nat → Attempt ε (List Nat)

/-- The state of a depth-first search. -/
structure Search where
  /-- Nodes whose successors have not been looked at. -/
  pending : UniqueStack Nat
  /-- Nodes met so far. -/
  visited : BitSet
deriving Repr, Inhabited

/-- What to do when a node is met. It is told the search, the node and the node it was reached from.
-/
abbrev Visitor (τ : Type) := Search → Nat → Option Nat → τ → τ

namespace Search

variable {ε τ : Type}

/-- A search that has met nothing. -/
def fresh : Search := ⟨.empty, .empty⟩

/-- Whether a node of the graph has been met. -/
def isVisited (g : Digraph ε) (s : Search) (n : Nat) : Attempt ε Bool :=
  if n < g.size then .ok (s.visited.contains n) else .abort .missing

/-- Mark a node as met and keep it for later. -/
def mark (s : Search) (n : Nat) : Search := ⟨s.pending.push n, s.visited.insert n⟩

/-- Meet every successor in the list that is new. -/
def meetAll (g : Digraph ε) (visit : Visitor τ) (origin : Nat) :
    List Nat → Search → τ → Attempt ε (Search × τ)
  | [], s, acc => .ok (s, acc)
  | n :: rest, s, acc => do
    if ← isVisited g s n then
      meetAll g visit origin rest s acc
    else
      let s := s.mark n
      meetAll g visit origin rest s (visit s n (some origin) acc)

/-- Look at the successors of pending nodes until none is left. -/
def drain (g : Digraph ε) (visit : Visitor τ) : Nat → Search → τ → Attempt ε (Search × τ)
  | 0, s, acc =>
    match s.pending.pop with
    | (none, pending) => .ok ({ s with pending }, acc)
    | (some _, _) => .error .exhausted
  | fuel + 1, s, acc => do
    match s.pending.pop with
    | (none, pending) => return ({ s with pending }, acc)
    | (some n, pending) =>
      let (s, acc) ← meetAll g visit n (← g.succs n) { s with pending } acc
      drain g visit fuel s acc

/-- Search from `start`. Each node is popped at most once, so the number of nodes is enough fuel. -/
def runFrom (g : Digraph ε) (visit : Visitor τ) (start : Nat) (s : Search) (acc : τ) :
    Attempt ε (Search × τ) := do
  if ← isVisited g s start then
    return (s, acc)
  let s := s.mark start
  drain g visit g.size s (visit s start none acc)

/-- The visitor that lists nodes in the order they are met, latest first. -/
def listing : Visitor (List Nat) := fun _ n _ met => n :: met

end Search

/-- The nodes reachable from `start`, in the order a depth-first search meets them. -/
def Digraph.reachable {ε : Type} (g : Digraph ε) (start : Nat) : Attempt ε (List Nat) := do
  let (_, met) ← Search.runFrom g Search.listing start .fresh []
  return met.reverse

end CoroutineIR
