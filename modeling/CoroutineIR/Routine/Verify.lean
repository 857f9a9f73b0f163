import CoroutineIR.Routine.Access
import CoroutineIR.Routine.Depth
import CoroutineIR.Routine.Edge

/-!
# Checking a routine

The check looks at every live node: its edges are kept on both sides, it has as many successors as
its kind asks for, opening and closing nodes are partners, branches and jumps have live
destinations, and sub-expressions are detached. The stream as a whole has no cycle, every branch
carries its depth, and the cached counts of every variable are what the live nodes add up to.
-/

namespace CoroutineIR.Routine

/-- The edges of a node are kept as often on the other side. -/
def checkEdges (r : Routine) (n : NodeId) : Query Unit := do
  let node ← r.node n
  node.next.forM fun m => do
    if node.next.count m ≠ (← r.node m).prev.count n then
      .refuse (.malformed n ("asymmetric edge to " ++ nodeText m))
  node.prev.forM fun m => do
    if node.prev.count m ≠ (← r.node m).next.count n then
      .refuse (.malformed n ("asymmetric edge from " ++ nodeText m))

/-- A node has as many successors as its kind asks for. -/
def checkSuccessors (r : Routine) (n : NodeId) (node : Node) : Query Unit := do
  let succs := node.next.length
  if node.kind.isCond then
    if succs < 1 ∨ 2 < succs then
      .refuse (.malformed n "if needs one or two successors")
  else if n = (← r.exit) then
    if succs ≠ 0 then
      .refuse (.malformed n "function end has successors")
  else if succs ≠ 1 then
    .refuse (.malformed n s!"{succs} successors")

/-- The closing node of an opening node names it as its partner. -/
def checkOpener (r : Routine) (n : NodeId) (node : Node) : Query Unit := do
  match node.kind.region? with
  | none => return
  | some region =>
    if (← r.node region.close).kind ≠ .close n then
      .refuse (.malformed n "opener and end are not partners")

/-- Partners, branch targets and jump destinations are what they have to be. -/
def checkReferences (r : Routine) (live : BitSet) (n : NodeId) (node : Node) : Query Unit := do
  match node.kind with
  | .close opener =>
    if (← r.node opener).kind.partner? ≠ some n then
      .refuse (.malformed n "end does not belong to its opener")
  | .branch _ b =>
    let target ← r.node b.target
    if !live.contains b.target || target.kind.region?.isNone then
      .refuse (.branchTargetUnreachable b.target)
  | .goto _ (.pending _) => .refuse (.unresolvedJump n)
  | .goto _ (.step m) =>
    let target ← r.node m
    if !live.contains m || !target.kind.isStep then
      .refuse (.malformed n ("jump to " ++ nodeText m ++ " which is not a step"))
  | _ => return

/-- A node fits its kind. -/
def checkShape (r : Routine) (live : BitSet) (n : NodeId) : Query Unit := do
  let node ← r.node n
  r.checkSuccessors n node
  r.checkOpener n node
  r.checkReferences live n node
  if node.kind.isConditional && node.args.length ≠ 1 then
    .refuse (.malformed n "branch without condition")

/-- The nodes nested in a node have no edges. -/
def checkNested (r : Routine) (n : NodeId) : Query Unit := do
  (← r.strictlyNested n).forM fun m => do
    let inner ← r.node m
    if !inner.next.isEmpty || !inner.prev.isEmpty then
      .refuse (.malformed m "sub-expression linked into the stream")

/-- How often each variable is read and written. -/
structure Tally where
  reads : Array Nat
  writes : Array Nat
deriving Repr, Inhabited

/-- No accesses, apart from those that keep the memory variable alive. -/
def Tally.start (r : Routine) : Query Tally := do
  let zeros := Array.replicate r.vars.size 0
  return ⟨← Arena.update zeros r.mem fun _ => 2, ← Arena.update zeros r.mem fun _ => 2⟩

/-- One access more. -/
def Tally.add (t : Tally) (access : VarId × Access) : Query Tally := do
  match access with
  | (v, .read) => return { t with reads := ← Arena.update t.reads v (· + 1) }
  | (v, .write) => return { t with writes := ← Arena.update t.writes v (· + 1) }

/-- Check a node by itself and add up its accesses. -/
def checkNode (r : Routine) (live : BitSet) (t : Tally) (n : NodeId) : Query Tally := do
  r.checkEdges n
  r.checkShape live n
  r.checkNested n
  (← r.accesses n).foldlM Tally.add t

/-- Count the edges that arrive at each node from a live one. -/
def inDegrees (r : Routine) (live : List NodeId) : Query (Array Nat) :=
  live.foldlM (fun degrees n => do
    (← r.node n).next.foldlM (fun degrees m => Arena.update degrees m (· + 1)) degrees)
    (Array.replicate r.nodes.size 0)

/-- Take away one arriving edge for each successor, and collect the live nodes that have none left.
-/
def releaseEdges (live : BitSet) :
    List NodeId → Array Nat → List NodeId → Query (Array Nat × List NodeId)
  | [], degrees, ready => return (degrees, ready)
  | m :: rest, degrees, ready => do
    match ← Arena.fetch degrees m with
    | 0 => .abort .overflow
    | left + 1 =>
      let degrees ← Arena.update degrees m fun _ => left
      releaseEdges live rest degrees (if left = 0 && live.contains m then m :: ready else ready)

/-- Take nodes without arriving edges out of the stream, one by one, and count them. -/
def peel (r : Routine) (live : BitSet) :
    Nat → Array Nat → List NodeId → Nat → Query (Array Nat × Nat)
  | _, degrees, [], visited => return (degrees, visited)
  | 0, _, _ :: _, _ => .error .exhausted
  | fuel + 1, degrees, n :: ready, visited => do
    let (degrees, ready) ← releaseEdges live (← r.node n).next degrees ready
    peel r live fuel degrees ready (visited + 1)

/-- The stream has no cycle: loops are closed by branches, not by edges. -/
def checkAcyclic (r : Routine) (live : List NodeId) : Query Unit := do
  let degrees ← r.inDegrees live
  let ready := live.filter fun n => degrees[n]? = some 0
  let (degrees, visited) ← r.peel (.ofList live) r.nodes.size degrees ready.reverse 0
  if visited ≠ live.length then
    let stuck := (live.find? fun n => (degrees[n]?).any (0 < ·)).getD r.entry
    .refuse (.malformed stuck "cycle in the instruction stream")

/-- A branch carries the depth derived for it. -/
def checkBranchDepth (r : Routine) (n : NodeId) (actual : Option Nat) : Query Unit := do
  match (← r.node n).kind with
  | .branch _ b =>
    match actual with
    | none => .refuse (.branchTargetUnreachable b.target)
    | some actual =>
      if actual ≠ b.depth then
        .refuse (.branchDepthMismatch n b.depth actual)
  | _ => return

/-- The cached counts of a variable are the counted ones. -/
def checkCounts (r : Routine) (t : Tally) (v : VarId) : Query Unit := do
  let decl ← r.var v
  let cached := (decl.reads, decl.writes)
  let actual := (← Arena.fetch t.reads v, ← Arena.fetch t.writes v)
  if cached ≠ actual then
    .refuse (.countMismatch decl.name cached actual)

/-- Check the structure of a routine and its cached counts. -/
def verify (r : Routine) : Query Unit := do
  let live ← r.liveNodes
  let tally ← live.foldlM (r.checkNode (.ofList live)) (← Tally.start r)
  r.checkAcyclic live
  (← r.branchDepths).forM fun (n, actual) => r.checkBranchDepth n actual
  (Arena.ids r.vars).forM fun v => r.checkCounts tally v

end CoroutineIR.Routine
