import CoroutineIR.Journal
import CoroutineIR.Routine.Access
import CoroutineIR.Routine.Edge
import CoroutineIR.Step.Suspension

/-!
# Cutting a coroutine into steps

Every suspension, a call of a coroutine or an explicit yield, ends a step. Control that crosses from
one step to another becomes a jump, and the blocks and loops that held suspensions disappear.
Conditionals and regions without suspension stay as they are.

The work is done in three walks: the first opens steps and leaves jumps whose destination is still
open, the second settles the destinations, and the third takes the dissolved regions out.
-/

namespace CoroutineIR

/-- A compilation in which steps are numbered across routines. -/
structure Lowering extends Work where
  /-- The number of the next step. -/
  nextStep : Nat := 0
deriving Inhabited

/-- A step of a compilation that numbers steps. -/
abbrev Lower := Action IrError Lowering

namespace Lower

/-- A step of a pass that opens no steps. -/
def onWork {α : Type} (pass : Pass α) : Lower α :=
  Action.within Lowering.toWork (fun toWork l => { l with toWork }) pass

instance : MonadLift Pass Lower where
  monadLift := onWork

/-- An edit of the routine under compilation. -/
def edit {α : Type} (e : Edit α) : Lower α := onWork (Pass.onRoutine e)

instance : MonadLift Edit Lower where
  monadLift := edit

/-- Open a step in front of a node. -/
def openStepBefore (n : NodeId) : Lower NodeId := do
  let number := (← get).nextStep
  modify ({ · with nextStep := number + 1 })
  let step ← Edit.addNode (.bare (.step s!"s{number}"))
  Edit.insertBefore n step
  return step

/-- The step open at a node; a new one is opened if there is none. -/
def ensureStep (step : Option NodeId) (n : NodeId) : Lower NodeId :=
  match step with
  | some s => return s
  | none => openStepBefore n

/-- A detached jump whose destination is the next step. -/
def addPendingJump : Edit NodeId := Edit.addNode (.bare (.goto false (.pending none)))

/-- Where a branch to `target` goes on: at the head of a loop, otherwise behind the region. -/
def branchDestination (target : NodeId) : Edit NodeId := do
  let kind ← Edit.kind target
  if kind.isLoop then
    return target
  match kind.partner? with
  | some close => return close
  | none => throw (.refused (.branchTargetUnreachable target))

/-- End the open step in front of a closing node that is reached through predecessor `slot`. Behind
a return at the end of a block nothing is left to do. -/
def leaveStep (n opener : NodeId) (slot : Nat) : Edit Unit := do
  match (← Edit.node n).prev[slot]? with
  | none => Edit.malformed n "end without predecessor"
  | some last =>
    let returned ← if (← Edit.kind opener).isCond then pure false
      else do pure ((← Edit.kind last) = .ret : Bool)
    if !returned then
      let jump ← addPendingJump
      Edit.insertBeforeSlot n slot jump

/-- Split a suspending call in two: the first half starts the callee and leaves the step, the second
half delivers the result in a later one. -/
def splitCall (n : NodeId) (first : CallForm) (sig : Signature) : Edit NodeId := do
  let node ← Edit.node n
  Edit.setDest n none
  Edit.setKind n (.call first sig)
  let jump ← addPendingJump
  Edit.insertAfter n jump
  let second ← Edit.addNode (.detached (.call .finish sig) node.dest node.ty [])
  Edit.insertAfter jump second
  Edit.countNode second
  return second

/-- The form of the first half of a suspending call. -/
def firstHalf? : CallForm → Option CallForm
  | .direct => some .directBegin
  | .indirect => some .indirectBegin
  | _ => none

/-- What the first walk does at a node. -/
inductive Move where
  /-- Pass the node by. -/
  | pass
  /-- Take apart a block or loop that suspends. -/
  | dissolve
  /-- Keep a region that does not suspend as a whole. -/
  | skip (close : NodeId)
  /-- Cut up both arms of a conditional. -/
  | descend (close : NodeId)
  | close (opener : NodeId)
  | branch (guarded : Bool) (target : NodeId)
  /-- Split a suspending call. -/
  | split (first : CallForm) (sig : Signature)
  | yield
  /-- Keep the node in the open step. -/
  | keep
deriving DecidableEq, Repr, Inhabited

/-- What the first walk does at a node of the given kind. -/
def moveAt : NodeKind → Move
  | .define .. => .pass
  | .enter form region =>
    if !region.suspends then .skip region.close
    else if form = .cond then .descend region.close
    else .dissolve
  | .close opener => .close opener
  | .branch guarded b => .branch guarded b.target
  | .call form sig =>
    match firstHalf? form with
    | some first => if sig.suspends then .split first sig else .keep
    | none => .keep
  | .yield => .yield
  | _ => .keep

/-- Cut the stream into steps from `start` to the closing node `stop`. `step` is the step open so
far; with `second`, `stop` closes a conditional and is reached through its second arm. -/
def transformWithin : Nat → Option NodeId → NodeId → Option NodeId → Bool → Lower Unit
  | _, none, _, _, _ => return
  | 0, some _, _, _, _ => throw .exhausted
  | fuel + 1, some n, stop, step, second => do
    match moveAt (← Edit.kind n) with
    | .pass => transformWithin fuel (← Edit.firstNext n) stop step second
    | .dissolve =>
      if step.isSome then
        let jump ← addPendingJump
        Edit.insertBefore n jump
      transformWithin fuel (← Edit.firstNext n) stop none second
    | .skip close =>
      let step ← ensureStep step n
      transformWithin fuel (← Edit.firstNext close) stop (some step) second
    | .descend close =>
      let step ← ensureStep step n
      match (← Edit.node n).next[1]? with
      | some first => transformWithin fuel (some first) close (some step) true
      | none => pure ()
      transformWithin fuel (← Edit.firstNext n) stop (some step) second
    | .close opener =>
      if step.isSome then
        leaveStep n opener (if second && n = stop then 1 else 0)
      if n = stop then
        return
      transformWithin fuel (← Edit.firstNext n) stop none second
    | .branch guarded target =>
      let step ← ensureStep step n
      let dest ← branchDestination target
      Edit.setKind n (.goto guarded (.pending (some dest)))
      transformWithin fuel (← Edit.firstNext n) stop (if guarded then some step else none) second
    | .split first sig =>
      let _ ← ensureStep step n
      let result ← splitCall n first sig
      transformWithin fuel (some result) stop none second
    | .yield =>
      let _ ← ensureStep step n
      let jump ← addPendingJump
      Edit.insertAfter n jump
      transformWithin fuel (← Edit.firstNext jump) stop none second
    | .keep =>
      let step ← ensureStep step n
      transformWithin fuel (← Edit.firstNext n) stop (some step) second

/-- The first step from a node along first successors. -/
def nextStepWithin (r : Routine) : Nat → Option NodeId → Query (Option NodeId)
  | _, none => return none
  | 0, some _ => .error .exhausted
  | fuel + 1, some n => do
    let node ← r.node n
    if node.kind.isStep then
      return some n
    nextStepWithin r fuel node.firstNext

/-- The first step from a node along first successors. -/
def nextStep (r : Routine) (n : NodeId) : Query (Option NodeId) :=
  nextStepWithin r r.walkFuel (some n)

/-- Settle the destination of a jump. -/
def settle (n : NodeId) (guarded : Bool) (origin : Option NodeId) : Pass Unit := do
  let jump ← match ← Pass.ask fun r => nextStep r (origin.getD n) with
    | some step => pure (Jump.step step)
    | none => pure Jump.terminal
  Edit.setKind n (.goto guarded jump)
  Pass.note .trace fun r => r.nodeLine n

/-- Settle the destinations of all open jumps from `start` up to `stop`. -/
def settleWithin : Nat → Option NodeId → Option NodeId → Pass Unit
  | _, none, _ => return
  | fuel, some n, stop => do
    if some n = stop then
      return
    match fuel with
    | 0 => throw .exhausted
    | fuel + 1 =>
      let node ← Edit.node n
      match node.kind, node.next[1]? with
      | .goto guarded (.pending origin), _ => settle n guarded origin
      | .enter .cond region, some first => settleWithin fuel (some first) (some region.close)
      | _, _ => pure ()
      settleWithin fuel (← Edit.firstNext n) stop

/-- Whether a region is taken apart. -/
def isDissolved : NodeKind → Bool
  | .enter .cond _ => false
  | .enter _ region => region.suspends
  | _ => false

/-- Take the opening and closing nodes of dissolved regions out of the stream. -/
def dissolveWithin : Nat → Option NodeId → Option NodeId → Edit Unit
  | _, none, _ => return
  | fuel, some n, stop => do
    if some n = stop then
      return
    match fuel with
    | 0 => throw .exhausted
    | fuel + 1 =>
      let node ← Edit.node n
      match node.kind, node.next[1]? with
      | .enter .cond region, some first => dissolveWithin fuel (some first) (some region.close)
      | _, _ => pure ()
      let gone ← match node.kind with
        | .close opener => do pure (isDissolved (← Edit.kind opener))
        | kind => pure (isDissolved kind)
      if gone then
        Edit.removeNode n
      dissolveWithin fuel node.firstNext stop

/-- Cut a routine that may suspend into steps. -/
def lowerToSteps : Lower Unit := do
  if ← Pass.ask Routine.suspends then
    Edit.spreadSuspension
    let first := (← get).nextStep
    let r := (← get).routine
    transformWithin r.editFuel (some r.entry) (← r.exit) none false
    settleWithin (← get).routine.editFuel (some r.entry) none
    dissolveWithin (← get).routine.editFuel (some r.entry) none
    let last := (← get).nextStep
    Pass.summarize s!"lowered into {last - first} steps"

end Lower

end CoroutineIR
