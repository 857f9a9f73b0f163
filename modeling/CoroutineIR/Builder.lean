import CoroutineIR.Routine.Access
import CoroutineIR.Routine.Edge
import CoroutineIR.Type.Compare

/-!
# Building a routine

Nodes are appended one at a time behind the current node. Open regions are kept on a stack; the
closing node of a region is created together with its opening node and joined to the stream when the
region is closed. Reads and writes are counted as nodes are appended.
-/

namespace CoroutineIR

/-- A routine under construction. -/
structure Builder where
  routine : Routine
  /-- The opening nodes of the regions still open, innermost first. The last is the definition. -/
  opened : List NodeId
  /-- The node the next one is appended to. -/
  current : NodeId
deriving Repr, Inhabited

/-- A step of building. -/
abbrev Build := Action IrError Builder

namespace Build

/-- An edit of the routine under construction. -/
def onRoutine {α : Type} (edit : Edit α) : Build α :=
  Action.within Builder.routine (fun routine b => { b with routine }) edit

instance : MonadLift Edit Build where
  monadLift := onRoutine

/-- Open the body of a routine. The memory variable counts as read and written twice from the start,
so that no pass takes it for dead or for used once. -/
def define (name : String) (sig : Signature) : Builder where
  routine :=
    { vars := #[{ name := "$mem", ty := none, reads := 2, writes := 2 }]
      nodes := #[.bare (.define name sig ⟨1, sig.suspends⟩), .bare (.close 0)]
      entry := 0
      mem := 0
      nextTmp := 0 }
  opened := [0]
  current := 0

/-- Append a node, joined to the current one, and count it. -/
def append (node : Node) : Build NodeId := do
  let n ← Edit.addNode node
  Edit.link (← get).current n
  modify ({ · with current := n })
  Edit.countNode n
  return n

/-- Declare a variable. -/
def declare (role : Role) (ty : Ty) (name : String) (refCounted : Bool) : Build VarId := do
  let v ← Edit.addVar { name, ty := some ty, refCounted }
  let _ ← append (.detached (.declare role) (some v) (some ty) [])
  return v

/-- An anonymous variable, which no node declares. -/
def tmp (ty : Option Ty) : Build VarId := Edit.addTmp ty

/-- Append an operation. A destination without type takes the type of the operation. -/
def assign (dest : Option VarId) (code : Opcode) (ty : Ty) (args : List Operand) :
    Build (Option VarId) := do
  match dest with
  | some v => Edit.changeVar v fun d => { d with ty := d.ty <|> some ty }
  | none => pure ()
  let _ ← append (.detached (.op code) dest (some ty) args)
  return dest

/-- Check the destination of a call against the result of the callee. A destination without type
takes the type of the result. -/
def bindResult (types : Registry) (dest : Option VarId) (sig : Signature) : Build Unit := do
  match dest with
  | none => return
  | some v =>
    let decl ← Edit.var v
    match decl.ty, sig.result with
    | none, result => Edit.changeVar v ({ · with ty := result })
    | some declared, none =>
      throw (.refused (.typeMismatch decl.name declared.text "no result"))
    | some declared, some result =>
      let same ← (types.sameType declared result).toAction
      if !same then
        throw (.refused (.typeMismatch decl.name declared.text result.text))

/-- Mark every open region as one that may suspend. -/
def markSuspending : Build Unit := do
  (← get).opened.forM fun n =>
    Edit.changeNode n fun d =>
      { d with kind := d.kind.mapRegion ({ · with suspends := true }) }

/-- Append a call or a spawn. A call that waits for a coroutine makes every open region suspend. -/
def call (types : Registry) (form : CallForm) (dest : Option VarId) (sig : Signature)
    (args : List Operand) : Build (Option VarId) := do
  bindResult types dest sig
  let kind := NodeKind.call form sig
  let _ ← append (.detached kind dest sig.result args)
  if kind.isPlainCall && sig.suspends then
    markSuspending
  return dest

/-- Append an explicit suspension. -/
def yieldNow : Build Unit := do
  let _ ← append (.bare .yield)
  markSuspending

/-- Append a return. -/
def ret (args : List Operand) : Build Unit := do
  let _ ← append (.detached .ret none none args)

/-- Open a region. -/
def enter (form : Form) (args : List Operand) : Build NodeId := do
  let close := (← get).routine.nodes.size + 1
  let n ← append (.detached (.enter form ⟨close, false⟩) none none args)
  let _ ← Edit.addNode (.bare (.close n))
  modify fun b => { b with opened := n :: b.opened }
  return n

/-- Close the first arm of the innermost conditional and start its second arm. -/
def otherwise : Build Unit := do
  match (← get).opened with
  | [] => throw (.refused .endWithoutOpen)
  | top :: _ =>
    match ← Edit.kind top with
    | .enter .cond region =>
      if !(← Edit.node region.close).prev.isEmpty then
        throw (.refused (.elseWithoutIf top))
      Edit.link (← get).current region.close
      modify ({ · with current := top })
    | _ => throw (.refused (.elseWithoutIf top))

/-- Close the innermost region. The body itself is closed by finishing. -/
def close : Build Unit := do
  match (← get).opened with
  | top :: outer :: rest =>
    modify ({ · with opened := outer :: rest })
    match (← Edit.kind top).partner? with
    | none => Edit.malformed top "opener without end"
    | some close =>
      Edit.link (← get).current close
      modify ({ · with current := close })
  | _ => throw (.refused .endWithoutOpen)

/-- A branch to an open region. -/
def branchTo (target : NodeId) : Build Branch := do
  match (← get).opened.idxOf? target with
  | some depth => return ⟨target, depth⟩
  | none => throw (.refused (.branchTargetUnreachable target))

/-- Append a branch. -/
def branch (target : NodeId) : Build Unit := do
  let goal ← branchTo target
  let _ ← append (.bare (.branch false goal))

/-- Append a branch that is taken if the condition holds. -/
def branchIf (cond : Operand) (target : NodeId) : Build Unit := do
  let goal ← branchTo target
  let _ ← append (.detached (.branch true goal) none none [cond])

/-- Close the body. -/
def finish : Build Routine := do
  match (← get).opened with
  | top :: _ :: _ => throw (.refused (.unclosedConstruct top))
  | _ =>
    let exit ← Action.ask fun b => b.routine.exit
    Edit.link (← get).current exit
    return (← get).routine

end Build

end CoroutineIR
