import CoroutineIR.Literal
import CoroutineIR.Opcode
import CoroutineIR.Type.Basic

/-!
# Nodes of the instruction stream

A routine is a stream of nodes joined by edges in both directions. Blocks, loops and conditionals
are an opening node with a closing partner; the body of the routine itself is opened by its
definition. An operand may be another node: such a sub-expression is detached from the stream and
belongs to the node that holds the operand.
-/

namespace CoroutineIR

/-- The position of a node in the arena of its routine. -/
abbrev NodeId := Nat

/-- The position of a variable in the arena of its routine. -/
abbrev VarId := Nat

/-- An operand of a node. -/
inductive Operand where
  | lit (value : Literal)
  | var (id : VarId)
  /-- A sub-expression. -/
  | node (id : NodeId)
deriving BEq, Repr, Inhabited

namespace Operand

/-- The variable, if the operand is one. -/
def var? : Operand → Option VarId
  | var v => some v
  | _ => none

/-- The literal, if the operand is one. -/
def lit? : Operand → Option Literal
  | lit value => some value
  | _ => none

/-- The sub-expression, if the operand is one. -/
def node? : Operand → Option NodeId
  | node n => some n
  | _ => none

@[simp] theorem node?_node (n : NodeId) : (node n).node? = some n := rfl
@[simp] theorem node?_var (v : VarId) : (var v).node? = none := rfl
@[simp] theorem node?_lit (value : Literal) : (lit value).node? = none := rfl

end Operand

/-- What an opening node opens. -/
structure Region where
  /-- The closing partner. -/
  close : NodeId
  /-- Whether control may be suspended inside. -/
  suspends : Bool
deriving DecidableEq, Repr, Inhabited

/-- Where a branch goes. -/
structure Branch where
  /-- The opening node branched to. -/
  target : NodeId
  /-- The number of regions between the branch and its target. -/
  depth : Nat
deriving DecidableEq, Repr, Inhabited

/-- Where a jump between steps goes. -/
inductive Jump where
  /-- Not settled yet: the first step found from the given node, or from the jump itself. -/
  | pending (origin : Option NodeId)
  | step (id : NodeId)
  /-- No step follows, so the routine ends. -/
  | terminal
deriving DecidableEq, Repr, Inhabited

/-- What a declaration declares. -/
inductive Role where
  | param
  | result
  | storage
deriving DecidableEq, Repr, Inhabited

/-- The forms of regions inside a body. -/
inductive Form where
  | block
  | loop
  /-- A conditional; its operand is the condition. -/
  | cond
deriving DecidableEq, Repr, Inhabited

/-- The forms of calls. In the indirect ones the first operand is the address of the callee. -/
inductive CallForm where
  | direct
  | indirect
  /-- The first half of a suspending call. -/
  | directBegin
  | indirectBegin
  /-- The second half of a suspending call, which delivers the result. -/
  | finish
  /-- Start the callee without waiting for it. -/
  | spawn
  | spawnIndirect
deriving DecidableEq, Repr, Inhabited

/-- What a node does. -/
inductive NodeKind where
  | define (name : String) (sig : Signature) (body : Region)
  | declare (role : Role)
  | enter (form : Form) (region : Region)
  | close (opener : NodeId)
  /-- A branch; a guarded one has its condition as operand. -/
  | branch (guarded : Bool) (goal : Branch)
  | call (form : CallForm) (sig : Signature)
  | ret
  | yield
  | step (name : String)
  /-- A jump between steps; a guarded one has its condition as operand. -/
  | goto (guarded : Bool) (goal : Jump)
  | op (code : Opcode)
deriving DecidableEq, Repr, Inhabited

/-- The written name of a form of call. -/
def CallForm.mnemonic : CallForm → String
  | direct => "call"
  | indirect => "call_indirect"
  | directBegin => "call_begin"
  | indirectBegin => "call_indirect_begin"
  | finish => "call_end"
  | spawn => "spawn"
  | spawnIndirect => "spawn_indirect"

/-- The written name of a declaration. -/
def Role.mnemonic : Role → String
  | param => "decl_param"
  | result => "decl_result"
  | storage => "decl_var"

/-- The written name of a form of region. -/
def Form.mnemonic : Form → String
  | block => "block"
  | loop => "loop"
  | cond => "if"

namespace NodeKind

variable {kind : NodeKind}

/-- The written name. -/
def mnemonic : NodeKind → String
  | define .. => "define"
  | declare role => role.mnemonic
  | enter form _ => form.mnemonic
  | close _ => "end"
  | branch false _ => "br"
  | branch true _ => "br_if"
  | call form _ => form.mnemonic
  | ret => "return"
  | yield => "yield"
  | step _ => "step"
  | goto false _ => "goto_step"
  | goto true _ => "goto_step_if"
  | op code => code.mnemonic

/-- The region an opening node opens. -/
def region? : NodeKind → Option Region
  | define _ _ body => some body
  | enter _ region => some region
  | _ => none

@[simp] theorem region?_define (name : String) (sig : Signature) (body : Region) :
    (define name sig body).region? = some body := rfl

@[simp] theorem region?_enter (form : Form) (region : Region) :
    (enter form region).region? = some region := rfl

@[simp] theorem region?_of_ne (hdefine : ∀ name sig body, kind ≠ define name sig body)
    (henter : ∀ form region, kind ≠ enter form region) : kind.region? = none := by
  cases kind <;> simp_all [region?]

/-- The kind with the region it opens, if any, changed. -/
def mapRegion (f : Region → Region) : NodeKind → NodeKind
  | define name sig body => define name sig (f body)
  | enter form region => enter form (f region)
  | kind => kind

@[simp] theorem mapRegion_define (f : Region → Region) (name : String) (sig : Signature)
    (body : Region) : (define name sig body).mapRegion f = define name sig (f body) := rfl

@[simp] theorem mapRegion_enter (f : Region → Region) (form : Form) (region : Region) :
    (enter form region).mapRegion f = enter form (f region) := rfl

@[simp] theorem mapRegion_of_ne (f : Region → Region)
    (hdefine : ∀ name sig body, kind ≠ define name sig body)
    (henter : ∀ form region, kind ≠ enter form region) : kind.mapRegion f = kind := by
  cases kind <;> simp_all [mapRegion]

/-- The closing partner of an opening node and the opening partner of a closing one. -/
def partner? : NodeKind → Option NodeId
  | close opener => some opener
  | kind => kind.region?.map Region.close

/-- Where a branch goes. -/
def branch? : NodeKind → Option Branch
  | branch _ b => some b
  | _ => none

@[simp] theorem branch?_branch (guarded : Bool) (b : Branch) :
    (branch guarded b).branch? = some b := rfl

@[simp] theorem branch?_of_ne (h : ∀ guarded b, kind ≠ branch guarded b) : kind.branch? = none := by
  cases kind <;> simp_all [branch?]

/-- The signature of the routine defined or the callee. -/
def signature? : NodeKind → Option Signature
  | define _ sig _ => some sig
  | call _ sig => some sig
  | _ => none

/-- Whether the node opens a region that may suspend. -/
def opensSuspending (kind : NodeKind) : Bool := kind.region?.any Region.suspends

def isClose : NodeKind → Bool
  | close _ => true
  | _ => false

@[simp] theorem isClose_close (o : NodeId) : (close o).isClose = true := rfl

@[simp] theorem isClose_of_ne (h : ∀ o, kind ≠ close o) : kind.isClose = false := by
  cases kind <;> simp_all [isClose]

def isCond : NodeKind → Bool
  | enter .cond _ => true
  | _ => false

def isLoop : NodeKind → Bool
  | enter .loop _ => true
  | _ => false

def isStep : NodeKind → Bool
  | step _ => true
  | _ => false

@[simp] theorem isStep_step (name : String) : (step name).isStep = true := rfl

@[simp] theorem isStep_of_ne (h : ∀ name, kind ≠ step name) : kind.isStep = false := by
  cases kind <;> simp_all [isStep]

def isDeclaration : NodeKind → Bool
  | declare _ => true
  | _ => false

@[simp] theorem isDeclaration_declare (role : Role) : (declare role).isDeclaration = true := rfl

@[simp] theorem isDeclaration_of_ne (h : ∀ role, kind ≠ declare role) :
    kind.isDeclaration = false := by
  cases kind <;> simp_all [isDeclaration]

/-- Whether the node is a call that waits for its result, which may then be dropped. -/
def isPlainCall : NodeKind → Bool
  | call .direct _ | call .indirect _ => true
  | _ => false

/-- Whether the node is a call or a spawn. Such a node stays even if its result is never read. -/
def isCall : NodeKind → Bool
  | call _ _ => true
  | _ => false

/-- Whether the collector may run during the node. -/
def mayCollect : NodeKind → Bool
  | call _ _ => true
  | op code => code.allocates
  | _ => false

/-- Whether expressions stay on their side of the node because it changes memory or schedules. -/
def blocksReordering : NodeKind → Bool
  | call .spawn _ | call .spawnIndirect _ => false
  | call _ _ => true
  | op code => code.writesMemory
  | _ => false

/-- Whether the node takes exactly one operand, its condition. -/
def isConditional : NodeKind → Bool
  | branch guarded _ => guarded
  | goto guarded _ => guarded
  | enter .cond _ => true
  | _ => false

@[simp] theorem isConditional_branch (guarded : Bool) (b : Branch) :
    (branch guarded b).isConditional = guarded := rfl

@[simp] theorem isConditional_goto (guarded : Bool) (goal : Jump) :
    (goto guarded goal).isConditional = guarded := rfl

@[simp] theorem isConditional_cond (region : Region) :
    (enter .cond region).isConditional = true := rfl

@[simp] theorem isConditional_of_ne (hbranch : ∀ guarded b, kind ≠ branch guarded b)
    (hgoto : ∀ guarded goal, kind ≠ goto guarded goal)
    (hcond : ∀ region, kind ≠ enter .cond region) : kind.isConditional = false := by
  unfold isConditional
  split <;> simp_all

end NodeKind

/-- A node. -/
structure Node where
  kind : NodeKind
  /-- The type of the result. -/
  ty : Option Ty
  /-- The variable that takes the result. -/
  dest : Option VarId
  args : List Operand
  /-- Successors; only a conditional has two. -/
  next : List NodeId
  /-- Predecessors. -/
  prev : List NodeId
deriving Repr, Inhabited

namespace Node

/-- A node without edges. -/
def detached (kind : NodeKind) (dest : Option VarId) (ty : Option Ty)
    (args : List Operand) : Node :=
  ⟨kind, ty, dest, args, [], []⟩

/-- A node without edges, result and operands. -/
def bare (kind : NodeKind) : Node := detached kind none none []

/-- The first successor. -/
def firstNext (n : Node) : Option NodeId := n.next.head?

/-- The first predecessor. -/
def firstPrev (n : Node) : Option NodeId := n.prev.head?

/-- The start of the second arm of a conditional and the node closing it. -/
def secondArm? (n : Node) : Option (NodeId × NodeId) :=
  match n.kind, n.next with
  | .enter .cond region, [_, first] => some (first, region.close)
  | _, _ => none

end Node

end CoroutineIR
