import CoroutineIR.Node

/-!
# Refusals of routine operations

Every refusal names a broken structural rule of a routine: a fault of the pass or of the code that
built the stream, never of the compiled program.
-/

namespace CoroutineIR

/-- Why an operation on a routine was refused. -/
inductive IrError where
  | branchTargetUnreachable (target : NodeId)
  | branchDepthMismatch (node : NodeId) (cached actual : Nat)
  | endWithoutOpen
  | elseWithoutIf (node : NodeId)
  | unclosedConstruct (node : NodeId)
  | illegalRemoval (node : NodeId) (preds succs : Nat)
  | typeMismatch (var expected found : String)
  | countUnderflow (var which : String)
  | countMismatch (var : String) (cached actual : Nat × Nat)
  | unresolvedJump (node : NodeId)
  | malformed (node : NodeId) (reason : String)
deriving DecidableEq, Repr, Inhabited

/-- A node as named in a message. -/
def nodeText (n : NodeId) : String := s!"NodeId({n})"

/-- A pair of counts as shown in a message. -/
def countsText (counts : Nat × Nat) : String := s!"({counts.1}, {counts.2})"

/-- The wording of a refusal. -/
def IrError.message : IrError → String
  | branchTargetUnreachable target => "branch target " ++ nodeText target ++ " is not reachable"
  | branchDepthMismatch node cached actual =>
    "branch " ++ nodeText node ++
      s!" is encoded with depth {cached} but its target is {actual} constructs out"
  | endWithoutOpen => "end without opening block"
  | elseWithoutIf node => "else without if (innermost construct is " ++ nodeText node ++ ")"
  | unclosedConstruct node => "construct " ++ nodeText node ++ " is never closed"
  | illegalRemoval node preds succs =>
    "cannot remove " ++ nodeText node ++
      s!": it has {preds} predecessors and {succs} successors"
  | typeMismatch var expected found =>
    s!"variable `{var}` used with wrong type: expected {expected}, found {found}"
  | countUnderflow var which => s!"{which} count of `{var}` dropped below zero"
  | countMismatch var cached actual =>
    s!"counts of `{var}` are stale: cached " ++ countsText cached ++ ", actual " ++
      countsText actual
  | unresolvedJump node => "jump " ++ nodeText node ++ " has no resolved destination"
  | malformed node reason => "malformed graph at " ++ nodeText node ++ ": " ++ reason

end CoroutineIR
