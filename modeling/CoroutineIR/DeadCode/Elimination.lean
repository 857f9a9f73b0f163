import CoroutineIR.DeadCode.Forward

/-!
# Dead code elimination

The two sweeps alternate, since code that cannot run may hold the last uses of a variable. Branches
are renumbered at the end if a conditional was decided, because it no longer counts towards their
depth.
-/

namespace CoroutineIR.DeadCode

/-- Alternate the sweeps until the forward one removes nothing. -/
def alternate : Nat → Pass Swept
  | 0 => throw .exhausted
  | fuel + 1 => do
    let unread ← backward
    let dead ← forward
    let swept := ⟨unread, 0⟩ + dead
    if dead.removed = 0 then
      return swept
    return swept + (← alternate fuel)

/-- Remove what is never read and what can never run. -/
def eliminate : Pass Unit := do
  let swept ← alternate (← get).routine.editFuel
  if 0 < swept.resolved then
    Edit.renumberBranches
  Pass.summarize s!"removed {swept.removed} nodes"

end CoroutineIR.DeadCode
