import CoroutineIR.Node

/-!
# Variables of a routine

A variable carries cached counts of the places that read and write it, and what the passes have
found out about it.
-/

namespace CoroutineIR

/-- A variable of a routine. -/
structure Variable where
  name : String
  ty : Option Ty
  /-- How often live nodes read the variable. -/
  reads : Nat := 0
  /-- How often live nodes write the variable. -/
  writes : Nat := 0
  /-- The literal that was its only value. -/
  constant : Option Literal := none
  /-- The variable it was folded into; writes go there instead. -/
  foldedInto : Option VarId := none
  /-- Whether its address has been taken. -/
  addressable : Bool := false
  /-- Whether the collector has to see its value. -/
  discoverable : Bool := false
  /-- Whether it is used in more than one step. -/
  crossesSteps : Bool := false
  /-- Whether its value is counted by reference. -/
  refCounted : Bool := false
deriving Repr, Inhabited

end CoroutineIR
