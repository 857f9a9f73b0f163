import CoroutineIR.Decimal.Notation
import CoroutineIR.Text.Quoted

/-!
# Literals

Integers are 64-bit words with sign, floating-point numbers are doubles, and texts are never
numeric.
-/

namespace CoroutineIR

/-- A literal value. -/
inductive Literal where
  | int (value : Int64)
  | float (value : Float)
  | str (value : String)
deriving BEq, Repr, Inhabited

namespace Literal

/-- How floating-point literals are written: in full from `0.0001` to below `10 ^ 16`, always with a
digit behind the point, and otherwise with a power of ten that has no plus sign. -/
def floatNotation : Decimal.Notation where
  plainFrom := -4
  plainTo := 15
  emptyFraction := "0"
  exponentMark := "e"
  notANumber := "NaN"
  infinite := "inf"

/-- The integer, if the literal is one. -/
def int? : Literal → Option Int64
  | int v => some v
  | _ => none

/-- Whether the literal is a number. Texts are never propagated into operands. -/
def isNumeric : Literal → Bool
  | int _ | float _ => true
  | str _ => false

/-- The truth value of a number used as a condition. -/
def truth? : Literal → Option Bool
  | int v => some (v != 0)
  | float v => some (v != 0.0)
  | str _ => none

/-- The written literal. -/
def text : Literal → String
  | int v => toString v.toInt
  | float v => floatNotation.write v
  | str s => Text.quoted s

end Literal

end CoroutineIR
