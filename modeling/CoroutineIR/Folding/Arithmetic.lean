import CoroutineIR.Literal
import CoroutineIR.Opcode
import CoroutineIR.Size
import CoroutineIR.Type.Basic

/-!
# Arithmetic on literals

Operations on numbers are evaluated in 64 bits. An integer result is then cut down to the width of
the result type, with or without sign as the type says; the outcome of a comparison is zero or one
and is left alone. Divisions without a result are not evaluated.
-/

namespace CoroutineIR.Folding

variable {ε : Type}

/-- Cut a word down to its lowest `64 - shift` bits, extended with or without sign. -/
def truncate (signed : Bool) (shift : Nat) (value : Int64) : Int64 :=
  if signed then
    (value <<< Int64.ofNat shift) >>> Int64.ofNat shift
  else
    ((value.toUInt64 <<< UInt64.ofNat shift) >>> UInt64.ofNat shift).toInt64

/-- Cut a word down to the width of the result type. -/
def wrap (target : Target) (ty : Option Scalar) (value : Int64) : Attempt ε Int64 :=
  match ty with
  | none => return value
  | some ty => do
    if ty.isFloat then
      return value
    let bits ← Size.mul (ty.size target) 8
    if 64 ≤ bits then
      return value
    else if bits = 0 then
      .abort .zeroWidth
    else
      return truncate ty.isSigned (64 - bits) value

/-- The quotient, unless it does not exist or does not fit. -/
def quotient? (x y : Int64) : Option Int64 :=
  if y = 0 ∨ (x = Int64.minValue ∧ y = -1) then none else some (x / y)

/-- The remainder, unless the quotient does not exist or does not fit. -/
def remainder? (x y : Int64) : Option Int64 :=
  if y = 0 ∨ (x = Int64.minValue ∧ y = -1) then none else some (x % y)

/-- An operation on two integers whose result is cut down to its type. -/
def combineInts : Opcode → Int64 → Int64 → Option Int64
  | .add, x, y => some (x + y)
  | .sub, x, y => some (x - y)
  | .mul, x, y => some (x * y)
  | .div, x, y => quotient? x y
  | .divS, x, y => quotient? x y
  | .divU, x, y => if y = 0 then none else some (x.toUInt64 / y.toUInt64).toInt64
  | .remS, x, y => remainder? x y
  | .remU, x, y => if y = 0 then none else some (x.toUInt64 % y.toUInt64).toInt64
  | .and, x, y => some (x &&& y)
  | .or, x, y => some (x ||| y)
  | .xor, x, y => some (x ^^^ y)
  | .shl, x, y => some (x <<< y)
  | .shrS, x, y => some (x >>> y)
  | .shrU, x, y => some (x.toUInt64 >>> y.toUInt64).toInt64
  | .min, x, y => some (if x ≤ y then x else y)
  | .max, x, y => some (if x ≤ y then y else x)
  | _, _, _ => none

/-- A comparison of two integers. -/
def compareInts : Opcode → Int64 → Int64 → Option Bool
  | .eq, x, y => some (x == y)
  | .ne, x, y => some (x != y)
  | .lt, x, y | .ltS, x, y => some (decide (x < y))
  | .le, x, y | .leS, x, y => some (decide (x ≤ y))
  | .gt, x, y | .gtS, x, y => some (decide (y < x))
  | .ge, x, y | .geS, x, y => some (decide (y ≤ x))
  | .ltU, x, y => some (decide (x.toUInt64 < y.toUInt64))
  | .leU, x, y => some (decide (x.toUInt64 ≤ y.toUInt64))
  | .gtU, x, y => some (decide (y.toUInt64 < x.toUInt64))
  | .geU, x, y => some (decide (y.toUInt64 ≤ x.toUInt64))
  | _, _, _ => none

/-- The whole part of a number; the sign of zero is kept. -/
def wholePart (x : Float) : Float := if x < 0 then x.ceil else x.floor

/-- The nearest whole number, the even one of two; the sign is kept. Below `2 ^ 52` adding and
taking away that power rounds to a whole number. -/
def nearestWhole (x : Float) : Float :=
  let bound := 4503599627370496.0
  let magnitude := x.abs
  if magnitude < bound then
    let rounded := (magnitude + bound) - bound
    if x.toBits < 0x8000000000000000 then rounded else -rounded
  else x

/-- The smaller number. A value that is no number gives way, and of equal ones the first is taken.
-/
def smaller (x y : Float) : Float := if x.isNaN || y < x then y else x

/-- The larger number. A value that is no number gives way, and of equal ones the first is taken. -/
def larger (x y : Float) : Float := if x.isNaN || x < y then y else x

/-- An operation on one floating-point number. -/
def mapFloat : Opcode → Float → Option Float
  | .neg, x => some (-x)
  | .abs, x => some x.abs
  | .sqrt, x => some x.sqrt
  | .ceil, x => some x.ceil
  | .floor, x => some x.floor
  | .trunc, x => some (wholePart x)
  | .nearest, x => some (nearestWhole x)
  | _, _ => none

/-- An operation on two floating-point numbers. -/
def combineFloats : Opcode → Float → Float → Option Float
  | .add, x, y => some (x + y)
  | .sub, x, y => some (x - y)
  | .mul, x, y => some (x * y)
  | .div, x, y => some (x / y)
  | .min, x, y => some (smaller x y)
  | .max, x, y => some (larger x y)
  | _, _, _ => none

/-- A comparison of two floating-point numbers. -/
def compareFloats : Opcode → Float → Float → Option Bool
  | .eq, x, y => some (x == y)
  | .ne, x, y => some (x != y)
  | .lt, x, y => some (decide (x < y))
  | .le, x, y => some (decide (x ≤ y))
  | .gt, x, y => some (decide (y < x))
  | .ge, x, y => some (decide (y ≤ x))
  | _, _, _ => none

/-- The literal of a truth value. -/
def truthLiteral (b : Bool) : Literal := .int (if b then 1 else 0)

/-- The literal of an integer result, cut down to its type. -/
def wrapped (target : Target) (ty : Option Scalar) : Option Int64 → Attempt ε (Option Literal)
  | some v => return some (.int (← wrap target ty v))
  | none => return none

/-- The value of an operation on literals, if it has one. -/
def evaluate (target : Target) (ty : Option Scalar) (code : Opcode) :
    List Literal → Attempt ε (Option Literal)
  | [.int x] =>
    match code with
    | .eqz => return some (truthLiteral (x == 0))
    | .neg => wrapped target ty (some (-x))
    | _ => return none
  | [.float x] => return (mapFloat code x).map .float
  | [.int x, .int y] =>
    match compareInts code x y with
    | some b => return some (truthLiteral b)
    | none => wrapped target ty (combineInts code x y)
  | [.float x, .float y] =>
    match compareFloats code x y with
    | some b => return some (truthLiteral b)
    | none => return (combineFloats code x y).map .float
  | _ => return none

end CoroutineIR.Folding
