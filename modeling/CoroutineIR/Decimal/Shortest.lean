/-!
# Shortest decimals of binary numbers

A binary floating-point number stands for every real that rounds to it. Among the decimals in that
interval the shortest is wanted, and among the shortest the nearest. For each number of digits only
the two neighbours of the value on the grid of that precision need to be tried: if any grid point
lies in the interval, one of the two does.

All arithmetic is on natural numbers. A value is a numerator over a common denominator, and the ends
of its interval are numerators over the same denominator.
-/

namespace CoroutineIR.Decimal

/-- The reals that round to a positive binary number, as numerators over one denominator. -/
structure Rounding where
  /-- The lower end. -/
  low : Nat
  /-- The number itself. -/
  value : Nat
  /-- The upper end. -/
  high : Nat
  /-- The common denominator. -/
  denom : Nat
  /-- Whether the ends themselves round to the number. -/
  closed : Bool
deriving Repr, Inhabited

/-- A positive decimal `digits * 10 ^ exponent`. -/
structure Numeral where
  digits : Nat
  exponent : Int
deriving DecidableEq, Repr, Inhabited

/-- The interval of `mantissa * 2 ^ exponent`. The number below is only half as far away when the
mantissa is the least of its binade. -/
def Rounding.ofBinary (mantissa : Nat) (exponent : Int) (leastOfBinade : Bool) : Rounding :=
  let scale := if 2 ≤ exponent then Nat.pow 2 (exponent - 2).toNat else 1
  let denom := if 2 ≤ exponent then 1 else Nat.pow 2 (2 - exponent).toNat
  let value := 4 * mantissa
  { low := (if leastOfBinade then value - 1 else value - 2) * scale
    value := value * scale
    high := (value + 2) * scale
    denom
    closed := mantissa % 2 = 0 }

/-- The number of decimal digits of a natural number; zero has one. -/
def digitCount (n : Nat) : Nat := (Nat.toDigits 10 n).length

/-- How many times `value` has to be multiplied by ten to reach `denom`. -/
def liftCount (denom : Nat) : Nat → Nat → Nat
  | 0, _ => 0
  | fuel + 1, value => if denom ≤ value then 0 else liftCount denom fuel (value * 10) + 1

/-- The power of ten of the leading digit of `value / denom`. -/
def leadingExponent (value denom : Nat) : Int :=
  if denom ≤ value then (digitCount (value / denom) : Int) - 1
  else -(liftCount denom (digitCount denom + 1) value : Int)

/-- Whether `point / unit`, scaled like the interval ends `low * up` and `high * up`, lies inside.
-/
def Rounding.holds (r : Rounding) (up point : Nat) : Bool :=
  if r.closed then r.low * up ≤ point && point ≤ r.high * up
  else r.low * up < point && point < r.high * up

/-- The neighbour of the value on the grid `10 ^ exponent` that lies in the interval; the nearer one
when both do, and the larger one when they are equally near. -/
def Rounding.onGrid (r : Rounding) (exponent : Int) : Option Numeral :=
  let up := if exponent < 0 then Nat.pow 10 (-exponent).toNat else 1
  let unit := r.denom * (if exponent < 0 then 1 else Nat.pow 10 exponent.toNat)
  let below := r.value * up / unit
  let rest := r.value * up % unit
  match r.holds up (below * unit), r.holds up ((below + 1) * unit) with
  | true, true => some ⟨if 2 * rest < unit then below else below + 1, exponent⟩
  | true, false => some ⟨below, exponent⟩
  | false, true => some ⟨below + 1, exponent⟩
  | false, false => none

/-- The first grid with a decimal in the interval, from `exponent` down. -/
def Rounding.firstGrid (r : Rounding) : Nat → Int → Option Numeral
  | 0, _ => none
  | fuel + 1, exponent =>
    match r.onGrid exponent with
    | some d => some d
    | none => r.firstGrid fuel (exponent - 1)

/-- Take trailing zeros off the digits. -/
def Numeral.trim : Nat → Numeral → Numeral
  | 0, d => d
  | fuel + 1, d =>
    if d.digits % 10 = 0 && d.digits ≠ 0 then trim fuel ⟨d.digits / 10, d.exponent + 1⟩ else d

/-- The shortest decimal in the interval. Seventeen digits always suffice for a double. -/
def Rounding.shortest (r : Rounding) : Numeral :=
  let found := r.firstGrid 17 (leadingExponent r.value r.denom)
  (found.getD ⟨0, 0⟩).trim 20

end CoroutineIR.Decimal
