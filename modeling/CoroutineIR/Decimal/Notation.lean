import CoroutineIR.Decimal.Shortest

/-!
# Writing floating-point numbers

A notation says which magnitudes are written out in full; all others are written with one digit
before the point and a power of ten. The digits are the shortest that read back as the same number.
-/

namespace CoroutineIR.Decimal

/-- The choices made when a floating-point number is written. -/
structure Notation where
  /-- The least power of ten written out in full. -/
  plainFrom : Int
  /-- The greatest power of ten written out in full. -/
  plainTo : Int
  /-- What stands for a fraction without digits. -/
  emptyFraction : String
  /-- What stands between the digits and the power of ten. -/
  exponentMark : String
  /-- The text of a value that is no number. -/
  notANumber : String
  /-- The text of an infinite magnitude. -/
  infinite : String
deriving Repr, Inhabited

/-- The shortest decimal of a finite double that is not zero, from the 63 bits of its magnitude. -/
def ofMagnitude (bits : Nat) : Numeral :=
  let exponent : Nat := bits / Nat.pow 2 52
  let fraction : Nat := bits % Nat.pow 2 52
  if exponent = 0 then (Rounding.ofBinary fraction (-1074) false).shortest
  else
    (Rounding.ofBinary (fraction + Nat.pow 2 52) ((exponent : Int) - 1075)
      (fraction = 0 && exponent ≠ 1)).shortest

/-- Digits with a point after the one of weight one. -/
def Notation.plain (n : Notation) (digits : List Char) (leading : Int) : String :=
  if leading < 0 then
    "0." ++ String.ofList (List.replicate (-leading - 1).toNat '0' ++ digits)
  else
    let whole := leading.toNat + 1
    let fraction := digits.drop whole
    String.ofList (digits.take whole ++ List.replicate (whole - digits.length) '0') ++ "." ++
      (if fraction.isEmpty then n.emptyFraction else String.ofList fraction)

/-- Digits with a point after the first and a power of ten. -/
def Notation.scientific (n : Notation) (digits : List Char) (leading : Int) : String :=
  let fraction := digits.drop 1
  String.ofList (digits.take 1) ++
    (if fraction.isEmpty then "" else "." ++ String.ofList fraction) ++
    n.exponentMark ++ toString leading

/-- A positive decimal. -/
def Notation.decimal (n : Notation) (d : Numeral) : String :=
  let digits := Nat.toDigits 10 d.digits
  let leading := d.exponent + digits.length - 1
  if n.plainFrom ≤ leading ∧ leading ≤ n.plainTo then n.plain digits leading
  else n.scientific digits leading

/-- A double. -/
def Notation.write (n : Notation) (x : Float) : String :=
  let bits := x.toBits.toNat
  let magnitude := bits % Nat.pow 2 63
  let sign := if bits < Nat.pow 2 63 then "" else "-"
  if x.isNaN then n.notANumber
  else if x.isInf then sign ++ n.infinite
  else if magnitude = 0 then sign ++ n.plain ['0'] 0
  else sign ++ n.decimal (ofMagnitude magnitude)

end CoroutineIR.Decimal
