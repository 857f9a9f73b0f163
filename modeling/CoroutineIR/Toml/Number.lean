import CoroutineIR.Toml.Text

/-!
# Numbers and dates

Digits may be divided by single underscores. An integer is decimal, without a leading zero, or
hexadecimal, octal or binary without a sign, and has to fit in a signed 64-bit word. A real number
has a fraction, an exponent or both. Dates and times have to exist, and a minute may have 61
seconds.
-/

namespace CoroutineIR.Toml

/-- Digits of a class with single underscores between them, and the text behind them. -/
def digitRun (p : Char → Bool) : List Char → List Char × List Char
  | '_' :: c :: rest =>
    if p c then
      let (digits, rest) := digitRun p rest
      (c :: digits, rest)
    else ([], '_' :: c :: rest)
  | c :: rest =>
    if p c then
      let (digits, rest) := digitRun p rest
      (c :: digits, rest)
    else ([], c :: rest)
  | [] => ([], [])

/-- The number that digits stand for in a base. -/
def numberOf (base : Nat) (digits : List Char) : Nat :=
  digits.foldl (fun n c => base * n + (hexDigit? c).getD 0) 0

/-- The least decimal that is too large for a double-precision number: half a unit in the last place
above the greatest. -/
def realLimit : Nat := Nat.pow 2 1024 - Nat.pow 2 970

/-- Whether `n * 10 ^ scale` is too large for a double-precision number. -/
def exceedsReal (n : Nat) (scale : Int) : Bool :=
  let magnitude := (Nat.toDigits 10 n).length + scale
  if n = 0 ∨ magnitude < 300 then false
  else if 400 < magnitude then true
  else if 0 ≤ scale then realLimit ≤ n * Nat.pow 10 scale.toNat
  else realLimit * Nat.pow 10 (-scale).toNat ≤ n

/-- The number of days in a month. -/
def daysIn (year month : Nat) : Nat :=
  let isLeap := year % 4 = 0 ∧ (year % 100 ≠ 0 ∨ year % 400 = 0)
  if month = 2 then (if isLeap then 29 else 28)
  else if month = 4 ∨ month = 6 ∨ month = 9 ∨ month = 11 then 30
  else 31

namespace Reader

/-- Read one digit or more of a class. -/
def digits (p : Char → Bool) : Reader (List Char) := do
  let first ← satisfying p
  return first :: (← fun text => some (digitRun p text))

/-- Read a sign, and say whether it is a minus. -/
def sign : Reader Bool := do
  if ← skipping "-" then return true
  let _ ← skipping "+"
  return false

/-- Read the decimal digits of a number without a leading zero. -/
def decimalDigits : Reader (List Char) := do
  if ← skipping "0" then return ['0']
  digits Char.isDigit

/-- Refuse an integer that does not fit in a signed 64-bit word. -/
def fitting (n : Int) : Reader Int :=
  if -9223372036854775808 ≤ n ∧ n ≤ 9223372036854775807 then return n else fail

/-- Read a sequence of digits in a base. -/
def integerIn (base : Nat) (p : Char → Bool) : Reader Int := do
  fitting (numberOf base (← digits p))

/-- Read an integer. -/
def integer : Reader Int := do
  if ← skipping "0x" then
    integerIn 16 fun c => (hexDigit? c).isSome
  else if ← skipping "0o" then
    integerIn 8 fun c => '0' ≤ c ∧ c ≤ '7'
  else if ← skipping "0b" then
    integerIn 2 fun c => c = '0' ∨ c = '1'
  else do
    let negative ← sign
    let n : Int := numberOf 10 (← decimalDigits)
    fitting (if negative then -n else n)

/-- Read an exponent. -/
def exponent : Reader Int := do
  let _ ← satisfying fun c => c = 'e' ∨ c = 'E'
  let negative ← sign
  let n : Int := numberOf 10 (← digits Char.isDigit)
  return if negative then -n else n

/-- Read a real number. A positive one that is too large is refused. -/
def real : Reader Unit := do
  let negative ← sign
  if ← skipping "inf" then return
  if ← skipping "nan" then return
  let whole ← decimalDigits
  let (fraction, scale) ← (do
      exactly "."
      let fraction ← digits Char.isDigit
      return (fraction, ← exponent <|> pure 0)) <|> (do
      return ([], ← exponent))
  if ¬negative ∧ exceedsReal (numberOf 10 (whole ++ fraction)) (scale - fraction.length) then
    fail

/-- Read a number with a fixed count of digits, which has to lie between two bounds. -/
def fixed (count low high : Nat) : Reader Nat := do
  let n := numberOf 10 (← (List.replicate count ()).mapM fun _ => satisfying Char.isDigit)
  if low ≤ n ∧ n ≤ high then return n else fail

/-- Read a date. -/
def day : Reader Unit := do
  let year ← fixed 4 0 9999
  exactly "-"
  let month ← fixed 2 1 12
  exactly "-"
  let _ ← fixed 2 1 (daysIn year month)

/-- Read hours and minutes. -/
def hourMinute : Reader Unit := do
  let _ ← fixed 2 0 23
  exactly ":"
  let _ ← fixed 2 0 59

/-- Read a time of day. -/
def clock : Reader Unit := do
  hourMinute
  exactly ":"
  let _ ← fixed 2 0 60
  (do exactly "."
      let _ ← satisfying Char.isDigit
      let _ ← runOf Char.isDigit) <|> pure ()

/-- Read the distance to universal time. -/
def offset : Reader Unit := do
  match ← char with
  | 'Z' | 'z' => return
  | '+' | '-' => hourMinute
  | _ => fail

/-- Read a time behind a date. -/
def dayClock : Reader Unit := do
  let _ ← satisfying fun c => c = 'T' ∨ c = 't' ∨ c = ' '
  clock
  offset <|> pure ()

/-- Read a date, a time of day or both. -/
def date : Reader Unit :=
  (do day
      dayClock <|> pure ()) <|> clock

end Reader

end CoroutineIR.Toml
