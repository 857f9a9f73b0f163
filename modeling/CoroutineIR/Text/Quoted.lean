import CoroutineIR.Text.Extending
import CoroutineIR.Text.Invisible

/-!
# Quoted text

A text is written between double quotes. The quote, the backslash and the common control characters
have short escapes; every other character that a reader could not see or would see merged with its
neighbour is written by its code point in lower-case hexadecimal.
-/

namespace CoroutineIR.Text

/-- Whether a code point lies in every second of the runs with these lengths. -/
def inRuns : List Nat → Nat → Bool
  | outside :: inside :: runs, code =>
    outside ≤ code && (code < outside + inside || inRuns runs (code - (outside + inside)))
  | _, _ => false

/-- Whether a character stands for itself inside quotes. -/
def isPlain (c : Char) : Bool :=
  if c.val < 0x7f then 0x20 ≤ c.val
  else !inRuns extendingRuns c.toNat && !inRuns invisibleRuns c.toNat

/-- One character as it stands inside quotes. -/
def quotedChar (c : Char) : String :=
  if c = '"' then "\\\""
  else if c = '\\' then "\\\\"
  else if c = '\n' then "\\n"
  else if c = '\r' then "\\r"
  else if c = '\t' then "\\t"
  else if c = '\x00' then "\\0"
  else if isPlain c then c.toString
  else "\\u\x7b" ++ String.ofList (Nat.toDigits 16 c.toNat) ++ "\x7d"

/-- A text between double quotes. -/
def quoted (s : String) : String :=
  "\"" ++ String.join (s.toList.map quotedChar) ++ "\""

end CoroutineIR.Text
