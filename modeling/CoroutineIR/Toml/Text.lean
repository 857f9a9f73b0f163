import CoroutineIR.Toml.Reader

/-!
# Quoted text

Text in double quotes has escapes, text in single quotes has none. Three quotes begin text that may
span lines: a line end right behind them does not count, and up to two more quotes may stand before
the closing three. Between three double quotes a backslash at the end of a line skips all blanks and
line ends that follow.
-/

namespace CoroutineIR.Toml

/-- Characters read so far and the text behind them. -/
abbrev Scan := Option (List Char × List Char)

/-- Put characters in front of what has been read. -/
def Scan.after (cs : List Char) (scan : Scan) : Scan :=
    scan.map fun (read, rest) => (cs ++ read, rest)

/-- The value of a hexadecimal digit. -/
def hexDigit? (c : Char) : Option Nat :=
  if '0' ≤ c ∧ c ≤ '9' then some (c.toNat - '0'.toNat)
  else if 'a' ≤ c ∧ c ≤ 'f' then some (c.toNat - 'a'.toNat + 10)
  else if 'A' ≤ c ∧ c ≤ 'F' then some (c.toNat - 'A'.toNat + 10)
  else none

/-- The character with a hexadecimal code. -/
def charOfHex? (digits : List Char) : Option Char := do
  let code ← digits.foldlM (fun n c => do return 16 * n + (← hexDigit? c)) 0
  if code.isValidChar then some (Char.ofNat code) else none

/-- The character that an escape with one letter stands for. -/
def escaped? : Char → Option Char
  | 'b' => some '\x08'
  | 't' => some '\t'
  | 'n' => some '\n'
  | 'f' => some '\x0c'
  | 'r' => some '\r'
  | '"' => some '"'
  | '\\' => some '\\'
  | _ => none

/-- Read up to the closing double quote. -/
def quotedBody : List Char → Scan
  | [] => none
  | '"' :: rest => some ([], rest)
  | '\\' :: 'u' :: a :: b :: c :: d :: rest => do
    (quotedBody rest).after [← charOfHex? [a, b, c, d]]
  | '\\' :: 'U' :: a :: b :: c :: d :: e :: f :: g :: h :: rest => do
    (quotedBody rest).after [← charOfHex? [a, b, c, d, e, f, g, h]]
  | '\\' :: c :: rest => do (quotedBody rest).after [← escaped? c]
  | c :: rest => if isPlain c ∧ c ≠ '\\' then (quotedBody rest).after [c] else none

/-- Read up to the closing single quote. -/
def literalBody : List Char → Scan
  | [] => none
  | '\'' :: rest => some ([], rest)
  | c :: rest => if isPlain c then (literalBody rest).after [c] else none

/-- Read up to the closing three double quotes. With `skip`, blanks and line ends do not count until
something else is met. -/
def longQuotedBody (skip : Bool) : List Char → Scan
  | [] => none
  | '"' :: '"' :: '"' :: '"' :: '"' :: rest => some (['"', '"'], rest)
  | '"' :: '"' :: '"' :: '"' :: rest => some (['"'], rest)
  | '"' :: '"' :: '"' :: rest => some ([], rest)
  | '\n' :: rest => (longQuotedBody skip rest).after (if skip then [] else ['\n'])
  | '\r' :: '\n' :: rest => (longQuotedBody skip rest).after (if skip then [] else ['\n'])
  | '\\' :: 'u' :: a :: b :: c :: d :: rest => do
    (longQuotedBody false rest).after [← charOfHex? [a, b, c, d]]
  | '\\' :: 'U' :: a :: b :: c :: d :: e :: f :: g :: h :: rest => do
    (longQuotedBody false rest).after [← charOfHex? [a, b, c, d, e, f, g, h]]
  | '\\' :: c :: rest =>
    match escaped? c with
    | some c => (longQuotedBody false rest).after [c]
    | none =>
      if startsLineEnd ((c :: rest).dropWhile isBlank) then
        (longQuotedBody true (c :: rest))
      else none
  | c :: rest =>
    if skip ∧ isBlank c then longQuotedBody true rest
    else if isPlain c ∧ c ≠ '\\' then (longQuotedBody false rest).after [c]
    else none

/-- Read up to the closing three single quotes. -/
def longLiteralBody : List Char → Scan
  | [] => none
  | '\'' :: '\'' :: '\'' :: '\'' :: '\'' :: rest => some (['\'', '\''], rest)
  | '\'' :: '\'' :: '\'' :: '\'' :: rest => some (['\''], rest)
  | '\'' :: '\'' :: '\'' :: rest => some ([], rest)
  | '\n' :: rest => (longLiteralBody rest).after ['\n']
  | '\r' :: '\n' :: rest => (longLiteralBody rest).after ['\n']
  | c :: rest => if isPlain c then (longLiteralBody rest).after [c] else none

namespace Reader

/-- Read the body of quoted text. -/
def body (scan : List Char → Scan) : Reader String := fun text =>
  (scan text).map fun (cs, rest) => (String.ofList cs, rest)

/-- Read the body of text that may span lines. -/
def longBody (scan : List Char → Scan) : Reader String :=
  (do lineEnd; body scan) <|> body scan

/-- Read text in quotes on one line. -/
def shortText : Reader String := do
  match ← char with
  | '"' => body quotedBody
  | '\'' => body literalBody
  | _ => fail

/-- Read text in quotes. -/
def text : Reader String := do
  if ← skipping "\"\"\"" then
    longBody (longQuotedBody false)
  else if ← skipping "'''" then
    longBody longLiteralBody
  else
    shortText

end Reader

end CoroutineIR.Toml
