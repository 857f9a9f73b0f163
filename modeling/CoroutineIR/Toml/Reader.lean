/-!
# Reading characters

A reader takes characters off the front of a text and gives a value, or fails. Trying a second
reader after a failure starts where the first one did.
-/

namespace CoroutineIR.Toml

/-- Takes characters off the front of a text, or fails. -/
abbrev Reader := StateT (List Char) Option

/-- Spaces and tabs. -/
def isBlank (c : Char) : Bool := c = ' ' ∨ c = '\t'

/-- Characters that may stand in comments and between quotes: no control characters but the tab. -/
def isPlain (c : Char) : Bool := c = '\t' ∨ (' ' ≤ c ∧ c ≠ '\x7f')

/-- Characters of a key without quotes. -/
def isBare (c : Char) : Bool := c.isAlphanum ∨ c = '_' ∨ c = '-'

/-- Whether a text starts with a line end. -/
def startsLineEnd : List Char → Bool
  | '\n' :: _ | '\r' :: '\n' :: _ => true
  | _ => false

namespace Reader

/-- Always fails. -/
def fail {α : Type} : Reader α := fun _ => none

/-- Read one character. -/
def char : Reader Char := fun
  | [] => none
  | c :: rest => some (c, rest)

/-- The next character, left in place. -/
def peek : Reader (Option Char) := fun text => some (text.head?, text)

/-- Read one character of a class. -/
def satisfying (p : Char → Bool) : Reader Char := do
  let c ← char
  if p c then return c else fail

/-- Read a given text. -/
def exactly (s : String) : Reader Unit := fun text =>
  if s.toList.isPrefixOf text then some ((), text.drop s.length) else none

/-- Read a given text if it is there, and say whether it was. -/
def skipping (s : String) : Reader Bool := fun text =>
  if s.toList.isPrefixOf text then some (true, text.drop s.length) else some (false, text)

/-- Read as many characters of a class as there are. -/
def runOf (p : Char → Bool) : Reader (List Char) := fun text =>
  some (text.takeWhile p, text.dropWhile p)

/-- Skip spaces and tabs. -/
def blanks : Reader Unit := modify (·.dropWhile isBlank)

/-- Skip a comment, up to the end of its line. -/
def comment : Reader Unit := do
  exactly "#"
  modify (·.dropWhile isPlain)

/-- Read the end of a line. -/
def lineEnd : Reader Unit := exactly "\n" <|> exactly "\r\n"

/-- Read the end of a line or of the text. -/
def lineOrTextEnd : Reader Unit := do
  if (← get).isEmpty then return
  lineEnd

/-- Read what may stand behind the last word of a line. -/
def restOfLine : Reader Unit := do
  blanks
  if (← peek) = some '#' then comment
  lineOrTextEnd

/-- Read items as long as there are any, at most as many as the fuel allows. -/
def manyWithin {α : Type} (item : Reader α) : Nat → Reader (List α)
  | 0 => return []
  | fuel + 1 => fun text =>
    match item text with
    | none => some ([], text)
    | some (a, rest) => (do return a :: (← manyWithin item fuel)) rest

/-- Read items, each of which takes at least one character, as long as there are any. -/
def many {α : Type} (item : Reader α) : Reader (List α) := do
  manyWithin item (← get).length

/-- Read one item or more with a separator between them. -/
def separated {α : Type} (separator : String) (item : Reader α) : Reader (List α) := do
  let first ← item
  let rest ← many do
    exactly separator
    item
  return first :: rest

/-- Skip blanks, line ends and comments. -/
def space : Reader Unit := do
  let _ ← many (lineEnd <|> comment <|> do let _ ← satisfying isBlank)

/-- The value a reader gives for a whole text. -/
def run? {α : Type} (reader : Reader α) (text : String) : Option α :=
  match reader text.toList with
  | some (a, []) => some a
  | _ => none

end Reader

end CoroutineIR.Toml
