import CoroutineIR.Toml.Number
import CoroutineIR.Toml.Table

/-!
# Whole configurations

A configuration is a sequence of lines: headers and assignments, blank ones and comments. Arrays may
span lines and end with a comma, braces may not.
-/

namespace CoroutineIR.Toml

/-- Fewer brackets and braces than this may be open at once, and a dotted key has fewer parts. -/
def depthLimit : Nat := 80

namespace Reader

/-- Read a key without dots. -/
def simpleKey : Reader String := do
  match ← peek with
  | some '"' | some '\'' => shortText
  | _ =>
    let cs ← runOf isBare
    if cs.isEmpty then fail else return String.ofList cs

/-- Read a key. -/
def key : Reader Key := do
  let names ← separated "." do
    blanks
    let name ← simpleKey
    blanks
    return name
  if depthLimit ≤ names.length then
    fail
  match names.getLast? with
  | some last => return ⟨names.dropLast, last⟩
  | none => fail

/-- Read a key, the equals sign and a value. -/
def assignment (value : Reader Value) : Reader (Key × Value) := do
  let key ← key
  exactly "="
  blanks
  return (key, ← value)

/-- Read an array behind its opening bracket. -/
def arrayItems (value : Reader Value) : Reader (List Value) := do
  let items ← (do
      let items ← separated "," do
        space
        let item ← value
        space
        return item
      let _ ← skipping ","
      return items) <|> pure []
  space
  exactly "]"
  return items

/-- Read a table in braces behind the opening one. -/
def bracesItems (value : Reader Value) : Reader (List (Key × Value)) := do
  let items ← (separated "," do
      let item ← assignment value
      blanks
      return item) <|> pure []
  blanks
  exactly "\x7d"
  return items

/-- Read a value that does not nest. -/
def scalar : Reader Value := do
  match ← peek with
  | some '"' | some '\'' => .text <$> text
  | some 't' => do
    exactly "true"
    return .bool true
  | some 'f' => do
    exactly "false"
    return .bool false
  | _ => (date *> pure .date) <|> (real *> pure .real) <|> (.int <$> integer)

/-- Read a value in which at most so many brackets and braces are open at once. -/
def valueWithin : Nat → Reader Value
  | 0 => scalar
  | depth + 1 => do
    match ← peek with
    | some '[' => do
      exactly "["
      .array <$> arrayItems (valueWithin depth)
    | some '\x7b' => do
      exactly "\x7b"
      match bracesOf? (← bracesItems (valueWithin depth)) with
      | some entries => return .table .braces entries
      | none => fail
    | _ => scalar

/-- Read a value. -/
def value : Reader Value := valueWithin (depthLimit - 1)

/-- Read one line, if it says anything. -/
def line : Reader (Option Line) := do
  match ← peek with
  | some '#' => do
    comment
    lineOrTextEnd
    return none
  | some '\n' | some '\r' => do
    lineEnd
    return none
  | some '[' => do
    exactly "["
    if ← skipping "[" then
      let key ← key
      exactly "]]"
      restOfLine
      return some (.element key)
    else
      let key ← key
      exactly "]"
      restOfLine
      return some (.table key)
  | _ => do
    let (key, value) ← assignment value
    restOfLine
    return some (.assign key value)

/-- Read the lines of a configuration. A byte order mark in front of them does not count. -/
def document : Reader (List Line) := do
  let _ ← skipping "\ufeff"
  blanks
  let lines ← many do
    let line ← line
    blanks
    return line
  return lines.filterMap id

end Reader

/-- The table that a configuration describes. -/
def read? (text : String) : Option Entries := do
  entriesOf? (← Reader.document.run? text)

end CoroutineIR.Toml
