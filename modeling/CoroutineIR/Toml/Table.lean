/-!
# Tables of a configuration

A configuration is a tree of tables. A table comes into being under its own header, because a longer
header or a dotted key passes through it, or in braces, and this decides what may still be added to
it: a table can be given a header only once, dotted keys extend only what dotted keys began, and
braces close for good.
-/

namespace CoroutineIR.Toml

/-- How a table came into being. -/
inductive Origin where
  /-- By its own header, or as the whole document. -/
  | header
  /-- Because a longer header passes through it. -/
  | passing
  /-- Because a dotted key passes through it. -/
  | dotted
  /-- Written in braces. -/
  | braces
deriving DecidableEq, Repr, Inhabited

/-- What a key may stand for. The value of a real number and of a date plays no part in any setting,
so neither is kept. -/
inductive Value where
  | bool (b : Bool)
  | int (n : Int)
  | real
  | text (s : String)
  | date
  | array (items : List Value)
  | table (origin : Origin) (entries : List (String × Value))
  /-- A list of tables, one for each header in double brackets. -/
  | tables (items : List (List (String × Value)))
deriving Repr, Inhabited

/-- The content of a table. -/
abbrev Entries := List (String × Value)

/-- Whether dotted keys may pass through a table. -/
def Origin.isOpen : Origin → Bool
  | .passing | .dotted => true
  | .header | .braces => false

namespace Entries

/-- The value of a key. -/
def find? (entries : Entries) (key : String) : Option Value := entries.lookup key

/-- Set the value of a key. -/
def put (key : String) (value : Value) : Entries → Entries
  | [] => [(key, value)]
  | (k, v) :: rest => if k = key then (k, value) :: rest else (k, v) :: put key value rest

/-- Set the value of a key that has none. -/
def define (key : String) (value : Value) (entries : Entries) : Option Entries :=
  if (entries.find? key).isSome then none else some (entries.put key value)

/-- Change the last of several tables. -/
def alterLast (change : Entries → Option Entries) : List Entries → Option (List Entries)
  | [] => none
  | [last] => do return [← change last]
  | first :: rest => do return first :: (← alterLast change rest)

/-- Change the table that a path of keys leads to. Tables missing on the way arise as `made`. A path
passes through the last of several tables, and no path passes through a value or through braces. -/
def alterAt (made : Origin) (change : Origin → Entries → Option Entries) :
    List String → Origin → Entries → Option Entries
  | [], origin, entries => change origin entries
  | key :: path, _, entries => do
    let value ← match entries.find? key with
      | none => do pure (.table made (← alterAt made change path made []))
      | some (.table origin inner) =>
        if origin = .braces ∨ (made = .dotted ∧ ¬origin.isOpen) then none
        else do pure (.table origin (← alterAt made change path origin inner))
      | some (.tables items) => do
        pure (.tables (← alterLast (alterAt made change path .header) items))
      | some _ => none
    return entries.put key value

/-- Set the value of a dotted key, which must have none. -/
def assign (path : List String) (key : String) (value : Value) :
    Origin → Entries → Option Entries :=
  alterAt .dotted
    (fun origin entries =>
      if decide (origin = .dotted) = path.isEmpty then none else entries.define key value)
    path

/-- Give a table its header. -/
def openTable (key : String) (entries : Entries) : Option Entries :=
  match entries.find? key with
  | none => some (entries.put key (.table .header []))
  | some (.table .passing inner) => some (entries.put key (.table .header inner))
  | some _ => none

/-- Add a table to a list of tables. -/
def openElement (key : String) (entries : Entries) : Option Entries :=
  match entries.find? key with
  | none => some (entries.put key (.tables [[]]))
  | some (.tables items) => some (entries.put key (.tables (items ++ [[]])))
  | some _ => none

end Entries

/-- A key with the keys on the way to it. -/
structure Key where
  path : List String
  last : String
deriving DecidableEq, Repr, Inhabited

/-- What a line of a configuration says. -/
inductive Line where
  /-- A header in brackets. -/
  | table (key : Key)
  /-- A header in double brackets. -/
  | element (key : Key)
  | assign (key : Key) (value : Value)
deriving Repr, Inhabited

/-- The content of the braces that hold these assignments. -/
def bracesOf? (assignments : List (Key × Value)) : Option Entries :=
  assignments.foldlM (fun entries (key, value) => entries.assign key.path key.last value .braces) []

/-- The table that lines describe when they follow a header. -/
def entriesFrom? : List Line → List String → Entries → Option Entries
  | [], _, root => some root
  | .assign key value :: rest, header, root => do
    entriesFrom? rest header
      (← Entries.alterAt .passing (Entries.assign key.path key.last value) header .header root)
  | .table key :: rest, _, root => do
    entriesFrom? rest (key.path ++ [key.last])
      (← Entries.alterAt .passing (fun _ => Entries.openTable key.last) key.path .header root)
  | .element key :: rest, _, root => do
    entriesFrom? rest (key.path ++ [key.last])
      (← Entries.alterAt .passing (fun _ => Entries.openElement key.last) key.path .header root)

/-- The table that the lines of a configuration describe. -/
def entriesOf? (lines : List Line) : Option Entries := entriesFrom? lines [] []

end CoroutineIR.Toml
