import CoroutineIR.Container.Arena
import CoroutineIR.Type.Basic

/-!
# The registry of record types

Records are declared first and gain fields one at a time. Once a record has been laid out its layout
is kept, and from then on it can gain no further field.
-/

namespace CoroutineIR

/-- A field of a record. -/
structure Field where
  name : String
  ty : Ty
  /-- The number of consecutive elements. -/
  count : Nat
deriving DecidableEq, Repr, Inhabited

/-- Where the fields of a record lie. -/
structure RecordLayout where
  size : Nat
  align : Nat
  /-- The offset of every field name. -/
  offsets : List (String × Nat)
deriving DecidableEq, Repr, Inhabited

/-- A record type: a structure or a union. -/
structure Record where
  name : Option String
  fields : List Field
  isUnion : Bool
  /-- Look-ups of an offset that fail here go on in this record. -/
  base : Option RecordId
  /-- The layout, once it has been computed. -/
  layout : Option RecordLayout
deriving DecidableEq, Repr, Inhabited

/-- The record types of a compilation unit. -/
structure Registry where
  target : Target
  records : Arena Record
deriving Repr, Inhabited

/-- Why an operation on types was refused. -/
inductive TypeError where
  | unknownField (id : RecordId) (name : String)
  | recursiveByValue (id : RecordId)
  | alreadyLaidOut (id : RecordId)
deriving DecidableEq, Repr, Inhabited

/-- The wording of a refusal. -/
def TypeError.message : TypeError → String
  | unknownField id name => s!"struct.{id} has no field `{name}`"
  | recursiveByValue id => s!"struct.{id} contains itself by value"
  | alreadyLaidOut id => s!"struct.{id} is already laid out and cannot gain fields"

/-- An action on a registry. -/
abbrev TypeAction := Action TypeError Registry

namespace RecordLayout

/-- The offset of a field. -/
def offset? (l : RecordLayout) (name : String) : Option Nat := l.offsets.lookup name

/-- The offsets ordered by field name. -/
def sortedOffsets (l : RecordLayout) : List (String × Nat) :=
  l.offsets.mergeSort fun a b => !decide (b.1 < a.1)

end RecordLayout

namespace Record

/-- The record as shown to a reader: its name, or a sketch of its body. -/
def label (r : Record) : String := r.name.getD "struct\x7b...\x7d"

/-- Whether the layout has been computed. -/
def isLaidOut (r : Record) : Bool := r.layout.isSome

/-- The position of the first field called `name`. -/
def fieldIndex? (r : Record) (name : String) : Option Nat :=
  r.fields.findIdx? fun f => f.name == name

end Record

namespace Registry

variable {ε : Type}

/-- A registry without records. -/
def empty (target : Target) : Registry := ⟨target, #[]⟩

/-- A record of the registry. -/
def record (reg : Registry) (id : RecordId) : Attempt ε Record := Arena.fetch reg.records id

/-- Look up a record of the current registry. -/
def recordNow (id : RecordId) : TypeAction Record := Action.ask fun reg => reg.record id

/-- The registry with one record, which must be there, replaced by its image. -/
def withRecord (reg : Registry) (id : RecordId) (f : Record → Record) : Attempt ε Registry := do
  return { reg with records := ← Arena.update reg.records id f }

/-- Change a record of the current registry. -/
def changeRecord (id : RecordId) (f : Record → Record) : TypeAction Unit := do
  set (← Action.ask fun reg => reg.withRecord id f)

/-- Declare a structure or a union without fields. -/
def declare (name : Option String) (isUnion : Bool) : TypeAction RecordId := do
  let id := Arena.nextId (← get).records
  modify fun reg =>
    { reg with records := reg.records.push ⟨name, [], isUnion, none, none⟩ }
  return id

/-- Append a field and say its position. -/
def addField (id : RecordId) (field : Field) : TypeAction Nat := do
  let record ← recordNow id
  if record.isLaidOut then
    throw (.refused (.alreadyLaidOut id))
  changeRecord id fun r => { r with fields := r.fields ++ [field] }
  return record.fields.length

/-- Append the fields that `source` has now. -/
def addFieldsOf (id source : RecordId) : TypeAction Unit := do
  let record ← recordNow source
  record.fields.forM fun field => do
    let _ ← addField id field

/-- Let look-ups that fail in `id` go on in `base`. -/
def extend (id base : RecordId) : TypeAction Unit :=
  changeRecord id fun r => { r with base := some base }

/-- The position of the first field called `name`. -/
def fieldIndex (reg : Registry) (id : RecordId) (name : String) : Attempt TypeError Nat := do
  let record ← reg.record id
  Attempt.orRefuse (.unknownField id name) (record.fieldIndex? name)

/-- The type of the first field called `name`. -/
def fieldType (reg : Registry) (id : RecordId) (name : String) : Attempt TypeError Ty := do
  let index ← reg.fieldIndex id name
  let record ← reg.record id
  let field ← Attempt.present record.fields[index]?
  return field.ty

end Registry

end CoroutineIR
