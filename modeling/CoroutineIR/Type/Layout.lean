import CoroutineIR.Size
import CoroutineIR.Type.Registry

/-!
# Record layout

Fields of a structure are placed one after another, each at the next multiple of its alignment; the
elements of a field with a count stand a whole number of alignments apart. Fields of a union all
start at zero. A record needs the layout of every record it contains by value, which is computed
first and kept; pointers are not followed. A record met again while its own layout is being computed
contains itself by value.
-/

namespace CoroutineIR

namespace Registry

/-- The size of a type, given a way to lay out records. -/
def sizeVia (lay : RecordId → TypeAction RecordLayout) : Ty → TypeAction Nat
  | .scalar s => return s.size (← get).target
  | .pointer _ _ => return (← get).target.ptrSize
  | .record id => return (← lay id).size

/-- The alignment of a type, given a way to lay out records. A record without fields is aligned to
one byte and is not laid out for it. -/
def alignVia (lay : RecordId → TypeAction RecordLayout) : Ty → TypeAction Nat
  | .scalar s => return s.align (← get).target
  | .pointer _ _ => return (← get).target.ptrSize
  | .record id => do
    if (← recordNow id).fields.isEmpty then
      return 1
    else
      return (← lay id).align

/-- The layout with the offset of one name set. -/
def placeAt (l : RecordLayout) (name : String) (offset : Nat) : RecordLayout :=
  { l with offsets := (name, offset) :: l.offsets.filter (·.1 ≠ name) }

/-- Place a field of the given element size and alignment behind what `l` already holds. -/
def placeBehind (l : RecordLayout) (f : Field) (size align : Nat) :
    Attempt TypeError RecordLayout := do
  let offset ← Size.add l.size (← Size.padding l.size align)
  let bytes ← Size.mul f.count (← Size.roundUp size align)
  let size ← Size.add offset bytes
  return { placeAt l f.name offset with size, align := max l.align align }

/-- Place the fields of a structure behind what `l` already holds. -/
def placeInOrder (lay : RecordId → TypeAction RecordLayout) :
    List Field → RecordLayout → TypeAction RecordLayout
  | [], l => return l
  | f :: rest, l => do
    let size ← sizeVia lay f.ty
    let align ← alignVia lay f.ty
    placeInOrder lay rest (← placeBehind l f size align)

/-- Place the fields of a union on top of what `l` already holds. -/
def placeOverlapping (lay : RecordId → TypeAction RecordLayout) :
    List Field → RecordLayout → TypeAction RecordLayout
  | [], l => return l
  | f :: rest, l => do
    let size ← sizeVia lay f.ty
    let _ ← alignVia lay f.ty
    placeOverlapping lay rest { placeAt l f.name 0 with size := max l.size size }

/-- The largest alignment of the fields, and at least `least`. -/
def maxAlign (lay : RecordId → TypeAction RecordLayout) : List Field → Nat → TypeAction Nat
  | [], least => return least
  | f :: rest, least => do
    let align ← alignVia lay f.ty
    maxAlign lay rest (max least align)

/-- The layout of a record, given a way to lay out the records inside it. -/
def arrange (lay : RecordId → TypeAction RecordLayout) (r : Record) : TypeAction RecordLayout := do
  if r.isUnion then
    let l ← placeOverlapping lay r.fields ⟨0, 1, []⟩
    return { l with align := ← maxAlign lay r.fields 1 }
  else
    placeInOrder lay r.fields ⟨0, 1, []⟩

/-- Lay out a record while the layouts of `inProgress` are being computed. -/
def layOutWithin : Nat → List RecordId → RecordId → TypeAction RecordLayout
  | 0, _, _ => throw .exhausted
  | fuel + 1, inProgress, id => do
    let record ← recordNow id
    match record.layout with
    | some l => return l
    | none =>
      if id ∈ inProgress then
        throw (.refused (.recursiveByValue id))
      let l ← arrange (layOutWithin fuel (id :: inProgress)) record
      changeRecord id fun r => { r with layout := some l }
      return l

/-- Fuel for a chain of distinct records, and one identifier outside the registry. -/
def chainFuel (reg : Registry) : Nat := reg.records.size + 1

/-- Lay out a record, once. -/
def layOut (id : RecordId) : TypeAction RecordLayout := do
  layOutWithin (← get).chainFuel [] id

/-- The size of a type. -/
def sizeOf (ty : Ty) : TypeAction Nat := sizeVia layOut ty

/-- The alignment of a type. -/
def alignOf (ty : Ty) : TypeAction Nat := alignVia layOut ty

/-- The distance between consecutive elements of a type. -/
def strideOf (ty : Ty) : TypeAction Nat := do
  let size ← sizeOf ty
  let align ← alignOf ty
  (Size.roundUp size align).toAction

/-- The offset of a field in `id` or in the records it extends. -/
def fieldOffsetWithin : Nat → RecordId → String → TypeAction Nat
  | 0, _, _ => throw .exhausted
  | fuel + 1, id, name => do
    let l ← layOut id
    match l.offset? name with
    | some offset => return offset
    | none =>
      match (← recordNow id).base with
      | some base => fieldOffsetWithin fuel base name
      | none => throw (.refused (.unknownField id name))

/-- The offset of a field in `id` or in the records it extends. -/
def fieldOffset (id : RecordId) (name : String) : TypeAction Nat := do
  fieldOffsetWithin (← get).chainFuel id name

end Registry

end CoroutineIR
