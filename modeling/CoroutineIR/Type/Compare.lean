import CoroutineIR.Type.Registry

/-!
# Comparing types

Two types are the same when they have the same structure: equal scalars, pointers to same types,
records with pairwise same fields. A pair of records met again during a comparison is taken to be
the same, which makes the comparison end on types that refer to themselves.

A value holds something the collector traces when it is a pointer or contains one by value.
-/

namespace CoroutineIR

/-- Take pointers off two types as long as both are pointers. -/
def Ty.peel : Ty → Ty → Ty × Ty
  | .pointer _ a, .pointer _ b => peel a b
  | a, b => (a, b)

namespace Registry

variable {ε : Type}

/-- Pairs of records taken to be the same. -/
abbrev Assumed := List (RecordId × RecordId)

/-- Compare pair by pair. The answer is absent when a pair differs. -/
def comparePairs (compare : Ty → Ty → Assumed → Attempt ε (Option Assumed)) :
    List (Ty × Ty) → Assumed → Attempt ε (Option Assumed)
  | [], assumed => .ok (some assumed)
  | (a, b) :: rest, assumed => do
    match ← compare a b assumed with
    | none => return none
    | some assumed => comparePairs compare rest assumed

/-- Compare two types under assumptions. The answer holds the pairs assumed at the end, and is
absent when the types differ. -/
def compareAssuming (reg : Registry) : Nat → Ty → Ty → Assumed → Attempt ε (Option Assumed)
  | fuel, a, b, assumed =>
    match Ty.peel a b with
    | (.scalar s, .scalar t) => .ok (if s = t then some assumed else none)
    | (.record i, .record j) =>
      if i = j ∨ (i, j) ∈ assumed then .ok (some assumed)
      else
        match fuel with
        | 0 => .error .exhausted
        | fuel + 1 => do
          let left := (← reg.record i).fields
          let right := (← reg.record j).fields
          if left.length = right.length then
            comparePairs (compareAssuming reg fuel)
              ((left.map Field.ty).zip (right.map Field.ty)) ((i, j) :: assumed)
          else
            return none
    | _ => .ok none

/-- Fuel for a chain of distinct pairs of records, and one pair outside the registry. -/
def pairFuel (reg : Registry) : Nat := reg.records.size * reg.records.size + 1

/-- Whether two types have the same structure. -/
def sameType (reg : Registry) (a b : Ty) : Attempt ε Bool := do
  let assumed ← compareAssuming reg reg.pairFuel a b []
  return assumed.isSome

/-- Search type by type. The answer is absent when a pointer is found. -/
def avoidAll (avoid : Ty → List RecordId → Attempt ε (Option (List RecordId))) :
    List Ty → List RecordId → Attempt ε (Option (List RecordId))
  | [], seen => .ok (some seen)
  | ty :: rest, seen => do
    match ← avoid ty seen with
    | none => return none
    | some seen => avoidAll avoid rest seen

/-- Search a type for pointers, skipping records seen before. The answer holds the records seen at
the end, and is absent when a pointer is found. -/
def avoidPointers (reg : Registry) :
    Nat → Ty → List RecordId → Attempt ε (Option (List RecordId))
  | _, .scalar s, seen => .ok (if s = .ptr then none else some seen)
  | _, .pointer _ _, _ => .ok none
  | fuel, .record id, seen =>
    if id ∈ seen then .ok (some seen)
    else
      match fuel with
      | 0 => .error .exhausted
      | fuel + 1 => do
        let fields := (← reg.record id).fields
        avoidAll (avoidPointers reg fuel) (fields.map Field.ty) (id :: seen)

/-- Whether a value of the type holds something the collector traces. -/
def hasPointers (reg : Registry) (ty : Ty) : Attempt ε Bool := do
  let seen ← avoidPointers reg (reg.records.size + 1) ty []
  return seen.isNone

end Registry

end CoroutineIR
