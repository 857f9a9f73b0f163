/-!
# Machine types

Scalars, pointers and records describe values; a signature describes what a callee takes, gives back
and whether it may suspend. Record types are named by their position in a registry, which makes
types that refer to themselves through a pointer expressible.
-/

namespace CoroutineIR

/-- The position of a record type in its registry. -/
abbrev RecordId := Nat

/-- Sizes that depend on the machine compiled for, in bytes. -/
structure Target where
  /-- The size of the natural integer. -/
  intSize : Nat := 4
  /-- The size of an address. -/
  ptrSize : Nat := 8
deriving DecidableEq, Repr, Inhabited

/-- Scalar machine types. `iN` are unsigned or without sign, `sN` are signed. `int` and `sint` have
the target's natural integer size, `addr` is an address the collector ignores and `ptr` one it
traces. -/
inductive Scalar where
  | i8 | i16 | i32 | i64 | s8 | s16 | s32 | s64 | addr | f32 | f64 | ptr | int | sint
deriving DecidableEq, Repr, Inhabited

namespace Scalar

/-- Every scalar. -/
def all : List Scalar :=
  [i8, i16, i32, i64, s8, s16, s32, s64, addr, f32, f64, ptr, int, sint]

/-- Whether the top bit of a value is its sign. -/
def isSigned : Scalar → Bool
  | s8 | s16 | s32 | s64 | sint => true
  | _ => false

/-- Whether values are floating-point numbers. -/
def isFloat : Scalar → Bool
  | f32 | f64 => true
  | _ => false

/-- The size of a value in bytes. -/
def size (target : Target) : Scalar → Nat
  | i8 | s8 => 1
  | i16 | s16 => 2
  | i32 | s32 | f32 => 4
  | i64 | s64 | f64 => 8
  | addr | ptr => target.ptrSize
  | int | sint => target.intSize

/-- Scalars are aligned to their own size. -/
def align (target : Target) (s : Scalar) : Nat := s.size target

/-- The written name. -/
def text : Scalar → String
  | i8 => "i8"
  | i16 => "i16"
  | i32 => "i32"
  | i64 => "i64"
  | s8 => "s8"
  | s16 => "s16"
  | s32 => "s32"
  | s64 => "s64"
  | addr => "addr"
  | f32 => "f32"
  | f64 => "f64"
  | ptr => "ptr"
  | int => "int"
  | sint => "sint"

/-- The scalar with the given name. -/
def ofText? (name : String) : Option Scalar := all.find? fun s => s.text == name

end Scalar

/-- The type of a value. -/
inductive Ty where
  | scalar (kind : Scalar)
  | pointer (isConst : Bool) (elem : Ty)
  | record (id : RecordId)
deriving DecidableEq, Repr, Inhabited

namespace Ty

/-- The scalar, if the type is one. -/
def scalar? : Ty → Option Scalar
  | scalar s => some s
  | _ => none

/-- The record, if the type is one. -/
def record? : Ty → Option RecordId
  | record id => some id
  | _ => none

/-- The written type. -/
def text : Ty → String
  | scalar s => s.text
  | pointer true elem => "*const " ++ elem.text
  | pointer false elem => "*" ++ elem.text
  | record id => s!"struct.{id}"

end Ty

/-- How a callee is entered and left. -/
inductive Convention where
  | default
  /-- The callee may suspend, so a caller has to be cut into steps. -/
  | coroutine
  | system
  | native
deriving DecidableEq, Repr, Inhabited

/-- What a callee takes and gives back. -/
structure Signature where
  params : List Ty
  result : Option Ty
  convention : Convention
deriving DecidableEq, Repr, Inhabited

namespace Signature

/-- Whether a call may suspend the caller. -/
def suspends (sig : Signature) : Bool := sig.convention = .coroutine

/-- The written signature. -/
def text (sig : Signature) : String :=
  "(" ++ String.intercalate "," (sig.params.map Ty.text) ++ ") => (" ++
    (sig.result.map Ty.text).getD "" ++ ")"

end Signature

end CoroutineIR
