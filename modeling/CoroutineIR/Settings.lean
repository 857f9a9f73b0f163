import CoroutineIR.Toml.Document
import CoroutineIR.Type.Basic

/-!
# Settings

The switches of a compilation. Every one has a default, and a configuration may set some of them.
-/

namespace CoroutineIR

/-- The switches of a compilation. -/
structure Settings where
  /-- Evaluate operations on literals while constants are propagated. -/
  foldArithmetic : Bool := false
  /-- Rebuild expression trees. -/
  buildTrees : Bool := true
  /-- Mark what the collector has to see. -/
  analyzePointers : Bool := true
  /-- Keep the printed routine after every stage in the journal. -/
  emitRoutine : Bool := false
  /-- The machine compiled for. -/
  target : Target := {}
deriving DecidableEq, Repr, Inhabited

/-- Why a configuration was refused. -/
inductive ConfigError where
  /-- There is no such file, or it cannot be read. -/
  | unreadable (path : String)
  /-- The text is no configuration, or sets what is no setting. -/
  | invalid
deriving DecidableEq, Repr, Inhabited

/-- The wording of a refusal. -/
def ConfigError.message : ConfigError → String
  | unreadable path => s!"cannot read config file `{path}`"
  | invalid => "invalid config"

namespace Target

/-- The size in bytes that a value describes. -/
def size? : Toml.Value → Option Nat
  | .int n => if 0 ≤ n then some n.toNat else none
  | _ => none

/-- Change a target by one entry of its table. Entries with other names do not matter. -/
def set? (target : Target) : String × Toml.Value → Option Target
  | ("int_size", value) => do return { target with intSize := ← size? value }
  | ("ptr_size", value) => do return { target with ptrSize := ← size? value }
  | _ => some target

/-- The target that a value describes: a table, or an array with the two sizes in front. A date
names neither size. -/
def ofValue? : Toml.Value → Option Target
  | .table _ entries => entries.foldlM set? {}
  | .array [] | .date => some {}
  | .array [int] => do return { intSize := ← size? int }
  | .array (int :: ptr :: _) => do return ⟨← size? int, ← size? ptr⟩
  | _ => none

end Target

namespace Settings

/-- Change settings by one entry of a configuration. Entries with other names are refused. -/
def set? (s : Settings) : String × Toml.Value → Option Settings
  | ("fold_arithmetic", .bool b) => some { s with foldArithmetic := b }
  | ("stackify", .bool b) => some { s with buildTrees := b }
  | ("analyze_gc", .bool b) => some { s with analyzePointers := b }
  | ("emit_ir", .bool b) => some { s with emitRoutine := b }
  | ("layout", value) => do return { s with target := ← Target.ofValue? value }
  | _ => none

/-- The settings of a configuration. -/
def ofText (text : String) : Except ConfigError Settings :=
  match do (← Toml.read? text).foldlM set? {} with
  | some settings => .ok settings
  | none => .error .invalid

/-- The settings of a configuration file, given its content if it could be read. -/
def load (path : String) : Option String → Except ConfigError Settings
  | some text => ofText text
  | none => .error (.unreadable path)

end Settings

end CoroutineIR
