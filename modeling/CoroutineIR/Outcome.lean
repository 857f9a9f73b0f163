/-!
# Outcomes of fallible operations

An operation on types or routines ends in one of four ways. It delivers a value, it refuses its
input for a stated reason, it aborts because its input breaks a promise the caller made (an
identifier outside its arena, a size that does not fit a machine word), or it uses up the fuel that
bounds its recursion. The last three are kept apart: a refusal leaves a state the caller may go on
with, an abort ends the session, and running out of fuel is neither.
-/

namespace CoroutineIR

/-- A promise broken by the caller. -/
inductive AbortCause where
  /-- An identifier outside its arena. -/
  | missing
  /-- A sum or product that does not fit a 64-bit size. -/
  | overflow
  /-- A remainder or quotient by zero. -/
  | zeroDivisor
  /-- Truncation to a width of zero bits. -/
  | zeroWidth
  /-- The entry of a routine is not its definition. -/
  | noDefinition
deriving DecidableEq, Repr, Inhabited

/-- Why an operation delivered no value. -/
inductive Fault (ε : Type) where
  /-- The input was refused. -/
  | refused (reason : ε)
  /-- The caller broke a promise. -/
  | aborted (cause : AbortCause)
  /-- The fuel bounding a recursion ran out. -/
  | exhausted
deriving DecidableEq, Repr, Inhabited

/-- A computation that delivers a value or a fault. -/
abbrev Attempt (ε α : Type) := Except (Fault ε) α

/-- A computation on a state. A fault comes with the state reached so far, so that changes made
before a refusal stay visible. -/
abbrev Action (ε σ α : Type) := EStateM (Fault ε) σ α

variable {ε σ τ α : Type}

/-- Abort with the given cause. -/
def Attempt.abort (cause : AbortCause) : Attempt ε α := .error (.aborted cause)

/-- Refuse with the given reason. -/
def Attempt.refuse (reason : ε) : Attempt ε α := .error (.refused reason)

/-- The value of an optional look-up, which must be there. -/
def Attempt.present : Option α → Attempt ε α
  | some a => .ok a
  | none => .abort .missing

/-- The value of an optional look-up, refused with `reason` when it is absent. -/
def Attempt.orRefuse (reason : ε) : Option α → Attempt ε α
  | some a => .ok a
  | none => .refuse reason

/-- An attempt run as an action that leaves the state alone. -/
def Attempt.toAction : Attempt ε α → Action ε σ α
  | .ok a => fun s => .ok a s
  | .error e => fun s => .error e s

instance : MonadLift (Attempt ε) (Action ε σ) where
  monadLift := Attempt.toAction

/-- A question about the current state. -/
def Action.ask (query : σ → Attempt ε α) : Action ε σ α := fun s => (query s).toAction s

/-- An action on one part of a larger state. -/
def Action.within (get : σ → τ) (put : τ → σ → σ) (act : Action ε τ α) : Action ε σ α := fun s =>
  match act (get s) with
  | .ok a t => .ok a (put t s)
  | .error e t => .error e (put t s)

@[simp] theorem Attempt.toAction_ok (a : α) (s : σ) :
    (Attempt.toAction (.ok a : Attempt ε α)) s = .ok a s := rfl

@[simp] theorem Attempt.toAction_error (e : Fault ε) (s : σ) :
    (Attempt.toAction (.error e : Attempt ε α)) s = .error e s := rfl

end CoroutineIR
