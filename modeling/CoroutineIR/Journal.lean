import CoroutineIR.Routine.Printer

/-!
# The journal of a compilation

Passes leave remarks in a journal while they change a routine. A remark is written down with the
text it has at that moment; it is only looked at if its level is asked for, so a remark about a
malformed node does no harm to a compilation whose journal nobody reads.
-/

namespace CoroutineIR

/-- How detailed a remark is. -/
inductive Level where
  | info
  | debug
  | trace
deriving DecidableEq, Repr, Inhabited

namespace Level

/-- Levels in order of detail. -/
def rank : Level → Nat
  | info => 0
  | debug => 1
  | trace => 2

/-- The written name. -/
def text : Level → String
  | info => "INFO"
  | debug => "DEBUG"
  | trace => "TRACE"

end Level

/-- A remark. -/
structure Entry where
  level : Level
  text : Query String
deriving Inhabited

/-- The remarks of a compilation in the order they were made. -/
abbrev Journal := Array Entry

/-- The lines of a journal up to a level of detail. -/
def Journal.lines (journal : Journal) (limit : Level) : Query (List String) :=
  (journal.toList.filter fun e => e.level.rank ≤ limit.rank).mapM fun e =>
    return e.level.text ++ " " ++ (← e.text)

/-- A routine under compilation and the remarks made about it. -/
structure Work where
  routine : Routine
  journal : Journal := #[]
deriving Inhabited

/-- A step of a pass. -/
abbrev Pass := Action IrError Work

namespace Pass

/-- An edit of the routine under compilation. -/
def onRoutine {α : Type} (edit : Edit α) : Pass α :=
  Action.within Work.routine (fun routine w => { w with routine }) edit

instance : MonadLift Edit Pass where
  monadLift := onRoutine

/-- A question about the routine under compilation. -/
def ask {α : Type} (query : Routine → Query α) : Pass α := Action.ask fun w => query w.routine

/-- Make a remark about the routine as it is now. -/
def note (level : Level) (text : Routine → Query String) : Pass Unit :=
  modify fun w => { w with journal := w.journal.push ⟨level, text w.routine⟩ }

/-- Make a remark that opens with the name of the routine. -/
def summarize (text : String) : Pass Unit := note .debug fun r => return (← r.name) ++ ": " ++ text

end Pass

end CoroutineIR
