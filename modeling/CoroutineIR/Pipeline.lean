import CoroutineIR.Collector.Discovery
import CoroutineIR.DeadCode.Elimination
import CoroutineIR.Folding.Constants
import CoroutineIR.Routine.Verify
import CoroutineIR.Settings
import CoroutineIR.Step.Layout
import CoroutineIR.Step.Lowering
import CoroutineIR.Tree.Inlining

/-!
# Compiling routines

A routine goes through constant propagation and dead code elimination, then, if it may suspend, is
cut into steps, and at last its expression trees are rebuilt and its pointers made visible to the
collector. The result is checked. A refusal is reported with the stage and the routine it arose in.
-/

namespace CoroutineIR

/-- What the stages may consult besides the routine. -/
structure Context where
  types : Registry
  settings : Settings

/-- A refusal and what was being done, outermost first. -/
structure CompileError where
  context : List String
  cause : IrError
deriving DecidableEq, Repr, Inhabited

/-- The wording of a refusal, outermost context first. -/
def CompileError.message (e : CompileError) : String :=
  String.intercalate ": " (e.context ++ [e.cause.message])

/-- A step of compiling. -/
abbrev Compile := Action CompileError Lowering

/-- What compiling a routine has produced besides the routine. -/
structure Compiled where
  /-- Whether the routine was cut into steps. -/
  lowered : Bool
  layout : Option StepLayout
deriving DecidableEq, Repr, Inhabited

namespace Compile

/-- Say what was being done when a refusal arose. -/
def describing {ε α : Type} (extend : ε → CompileError) (act : Action ε Lowering α) : Compile α :=
  fun l =>
    match act l with
    | .ok a l => .ok a l
    | .error (.refused e) l => .error (.refused (extend e)) l
    | .error (.aborted cause) l => .error (.aborted cause) l
    | .error .exhausted l => .error .exhausted l

/-- Make a remark about the routine as it is now. -/
def note (level : Level) (text : Routine → Query String) : Compile Unit :=
  modify fun l => { l with journal := l.journal.push ⟨level, text l.routine⟩ }

/-- Run a stage, and keep the printed routine afterwards if the settings ask for it. -/
def stage (ctx : Context) (name : String) (act : Lower Unit) : Compile Unit := do
  describing (fun e => ⟨[name ++ " failed"], e⟩) act
  if ctx.settings.emitRoutine then
    note .debug fun r => return "after " ++ name ++ ":\n" ++ (← r.text)

/-- Run all stages over a routine. -/
def stages (ctx : Context) : Compile Compiled := do
  note .info fun r => return "compiling " ++ (← r.name)
  if ctx.settings.emitRoutine then
    note .debug fun r => return "input:\n" ++ (← r.text)
  stage ctx "constant folding"
    (Lower.onWork (Folding.foldConstants ⟨ctx.types.target, ctx.settings.foldArithmetic⟩))
  stage ctx "dead code elimination" (Lower.onWork DeadCode.eliminate)
  let lowered ← describing (⟨[], ·⟩) (Lower.onWork (Pass.ask Routine.suspends))
  let layout ← if lowered then do
      stage ctx "state machine lowering" Lower.lowerToSteps
      some <$> describing (⟨[], ·⟩) (Lower.onWork layOutSteps)
    else pure none
  if ctx.settings.buildTrees then
    stage ctx "stackification" (Lower.onWork Tree.buildTrees)
  if ctx.settings.analyzePointers then
    stage ctx "gc discoverability" (Lower.onWork (Collector.discoverPointers ctx.types))
  describing (⟨["output graph is malformed"], ·⟩) (Lower.onWork (Pass.ask Routine.verify))
  return ⟨lowered, layout⟩

/-- Compile the routine in place. -/
def routine (ctx : Context) : Compile Compiled := do
  let name ← describing (⟨[], ·⟩) (Lower.onWork (Pass.ask Routine.name))
  describing (fun e => { e with context := s!"failed to compile function `{name}`" :: e.context })
    (stages ctx)

/-- The outcome of compiling a unit. -/
structure UnitOutcome where
  /-- All routines, in order, changed as far as the compilation came. -/
  routines : List Routine
  journal : Journal
  result : Attempt CompileError (List Compiled)

/-- Compile routines one after another, numbering their steps throughout. The first refusal ends it,
and the routines behind stay as they are. -/
def unitFrom (ctx : Context) : List Routine → Nat → Journal → UnitOutcome
  | [], _, journal => ⟨[], journal, .ok []⟩
  | r :: rest, nextStep, journal =>
    match routine ctx { routine := r, journal, nextStep } with
    | .ok compiled l =>
      let others := unitFrom ctx rest l.nextStep l.journal
      { others with
        routines := l.routine :: others.routines
        result := others.result.map (compiled :: ·) }
    | .error e l => ⟨l.routine :: rest, l.journal, .error e⟩

/-- Compile the routines of a unit. -/
def unit (ctx : Context) (routines : List Routine) : UnitOutcome := unitFrom ctx routines 0 #[]

end Compile

end CoroutineIR
