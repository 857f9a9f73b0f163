import CoroutineIR.Journal
import CoroutineIR.Routine.Access

/-!
# The steps of a coroutine

The steps of a routine that has been cut up, its suspensions, and the variables that are used in
more than one step and therefore have to outlive a suspension.
-/

namespace CoroutineIR

/-- The steps and suspensions of a routine, in the order of the stream. -/
structure StepLayout where
  steps : List NodeId := []
  /-- The first halves of suspending calls and the yields. -/
  suspensions : List NodeId := []
deriving DecidableEq, Repr, Inhabited

/-- The position of a step. -/
def StepLayout.indexOf? (l : StepLayout) (step : NodeId) : Option Nat := l.steps.idxOf? step

/-- What a walk over the steps has found. -/
structure StepTour extends StepLayout where
  /-- The step in which each variable was first used, latest entry first. -/
  firstUse : List (VarId × Option NodeId) := []
  /-- Variables used in more than one step. -/
  shared : List VarId := []
deriving DecidableEq, Repr, Inhabited

namespace StepTour

/-- Take note of a use of a variable in a step. A use before the first step does not count once a
later use is seen. -/
def use (t : StepTour) (step : Option NodeId) (v : VarId) : StepTour :=
  match t.firstUse.lookup v with
  | some (some seen) =>
    if some seen = step then t
    else if v ∈ t.shared then t
    else { t with shared := t.shared ++ [v] }
  | _ => { t with firstUse := (v, step) :: t.firstUse }

/-- Take note of all accesses of a node. -/
def useAll (t : StepTour) (mem : VarId) (step : Option NodeId) (vs : List VarId) : StepTour :=
  vs.foldl (fun t v => if v = mem then t else t.use step v) t

/-- Walk from `start` to `stop`, which is looked at as well, the second arm of a conditional first.
-/
def walkWithin (r : Routine) :
    Nat → Option NodeId → Option NodeId → Option NodeId → StepTour → Query StepTour
  | _, none, _, _, t => return t
  | 0, some _, _, _, _ => .error .exhausted
  | fuel + 1, some n, stop, step, t => do
    let accesses ← r.accesses n
    let t := t.useAll r.mem step (accesses.map Prod.fst)
    if some n = stop then
      return t
    let node ← r.node n
    match node.kind with
    | .step _ =>
      walkWithin r fuel node.firstNext stop (some n) { t with steps := t.steps ++ [n] }
    | .enter .cond region =>
      match node.next[1]? with
      | some first =>
        let t ← walkWithin r fuel (some first) (some region.close) step t
        walkWithin r fuel node.firstNext stop step t
      | none => walkWithin r fuel node.firstNext stop step t
    | .call .directBegin _ | .call .indirectBegin _ | .yield =>
      walkWithin r fuel node.firstNext stop step { t with suspensions := t.suspensions ++ [n] }
    | _ => walkWithin r fuel node.firstNext stop step t

/-- Walk over the body of a routine. -/
def walk (r : Routine) : Query StepTour := do
  let exit ← r.exit
  match (← r.node r.entry).firstNext with
  | some first => walkWithin r r.walkFuel (some first) (some exit) none {}
  | none => return {}

end StepTour

/-- Collect the steps of a routine and mark the variables used in more than one. -/
def layOutSteps : Pass StepLayout := do
  let tour ← Pass.ask StepTour.walk
  tour.shared.forM fun v =>
    (Edit.changeVar v ({ · with crossesSteps := true }) : Pass Unit)
  let steps := tour.steps.length
  let suspensions := tour.suspensions.length
  Pass.summarize s!"{steps} steps, {suspensions} suspension points"
  return tour.toStepLayout

end CoroutineIR
