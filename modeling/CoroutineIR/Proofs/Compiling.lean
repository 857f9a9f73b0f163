import CoroutineIR.Pipeline
import CoroutineIR.Proofs.Outcome

/-!
# The course of a compilation

A compilation that succeeds has gone through its stages one after another. Remarks are only added in
between, so that it is enough to know which routine each stage has made of the one before.
-/

namespace CoroutineIR

open CoroutineIR.Action Lower

/-- With some remarks made before, the pass delivers `a` and makes `r'` of `r`. -/
def Pass.Makes {α : Type} (pass : Pass α) (r : Routine) (a : α) (r' : Routine) : Prop :=
  ∃ journal journal', pass ⟨r, journal⟩ = .ok a ⟨r', journal'⟩

namespace Pass.Makes

variable {α : Type} {pass : Pass α} {r r' : Routine} {a : α}

theorem of_ends (h : pass.Makes r a r') (post : α → Routine → Prop)
    (hends : ∀ journal, pass.Ends ⟨r, journal⟩ (fun a w => post a w.routine) fun _ => True) :
    post a r' := by
  obtain ⟨journal, journal', hok⟩ := h
  have hpost := hends journal
  rwa [Ends, hok] at hpost

theorem of_yields (h : pass.Makes r a r') (post : α → Routine → Prop)
    (hyields : ∀ journal, pass.Yields ⟨r, journal⟩ fun a w => post a w.routine) : post a r' :=
  h.of_ends post fun journal => (hyields journal).ends

end Pass.Makes

/-- With some remarks made and steps numbered before, the lowering makes `r'` of `r`. -/
def Lower.Makes (act : Lower Unit) (r r' : Routine) : Prop :=
  ∃ l l' : Lowering, l.routine = r ∧ act l = .ok () l' ∧ l'.routine = r'

namespace Compile

variable {ε α : Type} {l : Lowering} {post : PUnit → Lowering → Prop} {ctx : Context}
  {name : String} {pass : Pass Unit} {compiled : Compiled}

@[simp] theorem yields_describing {extend : ε → CompileError} {act : Action ε Lowering α}
    {post : α → Lowering → Prop} : Yields (describing extend act) l post ↔ Yields act l post := by
  unfold Yields describing
  cases act l with
  | ok a l' => rfl
  | error e l' => cases e <;> rfl

@[simp] theorem yields_note {level : Level} {text : Routine → Query String} :
    Yields (note level text) l post ↔
    post () { l with journal := l.journal.push ⟨level, text l.routine⟩ } :=
  yields_modify

/-- What the compilation makes of a routine, stage by stage. -/
structure Course (ctx : Context) (r folded cleaned staged treed final : Routine)
    (compiled : Compiled) : Prop where
  folds : (Folding.foldConstants ⟨ctx.types.target, ctx.settings.foldArithmetic⟩).Makes r () folded
  cleans : DeadCode.eliminate.Makes folded () cleaned
  suspends : cleaned.suspends = .ok compiled.lowered
  cuts : compiled.lowered = true → ∃ lowered layout, Lower.lowerToSteps.Makes cleaned lowered ∧
    layOutSteps.Makes lowered layout staged ∧ compiled.layout = some layout
  stays : compiled.lowered = false → staged = cleaned ∧ compiled.layout = none
  trees : if ctx.settings.buildTrees then Tree.buildTrees.Makes staged () treed else treed = staged
  shows : if ctx.settings.analyzePointers then (Collector.discoverPointers ctx.types).Makes treed ()
    final else final = treed
  verified : final.verify = .ok ()

/-- A stage makes what its pass makes. -/
theorem exists_of_stage {act : Lower Unit} (h : Yields (stage ctx name act) l post) :
    ∃ l₁, act l = .ok () l₁ ∧ ∃ journal, post () { l₁ with journal } := by
  unfold stage at h
  rw [yields_bind, yields_describing, yields_iff_exists] at h
  obtain ⟨_, l₁, hok, h⟩ := h
  refine ⟨l₁, hok, ?_⟩
  split at h
  · exact ⟨_, yields_note.mp h⟩
  · exact ⟨l₁.journal, h⟩

theorem makes_of_onWork {pass : Pass α} {post : α → Lowering → Prop}
    (h : Yields (onWork pass) l post) :
    ∃ a l₁, pass.Makes l.routine a l₁.routine ∧ post a l₁ := by
  obtain ⟨a, w, hok, hpost⟩ := yields_iff_exists.mp (yields_within.mp h)
  exact ⟨a, _, ⟨l.journal, w.journal, hok⟩, hpost⟩

/-- A stage that succeeds has run its pass. -/
theorem makes_of_stage (h : Yields (stage ctx name (onWork pass)) l post) :
    ∃ l₁ : Lowering, pass.Makes l.routine () l₁.routine ∧ post () l₁ := by
  obtain ⟨l₁, hok, journal, hpost⟩ := exists_of_stage h
  have hyields : Yields (onWork pass) l fun _ l₂ => l₂ = l₁ := by rw [Yields, hok]
  obtain ⟨_, l₂, hmakes, rfl⟩ := makes_of_onWork hyields
  exact ⟨{ l₂ with journal }, hmakes, hpost⟩

/-- A stage that the settings may leave out. -/
theorem makes_of_option {β : Type} {wanted : Bool}
    {next : PUnit → Compile β} {post : β → Lowering → Prop} (h : Yields
      (if wanted = true then stage ctx name (onWork pass) >>= next else next ()) l post) :
    ∃ l₁ : Lowering, (if wanted = true then pass.Makes l.routine () l₁.routine
      else l₁.routine = l.routine) ∧ Yields (next ()) l₁ post := by
  cases wanted with
  | true =>
    rw [if_pos rfl, yields_bind] at h
    simpa only [if_true] using makes_of_stage h
  | false =>
    rw [if_neg Bool.false_ne_true] at h
    exact ⟨l, by rw [if_neg Bool.false_ne_true], h⟩

theorem makes_of_query {query : Routine → Query α} {r r' : Routine} {a : α}
    (h : (Pass.ask query).Makes r a r') : query r = .ok a ∧ r' = r := by
  obtain ⟨journal, journal', hok⟩ := h
  have hyields : Yields (Pass.ask query) ⟨r, journal⟩ fun b w =>
    b = a ∧ w = ⟨r', journal'⟩ := by rw [Yields, hok]; exact ⟨rfl, rfl⟩
  obtain ⟨b, hquery, rfl, hw⟩ := Pass.yields_ask.mp hyields
  exact ⟨hquery, (congrArg Work.routine hw).symm⟩

/-- The stages behind the cutting. -/
def finishing (ctx : Context) (compiled : Compiled) : Compile Compiled := do
  if ctx.settings.buildTrees then
    stage ctx "stackification" (Lower.onWork Tree.buildTrees)
  if ctx.settings.analyzePointers then
    stage ctx "gc discoverability" (Lower.onWork (Collector.discoverPointers ctx.types))
  describing (⟨["output graph is malformed"], ·⟩) (Lower.onWork (Pass.ask Routine.verify))
  return compiled

/-- The last stages build trees and discover pointers as the settings say, and check. -/
theorem exists_finishing {post : Compiled → Lowering → Prop}
    (h : Yields (finishing ctx compiled) l post) : ∃ (treed : Routine) (l' : Lowering),
      (if ctx.settings.buildTrees then Tree.buildTrees.Makes l.routine () treed
      else treed = l.routine) ∧
      (if ctx.settings.analyzePointers then (Collector.discoverPointers ctx.types).Makes treed ()
      l'.routine else l'.routine = treed) ∧ l'.routine.verify = .ok () ∧ post compiled l' := by
  unfold finishing at h
  dsimp only at h
  obtain ⟨l₁, htrees, h⟩ := makes_of_option h
  obtain ⟨l₂, hshows, h⟩ := makes_of_option h
  rw [yields_bind, yields_describing] at h
  obtain ⟨_, l₃, hask, hpost⟩ := makes_of_onWork h
  obtain ⟨hverify, hl₃⟩ := makes_of_query hask
  exact ⟨l₁.routine, l₃, htrees, hl₃ ▸ hshows, hl₃ ▸ hverify, hpost⟩

/-- A compilation that succeeds has gone through its stages. -/
theorem exists_course {l' : Lowering} (h : Compile.routine ctx l = .ok compiled l') :
    ∃ folded cleaned staged treed,
    Course ctx l.routine folded cleaned staged treed l'.routine compiled := by
  have hyields : Yields (Compile.routine ctx) l fun a s =>
    a = compiled ∧ s = l' := by rw [Yields, h]; exact ⟨rfl, rfl⟩
  unfold Compile.routine at hyields
  rw [yields_bind, yields_describing] at hyields
  obtain ⟨name, l₀, hname, hyields⟩ := makes_of_onWork hyields
  obtain ⟨-, hl₀⟩ := makes_of_query hname
  rw [← hl₀]
  rw [yields_describing] at hyields
  unfold stages at hyields
  rw [yields_bind, yields_note] at hyields
  dsimp only at hyields
  obtain ⟨journal, hyields⟩ : ∃ journal, Yields _ { l₀ with journal } fun a s =>
      a = compiled ∧ s = l' := by
    split at hyields
    · rw [yields_bind, yields_note] at hyields
      exact ⟨_, hyields⟩
    · exact ⟨_, hyields⟩
  rw [yields_bind] at hyields
  obtain ⟨l₁, hfold, hyields⟩ := makes_of_stage hyields
  rw [yields_bind] at hyields
  obtain ⟨l₂, hclean, hyields⟩ := makes_of_stage hyields
  rw [yields_bind, yields_describing] at hyields
  obtain ⟨lowered, l₃, hask, hyields⟩ := makes_of_onWork hyields
  obtain ⟨hsuspends, hl₃⟩ := makes_of_query hask
  cases lowered with
  | true =>
    rw [if_pos rfl, yields_bind] at hyields
    obtain ⟨l₄, hlower, journal₄, hyields⟩ := exists_of_stage hyields
    rw [yields_bind, yields_map, yields_describing] at hyields
    obtain ⟨layout, l₅, hlayout, hyields⟩ := makes_of_onWork hyields
    change Yields (finishing ctx ⟨true, some layout⟩) l₅ _ at hyields
    obtain ⟨treed, _, htrees, hshows, hverify, rfl, rfl⟩ := exists_finishing hyields
    exact ⟨l₁.routine, l₂.routine, l₅.routine, treed, hfold, hclean, hsuspends,
      fun _ => ⟨l₄.routine, layout, ⟨l₃, l₄, hl₃, hlower, rfl⟩, hlayout, rfl⟩, fun h =>
      (by cases h), htrees, hshows, hverify⟩
  | false =>
    rw [if_neg Bool.false_ne_true, yields_bind, yields_pure] at hyields
    change Yields (finishing ctx ⟨false, none⟩) l₃ _ at hyields
    obtain ⟨treed, _, htrees, hshows, hverify, rfl, rfl⟩ := exists_finishing hyields
    exact ⟨l₁.routine, l₂.routine, l₃.routine, treed, hfold, hclean, hsuspends,
      fun h => (by cases h), fun _ => ⟨hl₃, rfl⟩, htrees, hshows, hverify⟩

end Compile

end CoroutineIR
