import CoroutineIR.Proofs.Compiling
import CoroutineIR.Proofs.Spilling
import CoroutineIR.Proofs.Touring

/-!
# The layout of a compiled routine

The layout is taken before trees are built and pointers are made visible. Neither takes a step or a
pause out of the stream: definitions are moved only if they deliver something, and making pointers
visible leaves the stream alone. So the layout still describes the routine at the end.
-/

namespace CoroutineIR

open List Option CoroutineIR.Action NodeKind Routine

namespace Compile.Course

variable {ctx : Context} {r folded cleaned staged treed final : Routine} {compiled : Compiled}
    {exit : NodeId} {t : Strand}

variable (h : Course ctx r folded cleaned staged treed final compiled)
include h

/-- Up to the cutting the routine is whole. -/
theorem whole (hbuilt : r.Built) : ∃ t, cleaned.Whole 1 t := by
  obtain ⟨t, ht⟩ := hbuilt.whole
  obtain ⟨t₁, hrun⟩ := h.folds.of_ends (fun _ r' =>
      ∃ t₁, Refinements ctx.types.target 1 (r, t) (r', t₁)) fun journal =>
    (Folding.ends_foldConstants ht.toWellStructured).imp fun _ _ => trivial
  exact h.cleans.of_ends (fun _ r' => ∃ t₂, r'.Whole 1 t₂) fun journal =>
    (DeadCode.ends_eliminate_whole (hrun.whole ht)).imp fun _ _ => trivial

/-- Behind the cutting definitions are moved, and the stream stays as it is. -/
theorem exists_inlinings (ht : staged.WellStructured exit t) :
    ∃ t', Inlinings exit (staged, t) (treed, t') ∧ treed.SameStream final := by
  have htrees : ∃ t', Inlinings exit (staged, t) (treed, t') := by
    have htrees := h.trees
    split at htrees
    · exact htrees.of_yields (fun _ r' => ∃ t', Inlinings exit (staged, t) (r', t')) fun journal =>
        Tree.yields_buildTrees ht
    · exact ⟨t, htrees ▸ .refl⟩
  have hshows : treed.SameStream final := by
    have hshows := h.shows
    split at hshows
    · obtain ⟨journal, journal', hok⟩ := hshows
      exact Collector.sameStream_of_discoverPointers hok
    · exact hshows ▸ .refl treed
  exact htrees.imp fun t' hrun => ⟨hrun, hshows⟩

/-- The routine that has been cut into steps, unless it does not suspend, and the layout taken of
it. -/
theorem exists_staged (hbuilt : r.Built) : ∃ t, staged.Staged 1 t ∧ ∀ layout, compiled.layout = some
      layout → layout.steps.Perm (t.nodes.filter fun n => (staged.kindOf n).any isStep) ∧
      layout.suspensions.Perm (t.nodes.filter fun n => (staged.kindOf n).any isPause) := by
  obtain ⟨t, ht⟩ := h.whole hbuilt
  cases hlowered : compiled.lowered with
  | false =>
    obtain ⟨rfl, hnone⟩ := h.stays hlowered
    exact ⟨t, ht.staged, fun layout hlayout => by rw [hnone] at hlayout; cases hlayout⟩
  | true =>
    obtain ⟨lowered, layout, ⟨l, l', rfl, hlower, rfl⟩, hmakes, hlayout⟩ := h.cuts hlowered
    have hsuspends := hlowered ▸ h.suspends
    obtain ⟨u, hu⟩ : ∃ u, l'.routine.Staged 1 u := by
      have hyields : Yields Lower.lowerToSteps l fun _ l' => ∃ u, l'.routine.Staged 1 u :=
        Lower.yields_lowerToSteps (ht.coroutine hsuspends)
          fun l' marked cut settled t' tail hstages => ⟨_, hstages.staged ht hsuspends⟩
      rwa [Yields, hlower] at hyields
    obtain ⟨hsteps, hpauses, hcrosses⟩ := hmakes.of_yields (fun layout r' =>
      layout.steps.Perm (u.nodes.filter fun n => (l'.routine.kindOf n).any isStep) ∧
        layout.suspensions.Perm (u.nodes.filter fun n =>
        (l'.routine.kindOf n).any isPause) ∧ l'.routine.Adds r' [])
      fun journal => (yields_layOutSteps (w := ⟨l'.routine, journal⟩) hu.toWellStructured).mono
        fun _ _ hpost => ⟨hpost.1, hpost.2.1, hpost.2.2.toAdds⟩
    have hkinds : staged.kindOf = l'.routine.kindOf :=
      funext (SameStream.of_nodes hcrosses.nodes hcrosses.entry).kinds
    refine ⟨u, hcrosses.staged hu, fun layout' hlayout' => ?_⟩
    obtain rfl := some.inj (hlayout.symm.trans hlayout')
    rw [hkinds]
    exact ⟨hsteps, hpauses⟩

/-- Whatever is a step or a pause stays in the stream to the end. -/
theorem mem_final (ht : staged.Staged exit t) : ∃ live, final.liveNodes = .ok live ∧
      (∀ n, final.kindOf n = staged.kindOf n) ∧ ∀ n kind, staged.kindOf n = some kind →
      kind.isStep = true ∨ kind.isPause = true → (n ∈ live ↔ n ∈ t.nodes) := by
  obtain ⟨t', hrun, hsame⟩ := h.exists_inlinings ht.toWellStructured
  have hstreams := hsame.streams (hrun.wellStructured ht.toWellStructured).toStreams
  obtain ⟨live, hlive, hperm⟩ := hstreams.liveNodes_eq
  refine ⟨live, hlive, fun n => (hsame.kinds n).trans (hrun.kinds_eq n),
    fun n kind hkind hcases => ?_⟩
  have hentry : final.entry = staged.entry := hsame.entry.trans hrun.entry_eq
  rw [hperm.mem_iff, Routine.live, hentry]
  have hends : n ∈ staged.live exit t → n ∈ t.nodes := fun hmem => by
    refine ht.mem_of_kindOf hmem hkind fun _ _ _ _ => ?_
    constructor <;> rintro rfl <;> rcases hcases with hcases | hcases <;> cases hcases
  constructor
  · intro hmem
    refine hends ?_
    simp only [mem_cons] at hmem ⊢
    exact hmem.imp_right fun hmem => hmem.imp_right fun hmem => hrun.sublist.subset hmem
  · intro hmem
    have hmem' : n ∈ staged.live exit t := by simp [hmem]
    rw [← show treed.entry = staged.entry from hrun.entry_eq]
    rcases hcases with hstep | hpause
    · refine hrun.mem_of_not_plain hmem' hkind ?_
      cases kind <;> simp_all [NodeKind.isPlain]
    · obtain ⟨e, he, rfl⟩ := map_eq_some_iff.mp hkind
      refine hrun.mem_of_destOf ht.toWellStructured hmem' ?_
      rw [destOf_eq he]
      exact ht.pauses n hmem e he hpause

end Compile.Course

/-- A step is found at its position. -/
theorem StepLayout.indexOf?_eq_some_iff {layout : StepLayout} (hnodup : layout.steps.Nodup)
    {n : NodeId} {i : ℕ} : layout.indexOf? n = some i ↔ layout.steps[i]? = some n := by
  rw [indexOf?, idxOf?_eq_some_iff]
  constructor
  · rintro ⟨hlt, heq, -⟩
    rw [List.getElem?_eq_some_iff]
    exact ⟨hlt, by simpa using heq⟩
  · intro h
    obtain ⟨hlt, rfl⟩ := List.getElem?_eq_some_iff.mp h
    refine ⟨hlt, by simp, fun j hj heq => ?_⟩
    have := (hnodup.getElem_inj_iff).mp (by simpa using heq)
    omega

/-- The layout describes the compiled routine. It is there exactly if the routine suspends once dead
code has been eliminated. It lists every step that is left in the compiled routine and nothing else,
and every node at which the routine waits and nothing else, each of them once, and finds the
position of every step. -/
theorem Compile.routine_layout {ctx : Context} {l l' : Lowering} {compiled : Compiled}
    (hbuilt : l.routine.Built) (hok : Compile.routine ctx l = .ok compiled l') :
    (∃ folded cleaned, (Folding.foldConstants ⟨ctx.types.target, ctx.settings.foldArithmetic⟩).Makes
        l.routine () folded ∧ DeadCode.eliminate.Makes folded () cleaned ∧
      cleaned.suspends = .ok compiled.layout.isSome) ∧
    ∀ layout, compiled.layout = some layout →
      ∃ live, l'.routine.liveNodes = .ok live ∧ layout.steps.Nodup ∧
        (∀ n, n ∈ layout.steps ↔ n ∈ live ∧ ∃ name, l'.routine.kindOf n = some (.step name)) ∧
        layout.suspensions.Nodup ∧
        (∀ n, n ∈ layout.suspensions ↔ n ∈ live ∧ ∃ kind, l'.routine.kindOf n = some kind ∧
          kind.isPause = true) ∧
        ∀ n i, layout.indexOf? n = some i ↔ layout.steps[i]? = some n := by
  obtain ⟨folded, cleaned, staged, treed, hcourse⟩ := Compile.exists_course hok
  refine ⟨⟨folded, cleaned, hcourse.folds, hcourse.cleans, ?_⟩, fun layout hlayout => ?_⟩
  · rw [hcourse.suspends]
    cases hlowered : compiled.lowered with
    | true =>
      obtain ⟨_, layout, -, -, hlayout⟩ := hcourse.cuts hlowered
      rw [hlayout, isSome_some]
    | false => rw [(hcourse.stays hlowered).2, isSome_none]
  · obtain ⟨t, ht, hlists⟩ := hcourse.exists_staged hbuilt
    obtain ⟨hsteps, hpauses⟩ := hlists layout hlayout
    obtain ⟨live, hlive, hkinds, hmem⟩ := hcourse.mem_final ht
    have hnodup : layout.steps.Nodup := hsteps.nodup_iff.mpr (ht.nodup_nodes.filter _)
    refine ⟨live, hlive, hnodup, fun n => ?_, hpauses.nodup_iff.mpr (ht.nodup_nodes.filter _),
      fun n => ?_, fun n i => StepLayout.indexOf?_eq_some_iff hnodup⟩
    · rw [hsteps.mem_iff, mem_filter, hkinds]
      constructor
      · rintro ⟨hn, hstep⟩
        obtain ⟨kind, hkind, hstep⟩ := (Option.any_eq_true _ _).mp hstep
        refine ⟨(hmem n kind hkind (Or.inl hstep)).mpr hn, ?_⟩
        cases kind with
        | step name => exact ⟨name, hkind⟩
        | _ => cases hstep
      · rintro ⟨hn, name, hkind⟩
        exact ⟨(hmem n _ hkind (Or.inl rfl)).mp hn, by rw [hkind]; rfl⟩
    · rw [hpauses.mem_iff, mem_filter, hkinds]
      constructor
      · rintro ⟨hn, hpause⟩
        obtain ⟨kind, hkind, hpause⟩ := (Option.any_eq_true _ _).mp hpause
        exact ⟨(hmem n kind hkind (Or.inr hpause)).mpr hn, kind, hkind, hpause⟩
      · rintro ⟨hn, kind, hkind, hpause⟩
        exact ⟨(hmem n kind hkind (Or.inr hpause)).mp hn, by rw [hkind]; exact hpause⟩

/-- A conditional that yields in its first arm and calls a coroutine in its second one. The walk
over the steps meets the call first. Trees move the sum of the result into the call that takes it.
-/
theorem Compile.routine_layout_conditional :
    let callee : Signature := ⟨[.scalar .i32], some (.scalar .i32), .coroutine⟩
    let print : Signature := ⟨[.scalar .i32], none, .default⟩
    let calls : List Instruction :=
      [.declare .param (.scalar .i32) "p" false, .tmp none, .tmp none, .cond (.var 1), .yieldNow,
      .otherwise, .call (some 2) callee [.var 1], .assign (some 3) .add (.scalar .i32) [.var 2,
      .var 1], .call none print [.var 3], .close, .yieldNow, .call none print [.var 1]]
    let layout : StepLayout := ⟨[11, 14, 17, 19], [6, 5, 9]⟩
    ∃ r b' compiled l', Build.finish (Build.play default calls (Build.define "main" default)).1 =
      .ok r b' ∧ r.Built ∧ Compile.routine ⟨default, {}⟩ { routine := r } = .ok compiled l' ∧
      compiled.layout = some layout ∧ ∃ live, l'.routine.liveNodes = .ok live ∧
        (∀ n, n ∈ layout.steps ↔ n ∈ live ∧ ∃ name, l'.routine.kindOf n = some (.step name)) ∧
        ∀ n, n ∈ layout.suspensions ↔ n ∈ live ∧ ∃ kind, l'.routine.kindOf n = some kind ∧
        kind.isPause = true := by
  intro callee print calls layout
  obtain ⟨r, b', -, hfinish, hbuilt, -, hcompiled⟩ :=
    Build.exists_main calls (by decide)
    (fun r => (Compile.routine ⟨default, {}⟩).Yields { routine := r } fun compiled _ =>
    compiled.layout = some layout) (by decide +kernel)
  obtain ⟨compiled, l', hok, hlayout⟩ := yields_iff_exists.mp hcompiled
  obtain ⟨live, hlive, -, hsteps, -, hpauses, -⟩ :=
    (Compile.routine_layout hbuilt hok).2 layout hlayout
  exact ⟨r, b', compiled, l', hfinish, hbuilt, hok, hlayout, live, hlive, hsteps, hpauses⟩

end CoroutineIR
