import CoroutineIR.Proofs.StepOrder
import CoroutineIR.Proofs.Touring

/-!
# Variables that outlive a step

After the lowering everything that accesses a variable stands in a step. A variable is marked
exactly if it is accessed in two different steps. One that is written and read in a single step
stays unmarked, even where the step is left and entered again in between.
-/

namespace CoroutineIR

open List Option CoroutineIR.Action Attempt Routine NodeKind StepTour Strand

namespace Strand

variable {kinds kinds' : NodeId → Option NodeKind} {old label : NodeId → Option Node} {b : Bool}
  {t t' u lead : Strand} {step : Option NodeId}

theorem lastStep_append (t u : Strand) (step : Option NodeId) :
    (t.append u).lastStep kinds step = u.lastStep kinds (t.lastStep kinds step) := by
  induction t generalizing step with
  | done => rfl
  | leaf n rest ih => exact ih _
  | region o c body rest _ ih => exact ih _
  | fork o c first second rest _ _ ih => exact ih _

theorem visits_append (t u : Strand) (step : Option NodeId) :
    (t.append u).visits kinds step = t.visits kinds step ++
    u.visits kinds (t.lastStep kinds step) := by
  induction t generalizing step with
  | done => rfl
  | leaf n rest ih | region o c body rest _ ih | fork o c first second rest _ _ ih =>
    simp [visits, lastStep, ih]

theorem exists_visit (kinds : NodeId → Option NodeKind) {n : NodeId} (hn : n ∈ t.nodes)
    (step : Option NodeId) : ∃ s, (n, s) ∈ t.visits kinds step := by
  obtain ⟨⟨_, s⟩, hs, rfl⟩ := List.mem_map.mp (mem_map_visits.mpr hn)
  exact ⟨s, hs⟩

/-- Once there is a step, there is always one. -/
theorem visits_isSome (kinds : NodeId → Option NodeKind) (t : Strand) (h : step.isSome = true) :
    (∀ x ∈ t.visits kinds step, x.2.isSome = true) ∧ (t.lastStep kinds step).isSome = true := by
  induction t generalizing step with
  | done => exact ⟨by simp [visits], h⟩
  | leaf n rest ih =>
    have hn : (stepBehind kinds step n).isSome = true := by
      unfold stepBehind
      split
      · rfl
      · exact h
    obtain ⟨hvisits, hlast⟩ := ih hn
    exact ⟨forall_mem_cons.mpr ⟨h, hvisits⟩, hlast⟩
  | region o c body rest ihb ihr =>
    obtain ⟨hbody, hinner⟩ := ihb h
    obtain ⟨hrest, hlast⟩ := ihr hinner
    refine ⟨?_, hlast⟩
    simp only [visits, cons_append, forall_mem_cons, forall_mem_append]
    exact ⟨h, hbody, hinner, hrest⟩
  | fork o c first second rest iha ihb ihr =>
    obtain ⟨hfirst, hthen⟩ := iha h
    obtain ⟨hsecond, helse⟩ := ihb h
    obtain ⟨hrest, hlast⟩ := ihr hthen
    refine ⟨?_, hlast⟩
    simp only [visits, cons_append, List.append_assoc, forall_mem_cons, forall_mem_append]
    exact ⟨h, hsecond, helse, hfirst, hthen, hrest⟩

/-- A step or a jump. -/
def Silent (label : NodeId → Option Node) (n : NodeId) : Prop :=
    ∃ d, label n = some d ∧ d.Inserted ∧ d.accesses = []

/-- What comes before the first step of a strand is silent, and if there is no step all of it is. -/
def Hushed (kinds : NodeId → Option NodeKind) (label : NodeId → Option Node) (step : Option NodeId)
    (t : Strand) : Prop :=
  (∀ x ∈ t.visits kinds step, x.2 = none → Silent label x.1) ∧
    (t.lastStep kinds step = none → ∀ x ∈ t.visits kinds step, Silent label x.1)

theorem Hushed.append (h : Hushed kinds label step t)
    (h' : Hushed kinds label (t.lastStep kinds step) u) : Hushed kinds label step (t.append u) := by
  simp only [Hushed, visits_append, lastStep_append, forall_mem_append]
  refine ⟨⟨h.1, h'.1⟩, fun hnone => ⟨h.2 ?_, h'.2 hnone⟩⟩
  by_contra hsome
  have hlast := (visits_isSome kinds u (isSome_iff_ne_none.mpr hsome)).2
  rw [hnone] at hlast
  cases hlast

/-- Behind the step that is opened in front of it a strand is in a step. -/
theorem StepAhead.hushed (h : StepAhead label false lead)
    (hsteps : ∀ n ∈ lead.nodes, (kinds' n).any isStep = true) :
    Hushed kinds' label step ((lead.append t).dissolved kinds) := by
  cases h with
  | @opens s name hs =>
    have hstep : (kinds' s).any isStep = true := hsteps s (by simp)
    have hsome := visits_isSome kinds' (t.dissolved kinds) (isSome_some (a := s))
    simp only [Hushed, append, dissolved, visits, lastStep, forall_mem_cons,
      stepBehind, hstep, if_true]
    refine ⟨⟨fun _ => ⟨_, hs, .step name, rfl⟩, fun x hx hnone => ?_⟩, fun hnone => ?_⟩
    · simpa [hnone] using hsome.1 x hx
    · simpa [hnone] using hsome.2

theorem JumpAhead.hushed (h : JumpAhead label lead) (step : Option NodeId) :
    Hushed kinds' label step (lead.dissolved kinds) := by
  cases h with
  | none => simp [Hushed, dissolved, visits]
  | @jump j hj =>
    have hsilent : Silent label j := ⟨_, hj, .jump, rfl⟩
    simp [Hushed, dissolved, visits, hsilent]

/-- A strand that has been cut accesses nothing before its first step. -/
theorem Cut.hushed (h : Cut old label b t t') (hb : b = false)
    (hkinds : ∀ n, kinds n = (label n).map Node.kind) (hsteps : ∀ n ∈ t'.nodes, ∀ name,
      kinds n = some (.step name) → (kinds' n).any isStep = true) (step : Option NodeId) :
    Hushed kinds' label step (t'.dissolved kinds) := by
  have hlead : ∀ {lead u : Strand}, StepAhead label false lead →
      (∀ n ∈ (lead.append u).nodes, ∀ name,
      kinds n = some (.step name) → (kinds' n).any isStep = true) →
      ∀ n ∈ lead.nodes, (kinds' n).any isStep = true := by
    intro lead u hahead hsteps n hn
    cases hahead with
    | @opens s name hs =>
      obtain rfl : n = s := by simpa [nodes] using hn
      exact hsteps n (by simp) name (by rw [hkinds, hs]; rfl)
  induction h generalizing step with
  | done => simp [Hushed, dissolved, visits]
  | leaf hstep | calm hstep | fork hstep =>
    subst hb
    exact hstep.hushed (hlead hstep hsteps)
  | @region b b' o c d form lead body body' tail rest rest' hentered hold hkind hnew _
      htail _ ihb ihr =>
    cases hentered with
    | descend hstep =>
      subst hb
      exact hstep.hushed (hlead hstep hsteps)
    | dissolve hform hjump =>
      -- only a block or a loop that suspends is entered without a step in front of it, and it goes
      have ho : kinds o = some (.enter form ⟨c, true⟩) := by
        rw [hkinds, hnew o (by simp), hold, map_some, hkind]
      have hgone : dissolvesAt kinds o = true := by
        rw [dissolvesAt_of_enter ho]
        simpa using hform
      simp only [nodes_append, forall_mem_append, forall_region] at hsteps
      obtain ⟨_, _, ⟨hbody, _⟩, _, hrest⟩ := hsteps
      simp only [dissolved_append, dissolved, hgone, if_true]
      exact (hjump.hushed _).append
        (((ihb rfl hbody _).append (htail.hushed _)).append (ihr rfl hrest _))

end Strand

namespace Routine

variable {r marked cut settled final : Routine} {exit n : NodeId} {t t' tail : Strand} {v : VarId}

/-- A node of the stream reads or writes a variable, itself or in a sub-expression. -/
def Uses (r : Routine) (n : NodeId) (v : VarId) : Prop := ∃ access, (v, access) ∈ r.accessesOf n

/-- The uses of the tour are those of the nodes in their steps. -/
theorem mem_usesAt_iff {xs : List (NodeId × Option NodeId)} {p : VarId × Option NodeId} :
    p ∈ xs.flatMap (usesAt r) ↔ p.1 ≠ r.mem ∧ ∃ n, (n, p.2) ∈ xs ∧ r.Uses n p.1 := by
  obtain ⟨v, step⟩ := p
  simp only [mem_flatMap, usesAt, List.mem_map, mem_filter, decide_eq_true_eq, Prod.mk.injEq, Uses]
  constructor
  · rintro ⟨⟨n, _⟩, hx, _, ⟨⟨⟨_, access⟩, ha, rfl⟩, hv⟩, rfl, rfl⟩
    exact ⟨hv, n, hx, access, ha⟩
  · rintro ⟨hv, n, hx, access, ha⟩
    exact ⟨(n, step), hx, v, ⟨⟨(v, access), ha, rfl⟩, hv⟩, rfl, rfl⟩

namespace Stages

variable (h : r.Stages marked cut settled final exit t t' tail)
include h

/-- Before the first step nothing is accessed. -/
theorem hushed :
    Strand.Hushed final.kindOf cut.label none ((t'.append tail).dissolved cut.kindOf) := by
  have hsteps : ∀ n ∈ t'.nodes, ∀ name, cut.kindOf n = some (.step name) →
      (final.kindOf n).any isStep = true := by
    intro n hn name hkind
    obtain ⟨d, hd, hdk⟩ := map_eq_some_iff.mp hkind
    rw [h.kindOf_final (by simp [hn]) hd (by simp [hdk]), hdk]
    rfl
  rw [dissolved_append]
  exact (h.cuts.hushed rfl (fun _ => rfl) hsteps none).append (h.leaves.hushed _)

theorem wellStructured_final (hr : r.Coroutine exit t) :
    final.WellStructured exit ((t'.append tail).dissolved cut.kindOf) :=
    ⟨h.final_streams, h.verify_eq_ok hr⟩

theorem accessesOf_silent (hn : n ∈ ((t'.append tail).dissolved cut.kindOf).nodes)
    (hsilent : Strand.Silent cut.label n) : final.accessesOf n = [] := by
  obtain ⟨d, hd, hinserted, hnone⟩ := hsilent
  rw [h.accessesOf_inserted (h.streams.shaped.mem_dissolved.mp hn).1 hd hinserted, hnone]

/-- Steps and the ends of regions access nothing. -/
theorem accessesOf_mark (hr : r.Coroutine exit t)
    (hn : n ∈ ((t'.append tail).dissolved cut.kindOf).nodes)
    (hmark : (final.kindOf n).any isStep = true ∨
      (final.kindOf n).any isClose = true) : final.accessesOf n = [] := by
  obtain hmem | ⟨d, hd, hinserted⟩ := h.mem_or_inserted (h.streams.shaped.mem_dissolved.mp hn).1
  · obtain ⟨d, hd⟩ : ∃ d, r.label n = some d :=
      (hr.exists_node (n := n) (by simp [hmem])).imp' _ fun _ => Routine.label_eq
    have hplain := hr.plain n hmem _ (kindOf_of_label hd rfl)
    have hmarked : d.marked.kind.isStep = d.kind.isStep ∧
        d.marked.kind.isClose = d.kind.isClose := by
      cases hk : d.kind <;> simp [Node.marked, hk]
    obtain ⟨e, he, hargs, hdest, hkind⟩ : ∃ e, final.label n = some e ∧ e.args = d.args ∧
        (e.dest = d.dest ∨ e.dest = none) ∧ (d.kind.isStep = true ∨ d.kind.isClose = true) := by
      rcases h.label_cases hr hd hmem with he | he | ⟨guarded, goal, he⟩ | ⟨first, sig, he⟩ <;>
        simp only [kindOf, he, map_some, any_some] at hmark
      · exact ⟨_, he, rfl, Or.inl rfl, hmark⟩
      · exact ⟨_, he, rfl, Or.inl rfl, hmarked.1 ▸ hmarked.2 ▸ hmark⟩
      · simp at hmark
      · simp at hmark
    have hbracket : d.kind.isBracket = true := by
      cases hk : d.kind <;> simp_all [isBracket, isLowered]
    obtain ⟨hnil, hnone⟩ := hr.brackets n hmem d hd hbracket
    rw [accessesOf_flat he (by simp [Node.Flat, hargs, hnil])]
    simp_all [Node.accesses]
  · refine h.accessesOf_silent hn ⟨d, hd, hinserted, ?_⟩
    cases hinserted with
    | jump | step => rfl
    | finish sig dest ty =>
      rw [h.kindOf_final (h.streams.shaped.mem_dissolved.mp hn).1 hd (by simp [Node.detached])]
        at hmark
      simp [Node.detached] at hmark

/-- Whatever accesses a variable stands in the step that the walk is in. Nothing does before the
first step, apart from the end of a routine without one. -/
theorem standsIn_of_access (hr : r.Coroutine exit t)
    {x : NodeId × Option NodeId}
    (hx : x ∈ itinerary final exit ((t'.append tail).dissolved cut.kindOf))
    (haccess : final.accessesOf x.1 ≠ []) : (∃ s, x.2 = some s ∧ final.StandsIn s x.1) ∨
      x = (exit, none) ∧ ∀ n ∈ ((t'.append tail).dissolved cut.kindOf).nodes,
      final.accessesOf n = [] := by
  have hwell := h.wellStructured_final hr
  obtain ⟨hearly, hnever⟩ := h.hushed
  obtain ⟨hvisits, hlast⟩ :=
    hwell.toLays.standsIn hwell.shaped fun s (hs : none = some s) => by cases hs
  simp only [itinerary, mem_append, mem_singleton] at hx
  obtain hx | rfl := hx
  · have hmem := mem_of_visits hx
    have hmark := fun hmark => haccess (h.accessesOf_mark hr hmem hmark)
    obtain hnone | ⟨s, hs⟩ := eq_none_or_eq_some x.2
    · exact absurd (h.accessesOf_silent hmem (hearly x hx hnone)) haccess
    · exact Or.inl ⟨s, hs, hvisits x hx s hs (by simpa using fun hstep => hmark (Or.inl hstep))
        (by simpa using fun hclose => hmark (Or.inr hclose))⟩
  · obtain hnone | ⟨s, hs⟩ := eq_none_or_eq_some
      (((t'.append tail).dissolved cut.kindOf).lastStep final.kindOf none)
    · refine Or.inr ⟨by rw [hnone], fun n hn => ?_⟩
      obtain ⟨s, hs⟩ := exists_visit final.kindOf hn none
      exact h.accessesOf_silent hn (hnever hnone _ hs)
    · exact Or.inl ⟨s, hs,
        .back (by rw [hwell.exit_kind]; rfl) (by rw [hwell.prevOf_exit]; rfl) (hlast s hs)⟩

/-- The variables that the walk finds to be shared are those that are used in two different steps.
-/
theorem mem_shared_iff (hr : r.Coroutine exit t) (hv : v ≠ final.mem) :
    v ∈ (({} : StepTour).useEach
      ((itinerary final exit ((t'.append tail).dissolved cut.kindOf)).flatMap
        (usesAt final))).shared ↔
      ∃ n ∈ exit :: ((t'.append tail).dissolved cut.kindOf).nodes,
      ∃ m ∈ exit :: ((t'.append tail).dissolved cut.kindOf).nodes,
        ∃ s s', final.Uses n v ∧ final.Uses m v ∧ final.StandsIn s n ∧
        final.StandsIn s' m ∧ s ≠ s' := by
  set u := (t'.append tail).dissolved cut.kindOf
  have hvisit : ∀ n ∈ exit :: u.nodes, ∃ step, (n, step) ∈ itinerary final exit u := by
    intro n hn
    obtain rfl | hn := mem_cons.mp hn
    · exact ⟨u.lastStep final.kindOf none, by simp [itinerary]⟩
    · exact (exists_visit final.kindOf hn none).imp fun _ hs => mem_append_left _ hs
  have hplace : ∀ x ∈ itinerary final exit u, final.Uses x.1 v → (∃ s, x.2 = some s ∧
      final.StandsIn s x.1) ∨ x = (exit, none) ∧ ∀ n ∈ u.nodes, ¬final.Uses n v := by
    rintro x hx ⟨access, ha⟩
    refine (h.standsIn_of_access hr hx (ne_nil_of_mem ha)).imp_right fun hidle => ⟨hidle.1, ?_⟩
    rintro n hn ⟨access, ha⟩
    simp [hidle.2 n hn] at ha
  by_cases hstep : ∀ x ∈ itinerary final exit u, final.Uses x.1 v → ∃ s, x.2 = some s ∧
    final.StandsIn s x.1
  · rw [StepTour.mem_shared_iff rfl (by simp) fun p hp hpv => ?_]
    · constructor
      · rintro ⟨p, hp, q, hq, rfl, hqv, hdiff⟩
        obtain ⟨-, n, hn, huse⟩ := mem_usesAt_iff.mp hp
        obtain ⟨-, m, hm, huse'⟩ := mem_usesAt_iff.mp hq
        rw [hqv] at huse'
        obtain ⟨s, hs, hstands⟩ := hstep _ hn huse
        obtain ⟨s', hs', hstands'⟩ := hstep _ hm huse'
        exact ⟨n, mem_of_itinerary hn, m, mem_of_itinerary hm, s, s', huse, huse',
          hstands, hstands', fun heq => hdiff (by rw [hs, hs', heq])⟩
      · rintro ⟨n, hn, m, hm, s, s', huse, huse', hstands, hstands', hdiff⟩
        obtain ⟨step, hx⟩ := hvisit n hn
        obtain ⟨step', hx'⟩ := hvisit m hm
        obtain ⟨s₁, rfl, hs₁⟩ := hstep _ hx huse
        obtain ⟨s₂, rfl, hs₂⟩ := hstep _ hx' huse'
        refine ⟨(v, some s₁), mem_usesAt_iff.mpr ⟨hv, n, hx, huse⟩, (v, some s₂),
          mem_usesAt_iff.mpr ⟨hv, m, hx', huse'⟩, rfl, rfl, fun heq => hdiff ?_⟩
        rw [hs₁.unique hstands, hs₂.unique hstands', some.inj heq]
    · obtain ⟨-, n, hn, huse⟩ := mem_usesAt_iff.mp hp
      obtain ⟨s, hs, -⟩ := hstep _ hn (hpv ▸ huse)
      rw [hs]
      rfl
  · -- the routine has no step, and only its end uses the variable
    push Not at hstep
    obtain ⟨x, hx, huse, hnone⟩ := hstep
    obtain ⟨rfl, hidle⟩ := (hplace x hx huse).resolve_left fun hstands => hstands.elim fun s hs =>
      hnone s hs.1 hs.2
    have hend : ∀ n ∈ exit :: u.nodes, final.Uses n v → n = exit := fun n hn huse =>
      (mem_cons.mp hn).resolve_right fun hn => hidle n hn huse
    have hlast : ∀ step, (exit, step) ∈ itinerary final exit u →
        step = u.lastStep final.kindOf none := by
      intro step hstep
      simp only [itinerary, mem_append, mem_singleton, Prod.mk.injEq, true_and] at hstep
      exact hstep.resolve_left fun hmem => h.final_streams.exit_not_mem (mem_of_visits hmem)
    refine iff_of_false (not_mem_shared (Or.inl rfl) (by simp) fun p hp hpv => ?_) ?_
    · obtain ⟨-, n, hn, huse⟩ := mem_usesAt_iff.mp hp
      obtain rfl := hend n (mem_of_itinerary hn) (hpv ▸ huse)
      exact (hlast _ hn).trans (hlast _ hx).symm
    · rintro ⟨n, hn, m, hm, s, s', huse, huse', hstands, hstands', hdiff⟩
      obtain rfl := hend n hn huse
      obtain rfl := hend m hm huse'
      exact hdiff (hstands'.unique hstands)

end Stages

end Routine

/-- Lowering a coroutine and laying out its steps succeeds. Whatever uses a variable then stands in
a step, and the variables that get marked are those that are used in two different steps. -/
theorem Lower.layOutSteps_marks_iff {l : Lowering} {exit : NodeId} {t : Strand}
    (h : l.routine.Coroutine exit t) : Yields lowerToSteps l fun _ l' =>
      Yields layOutSteps l'.toWork fun _ w' => ∃ u, l'.routine.WellStructured exit u ∧
        (∀ n ∈ u.nodes, ∀ v, l'.routine.Uses n v → ∃ s, l'.routine.StandsIn s n) ∧
        ∀ v, v ≠ l'.routine.mem → (w'.routine.CrossesSteps v ↔ l'.routine.CrossesSteps v ∨
          ∃ n ∈ exit :: u.nodes, ∃ m ∈ exit :: u.nodes, ∃ s s',
            l'.routine.Uses n v ∧ l'.routine.Uses m v ∧
            l'.routine.StandsIn s n ∧ l'.routine.StandsIn s' m ∧ s ≠ s') := by
  refine yields_lowerToSteps h fun l' marked cut settled t' tail hstages => ?_
  have hwell := hstages.wellStructured_final h
  refine (yields_layOutSteps (w := l'.toWork) hwell).mono fun _ w' hpost =>
    ⟨_, hwell, fun n hn v huse => ?_, fun v hv =>
      (hpost.2.2.marks v).trans (or_congr_right (hstages.mem_shared_iff h hv))⟩
  obtain ⟨access, ha⟩ := huse
  obtain ⟨step, hstep⟩ := exists_visit l'.routine.kindOf hn none
  rcases hstages.standsIn_of_access h (mem_append_left _ hstep) (ne_nil_of_mem ha) with
    ⟨s, -, hs⟩ | ⟨hend, -⟩
  · exact ⟨s, hs⟩
  · rw [(Prod.mk.inj hend).1] at hn
    exact absurd hn hwell.exit_not_mem

/-- The result of a call that is kept while the coroutine waits. The call that takes it stands in
another step. -/
theorem Lower.layOutSteps_marks_iff_kept :
    let source : Signature := ⟨[], some (.scalar .i32), .default⟩
    let callee : Signature := ⟨[.scalar .i32], none, .default⟩
    let calls : List Instruction :=
      [.tmp none, .call (some 1) source [], .yieldNow, .call none callee [.var 1]]
    ∃ r b' t, Build.finish (Build.play default calls (Build.define "main" default)).1 = .ok r b' ∧
      r.Coroutine 1 t ∧
      Yields lowerToSteps { routine := r } fun _ l' =>
      l'.routine.Uses 2 1 ∧ l'.routine.StandsIn 5 2 ∧ l'.routine.Uses 4 1 ∧
        l'.routine.StandsIn 7 4 ∧ Yields layOutSteps l'.toWork fun _ w' =>
        w'.routine.CrossesSteps 1 := by
  intro source callee calls
  obtain ⟨r, b', -, hfinish, hbuilt, -, hsuspends, hlowered⟩ :=
    Build.exists_main calls (by decide)
    (fun r => r.suspends = .ok true ∧ lowerToSteps.Yields { routine := r } fun _ l' =>
    (1, Access.write) ∈ l'.routine.accessesOf 2 ∧
      (1, Access.read) ∈ l'.routine.accessesOf 4 ∧
      l'.routine.liveNodes = .ok [0, 5, 2, 3, 6, 7, 4, 8, 1] ∧ 1 ≠ l'.routine.mem ∧
      l'.routine.entry = 0 ∧ l'.routine.prevOf 2 = [5] ∧ l'.routine.prevOf 4 = [7] ∧
      [5, 2, 7, 4].map (fun n => (l'.routine.kindOf n).any isStep) =
      [true, false, true, false]) (by decide +kernel)
  obtain ⟨t, ht⟩ := hbuilt.coroutine hsuspends
  refine ⟨r, b', t, hfinish, ht, ?_⟩
  refine ((Lower.layOutSteps_marks_iff (l := { routine := r }) ht).and hlowered).mono
    fun _ l' hboth => ?_
  obtain ⟨hlayout, hwrite, hread, hlive, hmem, hentry, hprev, hprev', hkinds⟩ := hboth
  simp only [map_cons, map_nil, List.cons.injEq, and_true] at hkinds
  have huse : l'.routine.Uses 2 1 := ⟨_, hwrite⟩
  have huse' : l'.routine.Uses 4 1 := ⟨_, hread⟩
  have hstands : l'.routine.StandsIn 5 2 := .back hkinds.2.1 (by rw [hprev]; rfl) (.here hkinds.1)
  have hstands' : l'.routine.StandsIn 7 4 :=
    .back hkinds.2.2.2 (by rw [hprev']; rfl) (.here hkinds.2.2.1)
  refine ⟨huse, hstands, huse', hstands', hlayout.mono fun _ w' hw' => ?_⟩
  obtain ⟨u, hwell, -, hiff⟩ := hw'
  obtain ⟨live, hlive', hperm⟩ := hwell.liveNodes_eq
  obtain rfl := Except.ok.inj (hlive'.symm.trans hlive)
  have hmem' : ∀ n ∈ [2, 4], n ∈ 1 :: u.nodes := fun n hn => by
    have hn' : n ∈ l'.routine.entry :: 1 :: u.nodes := hperm.mem_iff.mp (by revert n; decide)
    refine (mem_cons.mp hn').resolve_left ?_
    rintro rfl
    simp [hentry] at hn
  exact (hiff 1 hmem).mpr (Or.inr ⟨2, hmem' 2 (by simp), 4, hmem' 4 (by simp), 5, 7, huse, huse',
    hstands, hstands', by decide⟩)

/-- A loop that takes the result of a call from the round before. All of it is one step, which the
branch at the end of the round enters again, so that the variable is not marked although it is kept
while the coroutine waits. -/
theorem Lower.layOutSteps_misses_next_round :
    let source : Signature := ⟨[], some (.scalar .i32), .default⟩
    let callee : Signature := ⟨[.scalar .i32], none, .default⟩
    let calls : List Instruction := [.tmp none, .loop, .call none callee [.var 1],
      .call (some 1) source [], .yieldNow, .branch 2, .close]
    ∃ r b' t, Build.finish (Build.play default calls (Build.define "main" default)).1 = .ok r b' ∧
      r.Coroutine 1 t ∧ Yields lowerToSteps { routine := r } fun _ l' => 1 ≠ l'.routine.mem ∧
        l'.routine.Reached 5 ∧ List.IsChain l'.routine.Follows [5, 6, 9, 10, 7, 8, 4] ∧
        (1, .write) ∈ l'.routine.accessesOf 5 ∧ (l'.routine.kindOf 6).any NodeKind.isPause = true ∧
        (1, .read) ∈ l'.routine.accessesOf 4 ∧ (∀ n ∈ [6, 9, 10, 7, 8], ¬l'.routine.Uses n 1) ∧
        Yields layOutSteps l'.toWork fun _ w' => ¬w'.routine.CrossesSteps 1 := by
  intro source callee calls
  obtain ⟨r, b', -, hfinish, hbuilt, -, hsuspends, hlowered⟩ :=
    Build.exists_main calls (by decide)
    (fun r => r.suspends = .ok true ∧ lowerToSteps.Yields { routine := r } fun _ l' =>
    1 ≠ l'.routine.mem ∧
      List.IsChain l'.routine.Follows [l'.routine.entry, 8, 4, 5] ∧
      List.IsChain l'.routine.Follows [5, 6, 9, 10, 7, 8, 4] ∧
      (1, Access.write) ∈ l'.routine.accessesOf 5 ∧
      (l'.routine.kindOf 6).any isPause = true ∧
      (1, Access.read) ∈ l'.routine.accessesOf 4 ∧
      (∀ n ∈ ([6, 9, 10, 7, 8] : List NodeId), l'.routine.accessesOf n = []) ∧
      layOutSteps.Yields l'.toWork fun _ w' =>
      w'.routine.vars[1]?.map Variable.crossesSteps = some false) (by decide +kernel)
  obtain ⟨t, ht⟩ := hbuilt.coroutine hsuspends
  refine ⟨r, b', t, hfinish, ht, hlowered.mono fun _ l' hfacts => ?_⟩
  obtain ⟨hmem, hpath, hround, hwrite, hyield, hread, hidle, hlayout⟩ := hfacts
  refine ⟨hmem, .of_path hpath, hround, hwrite, hyield, hread,
    fun n hn huse => ?_, hlayout.mono fun _ w' hw' => ?_⟩
  · obtain ⟨access, ha⟩ := huse
    simp [hidle n hn] at ha
  · rintro ⟨x, hx, hcrosses⟩
    simp [hx, hcrosses] at hw'

end CoroutineIR
