import CoroutineIR.Proofs.Staging
import CoroutineIR.Step.Layout

/-!
# The walk over the steps

The walk that collects steps meets every node of the stream, and knows the step each of them stands
in: going back along first predecessors, that step is the first one met. So it lists every step and
every pause once, and finds the variables that are used in more than one step.
-/

namespace CoroutineIR

variable {kinds : NodeId → Option NodeKind} {t : Strand} {w : Work}

open List CoroutineIR.Action Attempt Strand Routine StepTour

/-- The step behind a node, given the one in front of it. -/
def stepBehind (kinds : NodeId → Option NodeKind) (step : Option NodeId) (n : NodeId) :
    Option NodeId :=
  if (kinds n).any NodeKind.isStep then some n else step

namespace Strand

/-- The step at the end of a strand. Behind a conditional it is the one at the end of the first arm.
-/
def lastStep (kinds : NodeId → Option NodeKind) : Option NodeId → Strand → Option NodeId
  | step, done => step
  | step, leaf n rest => rest.lastStep kinds (stepBehind kinds step n)
  | step, region _ _ body rest => rest.lastStep kinds (body.lastStep kinds step)
  | step, fork _ _ first _ rest => rest.lastStep kinds (first.lastStep kinds step)

/-- The nodes in the order of the walk, with the steps in front of them. The second arm of a
conditional comes first, and the end of the conditional is met behind either arm. -/
def visits (kinds : NodeId → Option NodeKind) :
    Option NodeId → Strand → List (NodeId × Option NodeId)
  | _, done => []
  | step, leaf n rest => (n, step) :: rest.visits kinds (stepBehind kinds step n)
  | step, region o c body rest =>
    (o, step) :: body.visits kinds step ++ (c,
      body.lastStep kinds step) :: rest.visits kinds (body.lastStep kinds step)
  | step, fork o c first second rest =>
    (o, step) :: second.visits kinds step ++ (c, second.lastStep kinds step) ::
      first.visits kinds step ++ (c, first.lastStep kinds step) ::
      rest.visits kinds (first.lastStep kinds step)

end Strand

/-- The walk along a strand meets its nodes and nothing else. -/
theorem Strand.mem_map_visits {step : Option NodeId} {n : NodeId} :
    n ∈ (t.visits kinds step).map Prod.fst ↔ n ∈ t.nodes := by
  induction t generalizing step with
  | done => simp [visits]
  | leaf m rest ih => simp only [visits, nodes, map_cons, mem_cons, ih]
  | region o c body rest ihb ihr =>
    simp only [visits, nodes, cons_append, map_cons, map_append, mem_cons, mem_append, ihb, ihr]
  | fork o c first second rest iha ihb ihr =>
    simp only [visits, nodes, cons_append, map_cons, map_append, mem_cons,
      mem_append, iha, ihb, ihr]
    tauto

theorem Strand.mem_of_visits {step : Option NodeId} {x : NodeId × Option NodeId}
    (h : x ∈ t.visits kinds step) : x.1 ∈ t.nodes :=
  mem_map_visits.mp (List.mem_map_of_mem h)

namespace StepTour

variable {r : Routine} {n m : NodeId} {tour : StepTour} {step : Option NodeId}
  {stop : Option NodeId} {d : Node} {fuel : Nat} {exit : NodeId}

/-- Take note of a series of uses. -/
def useEach (tour : StepTour) (uses : List (VarId × Option NodeId)) : StepTour :=
    uses.foldl (fun t p => t.use p.2 p.1) tour

/-- The uses of variables that the walk takes note of at a node. -/
def usesAt (r : Routine) (x : NodeId × Option NodeId) : List (VarId × Option NodeId) :=
  (((r.accessesOf x.1).map Prod.fst).filter (· ≠ r.mem)).map (·, x.2)

theorem useAll_eq (tour : StepTour) (mem : VarId) (step : Option NodeId) (vs : List VarId) :
    tour.useAll mem step vs = tour.useEach ((vs.filter (· ≠ mem)).map (·, step)) := by
  induction vs generalizing tour with
  | nil => rfl
  | cons v vs ih =>
    rw [useAll, foldl_cons, ← useAll, ih, filter_cons]
    by_cases hv : v = mem
    · simp [hv]
    · simp [hv, useEach]

/-- Uses are taken note of whatever steps and pauses have been met. -/
theorem useEach_layout (tour : StepTour) (layout : StepLayout)
    (uses : List (VarId × Option NodeId)) : ({ tour with toStepLayout := layout } :
      StepTour).useEach uses = { tour.useEach uses with toStepLayout := layout } := by
  induction uses generalizing tour with
  | nil => rfl
  | cons p uses ih =>
    have huse : ({ tour with toStepLayout := layout } : StepTour).use p.2 p.1 =
        { tour.use p.2 p.1 with toStepLayout := layout } := by
      unfold use
      rcases tour.firstUse.lookup p.1 with _ | _ | seen <;> try rfl
      simp only
      split
      · rfl
      · split <;> rfl
    rw [useEach, foldl_cons, huse]
    exact ih _

/-- What the walk takes note of at a node. -/
def visit (r : Routine) (tour : StepTour) (x : NodeId × Option NodeId) : StepTour :=
  { tour.useEach (usesAt r x) with
    steps := tour.steps ++ if (r.kindOf x.1).any NodeKind.isStep then [x.1] else []
    suspensions := tour.suspensions ++ if (r.kindOf x.1).any NodeKind.isPause then [x.1] else [] }

theorem useAll_accesses (tour : StepTour) (r : Routine) (n : NodeId) (step : Option NodeId) :
    tour.useAll r.mem step ((r.accessesOf n).map Prod.fst) =
    { tour.useEach (usesAt r (n, step)) with toStepLayout := tour.toStepLayout } := by
  rw [useAll_eq, ← useEach_layout]
  rfl

/-- At a node that is neither a step nor a pause only accesses count. -/
theorem visit_of_not (hstep : (r.kindOf n).any NodeKind.isStep = false)
    (hpause : (r.kindOf n).any NodeKind.isPause = false) :
    visit r tour (n, step) = tour.useAll r.mem step ((r.accessesOf n).map Prod.fst) := by
  simp [visit, hstep, hpause, useAll_accesses]

/-- What the walk has found at the nodes it has met. -/
theorem foldl_visit (r : Routine) (xs : List (NodeId × Option NodeId)) (tour : StepTour) :
    xs.foldl (visit r) tour = { tour.useEach (xs.flatMap (usesAt r)) with
      steps := tour.steps ++ (xs.map Prod.fst).filter fun n => (r.kindOf n).any NodeKind.isStep
      suspensions := tour.suspensions ++ (xs.map Prod.fst).filter fun n =>
          (r.kindOf n).any NodeKind.isPause } := by
  induction xs generalizing tour with
  | nil => simp [useEach]
  | cons x xs ih =>
    have hsplit : tour.useEach ((x :: xs).flatMap (usesAt r)) =
        (tour.useEach (usesAt r x)).useEach (xs.flatMap (usesAt r)) := by
      simp [useEach]
    rw [foldl_cons, ih, hsplit, visit, useEach_layout]
    simp only [List.append_assoc, map_cons, filter_cons]
    split <;> split <;> rfl

variable (hacc : r.accesses n = .ok (r.accessesOf n))
include hacc

/-- At the node where it stops the walk only looks at accesses. -/
theorem walkWithin_stop : walkWithin r (fuel + 1) (some n) (some n) step tour =
      .ok (tour.useAll r.mem step ((r.accessesOf n).map Prod.fst)) := by
  rw [walkWithin]
  simp only [hacc, ok_bind, if_true, pure_eq_ok]

/-- At a node with one successor the walk goes on to it. -/
theorem walkWithin_next {kind : NodeKind} (hkind : r.kindOf n = some kind)
    (hnext : r.nextOf n = [m]) (hstop : some n ≠ stop) :
    walkWithin r (fuel + 1) (some n) stop step tour =
      walkWithin r fuel (some m) stop (stepBehind r.kindOf step n) (visit r tour (n, step)) := by
  obtain ⟨d, hd, rfl, hdnext, -⟩ := node_of_kindOf hkind
  rw [hnext] at hdnext
  rw [walkWithin]
  simp only [hacc, ok_bind, if_neg hstop, node_eq_ok_iff.mpr hd, Node.firstNext,
    hdnext, head?_cons, useAll_accesses]
  cases hk : d.kind with
  | enter form region | call form sig =>
    cases form <;> simp [visit, stepBehind, hkind, hk, NodeKind.isPause]
  | _ => simp [visit, stepBehind, hkind, hk, NodeKind.isPause]

/-- At a conditional with two arms the second one is walked first. -/
theorem walkWithin_fork {region : Region} {out : Query StepTour}
    (hkind : r.kindOf n = some (.enter .cond region)) {first second : NodeId}
    (hnext : r.nextOf n = [first, second])
    (hstop : some n ≠ stop) {tour' : StepTour}
    (hsecond : walkWithin r fuel (some second) (some region.close) step (visit r tour (n, step)) =
      .ok tour')
    (hfirst : walkWithin r fuel (some first) stop step tour' = out) :
    walkWithin r (fuel + 1) (some n) stop step tour = out := by
  rw [visit_of_not (by rw [hkind]; rfl) (by rw [hkind]; rfl)] at hsecond
  obtain ⟨d, hd, hdkind, hdnext, -⟩ := node_of_kindOf hkind
  rw [hnext] at hdnext
  rw [walkWithin]
  simp only [hacc, ok_bind, if_neg hstop, node_eq_ok_iff.mpr hd, hdkind, hdnext,
    Node.firstNext, getElem?_cons_succ, getElem?_cons_zero, head?_cons, hsecond, hfirst]

omit hacc

/-- The walk along a strand goes on behind it. -/
theorem walkWithin_eq {src dst : Port} (h : r.Lays src t dst) (hshaped : t.Shaped r.kindOf)
    (hacc : ∀ n ∈ t.nodes, r.accesses n = .ok (r.accessesOf n)) (hnodup : t.nodes.Nodup)
    {stop : NodeId} (hstop : stop ∉ t.nodes)
    (hfuel : t.nodes.length < fuel) {out : Query StepTour}
    (hk : ∀ left, fuel ≤ left + t.nodes.length → walkWithin r left
      (some dst.1) (some stop) (t.lastStep r.kindOf step)
      ((t.visits r.kindOf step).foldl (visit r) tour) = out) :
    walkWithin r fuel (some (t.entryPort dst).1) (some stop) step tour = out := by
  induction t generalizing src dst stop fuel step tour out with
  | done => exact hk fuel (Nat.le_add_right ..)
  | leaf n rest ih =>
    simp only [Strand.nodes, mem_cons, not_or, nodup_cons, length_cons, forall_eq_or_imp]
      at hacc hnodup hstop hfuel hk
    obtain ⟨⟨kind, hkind, -, -⟩, hrest⟩ := hshaped
    obtain _ | fuel := fuel
    · omega
    rw [entryPort_leaf, walkWithin_next hacc.1 hkind h.nextOf_leaf (by simpa using Ne.symm hstop.1)]
    exact ih h.leaf_rest hrest hacc.2 hnodup.2 hstop.2 (by omega) fun left hleft =>
      hk left (by omega)
  | region o c body rest ihb ihr =>
    obtain ⟨hb, hr, -⟩ := nodup_region hnodup
    simp only [forall_region] at hacc
    simp only [mem_region, not_or] at hstop
    simp only [Strand.nodes, length_cons, length_append] at hfuel hk
    obtain ⟨⟨form, suspends, hopen⟩, hclose, hbody, hrest⟩ := hshaped
    have hstay : ∀ x, stepBehind r.kindOf x o = x ∧ stepBehind r.kindOf x c = x := fun x => by
      simp [stepBehind, hopen, hclose]
    obtain _ | fuel := fuel
    · omega
    rw [entryPort_region,
      walkWithin_next hacc.1 hopen h.nextOf_opener (by simpa using Ne.symm hstop.1), (hstay _).1]
    refine ihb h.region_body hbody hacc.2.1 hb hstop.2.1 (by omega) fun left hleft => ?_
    obtain _ | left := left
    · omega
    rw [walkWithin_next hacc.2.2.1 hclose h.nextOf_closer (by simpa using Ne.symm hstop.2.2.1),
      (hstay _).2]
    refine ihr h.region_rest hrest hacc.2.2.2 hr hstop.2.2.2 (by omega) fun left' hleft' => ?_
    simpa [Strand.visits, Strand.lastStep] using hk left' (by omega)
  | fork o c first second rest iha ihb ihr =>
    obtain ⟨ha, hb, hr, -, -, -, -, -, hcb, -⟩ := nodup_fork hnodup
    simp only [forall_fork] at hacc
    simp only [mem_fork, not_or] at hstop
    simp only [Strand.nodes, length_cons, length_append] at hfuel hk
    obtain ⟨⟨suspends, hopen⟩, hclose, hfirst, hsecond, hrest⟩ := hshaped
    obtain _ | fuel := fuel
    · omega
    rw [entryPort_fork]
    -- the walk over the second arm ends at the end of the conditional
    have harm : walkWithin r fuel (some (second.entryPort (c, 1)).1) (some c) step
        (visit r tour (o, step)) =
        .ok ((second.visits r.kindOf step ++ [(c, second.lastStep r.kindOf step)]).foldl (visit r)
        (visit r tour (o, step))) := by
      refine ihb h.fork_second hsecond hacc.2.2.1 hb hcb (by omega) fun left hleft => ?_
      obtain _ | left := left
      · omega
      rw [walkWithin_stop hacc.2.2.2.1, ← visit_of_not (by rw [hclose]; rfl) (by rw [hclose]; rfl),
        foldl_append]
      rfl
    refine walkWithin_fork hacc.1 hopen h.nextOf_fork (by simpa using Ne.symm hstop.1) harm ?_
    refine iha h.fork_first hfirst hacc.2.1 ha hstop.2.1 (by omega) fun left hleft => ?_
    obtain _ | left := left
    · omega
    have hstay :
        stepBehind r.kindOf (first.lastStep r.kindOf step) c = first.lastStep r.kindOf step := by
      simp [stepBehind, hclose]
    rw [walkWithin_next hacc.2.2.2.1 hclose h.nextOf_join (by simpa using Ne.symm hstop.2.2.2.1),
      hstay]
    refine ihr h.fork_rest hrest hacc.2.2.2.2 hr hstop.2.2.2.2 (by omega) fun left' hleft' => ?_
    simpa [Strand.visits, Strand.lastStep] using hk left' (by omega)

/-- The nodes that the walk over the body of a routine meets, with the steps in front of them. -/
def itinerary (r : Routine) (exit : NodeId) (t : Strand) : List (NodeId × Option NodeId) :=
  t.visits r.kindOf none ++ [(exit, t.lastStep r.kindOf none)]

theorem mem_of_itinerary {x : NodeId × Option NodeId} (h : x ∈ itinerary r exit t) :
    x.1 ∈ exit :: t.nodes := by
  simp only [itinerary, mem_append, mem_singleton] at h
  rcases h with h | rfl
  · exact mem_cons_of_mem _ (mem_of_visits h)
  · exact mem_cons_self

/-- The walk over the body of a routine. -/
theorem walk_eq (h : r.WellStructured exit t) :
    walk r = .ok ((itinerary r exit t).foldl (visit r) {}) := by
  obtain ⟨d, hnode, hfirst, hfuel⟩ := h.exists_walk
  have hacc : ∀ n ∈ r.live exit t, r.accesses n = .ok (r.accessesOf n) := fun n hn =>
    accesses_of_nested (h.nested_eq hn)
  simp only [walk, node_eq_ok_iff.mpr hnode, h.exit_eq, hfirst, ok_bind]
  refine walkWithin_eq h.toLays h.shaped (fun n hn => hacc n (by simp [hn])) h.nodup_nodes
    h.exit_not_mem (by omega) fun left hleft => ?_
  obtain _ | left := left
  · omega
  rw [walkWithin_stop (hacc exit (by simp)), ← visit_of_not (by rw [h.exit_kind]; rfl)
    (by rw [h.exit_kind]; rfl), itinerary, foldl_append, foldl_cons, foldl_nil]

end StepTour

/-- The walk meets every node once, apart from the ends of regions. -/
theorem Strand.filter_visits {f : NodeId → Bool} (hshaped : t.Shaped kinds)
    (hclose : ∀ c o, kinds c = some (.close o) → f c = false) (step : Option NodeId) :
    (((t.visits kinds step).map Prod.fst).filter f).Perm (t.nodes.filter f) := by
  induction t generalizing step with
  | done => exact .refl _
  | leaf n rest ih =>
    simp only [visits, nodes, map_cons, filter_cons]
    split
    · exact (ih hshaped.2 _).cons n
    · exact ih hshaped.2 _
  | region o c body rest ihb ihr =>
    obtain ⟨-, hc, hbody, hrest⟩ := hshaped
    simp only [visits, nodes, map_cons, map_append, cons_append, filter_cons, filter_append,
      hclose c o hc,
      Bool.false_eq_true, if_false]
    have hparts := (ihb hbody step).append (ihr hrest (body.lastStep kinds step))
    split
    · exact hparts.cons o
    · exact hparts
  | fork o c first second rest iha ihb ihr =>
    obtain ⟨-, hc, hfirst, hsecond, hrest⟩ := hshaped
    simp only [visits, nodes, map_cons, map_append, cons_append, List.append_assoc, filter_cons,
      filter_append, hclose c o hc, Bool.false_eq_true, if_false]
    have hparts :=
      (ihb hsecond step).append ((iha hfirst step).append (ihr hrest (first.lastStep kinds step)))
    have hswap : (second.nodes.filter f ++ (first.nodes.filter f ++ rest.nodes.filter f)).Perm
        (first.nodes.filter f ++ (second.nodes.filter f ++ rest.nodes.filter f)) :=
        perm_append_comm_assoc ..
    split
    · exact (hparts.trans hswap).cons o
    · exact hparts.trans hswap

/-! ### Variables used in more than one step -/

namespace StepTour

variable {tour : StepTour} {v : VarId} {s : NodeId} {uses : List (VarId × Option NodeId)}

/-- The use of a variable leaves the others alone. -/
theorem use_of_ne {u : VarId} (hu : u ≠ v) (tour : StepTour) (step : Option NodeId) :
    (tour.use step u).firstUse.lookup v = tour.firstUse.lookup v ∧
    (v ∈ (tour.use step u).shared ↔ v ∈ tour.shared) := by
  unfold use
  split
  · split
    · exact ⟨rfl, Iff.rfl⟩
    · split
      · exact ⟨rfl, Iff.rfl⟩
      · exact ⟨rfl, by simp [Ne.symm hu]⟩
  · refine ⟨?_, Iff.rfl⟩
    have hne : (v == u) = false := by simpa using Ne.symm hu
    rw [lookup_cons, hne]

/-- The first use in a step. -/
theorem use_first (h : tour.firstUse.lookup v = none ∨ tour.firstUse.lookup v = some none)
    (step : Option NodeId) : (tour.use step v).firstUse.lookup v = some step ∧
    (tour.use step v).shared = tour.shared := by
  obtain h | h := h <;> simp [use, h]

/-- Another use. -/
theorem use_again (h : tour.firstUse.lookup v = some (some s)) (step : Option NodeId) :
    (tour.use step v).firstUse.lookup v = some (some s) ∧
    (v ∈ (tour.use step v).shared ↔ v ∈ tour.shared ∨ step ≠ some s) := by
  unfold use
  simp only [h]
  split
  · rename_i heq
    exact ⟨h, by simp [heq]⟩
  · rename_i hne
    split
    · rename_i hmem
      exact ⟨h, by simp [hmem]⟩
    · exact ⟨h, by simp [Ne.symm hne]⟩

/-- Once the first step is known, a use in any other one counts. -/
theorem mem_shared_of_first (h : tour.firstUse.lookup v = some (some s))
    (uses : List (VarId × Option NodeId)) : v ∈ (tour.useEach uses).shared ↔
    v ∈ tour.shared ∨ ∃ p ∈ uses, p.1 = v ∧ p.2 ≠ some s := by
  induction uses generalizing tour with
  | nil => simp [useEach]
  | cons p uses ih =>
    rw [useEach, foldl_cons, ← useEach]
    by_cases hp : p.1 = v
    · obtain ⟨hfirst, hshared⟩ := use_again h p.2
      rw [hp, ih hfirst, hshared]
      simp [hp, or_assoc]
    · obtain ⟨hfirst, hshared⟩ := use_of_ne hp tour p.2
      rw [ih (hfirst.trans h), hshared]
      simp [hp]

/-- A variable is shared if it is used in two different steps. -/
theorem mem_shared_iff (hfirst : tour.firstUse.lookup v = none) (hnot : v ∉ tour.shared)
    (hsome : ∀ p ∈ uses, p.1 = v → p.2.isSome = true) :
    v ∈ (tour.useEach uses).shared ↔ ∃ p ∈ uses, ∃ q ∈ uses, p.1 = v ∧ q.1 = v ∧ p.2 ≠ q.2 := by
  induction uses generalizing tour with
  | nil => simp [useEach, hnot]
  | cons p uses ih =>
    rw [forall_mem_cons] at hsome
    rw [useEach, foldl_cons, ← useEach]
    by_cases hp : p.1 = v
    · obtain ⟨s, hs⟩ := Option.isSome_iff_exists.mp (hsome.1 hp)
      obtain ⟨hnew, hshared⟩ := use_first (Or.inl hfirst) p.2
      rw [hp, mem_shared_of_first (hnew.trans (by rw [hs])), hshared]
      constructor
      · rintro (hmem | ⟨q, hq, hqv, hne⟩)
        · exact absurd hmem hnot
        · exact ⟨p, by simp, q, by simp [hq], hp, hqv, fun heq => hne (heq ▸ hs)⟩
      · rintro ⟨q, hq, q', hq', hqv, hqv', hne⟩
        refine Or.inr ?_
        -- one of the two is in another step than the first use
        by_cases hqs : q.2 = some s
        · have hother : q'.2 ≠ some s := fun heq => hne (hqs.trans heq.symm)
          obtain rfl | hq' := mem_cons.mp hq'
          · exact absurd hs hother
          · exact ⟨q', hq', hqv', hother⟩
        · obtain rfl | hq := mem_cons.mp hq
          · exact absurd hs hqs
          · exact ⟨q, hq, hqv, hqs⟩
    · obtain ⟨hsame, hshared⟩ := use_of_ne hp tour p.2
      rw [ih (hsame.trans hfirst) (fun hmem => hnot (hshared.mp hmem)) hsome.2]
      simp [hp]

/-- A variable that is only used before the first step is not shared. -/
theorem not_mem_shared (hfirst : tour.firstUse.lookup v = none ∨ tour.firstUse.lookup v = some none)
    (hnot : v ∉ tour.shared) (hnone : ∀ p ∈ uses, p.1 = v → p.2 = none) :
    v ∉ (tour.useEach uses).shared := by
  induction uses generalizing tour with
  | nil => exact hnot
  | cons p uses ih =>
    rw [forall_mem_cons] at hnone
    rw [useEach, foldl_cons, ← useEach]
    by_cases hp : p.1 = v
    · obtain ⟨hnew, hshared⟩ := use_first hfirst p.2
      rw [hp]
      exact ih (Or.inr (hnew.trans (by rw [hnone.1 hp]))) (hshared ▸ hnot) hnone.2
    · obtain ⟨hsame, hshared⟩ := use_of_ne hp tour p.2
      exact ih (by rwa [hsame]) (fun hmem => hnot (hshared.mp hmem)) hnone.2

end StepTour

namespace Routine

variable {r r' : Routine} {n m s : NodeId} {v : VarId} {vs : List VarId}

/-- A variable is marked as used in more than one step. -/
def CrossesSteps (r : Routine) (v : VarId) : Prop :=
    ∃ x, r.vars[v]? = some x ∧ x.crossesSteps = true

/-- Going back from a node along first predecessors, the step is the first one met. -/
inductive StandsIn (r : Routine) (s : NodeId) : NodeId → Prop
  | here (hkind : (r.kindOf s).any NodeKind.isStep = true) : StandsIn r s s
  | back {n m : NodeId} (hkind : (r.kindOf n).any NodeKind.isStep = false)
    (hprev : (r.prevOf n).head? = some m) (hstep : StandsIn r s m) : StandsIn r s n

/-- A node stands in one step only. -/
theorem StandsIn.unique {s' : NodeId} (h : r.StandsIn s n) (h' : r.StandsIn s' n) : s' = s := by
  induction h with
  | here hkind =>
    cases h' with
    | here => rfl
    | back hkind' => simp [hkind] at hkind'
  | back hkind hprev _ ih =>
    cases h' with
    | here hkind' => simp [hkind'] at hkind
    | back _ hprev' hstep' => exact ih (Option.some.inj (hprev'.symm.trans hprev) ▸ hstep')

/-- The walk knows the step that a node stands in. Only the end of a conditional is also met from
its second arm. -/
theorem Lays.standsIn {src dst : Port} (h : r.Lays src t dst) (hshaped : t.Shaped r.kindOf)
    {step : Option NodeId} (hstep : ∀ s, step = some s → r.StandsIn s src.1) :
    (∀ x ∈ t.visits r.kindOf step, ∀ s, x.2 = some s → (r.kindOf x.1).any NodeKind.isStep = false →
      (r.kindOf x.1).any NodeKind.isClose = false → r.StandsIn s x.1) ∧
    ∀ s, t.lastStep r.kindOf step = some s → r.StandsIn s (t.exitPort src).1 := by
  induction t generalizing src dst step with
  | done => exact ⟨by simp [Strand.visits], hstep⟩
  | leaf n rest ih =>
    have hahead : ∀ s, step = some s → (r.kindOf n).any NodeKind.isStep = false → r.StandsIn s n :=
      fun s hs hn => .back hn (by rw [h.prevOf_leaf]; rfl) (hstep s hs)
    have hbehind : ∀ s, stepBehind r.kindOf step n = some s → r.StandsIn s n := fun s hs => by
      unfold stepBehind at hs
      split at hs
      · rename_i hn
        rw [← Option.some.inj hs]
        exact .here hn
      · rename_i hn
        exact hahead s hs (by simpa using hn)
    obtain ⟨hvisits, hlast⟩ := ih h.leaf_rest hshaped.2 hbehind
    exact ⟨forall_mem_cons.mpr ⟨fun s hs hn _ => hahead s hs hn, hvisits⟩, hlast⟩
  | region o c body rest ihb ihr =>
    obtain ⟨⟨form, suspends, hopen⟩, hclose, hbody, hrest⟩ := hshaped
    have ho : ∀ s, step = some s → r.StandsIn s o := fun s hs =>
      .back (by rw [hopen]; rfl) (by rw [h.prevOf_opener]; rfl) (hstep s hs)
    obtain ⟨hinner, hlast⟩ := ihb h.region_body hbody ho
    have hc : ∀ s, body.lastStep r.kindOf step = some s → r.StandsIn s c := fun s hs =>
      .back (by rw [hclose]; rfl) (by rw [h.prevOf_closer]; rfl) (hlast s hs)
    obtain ⟨hbehind, hend⟩ := ihr h.region_rest hrest hc
    refine ⟨?_, hend⟩
    simp only [Strand.visits, cons_append, forall_mem_cons, forall_mem_append]
    exact ⟨fun s hs _ _ => ho s hs, hinner, fun s hs _ _ => hc s hs, hbehind⟩
  | fork o c first second rest iha ihb ihr =>
    obtain ⟨⟨suspends, hopen⟩, hclose, hfirst, hsecond, hrest⟩ := hshaped
    have ho : ∀ s, step = some s → r.StandsIn s o := fun s hs =>
      .back (by rw [hopen]; rfl) (by rw [h.prevOf_fork]; rfl) (hstep s hs)
    obtain ⟨hthen, hlast⟩ := iha h.fork_first hfirst ho
    obtain ⟨helse, -⟩ := ihb h.fork_second hsecond ho
    have hc : ∀ s, first.lastStep r.kindOf step = some s → r.StandsIn s c := fun s hs =>
      .back (by rw [hclose]; rfl) (by rw [h.prevOf_join]; rfl) (hlast s hs)
    obtain ⟨hbehind, hend⟩ := ihr h.fork_rest hrest hc
    refine ⟨?_, hend⟩
    simp only [Strand.visits, cons_append, List.append_assoc, forall_mem_cons, forall_mem_append]
    refine ⟨fun s hs _ _ => ho s hs, helse, fun s _ _ hnot => ?_, hthen,
      fun s hs _ _ => hc s hs, hbehind⟩
    rw [hclose] at hnot
    cases hnot

/-- Nothing but the marks of the given variables changes. -/
structure Crosses (r r' : Routine) (vs : List VarId) : Prop extends r.Adds r' [] where
  marks : ∀ v, r'.CrossesSteps v ↔ r.CrossesSteps v ∨ v ∈ vs

theorem crosses_nil (r : Routine) : r.Crosses r [] := ⟨.refl r, by simp⟩

theorem Crosses.alterVar (h : r.Crosses r' vs) (hv : v < r.vars.size) :
    r.Crosses (r'.alterVar v ({ · with crossesSteps := true })) (vs ++ [v]) := by
  have hv' : v < r'.vars.size := h.size.symm ▸ hv
  refine ⟨h.toAdds.trans (.alterVar hv' fun _ => rfl), fun u => ?_⟩
  rw [mem_append, mem_singleton, ← or_assoc, ← h.marks]
  simp only [CrossesSteps, getElem?_alterVar]
  by_cases huv : u = v
  · subst huv
    simp [Array.getElem?_eq_getElem hv']
  · simp [huv]

end Routine

/-- Marking variables. -/
theorem yields_markCrossing {r : Routine} {before vs : List VarId} (h : r.Crosses w.routine before)
    (hvs : ∀ v ∈ vs, v < r.vars.size) :
    Yields (vs.forM fun v => (Edit.changeVar v ({ · with crossesSteps := true }) : Pass Unit)) w
    fun _ w' =>
      r.Crosses w'.routine (before ++ vs) := by
  induction vs generalizing w before with
  | nil => simpa using h
  | cons v vs ih =>
    rw [forall_mem_cons] at hvs
    rw [List.forM_eq_forM, forM_cons, yields_bind, Pass.yields_lift, Edit.yields_changeVar,
      ← List.forM_eq_forM]
    refine ⟨h.size.symm ▸ hvs.1, ?_⟩
    have hrest :=
      ih (w := { w with routine := w.routine.alterVar v ({ · with crossesSteps := true }) })
      (h.alterVar hvs.1) hvs.2
    rwa [List.append_assoc, singleton_append] at hrest

/-- Laying out the steps succeeds on every well-structured routine. It lists every step and every
pause once and marks what the walk has found to be shared. -/
theorem yields_layOutSteps {exit : NodeId} (h : w.routine.WellStructured exit t) :
    Yields layOutSteps w fun layout w' =>
      layout.steps.Perm (t.nodes.filter fun n => (w.routine.kindOf n).any NodeKind.isStep) ∧
      layout.suspensions.Perm (t.nodes.filter fun n => (w.routine.kindOf n).any NodeKind.isPause) ∧
      w.routine.Crosses w'.routine (({} : StepTour).useEach
        ((StepTour.itinerary w.routine exit t).flatMap (StepTour.usesAt w.routine))).shared := by
  have hends : ∀ f : NodeKind → Bool, (∀ o, f (.close o) = false) →
      (((StepTour.itinerary w.routine exit t).map Prod.fst).filter fun n => (w.routine.kindOf n).any
      f).Perm (t.nodes.filter fun n => (w.routine.kindOf n).any f) := fun f hf => by
    have hparts := filter_visits h.shaped (f := fun n => (w.routine.kindOf n).any f)
      (fun c o hc => by rw [hc]; exact hf o) none
    simpa [StepTour.itinerary, h.exit_kind, hf] using hparts
  unfold layOutSteps
  simp only [yields_bind, Pass.yields_ask, walk_eq h, foldl_visit, nil_append,
    Except.ok.injEq, exists_eq_left', Pass.summarize, Pass.yields_note, yields_pure]
  refine (yields_markCrossing (crosses_nil w.routine) fun v hv => ?_).mono fun _ w' hw' =>
    ⟨hends _ fun _ => rfl, hends _ fun _ => rfl, hw'⟩
  · -- what is shared is used at some node of the stream
    obtain ⟨p, hp, rfl⟩ : ∃ p ∈ (StepTour.itinerary w.routine exit t).flatMap
        (StepTour.usesAt w.routine), p.1 = v := by
      by_contra hnone
      exact not_mem_shared (Or.inl rfl) (by simp)
        (fun p hp hpv => absurd ⟨p, hp, hpv⟩ hnone) hv
    obtain ⟨x, hx, hp⟩ := mem_flatMap.mp hp
    obtain ⟨u, hu, rfl⟩ := List.mem_map.mp hp
    obtain ⟨a, ha, rfl⟩ := List.mem_map.mp (mem_of_mem_filter hu)
    exact h.lt_of_access
      (mem_flatMap.mpr ⟨x.1, mem_cons_of_mem _ (mem_of_itinerary hx), ha⟩)

end CoroutineIR
