import CoroutineIR.Collector.Liveness
import CoroutineIR.Proofs.Events
import CoroutineIR.Proofs.Flow
import Mathlib.Algebra.BigOperators.Ring.Finset
import Mathlib.Algebra.Order.BigOperators.Group.Finset

/-!
# Liveness across collections

A variable is alive behind a node if some path of the flow leads to a node that reads it and none in
between writes it. The iteration with a worklist computes exactly the variables alive at
collections: what it has found at any moment is alive, and a node that is not waiting on the
worklist satisfies its equation. The fuel is enough because a node is put on the worklist again only
for a variable that has come alive behind it.
-/

namespace CoroutineIR

open List Attempt Arena Routine

namespace UniqueStack

variable {α : Type} [DecidableEq α]

theorem mem_items_pushAll {s : UniqueStack α} {as : List α} {a : α} :
    a ∈ (s.pushAll as).items ↔ a ∈ s.items ∨ a ∈ as := by
  unfold pushAll
  induction as generalizing s with
  | nil => simp
  | cons b as ih =>
    rw [foldl_cons, ih, items_push]
    split
    · rename_i hb
      constructor
      · rintro (ha | ha)
        · exact Or.inl ha
        · exact Or.inr (mem_cons_of_mem _ ha)
      · rintro (ha | ha)
        · exact Or.inl ha
        · rcases mem_cons.mp ha with rfl | ha
          · exact Or.inl hb
          · exact Or.inr ha
    · simp [or_assoc]

theorem mem_items_ofList {as : List α} {a : α} : a ∈ (ofList as).items ↔ a ∈ as := by
  simp [ofList, mem_items_pushAll]

theorem length_items_pushAll_le (s : UniqueStack α) (as : List α) :
    (s.pushAll as).items.length ≤ s.items.length + as.length := by
  unfold pushAll
  induction as generalizing s with
  | nil => simp
  | cons b as ih =>
    have hrest := ih (s.push b)
    have hpush : (s.push b).items.length ≤ s.items.length + 1 := by
      rw [items_push]
      split <;> simp
    rw [foldl_cons, length_cons]
    omega

end UniqueStack

/-- A set that gains a member below the bound has more of them. -/
theorem BitSet.length_members_lt {s t : BitSet} {bound : Nat}
    (hsub : ∀ v, s.contains v = true → t.contains v = true)
    (hbound : ∀ v, t.contains v = true → v < bound) (hne : t ≠ s) :
    (s.members bound).length < (t.members bound).length := by
  have hcard : ∀ u : BitSet, (u.members bound).length = (u.members bound).toFinset.card := fun u =>
    (toFinset_card_of_nodup (Nodup.filter _ nodup_range)).symm
  rw [hcard, hcard]
  refine Finset.card_lt_card ((Finset.ssubset_iff_of_subset ?_).mpr ?_)
  · intro v hv
    simp only [List.mem_toFinset, mem_members] at hv ⊢
    exact ⟨hv.1, hsub v hv.2⟩
  · by_contra hall
    refine hne (ext_contains fun v => Bool.eq_iff_iff.mpr ⟨fun hv => ?_, hsub v⟩)
    by_contra hv'
    exact hall ⟨v, by simp [hbound v hv, hv], by simp [hv']⟩

namespace Routine

variable {r : Routine} {results : List VarId} {n : NodeId}

/-- Some path of the flow leads from behind a node to a read of the variable, and nothing on it
writes the variable before. -/
inductive AliveBehind (r : Routine) (results : List VarId) (v : VarId) : NodeId → Prop
  | read {n m : NodeId} (hm : r.Follows n m)
    (h : ReadsFirst v (r.ownEvents m ++ r.finalReads results m)) : AliveBehind r results v n
  | pass {n m : NodeId} (hm : r.Follows n m) (hwrite : .write v ∉ r.ownEvents m)
    (h : AliveBehind r results v m) : AliveBehind r results v n

/-- During some event of a node the collector may run while the variable waits as an operand, or
while its value is still read later. -/
def CollectsAt (r : Routine) (results : List VarId) (v : VarId) (n : NodeId) : Prop :=
  (∃ x ∈ n :: r.below n, r.Outlasts x (.var v)) ∨
    ∃ before waiting behind, r.ownEvents n = before ++ .collect waiting :: behind ∧
      (ReadsFirst v (behind ++ r.finalReads results n) ∨ .write v ∉ behind ∧
      r.AliveBehind results v n)

theorem exists_read_of_mem_finalReads {e : Event} (h : e ∈ r.finalReads results n) :
    ∃ v, e = .read v := by
  unfold finalReads at h
  split at h
  · obtain ⟨v, -, rfl⟩ := List.mem_map.mp h
    exact ⟨v, rfl⟩
  · simp at h

theorem write_notMem_finalReads {v : VarId} : .write v ∉ r.finalReads results n := fun h => by
  obtain ⟨_, h⟩ := exists_read_of_mem_finalReads h
  cases h

theorem collect_notMem_finalReads {waiting : List Waiting} :
    .collect waiting ∉ r.finalReads results n := fun h => by
  obtain ⟨_, h⟩ := exists_read_of_mem_finalReads h
  cases h

end Routine

namespace Collector.Problem

variable {p : Problem} {temps : NodeId → Prop} {alive : VarId → Prop} {v : VarId} {e : Event}
    {es : List Event}

/-- A variable of the routine that may hold a pointer. -/
def Tracks (p : Problem) (v : VarId) : Prop := p.tracked.contains v = true

/-- The variables among what waits that are traced. -/
theorem waitingVars_eq {waiting : List Waiting}
    (h : ∀ x ∈ waiting, x.Mentions (· < p.routine.vars.size) temps) :
    ∃ vs, p.waitingVars waiting = .ok vs ∧ ∀ v, v ∈ vs ↔ .var v ∈ waiting ∧ p.Tracks v := by
  induction waiting with
  | nil => exact ⟨[], rfl, by simp⟩
  | cons x waiting ih =>
    simp only [forall_mem_cons] at h
    obtain ⟨vs, hvs, hmem⟩ := ih h.2
    cases x with
    | lit | temp n => exact ⟨vs, hvs, by simpa using hmem⟩
    | var u =>
      refine ⟨(if p.tracked.contains u then [u] else []) ++ vs, ?_, fun v => ?_⟩
      · have hu : u < p.routine.vars.size := h.1
        simp only [waitingVars, isTracked, if_pos hu, hvs, ok_bind]
        rfl
      · rw [mem_append, hmem, mem_cons, Waiting.var.injEq, or_and_right]
        refine or_congr_left ⟨fun hv => ?_, fun hv => ?_⟩
        · split at hv
          · obtain rfl := mem_singleton.mp hv
            exact ⟨rfl, ‹_›⟩
          · cases hv
        · obtain ⟨rfl, ht⟩ := hv
          unfold Tracks at ht
          rw [if_pos ht]
          exact mem_singleton_self v

/-- What comes alive in front of events, given what is alive behind them. -/
def Revives (p : Problem) (es : List Event) (alive : VarId → Prop) (v : VarId) : Prop :=
  p.Tracks v ∧ ReadsFirst v es ∨ .write v ∉ es ∧ alive v

/-- What has to be marked for a collection among events, given what is alive behind them. -/
def Exposes (p : Problem) (es : List Event) (alive : VarId → Prop) (v : VarId) : Prop :=
  ∃ before waiting behind, es = before ++ .collect waiting :: behind ∧
    (p.Tracks v ∧ .var v ∈ waiting ∨ p.Revives behind alive v)

theorem revives_cons : p.Revives (e :: es) alive v ↔
    p.Tracks v ∧ e = .read v ∨ e ≠ .write v ∧ p.Revives es alive v := by
  unfold Revives
  rw [readsFirst_cons, mem_cons, not_or, ne_comm]
  by_cases hread : e = .read v
  · simp only [hread, ne_eq, reduceCtorEq, not_false_eq_true, true_and, and_true, true_or]
    tauto
  · simp only [hread, false_or, and_false]
    tauto

/-- A collection exposes what waits and what is alive behind it. -/
theorem exposes_cons : p.Exposes (e :: es) alive v ↔ (∃ waiting, e = .collect waiting ∧
        (p.Tracks v ∧ .var v ∈ waiting ∨ p.Revives es alive v)) ∨ p.Exposes es alive v := by
  constructor
  · rintro ⟨before, waiting, behind, heq, h⟩
    cases before with
    | nil =>
      obtain ⟨rfl, rfl⟩ := List.cons.inj heq
      exact Or.inl ⟨waiting, rfl, h⟩
    | cons e' before =>
      obtain ⟨rfl, rfl⟩ := List.cons.inj heq
      exact Or.inr ⟨before, waiting, behind, rfl, h⟩
  · rintro (⟨waiting, rfl, h⟩ | ⟨before, waiting, behind, rfl, h⟩)
    · exact ⟨[], waiting, es, rfl, h⟩
    · exact ⟨e :: before, waiting, behind, rfl, h⟩

/-- Going back over events. -/
theorem undoAll_eq (h : ∀ e ∈ es, e.Mentions (· < p.routine.vars.size) temps)
    (alive marked : BitSet) : ∃ alive' marked', p.undoAll es alive marked = .ok (alive', marked') ∧
      (∀ v, alive'.contains v = true ↔ p.Revives es (alive.contains · = true) v) ∧
      ∀ v, marked'.contains v = true ↔ marked.contains v = true ∨
      p.Exposes es (alive.contains · = true) v := by
  induction es with
  | nil => exact ⟨alive, marked, rfl, by simp [Revives, readsFirst_nil], by simp [Exposes]⟩
  | cons e es ih =>
    simp only [forall_mem_cons] at h
    obtain ⟨alive', marked', hrun, halive, hmarked⟩ := ih h.2
    simp only [undoAll, hrun, ok_bind, revives_cons, exposes_cons]
    cases e with
    | write u =>
      have hu : u < p.routine.vars.size := h.1
      refine ⟨alive'.erase u, marked', by simp only [undo, if_pos hu], fun v => ?_, fun v => ?_⟩
      · rw [BitSet.contains_erase, Bool.and_eq_true, halive]
        simp [and_comm]
      · rw [hmarked]
        simp
    | read u =>
      have hu : u < p.routine.vars.size := h.1
      refine ⟨if p.tracked.contains u then alive'.insert u else alive', marked', ?_,
        fun v => ?_, fun v => ?_⟩
      · simp only [undo, isTracked, if_pos hu, ok_bind]
        rfl
      · unfold Tracks
        split
        · rename_i htracked
          simp only [BitSet.contains_insert, Bool.or_eq_true, halive, decide_eq_true_eq,
            Event.read.injEq, ne_eq, reduceCtorEq, not_false_eq_true, true_and]
          constructor
          · rintro (hv | rfl)
            · exact Or.inr hv
            · exact Or.inl ⟨htracked, rfl⟩
          · rintro (⟨-, rfl⟩ | hv)
            · exact Or.inr rfl
            · exact Or.inl hv
        · rename_i htracked
          simp only [halive, Event.read.injEq, ne_eq, reduceCtorEq, not_false_eq_true, true_and]
          constructor
          · exact Or.inr
          · rintro (⟨hv, rfl⟩ | hv)
            · exact absurd hv htracked
            · exact hv
      · rw [hmarked]
        simp
    | collect waiting =>
      obtain ⟨vs, hvs, hmem⟩ := waitingVars_eq h.1
      refine ⟨alive', vs.foldl BitSet.insert (marked'.union alive'), ?_, fun v => ?_, fun v => ?_⟩
      · simp only [undo, hvs, ok_bind]
        rfl
      · rw [halive]
        simp
      · rw [BitSet.contains_foldl_insert, Bool.or_eq_true, decide_eq_true_eq, BitSet.contains_union,
          Bool.or_eq_true, hmarked, halive, hmem]
        simp only [Event.collect.injEq, exists_eq_left']
        tauto

/-- The equations are those of a well-structured routine. -/
structure Poses (p : Problem) (exit : NodeId) (t : Strand) : Prop where
  routine : p.routine.WellStructured exit t
  tracked : ∀ v, p.Tracks v → v < p.routine.vars.size
  results : ∀ v ∈ p.results, v < p.routine.vars.size
  preds_size : p.preds.size = p.routine.nodes.size
  preds : ∀ m l, p.preds[m]? = some l →
    ∀ n, n ∈ l ↔ n ∈ p.routine.entry :: exit :: t.nodes ∧ m ∈ p.routine.flow n

/-- All events of a node. -/
def eventsOf (p : Problem) (n : NodeId) : List Event :=
    p.routine.ownEvents n ++ p.routine.finalReads p.results n

/-- What has been found to be alive in front of a node. -/
def Before (s : Solution) (n : NodeId) (v : VarId) : Prop :=
    ∃ alive, s.aliveBefore[n]? = some alive ∧ alive.contains v = true

/-- What has been found to be alive behind a node. -/
def Behind (p : Problem) (s : Solution) (n : NodeId) (v : VarId) : Prop :=
    ∃ m ∈ p.routine.flow n, Before s m v

/-- What has been found so far is right, and each node can only gain. -/
structure Approximates (p : Problem) (exit : NodeId) (t : Strand) (s : Solution) : Prop where
  size : s.aliveBefore.size = p.routine.nodes.size
  sound : ∀ n ∈ p.routine.entry :: exit :: t.nodes, ∀ v, Before s n v →
    p.Tracks v ∧ p.Revives (p.eventsOf n) (p.routine.AliveBehind p.results · n) v
  rising : ∀ n ∈ p.routine.entry :: exit :: t.nodes, ∀ v, Before s n v →
    p.Revives (p.eventsOf n) (p.Behind s n) v
  marked : ∀ v, s.marked.contains v = true →
    p.Tracks v ∧ ∃ n ∈ p.routine.entry :: exit :: t.nodes,
    p.Exposes (p.eventsOf n) (p.routine.AliveBehind p.results · n) v

/-- The equation of a node holds, and what it asks for is marked. -/
structure Settled (p : Problem) (s : Solution) (n : NodeId) : Prop where
  alive : ∀ v, p.Revives (p.eventsOf n) (p.Behind s n) v → Before s n v
  marked : ∀ v, p.Exposes (p.eventsOf n) (p.Behind s n) v → s.marked.contains v = true

section Solving

variable {exit n m : NodeId} {t : Strand} {s s' : Solution}
  {alive' : VarId → Prop} {worklist : UniqueStack NodeId} {S : NodeId → Prop}

theorem Revives.mono (h : p.Revives es alive v) (himp : alive v → alive' v) :
    p.Revives es alive' v :=
  h.imp_right (And.imp_right himp)

theorem Exposes.mono (h : p.Exposes es alive v) (himp : alive v → alive' v) :
    p.Exposes es alive' v := by
  obtain ⟨before, waiting, behind, heq, h⟩ := h
  exact ⟨before, waiting, behind, heq, h.imp_right (Revives.mono · himp)⟩

/-- The events of a node mention what is there. -/
theorem Poses.events_eq (h : p.Poses exit t) (hn : n ∈ p.routine.live exit t) :
    p.routine.events p.results n = .ok (p.eventsOf n) ∧
      ∀ e ∈ p.eventsOf n, e.Mentions (· < p.routine.vars.size) p.routine.Delivers := by
  obtain ⟨hevents, hmentions⟩ := h.routine.events_eq hn p.results
  refine ⟨hevents, forall_mem_append.mpr ⟨hmentions, ?_⟩⟩
  unfold Routine.finalReads
  split
  · simpa [Event.Mentions] using h.results
  · simp

/-- What is found to be alive behind a node. -/
theorem Poses.aliveBehind_eq (h : p.Poses exit t)
    (hsize : s.aliveBefore.size = p.routine.nodes.size) (hn : n ∈ p.routine.live exit t) :
    ∃ alive, p.aliveBehind s n = .ok alive ∧ ∀ v, alive.contains v = true ↔ p.Behind s n v := by
  obtain ⟨hsuccs, -⟩ := h.routine.flowSuccs_eq hn
  have hfold : ∀ (ms : List NodeId) (start : BitSet), (∀ m ∈ ms, m ∈ p.routine.live exit t) →
      ∃ alive, (ms.foldlM (fun alive m => do return alive.union (← fetch s.aliveBefore m))
      start : Query _) = .ok alive ∧ ∀ v, alive.contains v = true ↔
      start.contains v = true ∨ ∃ m ∈ ms, Before s m v := by
    intro ms
    induction ms with
    | nil => exact fun start _ => ⟨start, rfl, by simp⟩
    | cons m ms ih =>
      intro start hms
      have hm : m < s.aliveBefore.size := by
        rw [hsize]
        exact h.routine.lt_size (hms m (by simp))
      have hrow := Array.getElem?_eq_getElem hm
      obtain ⟨alive, hrun, hspec⟩ := ih (start.union s.aliveBefore[m]) fun k hk =>
        hms k (by simp [hk])
      refine ⟨alive, ?_, fun v => ?_⟩
      · rw [foldlM_cons, fetch_eq_ok_iff.mpr hrow]
        exact hrun
      · have hbefore : Before s m v ↔ s.aliveBefore[m].contains v = true := by simp [Before, hrow]
        rw [hspec, BitSet.contains_union, Bool.or_eq_true]
        simp [hbefore, or_assoc]
  obtain ⟨alive, hrun, hspec⟩ := hfold (p.routine.flow n) .empty (h.routine.flow_mem hn)
  refine ⟨alive, ?_, fun v => ?_⟩
  · simp only [aliveBehind, hsuccs, ok_bind]
    exact hrun
  · rw [hspec]
    simp [Behind]

/-- What has been found behind a node is alive. -/
theorem Approximates.aliveBehind (h : p.Approximates exit t s) (hp : p.Poses exit t)
    (hn : n ∈ p.routine.live exit t) (hv : p.Behind s n v) :
    p.routine.AliveBehind p.results v n := by
  obtain ⟨m, hm, hbefore⟩ := hv
  have hfollows := ((hp.routine.flowSuccs_eq hn).2 m).mp hm
  obtain ⟨-, ⟨-, hread⟩ | ⟨hwrite, halive⟩⟩ := h.sound m (hp.routine.flow_mem hn m hm) v hbefore
  · exact .read hfollows hread
  · exact .pass hfollows (fun hmem => hwrite (mem_append_left _ hmem)) halive

/-- The number of variables that may still come alive in front of a node. -/
def room (p : Problem) (s : Solution) (n : NodeId) : Nat :=
  p.routine.vars.size - ((s.aliveBefore[n]?.getD .empty).members p.routine.vars.size).length

/-- How often nodes may still be put on the worklist. -/
def slack (p : Problem) (s : Solution) : Nat :=
  ∑ n ∈ Finset.range p.routine.nodes.size, p.room s n * (p.preds[n]?.getD []).length

/-- Applying the equation of a node. -/
theorem Poses.update_eq (hp : p.Poses exit t) (h : p.Approximates exit t s)
    (hn : n ∈ p.routine.live exit t) :
    ∃ changed s', p.update s n = .ok (changed, s') ∧ p.Approximates exit t s' ∧
      (∀ v, s.marked.contains v = true → s'.marked.contains v = true) ∧
      (∀ v, Before s' n v ↔ p.Revives (p.eventsOf n) (p.Behind s n) v) ∧
      (∀ v, p.Exposes (p.eventsOf n) (p.Behind s n) v → s'.marked.contains v = true) ∧
      (∀ m ≠ n, s'.aliveBefore[m]? = s.aliveBefore[m]?) ∧
      (changed = false → s'.aliveBefore = s.aliveBefore) ∧
      (changed = true → p.room s' n < p.room s n) := by
  obtain ⟨hevents, hmentions⟩ := hp.events_eq hn
  obtain ⟨behind, hbehind, hbehindMem⟩ := hp.aliveBehind_eq h.size hn
  obtain ⟨alive, marked, hundo, halive, hmarked⟩ := undoAll_eq hmentions behind s.marked
  simp only [hbehindMem] at halive hmarked
  have hlt : n < s.aliveBefore.size := by
    rw [h.size]
    exact hp.routine.lt_size hn
  have hrow := Array.getElem?_eq_getElem hlt
  -- what is found now is alive, and includes what was found before
  have hsound : ∀ v, p.Revives (p.eventsOf n) (p.Behind s n) v →
      p.Tracks v ∧ p.Revives (p.eventsOf n) (p.routine.AliveBehind p.results · n) v := by
    intro v hv
    refine ⟨?_, hv.mono (h.aliveBehind hp hn)⟩
    rcases hv with hv | ⟨-, m, hm, hv⟩
    · exact hv.1
    · exact (h.sound m (hp.routine.flow_mem hn m hm) v hv).1
  have hmarkedSound : ∀ v, marked.contains v = true → p.Tracks v ∧
      ∃ n ∈ p.routine.live exit t,
      p.Exposes (p.eventsOf n) (p.routine.AliveBehind p.results · n) v := by
    intro v hv
    rcases (hmarked v).mp hv with hold | hnew
    · exact h.marked v hold
    · refine ⟨?_, n, hn, hnew.mono (h.aliveBehind hp hn)⟩
      obtain ⟨_, _, _, -, hwaits | hreads | ⟨-, m, hm, hbefore⟩⟩ := hnew
      · exact hwaits.1
      · exact hreads.1
      · exact (h.sound m (hp.routine.flow_mem hn m hm) v hbefore).1
  by_cases hsame : alive = s.aliveBefore[n]
  · refine ⟨false, { s with marked }, ?_, ⟨h.size, h.sound, h.rising, hmarkedSound⟩,
      fun v hv => (hmarked v).mpr (Or.inl hv),
      fun v => ?_, fun v hv => (hmarked v).mpr (Or.inr hv), fun _ _ => rfl, fun _ => rfl, by simp⟩
    · simp only [update, hevents, hbehind, hundo, fetch_eq_ok_iff.mpr hrow, hsame, ok_bind, if_true]
      rfl
    · rw [← halive, hsame]
      simp [Before, hrow]
  · have hrows : ∀ m, (s.aliveBefore.modify n fun _ => alive)[m]? = if m = n then some alive
        else s.aliveBefore[m]? := by
      intro m
      rw [Array.getElem?_modify]
      by_cases hmn : m = n
      · simp [hmn, hrow]
      · simp [hmn, Ne.symm hmn]
    have hother : ∀ m ≠ n, (s.aliveBefore.modify n fun _ => alive)[m]? = s.aliveBefore[m]? :=
        fun m hmn => by
      rw [hrows, if_neg hmn]
    have hself : ∀ v, Before ⟨s.aliveBefore.modify n fun _ => alive, marked⟩ n v ↔
        p.Revives (p.eventsOf n) (p.Behind s n) v := fun v => by
      rw [← halive]
      simp [Before, hrows]
    have hgain :
        ∀ m v, Before s m v → Before ⟨s.aliveBefore.modify n fun _ => alive, marked⟩ m v := by
      intro m v hv
      by_cases hmn : m = n
      · subst hmn
        exact (hself v).mpr (h.rising m hn v hv)
      · obtain ⟨set, hset, hv⟩ := hv
        exact ⟨set, (hother m hmn).trans hset, hv⟩
    have hgainBehind : ∀ m v, p.Behind s m v →
        p.Behind ⟨s.aliveBefore.modify n fun _ => alive, marked⟩ m v :=
      fun m v ⟨k, hk, hv⟩ => ⟨k, hk, hgain k v hv⟩
    refine ⟨true, ⟨s.aliveBefore.modify n fun _ => alive, marked⟩, ?_,
      ⟨by simpa using h.size, ?_, ?_, hmarkedSound⟩, fun v hv => (hmarked v).mpr (Or.inl hv), hself,
      fun v hv => (hmarked v).mpr (Or.inr hv), hother, by simp, fun _ => ?_⟩
    · simp only [update, hevents, hbehind, hundo, fetch_eq_ok_iff.mpr hrow, hsame, ok_bind,
        if_false, Arena.update, if_pos hlt]
      rfl
    · intro m hm v hv
      by_cases hmn : m = n
      · subst hmn
        exact hsound v ((hself v).mp hv)
      · obtain ⟨set, hset, hv⟩ := hv
        exact h.sound m hm v ⟨set, (hother m hmn).symm.trans hset, hv⟩
    · intro m hm v hv
      by_cases hmn : m = n
      · subst hmn
        exact ((hself v).mp hv).mono (hgainBehind m v)
      · obtain ⟨set, hset, hv⟩ := hv
        exact (h.rising m hm v ⟨set, (hother m hmn).symm.trans hset, hv⟩).mono (hgainBehind m v)
    · have hold : s.aliveBefore[n]?.getD .empty = s.aliveBefore[n] := by rw [hrow, Option.getD_some]
      have hnew : (s.aliveBefore.modify n fun _ => alive)[n]?.getD .empty = alive := by
        rw [hrows, if_pos rfl, Option.getD_some]
      have hlt : (s.aliveBefore[n].members p.routine.vars.size).length <
          (alive.members p.routine.vars.size).length :=
        BitSet.length_members_lt (fun v hv => (halive v).mpr (h.rising n hn v ⟨_, hrow, hv⟩))
          (fun v hv => hp.tracked v (hsound v ((halive v).mp hv)).1) hsame
      have hle : (alive.members p.routine.vars.size).length ≤ p.routine.vars.size := by
        simpa [BitSet.members] using length_filter_le alive.contains
          (List.range p.routine.vars.size)
      simp only [room, hold, hnew]
      omega

/-- A node that gains uses up what the nodes in front of it may be put on the worklist for. -/
theorem Poses.slack_lt (hp : p.Poses exit t) (hn : n ∈ p.routine.live exit t)
    (hother : ∀ m ≠ n, s'.aliveBefore[m]? = s.aliveBefore[m]?) (hroom : p.room s' n < p.room s n) :
    p.slack s' + (p.preds[n]?.getD []).length ≤ p.slack s := by
  have hmem : n ∈ Finset.range p.routine.nodes.size := Finset.mem_range.mpr (hp.routine.lt_size hn)
  have hrest : ∑ m ∈ (Finset.range p.routine.nodes.size).erase n,
      p.room s' m * (p.preds[m]?.getD []).length =
      ∑ m ∈ (Finset.range p.routine.nodes.size).erase n,
      p.room s m * (p.preds[m]?.getD []).length := by
    refine Finset.sum_congr rfl fun m hm => ?_
    rw [room, room, hother m (Finset.ne_of_mem_erase hm)]
  rw [slack, slack, ← Finset.add_sum_erase _ _ hmem, ← Finset.add_sum_erase _ _ hmem, hrest]
  have hself := Nat.mul_le_mul_right (p.preds[n]?.getD []).length (Nat.succ_le_of_lt hroom)
  rw [Nat.succ_mul] at hself
  rw [Nat.add_right_comm]
  exact Nat.add_le_add_right hself _

theorem Settled.congr (h : p.Settled s n) (hbehind : ∀ v, p.Behind s' n v → p.Behind s n v)
    (hbefore : ∀ v, Before s n v → Before s' n v)
    (hmarked : ∀ v, s.marked.contains v = true → s'.marked.contains v = true) : p.Settled s' n :=
  ⟨fun v hv => hbefore v (h.alive v (hv.mono (hbehind v))),
    fun v hv => hmarked v (h.marked v (hv.mono (hbehind v)))⟩

theorem iterate_nil {fuel : Nat} (h : worklist.items = []) : p.iterate fuel worklist s = .ok s := by
  have hpop : worklist.pop.1 = none := by simp [h]
  rw [iterate]
  split
  · rfl
  · rename_i heq
    simp [heq] at hpop

theorem iterate_zero {rest : List NodeId} (h : worklist.items = rest ++ [n]) :
    p.iterate 0 worklist s = .error .exhausted := by
  have hpop : worklist.pop.1 = some n := by simp [h]
  rw [iterate]
  split
  · rename_i heq
    simp [heq] at hpop
  · rfl

/-- The node on top of the worklist is looked at next. -/
theorem iterate_concat (p : Problem) (s : Solution) (fuel : Nat) {rest : List NodeId}
    (h : worklist.items = rest ++ [n]) : p.iterate (fuel + 1) worklist s = (do
      let (changed, s) ← p.update s n
      if changed then
        p.iterate fuel (worklist.pop.2.pushAll (← fetch p.preds n)) s
      else
        p.iterate fuel worklist.pop.2 s) := by
  have hpop : worklist.pop.1 = some n := by simp [h]
  rw [iterate]
  split
  · rename_i heq
    simp [heq] at hpop
  · rename_i heq
    simp only [heq, Option.some.injEq] at hpop
    rw [hpop, heq]

/-- Applying equations until the worklist is empty settles every node that was settled or on the
worklist. -/
theorem Poses.iterate_eq (hp : p.Poses exit t) (hS : ∀ n, S n → n ∈ p.routine.live exit t)
    (fuel : Nat) (h : p.Approximates exit t s)
    (hwork : ∀ n ∈ worklist.items, n ∈ p.routine.live exit t)
    (hsettled : ∀ n, S n → n ∈ worklist.items ∨ p.Settled s n)
    (hfuel : worklist.items.length + p.slack s ≤ fuel) : ∃ s', p.iterate fuel worklist s = .ok s' ∧
    p.Approximates exit t s' ∧ ∀ n, S n → p.Settled s' n := by
  induction fuel generalizing worklist s with
  | zero =>
    have hnil : worklist.items = [] := length_eq_zero_iff.mp (by omega)
    exact ⟨s, iterate_nil hnil, h, fun n hn => (hsettled n hn).resolve_left (by simp [hnil])⟩
  | succ fuel ih =>
    rcases eq_nil_or_concat' worklist.items with hnil | ⟨rest, n, hitems⟩
    · exact ⟨s, iterate_nil hnil, h, fun n hn => (hsettled n hn).resolve_left (by simp [hnil])⟩
    have hrest : worklist.pop.2.items = rest := by simp [hitems]
    have hn : n ∈ p.routine.live exit t := hwork n (by simp [hitems])
    obtain ⟨changed, s₁, hupdate, h₁, hmarks, hself, hexposed, hother, hsame, hroom⟩ :=
      hp.update_eq h hn
    rw [iterate_concat p s fuel hitems, hupdate]
    rw [hitems, length_append, length_singleton] at hfuel
    have hwork' : ∀ m ∈ worklist.pop.2.items, m ∈ p.routine.live exit t := fun m hm =>
      hwork m (by rw [hitems, ← hrest]; exact mem_append_left _ hm)
    -- a node that the change is not in front of keeps what it has behind it
    have hkeep : ∀ m, S m → (∀ v, p.Behind s₁ m v → p.Behind s m v) → m ∈ worklist.pop.2.items ∨
        p.Settled s₁ m := by
      intro m hm hbehind
      by_cases hmn : m = n
      · subst hmn
        exact Or.inr ⟨fun v hv => (hself v).mpr (hv.mono (hbehind v)),
          fun v hv => hexposed v (hv.mono (hbehind v))⟩
      · rcases hsettled m hm with hmem | hset
        · refine Or.inl ?_
          rw [hitems] at hmem
          simpa [hrest, hmn] using hmem
        · refine Or.inr (hset.congr hbehind (fun v hv => ?_) hmarks)
          rwa [Before, hother m hmn]
    cases changed with
    | false =>
      have hbefore : ∀ m v, Before s₁ m v → Before s m v :=
        fun m v hv => by rwa [Before, hsame rfl] at hv
      have hslack : p.slack s₁ = p.slack s := by simp only [slack, room, hsame rfl]
      exact ih h₁ hwork' (fun m hm => hkeep m hm fun v ⟨k, hk, hv⟩ => ⟨k, hk, hbefore k v hv⟩) (by
        rw [hrest, hslack]
        omega)
    | true =>
      have hlt : n < p.preds.size := by
        rw [hp.preds_size]
        exact hp.routine.lt_size hn
      have hrow := Array.getElem?_eq_getElem hlt
      have hpreds := hp.preds n _ hrow
      have hslack := hp.slack_lt hn hother (hroom rfl)
      rw [hrow, Option.getD_some] at hslack
      have hlength := UniqueStack.length_items_pushAll_le worklist.pop.2 p.preds[n]
      simp only [ok_bind, fetch_eq_ok_iff.mpr hrow, if_true]
      refine ih h₁ (fun m hm => ?_) (fun m hm => ?_) (by rw [hrest] at hlength; omega)
      · rcases UniqueStack.mem_items_pushAll.mp hm with hm | hm
        · exact hwork' m hm
        · exact ((hpreds m).mp hm).1
      · rw [UniqueStack.mem_items_pushAll]
        by_cases hm' : m ∈ p.preds[n]
        · exact Or.inl (Or.inr hm')
        · refine (hkeep m hm fun v ⟨k, hk, hv⟩ => ⟨k, hk, ?_⟩).imp_left Or.inl
          have hkn : k ≠ n := by
            rintro rfl
            exact hm' ((hpreds m).mpr ⟨hS m hm, hk⟩)
          rwa [Before, hother k hkn] at hv

/-- Whatever is alive is found once every node is settled. -/
theorem behind_of_aliveBehind (hp : p.Poses exit t)
    (hsettled : ∀ n, p.routine.Reached n → p.Settled s n) (htracks : p.Tracks v)
    (h : p.routine.AliveBehind p.results v n) (hn : p.routine.Reached n) : p.Behind s n v := by
  have hflow : ∀ {n m}, p.routine.Reached n → p.routine.Follows n m → m ∈ p.routine.flow n :=
    fun hn hm => ((hp.routine.flowSuccs_eq (hp.routine.mem_of_reached hn)).2 _).mpr hm
  induction h with
  | read hm hread =>
    exact ⟨_, hflow hn hm, (hsettled _ (hn.tail hm)).alive v (Or.inl ⟨htracks, hread⟩)⟩
  | pass hm hwrite _ ih =>
    refine ⟨_, hflow hn hm, (hsettled _ (hn.tail hm)).alive v (Or.inr ⟨?_, ih (hn.tail hm)⟩)⟩
    rw [eventsOf, mem_append, not_or]
    exact ⟨hwrite, write_notMem_finalReads⟩

/-- What has to be marked at a node are the variables of which a collection there is in need. -/
theorem Poses.exposes_iff (hp : p.Poses exit t) (hn : n ∈ p.routine.live exit t) :
    p.Tracks v ∧ p.Exposes (p.eventsOf n) (p.routine.AliveBehind p.results · n) v ↔
      p.Tracks v ∧ p.routine.CollectsAt p.results v n := by
  refine and_congr_right fun htracks => ?_
  rw [Routine.CollectsAt, ← hp.routine.waitsDuring_var hn]
  constructor
  · rintro ⟨before, waiting, behind, heq, h⟩
    -- the collection is one of the node's own events, as its other events are reads
    rcases append_eq_append_iff.mp heq with ⟨rest, -, hfinal⟩ | ⟨rest, hown, hrest⟩
    · have hmem : .collect waiting ∈ p.routine.finalReads p.results n := by simp [hfinal]
      exact absurd hmem collect_notMem_finalReads
    · cases rest with
      | nil =>
        have hmem : .collect waiting ∈ p.routine.finalReads p.results n := by
          rw [← nil_append (p.routine.finalReads _ _), ← hrest]
          exact mem_cons_self
        exact absurd hmem collect_notMem_finalReads
      | cons e rest =>
        obtain ⟨rfl, rfl⟩ := List.cons.inj hrest
        rcases h with ⟨-, h⟩ | ⟨-, h⟩ | ⟨hwrite, h⟩
        · exact Or.inl ⟨waiting, by simp [hown], h⟩
        · exact Or.inr ⟨before, waiting, rest, hown, Or.inl h⟩
        · exact Or.inr ⟨before, waiting, rest, hown,
            Or.inr ⟨fun hmem => hwrite (mem_append_left _ hmem), h⟩⟩
  · rintro (⟨waiting, hmem, h⟩ | ⟨before, waiting, behind, heq, h⟩)
    · obtain ⟨before, behind, heq⟩ := append_of_mem hmem
      exact ⟨before, waiting, behind ++ p.routine.finalReads p.results n, by simp [eventsOf, heq],
        Or.inl ⟨htracks, h⟩⟩
    refine ⟨before, waiting, behind ++ p.routine.finalReads p.results n, by simp [eventsOf, heq],
      Or.inr ?_⟩
    rcases h with h | ⟨hwrite, h⟩
    · exact Or.inl ⟨htracks, h⟩
    · refine Or.inr ⟨?_, h⟩
      rw [mem_append, not_or]
      exact ⟨hwrite, write_notMem_finalReads⟩

theorem foldl_edges (ls : List (List NodeId)) (edges : Nat) :
    ls.foldl (fun edges l => edges + l.length) edges =
      edges + ∑ n ∈ Finset.range ls.length, (ls[n]?.getD []).length := by
  induction ls generalizing edges with
  | nil => simp
  | cons l ls ih =>
    rw [foldl_cons, ih, length_cons, Finset.sum_range_succ']
    simp only [getElem?_cons_succ, getElem?_cons_zero, Option.getD_some]
    omega

/-- There is fuel for every time a node may be put on the worklist. -/
theorem Poses.slack_le (hp : p.Poses exit t) (s : Solution) :
    p.routine.nodes.size + p.slack s ≤ p.iterationFuel := by
  have hedges : p.preds.foldl (fun edges l => edges + l.length) 0 =
      ∑ n ∈ Finset.range p.routine.nodes.size, (p.preds[n]?.getD []).length := by
    rw [← Array.foldl_toList, foldl_edges, Nat.zero_add, Array.length_toList, hp.preds_size]
    simp
  rw [iterationFuel, hedges, Finset.mul_sum]
  refine Nat.add_le_add_left (Finset.sum_le_sum fun n _ => Nat.mul_le_mul_right _ ?_) _
  exact Nat.sub_le _ _

/-- To start with, nothing has been found. -/
def start (p : Problem) : Solution := ⟨Array.replicate p.routine.nodes.size .empty, .empty⟩

/-- The start, where nothing has been found, approximates. -/
theorem approximates_start (p : Problem) (exit : NodeId) (t : Strand) :
    p.Approximates exit t p.start := by
  have hnone : ∀ n v, ¬Before p.start n v := by
    rintro n v ⟨set, hset, hv⟩
    rw [start, Array.getElem?_replicate] at hset
    split at hset
    · obtain rfl := Option.some.inj hset
      simp at hv
    · simp at hset
  exact ⟨by simp [start], fun n _ v hv => absurd hv (hnone n v),
    fun n _ v hv => absurd hv (hnone n v), fun v hv => by simp [start] at hv⟩

/-- The variables marked are the ones that a collection is in need of: all of those that a
collection at a node control reaches is in need of, and no other than those that a collection at
some node of the stream is in need of. -/
theorem Poses.solve_eq (hp : p.Poses exit t) : ∃ marked, p.solve = .ok marked ∧
    (∀ v, p.Tracks v → (∃ n, p.routine.Reached n ∧ p.routine.CollectsAt p.results v n) →
      marked.contains v = true) ∧ ∀ v, marked.contains v = true →
      p.Tracks v ∧ ∃ n ∈ p.routine.live exit t, p.routine.CollectsAt p.results v n := by
  obtain ⟨live, hlive, hnodup, -, hmem⟩ :=
    hp.routine.flow_closedOn.reachable_eq p.routine.entry (by simp)
  simp only [hp.routine.reached_iff] at hmem
  have hlength : (UniqueStack.ofList live).items.length ≤ p.routine.nodes.size := by
    have hlive : live.length ≤ p.routine.nodes.size := by
      have hsub : live ⊆ List.range p.routine.nodes.size := fun n hn =>
        mem_range.mpr (hp.routine.lt_size (hp.routine.mem_of_reached ((hmem n).mp hn)))
      simpa using (subperm_of_subset hnodup hsub).length_le
    exact (UniqueStack.length_items_pushAll_le _ live).trans (by simpa using hlive)
  obtain ⟨s, hrun, happrox, hsettled⟩ :=
    hp.iterate_eq (fun n => hp.routine.mem_of_reached) p.iterationFuel
    (p.approximates_start exit t) (fun n hn =>
    hp.routine.mem_of_reached ((hmem n).mp (UniqueStack.mem_items_ofList.mp hn)))
    (fun n hn => Or.inl (UniqueStack.mem_items_ofList.mpr ((hmem n).mpr hn)))
    (by have := hp.slack_le p.start; omega)
  refine ⟨s.marked, ?_, ?_, ?_⟩
  · simp only [solve, hlive, ok_bind, start] at hrun ⊢
    rw [hrun]
    rfl
  · rintro v htracks ⟨n, hn, hcollects⟩
    refine (hsettled n hn).marked v ?_
    obtain ⟨-, hexposes⟩ := (hp.exposes_iff (hp.routine.mem_of_reached hn)).mpr ⟨htracks, hcollects⟩
    exact hexposes.mono fun halive => behind_of_aliveBehind hp hsettled htracks halive hn
  · intro v hv
    obtain ⟨htracks, n, hn, hexposes⟩ := happrox.marked v hv
    exact ⟨htracks, n, hn, ((hp.exposes_iff hn).mp ⟨htracks, hexposes⟩).2⟩

end Solving

end Collector.Problem

end CoroutineIR
