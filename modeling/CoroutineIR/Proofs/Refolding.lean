import CoroutineIR.Proofs.Propagation

/-!
# Propagating constants a second time

The walk leaves a routine in which nothing is left to do as it is. A single walk reaches that state
unless a variable turns out to hold a number that an operand has been read for already, or that is
just passed on: the reader stands ahead of the definition in the order of the walk, or the reader is
a copy, which becomes a definition when its operand is filled in but is not looked at as one.
-/

namespace CoroutineIR

open List Option CoroutineIR.Action Folding Strand

namespace Routine

variable {exit : NodeId} {e : Node} {v : VarId} {c : Literal}
  {target : Target} {a b : Routine × Strand}

namespace Refines

/-- What is known stays known. -/
theorem constantOf_mono (h : Refines target exit a b) (ha : a.1.Foldable exit a.2)
    (hv : a.1.constantOf v = some c) : b.1.constantOf v = some c := by
  rcases h.var_cases v with ⟨hsame, -⟩ | ⟨-, honce, -⟩
  · exact hsame.trans hv
  · have hzero := (ha.settled v c hv).1
    omega

/-- A variable about which nothing has been found out is written as often as before. -/
theorem writesOf_eq (h : Refines target exit a b) (ha : a.1.Foldable exit a.2)
    (hv : b.1.constantOf v = a.1.constantOf v) : b.1.writesOf v = a.1.writesOf v := by
  rcases h.var_cases v with ⟨-, hsame⟩ | ⟨⟨c, hc⟩, honce, -⟩
  · exact hsame
  · have hzero := (ha.settled v c (hv.symm.trans hc)).1
    omega

end Refines

namespace Refinements

theorem addressableAt_eq (h : Refinements target exit a b) (v : VarId) :
    b.1.addressableAt v = a.1.addressableAt v := by
  induction h with
  | refl => rfl
  | tail _ hstep ih => exact (hstep.addressableAt_eq v).trans ih

variable (h : Refinements target exit a b) (ha : a.1.Foldable exit a.2)
include h ha

theorem constantOf_mono (hv : a.1.constantOf v = some c) : b.1.constantOf v = some c := by
  induction h with
  | refl => exact hv
  | tail hrun hstep ih => exact hstep.constantOf_mono (foldable hrun ha) ih

/-- What is not known has not been known before. -/
theorem constantOf_eq_none (hv : b.1.constantOf v = none) : a.1.constantOf v = none :=
  eq_none_iff_forall_ne_some.mpr fun c hc => by
    rw [h.constantOf_mono ha hc] at hv
    cases hv

/-- A variable that is not known is written as often as before. -/
theorem writesOf_eq (hv : b.1.constantOf v = none) : b.1.writesOf v = a.1.writesOf v := by
  induction h with
  | refl => rfl
  | @tail b c hrun hstep ih =>
    have hb := foldable hrun ha
    have hbv : b.1.constantOf v = none := constantOf_eq_none (.single hstep) hb hv
    exact (hstep.writesOf_eq hb (hv.trans hbv.symm)).trans (ih hbv)

/-- A definition that can be folded away could have been folded away before. -/
theorem determines (hv : b.1.Determines e v c) : a.1.Determines e v c := by
  have hunknown : b.1.constantOf v = none :=
    (h.foldable ha).constantOf_eq_none (by rw [hv.once]; exact Nat.one_pos)
  exact ⟨hv.dest, hv.literal, (h.writesOf_eq ha hunknown).symm.trans hv.once,
    (h.addressableAt_eq v).symm.trans hv.quiet⟩

end Refinements

end Routine

namespace Folding

open Routine

variable {exit n : NodeId} {t t' : Strand} {r r' : Routine} {w : Work} {e : Node} {v : VarId}
  {c : Literal} {options : Options} {a b : Routine × Strand} {arg : Operand}

theorem fillIn_eq_lit {known : VarId → Option Literal} :
    fillIn known arg = .lit c ↔ arg = .lit c ∨ ∃ v, arg = .var v ∧ known v = some c ∧
    c.isNumeric = true := by
  cases arg with
  | var v =>
    simp only [fillIn]
    cases h : (known v).filter Literal.isNumeric with
    | none =>
      simp only [elim_none, reduceCtorEq, false_or, false_iff, not_exists, not_and]
      rintro u heq hknown
      rw [← Operand.var.inj heq] at hknown
      exact filter_eq_none_iff.mp h c hknown
    | some x =>
      obtain ⟨hknown, hnumeric⟩ := filter_eq_some_iff.mp h
      simp only [elim_some, Operand.lit.injEq, reduceCtorEq, Operand.var.injEq, exists_eq_left',
        hknown, some.injEq, false_or]
      exact ⟨fun heq => ⟨heq, heq ▸ hnumeric⟩, And.left⟩
  | _ => simp [fillIn]

/-- A variable stays unless it is known to hold a number. -/
theorem fillIn_var {known : VarId → Option Literal}
    (h : ∀ c, known v = some c → c.isNumeric = false) : fillIn known (.var v) = .var v := by
  rw [fillIn, filter_eq_none_iff.mpr fun c hc => by simp [h c hc], elim_none]

theorem fillIn_eq_var {known : VarId → Option Literal} (h : fillIn known arg = .var v) :
    arg = .var v ∧ ∀ c, known v = some c → c.isNumeric = false := by
  cases arg with
  | var u =>
    have hnone : ∀ c, known u = some c → c.isNumeric = false := fun c hc => by
      by_contra hnumeric
      rw [fillIn_eq_lit.mpr (Or.inr ⟨u, rfl, hc, by simpa using hnumeric⟩)] at h
      cases h
    obtain rfl : u = v := Operand.var.inj ((fillIn_var hnone).symm.trans h)
    exact ⟨rfl, hnone⟩
  | lit => cases h
  | node => cases h

/-- Nothing is filled in if no operand is known to be a number. -/
theorem filled_eq_self_iff {known : VarId → Option Literal} :
    filled known e = e ↔ ∀ v, .var v ∈ e.args → ∀ c, known v = some c → c.isNumeric = false := by
  constructor
  · intro h v hv c hc
    have hargs : e.args.map (fillIn known) = e.args := congrArg Node.args h
    have hfix : fillIn known (.var v) = .var v :=
      map_inj_left.mp (hargs.trans (List.map_id _).symm) _ hv
    by_contra hnumeric
    rw [fillIn_eq_lit.mpr (Or.inr ⟨v, rfl, hc, by simpa using hnumeric⟩)] at hfix
    cases hfix
  · intro h
    have hargs : e.args.map (fillIn known) = e.args.map id := map_congr_left fun arg harg => by
      cases arg with
      | var v => exact fillIn_var (h v harg)
      | _ => rfl
    rw [filled, hargs, List.map_id]

/-- What can be evaluated has literals for operands. -/
theorem args_of_value? {target : Target} {x : Literal} (h : value? target e = .ok (some x)) :
    (∀ v, .var v ∉ e.args) ∧ e.kind ≠ .op .const ∧ e.kind ≠ .op .copy := by
  unfold value? at h
  split at h
  · rename_i code u values hkind hdest hnumbers
    refine ⟨fun v hv => ?_, fun heq => ?_, fun heq => ?_⟩
    · rw [numbers?_eq_some hnumbers] at hv
      simp at hv
    · rw [NodeKind.op.inj (hkind.symm.trans heq), evaluate_const] at h
      cases h
    · rw [NodeKind.op.inj (hkind.symm.trans heq), evaluate_copy] at h
      cases h
  · cases h

/-- The definition of a value is not evaluated again. -/
theorem value?_reduced (target : Target) (e : Node) (x : Literal) :
    value? target (reduced e x) = .ok none := by
  unfold value?
  split
  · rename_i code u values hkind hdest hnumbers
    rw [← NodeKind.op.inj (hkind : NodeKind.op .const = _), evaluate_const]
  · rfl

/-- Nothing is left to do at a node labelled `e`. -/
structure Still (options : Options) (r : Routine) (e : Node) : Prop where
  stays : ∀ v c, ¬r.Determines e v c
  known : filled r.constantOf e = e
  value : options.arithmetic = true → value? options.target e = .ok none

/-- Nothing is left to do. -/
def AllStill (options : Options) (r : Routine) (t : Strand) : Prop :=
  ∀ n ∈ r.entry :: t.nodes, ∀ e, r.label n = some e → Still options r e

/-- The walk changes nothing at such a node. -/
theorem Still.eq_of_visit (h : Still options r e) (hr : r.Foldable exit t) (he : r.label n = some e)
    (hvisit : Visit options exit n (r, t) (r', t')) : r' = r ∧ t' = t := by
  generalize ha : (r, t) = a at hvisit
  generalize hb : (r', t') = b at hvisit
  cases hvisit with
  | leave hrun hlabel hreduced hfolds =>
    obtain ⟨rfl, rfl⟩ := Prod.mk.inj ha
    obtain rfl := some.inj (hlabel.label.symm.trans he)
    rcases hreduced with rfl | ⟨x, harithmetic, hvalue, -⟩
    · exact absurd (hrun.determines hr hfolds.toDetermines) (h.stays _ _)
    · rw [h.known, h.value harithmetic] at hvalue
      cases hvalue
  | fill hrun hlabel hsame =>
    obtain ⟨rfl, rfl⟩ := Prod.mk.inj ha
    obtain ⟨rfl, rfl⟩ := Prod.mk.inj hb
    obtain rfl := some.inj (hlabel.label.symm.trans he)
    exact ⟨hsame h.known, rfl⟩
  | reduce hrun hlabel hnot harithmetic hvalue =>
    obtain ⟨rfl, rfl⟩ := Prod.mk.inj ha
    obtain rfl := some.inj (hlabel.label.symm.trans he)
    rw [h.known, h.value harithmetic] at hvalue
    cases hvalue

/-- Where nothing is left to do the propagation leaves the routine as it is. -/
theorem yields_foldConstants_of_still (hr : w.routine.Foldable exit t)
    (hstill : AllStill options w.routine t) :
    Yields (foldConstants options) w fun _ w' => w'.routine = w.routine := by
  have hstep : ∀ (w₁ : Work) (t₁ : Strand) (n : NodeId), w₁.routine = w.routine ∧ t₁ = t →
      n ∈ w₁.routine.entry :: t₁.nodes →
      Ends (foldNode options n) w₁ (fun _ w' => ∃ t', Visit options exit n (w₁.routine,
      t₁) (w'.routine, t') ∧ w'.routine = w.routine ∧ t' = t) fun _ => False := by
    intro w₁ t₁ n hsame hn
    obtain ⟨hroutine, rfl⟩ := hsame
    rw [← hroutine] at hr hstill
    have hn' : n ∈ w₁.routine.live exit t₁ := mem_live_of_entry hn
    obtain ⟨e, he, -⟩ := hr.exists_label hn'
    have hat := hstill n hn e he
    refine ((ends_foldNode hr.toWellStructured hn' he).imp fun fault hfault => ?_).mono
      fun _ w' h => ?_
    · obtain ⟨harithmetic, hvalue⟩ := hfault
      rw [hat.known, hat.value harithmetic] at hvalue
      cases hvalue
    · obtain ⟨t', hvisit⟩ := h
      obtain ⟨hsame, rfl⟩ := hat.eq_of_visit hr he hvisit
      exact ⟨t', hvisit, hsame.trans hroutine, rfl⟩
  have hends := ends_foldConstants_of (fun r' t' => r' = w.routine ∧ t' = t) hstep
    ⟨rfl, rfl⟩ hr.toWellStructured
  refine (hends.yields fun _ h => h).mono fun _ w' h => ?_
  obtain ⟨t', -, hsame, -⟩ := h
  exact hsame

namespace Visit

/-- The node keeps its destination. -/
theorem exists_label (h : Visit options exit n a b) : ∃ e e', a.1.label n = some e ∧
    b.1.label n = some e' ∧ e.kind.Alike e'.kind ∧ e'.dest = e.dest := by
  cases h with
  | leave _ hlabel hreduced hfolds =>
    obtain ⟨p, s, hdrops⟩ := hfolds.drops
    refine ⟨_, _, hlabel.label, hdrops.labels n ▸ hlabel.label_self, hlabel.kind, ?_⟩
    rcases hreduced with rfl | ⟨x, -, -, rfl⟩ <;> rfl
  | fill _ hlabel | reduce _ hlabel =>
    exact ⟨_, _, hlabel.label, hlabel.label_self, hlabel.kind, rfl⟩

/-- Nodes write what they wrote. -/
theorem exists_write (h : Visit options exit n a b) {d : NodeId} {e' : Node}
    (he' : b.1.label d = some e') (hw : (v, .write) ∈ e'.accesses) :
    ∃ e, a.1.label d = some e ∧ (v, .write) ∈ e.accesses := by
  by_cases hd : d = n
  · subst hd
    obtain ⟨e, e₁, he, he₁, hkind, hdest⟩ := h.exists_label
    obtain rfl := some.inj (he₁.symm.trans he')
    exact ⟨e, he, (Node.write_mem_iff hkind hdest v).mp hw⟩
  · exact ⟨e', (h.label_of_ne hd).symm.trans he', hw⟩

/-- Nothing is found out but at a node that leaves, and about the variable it writes. -/
theorem exists_writer (h : Visit options exit n a b) (ha : a.1.Foldable exit a.2)
    (hunknown : a.1.constantOf v = none) (hv : b.1.constantOf v = some c) :
    a.1.writesOf v = 1 ∧ ∃ e, a.1.label n = some e ∧ (v, .write) ∈ e.accesses := by
  obtain ⟨e, e', he, he', hkind, hdest⟩ := h.exists_label
  cases h with
  | leave hrun hlabel _ hfolds =>
    obtain ⟨p, s, hdrops⟩ := hfolds.drops
    have hsame := some.inj (hlabel.label_self.symm.trans ((hdrops.labels n).symm.trans he'))
    rw [hfolds.constants] at hv
    split at hv
    · rename_i heq
      subst heq
      have hw : (v, Access.write) ∈ e'.accesses := by
        rw [← hsame, accesses_of_literal hfolds.literal hfolds.dest]
        exact mem_cons_self
      exact ⟨(hrun.determines ha hfolds.toDetermines).once, e, he,
        (Node.write_mem_iff hkind hdest v).mp hw⟩
    · rw [constantOf_eq (hlabel.traits v), hunknown] at hv
      cases hv
  | fill _ hlabel | reduce _ hlabel =>
    rw [constantOf_eq (hlabel.traits v), hunknown] at hv
    cases hv

/-- A node that reads a variable stays unless it can be evaluated. -/
theorem stays (h : Visit options exit n (r, t) b) (hn : n ∈ r.entry :: t.nodes)
    (he : r.label n = some e) (hread : .var v ∈ e.args)
    (hvalue : ∀ x, value? options.target (filled r.constantOf e) ≠ .ok (some x)) :
    n ∈ b.1.entry :: b.2.nodes ∧ b.1.label n = some (filled r.constantOf e) := by
  cases h with
  | leave _ hlabel hreduced hfolds =>
    obtain rfl := some.inj (hlabel.label.symm.trans he)
    rcases hreduced with rfl | ⟨x, -, hx, -⟩
    · rw [(literal?_eq_some hfolds.literal).1] at hread
      simp at hread
    · exact absurd hx (hvalue x)
  | fill _ hlabel =>
    obtain rfl := some.inj (hlabel.label.symm.trans he)
    exact ⟨hlabel.entry.symm ▸ hn, hlabel.label_self⟩
  | reduce _ hlabel _ _ hx =>
    obtain rfl := some.inj (hlabel.label.symm.trans he)
    exact absurd hx (hvalue _)

end Visit

namespace Sweeps

variable {ns ms : List NodeId}

/-- The walk as it comes to one of its nodes. -/
theorem split (h : Sweeps options exit (ns ++ n :: ms) a b) :
    ∃ a' b', Sweeps options exit ns a a' ∧ Visit options exit n a' b' ∧
    Sweeps options exit ms b' b := by
  induction ns generalizing a with
  | nil =>
    cases h with
    | cons hvisit hrest => exact ⟨a, _, .nil, hvisit, hrest⟩
  | cons k ns ih =>
    cases h with
    | cons hvisit hrest =>
      obtain ⟨a', b', hbefore, hat, hbehind⟩ := ih hrest
      exact ⟨a', b', .cons hvisit hbefore, hat, hbehind⟩

/-- Nodes write what they wrote. -/
theorem exists_write (h : Sweeps options exit ns a b) {d : NodeId} {e' : Node}
    (he' : b.1.label d = some e') (hw : (v, .write) ∈ e'.accesses) :
    ∃ e, a.1.label d = some e ∧ (v, .write) ∈ e.accesses := by
  induction h with
  | nil => exact ⟨e', he', hw⟩
  | cons hvisit _ ih =>
    obtain ⟨e, he, hwrites⟩ := ih he'
    exact hvisit.exists_write he hwrites

/-- What is found out about a variable is found out where it is written. -/
theorem exists_writer (h : Sweeps options exit ns a b) (ha : a.1.Foldable exit a.2)
    (hunknown : a.1.constantOf v = none) (hv : b.1.constantOf v = some c) :
    a.1.writesOf v = 1 ∧ ∃ d ∈ ns, ∃ e, a.1.label d = some e ∧ (v, .write) ∈ e.accesses := by
  induction h with
  | nil =>
    rw [hunknown] at hv
    cases hv
  | @cons n ns a b' b hvisit hrest ih =>
    cases hb' : b'.1.constantOf v with
    | some c' =>
      obtain ⟨honce, e, he, hw⟩ := hvisit.exists_writer ha hunknown hb'
      exact ⟨honce, n, mem_cons_self, e, he, hw⟩
    | none =>
      obtain ⟨honce, d, hd, e, he, hw⟩ := ih (hvisit.run.foldable ha) hb' hv
      obtain ⟨e₀, he₀, hw₀⟩ := hvisit.exists_write he hw
      exact ⟨(hvisit.run.writesOf_eq ha hb').symm.trans honce, d,
        mem_cons_of_mem _ hd, e₀, he₀, hw₀⟩

end Sweeps

/-- A variable is read by a node ahead of one that writes it. -/
def ReadAhead (r : Routine) (order : List NodeId) (v : VarId) : Prop :=
  ∃ m d e e', [m, d].Sublist order ∧ r.label m = some e ∧ .var v ∈ e.args ∧ r.label d = some e' ∧
    (v, .write) ∈ e'.accesses

/-- A variable is passed on to another one that is written once and whose address is not taken. -/
def PassedOn (r : Routine) (order : List NodeId) (v : VarId) : Prop :=
  ∃ n ∈ order, ∃ e u, r.label n = some e ∧ (e.kind = .op .const ∨ e.kind = .op .copy) ∧
    e.args = [.var v] ∧ e.dest = some u ∧ r.writesOf u = 1 ∧ r.addressableAt u = false

section Twice

variable {r₁ ra rb : Routine} {t₁ ta tb : Strand} {before behind : List NodeId}

/-- The walk comes to every node once. -/
theorem nodup_order (hr : r.Foldable exit t) : (r.entry :: t.sweep).Nodup :=
  nodup_cons.mpr ⟨fun hmem => hr.entry_not_mem (t.sweep_perm.mem_iff.mp hmem),
    t.sweep_perm.nodup_iff.mpr hr.nodup_nodes⟩

theorem mem_order : n ∈ r.entry :: t.sweep ↔ n ∈ r.entry :: t.nodes := by
  rw [mem_cons, t.sweep_perm.mem_iff, ← mem_cons]

/-- The walk as it comes to a node, with the label the node has from the start. -/
structure Reaches (options : Options) (exit : NodeId) (a b : Routine × Strand)
    (before behind : List NodeId) (n : NodeId) (e : Node) (c d : Routine × Strand) : Prop where
  front : Sweeps options exit before a c
  visit : Visit options exit n c d
  rest : Sweeps options exit behind d b
  label : c.1.label n = some e
  mem : n ∈ c.1.entry :: c.2.nodes
  out : n ∉ behind

/-- The walk comes to every node of its order. -/
theorem exists_reaches (hr : r.Foldable exit t)
    (hrun : Sweeps options exit (r.entry :: t.sweep) (r, t) (r₁, t₁))
    (horder : r.entry :: t.sweep = before ++ n :: behind) (he : r.label n = some e) :
    ∃ ra ta rb tb, Reaches options exit (r, t) (r₁, t₁) before behind n e (ra, ta) (rb, tb) := by
  have hnodup := nodup_order hr
  have hmem : n ∈ r.entry :: t.nodes := mem_order.mp (horder ▸ mem_append_right _ mem_cons_self)
  rw [horder, nodup_middle, nodup_cons, mem_append, not_or] at hnodup
  rw [horder] at hrun
  obtain ⟨⟨ra, ta⟩, ⟨rb, tb⟩, hbefore, hvisit, hbehind⟩ := hrun.split
  exact ⟨ra, ta, rb, tb, hbefore, hvisit, hbehind, (hbefore.label_eq hnodup.1.1).trans he,
    hbefore.mem_new hmem hnodup.1.1, hnodup.1.2⟩

theorem Reaches.later {c d : Routine × Strand}
    (h : Reaches options exit a b before behind n e c d) : Refinements options.target exit c b :=
    h.visit.run.trans h.rest.run

/-- If nothing is left to do, what turns out to be a number is known where it is read. -/
theorem Reaches.known (h : Reaches options exit a (r₁, t₁) before behind n e (ra, ta) (rb, tb))
    (hstill : AllStill options r₁ t₁) (hread : .var v ∈ e.args) (hv : r₁.constantOf v = some c)
    (hnumeric : c.isNumeric = true) : ra.constantOf v ≠ none := by
  intro hunknown
  -- the node goes on reading the variable
  have hstays : .var v ∈ (filled ra.constantOf e).args :=
    List.mem_map.mpr ⟨_, hread, fillIn_var fun c hc => by rw [hunknown] at hc; cases hc⟩
  obtain ⟨hmem, hlabel⟩ := h.visit.stays h.mem h.label hread fun x hx =>
    (args_of_value? hx).1 v hstays
  have hat := hstill n (h.rest.mem_new hmem h.out) _ ((h.rest.label_eq h.out).trans hlabel)
  rw [filled_eq_self_iff.mp hat.known v hstays c hv] at hnumeric
  cases hnumeric

/-- Of a variable that is written once the walk does not come to a second definition. -/
theorem not_mem_before (hr : r.Foldable exit t) {d d' : NodeId} {e' : Node}
    (horder : r.entry :: t.sweep = before ++ n :: behind) (hd : d ∈ before) (he : r.label d =
      some e) (hw : (v, .write) ∈ e.accesses) (hd' : d' ∈ n :: behind) (he' : r.label d' = some e')
    (hw' : (v, .write) ∈ e'.accesses) (honce : r.writesOf v = 1) : False := by
  have hstream : ∀ {k}, k ∈ before ++ n :: behind → k ∈ r.live exit t := fun {k} hk =>
    mem_live_of_entry (mem_order.mp (horder ▸ hk))
  have hsame := hr.eq_of_once (hstream (mem_append_right _ hd')) he'
    (hstream (mem_append_left _ hd)) he hw' hw honce
  have hnodup := nodup_order hr
  rw [horder, nodup_append] at hnodup
  exact hnodup.2.2 d hd d' hd' hsame

/-- A node that comes ahead of another one. -/
theorem exists_append_of_pair {l : List NodeId} {m d : NodeId} (h : [m, d].Sublist l) :
    ∃ before behind, l = before ++ m :: behind ∧ d ∈ behind := by
  obtain ⟨front, rest, rfl, hm, hd⟩ := cons_sublist_iff.mp h
  obtain ⟨before, between, rfl⟩ := append_of_mem hm
  exact ⟨before, between ++ rest, by simp, mem_append_right _ (singleton_sublist.mp hd)⟩

variable (hr : r.Foldable exit t) (hrun : Sweeps options exit (r.entry :: t.sweep) (r, t) (r₁, t₁))
include hr hrun

/-- What is read ahead of its definition or passed on is all that may be left to do. -/
theorem allStill (hahead : ∀ v c, r₁.constantOf v = some c → c.isNumeric = true →
      ¬ReadAhead r (r.entry :: t.sweep) v ∧ ¬PassedOn r (r.entry :: t.sweep) v) :
      AllStill options r₁ t₁ := by
  intro n hn₁ e₁ he₁
  have hn : n ∈ r.entry :: t.sweep := by
    rw [show r₁.entry = r.entry from hrun.run.entry_eq] at hn₁
    exact mem_order.mpr (cons_subset_cons _ hrun.run.sublist.subset hn₁)
  obtain ⟨e, he, -⟩ := hr.exists_label (mem_live_of_entry (mem_order.mp hn))
  obtain ⟨before, behind, horder⟩ := append_of_mem hn
  obtain ⟨ra, ta, rb, tb, h⟩ := exists_reaches hr hrun horder he
  have hra : ra.Foldable exit ta := h.front.run.foldable hr
  have hrb : rb.Foldable exit tb := h.visit.run.foldable hra
  have hlabel₁ := (h.rest.label_eq h.out).symm.trans he₁
  have hlabel := h.label
  cases h.visit with
  | leave hrun' hlabel' hreduced hfolds =>
    obtain ⟨p, s, hdrops⟩ := hfolds.drops
    have hnb : n ∈ rb.live exit tb := by
      rw [show r₁.entry = rb.entry from h.rest.run.entry_eq] at hn₁
      exact mem_cons.mpr ((mem_cons.mp hn₁).imp_right fun hn =>
        mem_cons_of_mem _ (h.rest.run.sublist.subset hn))
    exact absurd rfl (hdrops.bypasses.ne_of_mem (hrun'.foldable hra).toWellStructured hnb)
  | fill hrun' hlabel' hsame hnot hvalue =>
    obtain rfl := some.inj (hlabel.symm.trans hlabel'.label)
    obtain rfl := some.inj (hlabel'.label_self.symm.trans hlabel₁)
    refine ⟨fun y c' hdetermines => ?_, filled_eq_self_iff.mpr fun v hv c hc => ?_, hvalue⟩
    · -- either the node has been a definition from the start, or it passes a number on
      obtain ⟨hargs, hkind⟩ := literal?_eq_some hdetermines.literal
      obtain ⟨arg, harg, hfill⟩ := map_eq_singleton_iff.mp hargs
      rcases fillIn_eq_lit.mp hfill with rfl | ⟨u, rfl, hknown, hnumeric⟩
      · have hself : filled ra.constantOf e = e :=
          filled_eq_self_iff.mpr fun v hv => by simp [harg] at hv
        rw [hself] at hdetermines
        exact hnot y c' (h.later.determines hra hdetermines)
      · refine (hahead u c' (h.later.constantOf_mono hra hknown) hnumeric).2 ⟨n, hn, e, y, he,
          hkind, harg, hdetermines.dest, ?_, ?_⟩
        · exact (hrun.run.determines hr hdetermines).once
        · exact (hrun.run.determines hr hdetermines).quiet
    · -- what is not known yet is found out behind the node
      by_contra hnumeric
      obtain ⟨arg, harg, hfill⟩ := List.mem_map.mp hv
      obtain ⟨rfl, hnone⟩ := fillIn_eq_var hfill
      have hunknown : rb.constantOf v = none := by
        rw [constantOf_eq (hlabel'.traits v)]
        refine eq_none_iff_forall_ne_some.mpr fun c' hc' => ?_
        have hlast := h.later.constantOf_mono hra hc'
        obtain rfl : c' = c := some.inj (hlast.symm.trans hc)
        exact hnumeric (hnone c' hc')
      obtain ⟨-, d, hd, e', he', hw⟩ := h.rest.exists_writer hrb hunknown hc
      obtain ⟨e₀, he₀, hw₀⟩ := (h.front.append (.single h.visit)).exists_write he' hw
      refine (hahead v c hc (by simpa using hnumeric)).1 ⟨n, d, e, e₀, ?_, he, harg, he₀, hw₀⟩
      rw [horder]
      exact ((singleton_sublist.mpr hd).cons_cons n).trans (sublist_append_right before _)
  | reduce hrun' hlabel' hnot harithmetic hvalue =>
    obtain rfl := some.inj (hlabel.symm.trans hlabel'.label)
    obtain rfl := some.inj (hlabel'.label_self.symm.trans hlabel₁)
    refine ⟨fun y c' hdetermines => hnot y c' (h.rest.run.determines hrb hdetermines),
      filled_eq_self_iff.mpr fun v hv => ?_, fun _ => value?_reduced _ _ _⟩
    simp [reduced] at hv

variable (hstill : AllStill options r₁ t₁) (hv : r₁.constantOf v = some c)
    (hnumeric : c.isNumeric = true)
include hstill hv hnumeric

/-- A constant that is left has not been read ahead. -/
theorem not_readAhead (hfresh : ∀ v, r.constantOf v = none) :
    ¬ReadAhead r (r.entry :: t.sweep) v := by
  rintro ⟨m, d, e, e', hpair, he, hread, he', hw⟩
  obtain ⟨before, behind, horder, hd⟩ := exists_append_of_pair hpair
  obtain ⟨ra, ta, rb, tb, h⟩ := exists_reaches hr hrun horder he
  obtain ⟨c', hc'⟩ := ne_none_iff_exists'.mp (h.known hstill hread hv hnumeric)
  -- the variable has been found out about at its only definition, which comes later
  obtain ⟨honce, d', hd', e'', he'', hw'⟩ := h.front.exists_writer hr (hfresh v) hc'
  exact not_mem_before hr horder hd' he'' hw' (mem_cons_of_mem _ hd) he' hw honce

/-- A constant that is left has not been passed on. -/
theorem not_passedOn : ¬PassedOn r (r.entry :: t.sweep) v := by
  rintro ⟨n, hn, e, u, he, hkind, hargs, hdest, honce, hquiet⟩
  obtain ⟨before, behind, horder⟩ := append_of_mem hn
  obtain ⟨ra, ta, rb, tb, h⟩ := exists_reaches hr hrun horder he
  have hra : ra.Foldable exit ta := h.front.run.foldable hr
  have hknown : ra.constantOf v = some c := by
    obtain ⟨c', hc'⟩ := ne_none_iff_exists'.mp (h.known hstill (by simp [hargs]) hv hnumeric)
    have hlast : r₁.constantOf v = some c' := h.later.constantOf_mono hra hc'
    rw [hc', ← hlast, hv]
  have hlook : (filled ra.constantOf e).args = [.lit c] := by
    simp [filled, hargs, fillIn_eq_lit.mpr (Or.inr ⟨v, rfl, hknown, hnumeric⟩)]
  obtain ⟨hstays, hfilled⟩ := h.visit.stays h.mem h.label (v := v) (by simp [hargs]) fun x hx =>
    hkind.elim (args_of_value? hx).2.1 (args_of_value? hx).2.2
  have hmem : n ∈ r₁.entry :: t₁.nodes := h.rest.mem_new hstays h.out
  have hlabel : r₁.label n = some (filled ra.constantOf e) := (h.rest.label_eq h.out).trans hfilled
  -- the node still writes the variable, so nothing has been found out about it
  have hunknown : r₁.constantOf u = none := by
    have hr₁ : r₁.Foldable exit t₁ := hrun.run.foldable hr
    have hw : (u, Access.write) ∈ (filled ra.constantOf e).accesses := by
      rcases hkind with hkind | hkind <;>
        simp [Node.accesses, show (filled ra.constantOf e).kind = _ from hkind,
        show (filled ra.constantOf e).dest = _ from hdest]
    exact hr₁.constantOf_eq_none
      ((count_pos_iff.mpr hw).trans_le (hr₁.count_le (mem_live_of_entry hmem) hlabel u .write))
  refine (hstill n hmem _ hlabel).stays u c ⟨hdest, ?_,
    (hrun.run.writesOf_eq hr hunknown).trans honce, (hrun.run.addressableAt_eq u).trans hquiet⟩
  rcases hkind with hkind | hkind
  · simp [literal?, hlook, show (filled ra.constantOf e).kind = .op .const from hkind]
  · simp [literal?, hlook, show (filled ra.constantOf e).kind = .op .copy from hkind, hnumeric]

omit hr hrun hstill hv hnumeric

/-- A definition that can be folded away can still be folded away when the walk comes to it. -/
theorem Reaches.determines (h : Reaches options exit (r, t) b before behind n e (ra, ta) (rb, tb))
    (hr : r.Foldable exit t) (horder : r.entry :: t.sweep = before ++ n :: behind)
    (he : r.label n = some e) (hv : r.Determines e v c) : ra.Determines e v c := by
  have hunknown : r.constantOf v = none :=
    hr.constantOf_eq_none (by rw [hv.once]; exact Nat.one_pos)
  -- the node is the only one that writes the variable, and the walk has not come to it
  have hlater : ra.constantOf v = none := eq_none_iff_forall_ne_some.mpr fun c' hc' => by
    obtain ⟨honce, d, hd, e', he', hw⟩ := h.front.exists_writer hr hunknown hc'
    have hwrites : (v, Access.write) ∈ e.accesses := by
      rw [accesses_of_literal hv.literal hv.dest]
      exact mem_cons_self
    exact not_mem_before hr horder hd he' hw mem_cons_self he hwrites honce
  exact ⟨hv.dest, hv.literal, (h.front.run.writesOf_eq hr hlater).trans hv.once,
    (h.front.run.addressableAt_eq v).trans hv.quiet⟩

/-- A walk that comes to all nodes and changes nothing finds nothing to do. -/
theorem allStill_of_unchanged (hr : r.Foldable exit t)
    (hrun : Sweeps options exit (r.entry :: t.sweep) (r, t) (r, t₁)) : AllStill options r t := by
  intro n hn e he
  obtain ⟨before, behind, horder⟩ := append_of_mem (mem_order.mpr hn)
  obtain ⟨ra, ta, rb, tb, h⟩ := exists_reaches hr hrun horder he
  have hra : ra.Foldable exit ta := h.front.run.foldable hr
  have hlabel := h.label
  have hkept : rb.label n = some e := (h.rest.label_eq h.out).symm.trans he
  cases h.visit with
  | leave hrun' hlabel' hreduced hfolds =>
    -- the stream would have lost the node
    obtain ⟨p, s, hdrops⟩ := hfolds.drops
    obtain ⟨live, hlive, hperm⟩ := hr.liveNodes_eq
    obtain ⟨live', hlive', hperm'⟩ := (hrun.run.foldable hr).liveNodes_eq
    obtain rfl := Except.ok.inj (hlive.symm.trans hlive')
    have hmem : n ∈ r.live exit t₁ := (hperm.symm.trans hperm').mem_iff.mp (mem_live_of_entry hn)
    have hmem' : n ∈ rb.live exit tb := by
      rw [live_congr h.rest.run.entry_eq] at hmem
      exact cons_subset_cons _ (cons_subset_cons _ h.rest.run.sublist.subset) hmem
    exact absurd rfl (hdrops.bypasses.ne_of_mem (hrun'.foldable hra).toWellStructured hmem')
  | fill hrun' hlabel' hsame hnot hvalue =>
    obtain rfl := some.inj (hlabel.symm.trans hlabel'.label)
    have hfixed : filled ra.constantOf e = e := some.inj (hlabel'.label_self.symm.trans hkept)
    refine ⟨fun v c hv => hnot v c (h.determines hr horder he hv),
      filled_eq_self_iff.mpr fun v hv c hc => ?_, fun harithmetic => ?_⟩
    · exact filled_eq_self_iff.mp hfixed v hv c (h.front.run.constantOf_mono hr hc)
    · exact hfixed ▸ hvalue harithmetic
  | reduce hrun' hlabel' hnot harithmetic hvalue =>
    obtain rfl := some.inj (hlabel.symm.trans hlabel'.label)
    have hsame := some.inj (hlabel'.label_self.symm.trans hkept)
    exact absurd (congrArg Node.kind hsame).symm (args_of_value? hvalue).2.1

end Twice

/-- Propagating constants a second time changes nothing, exactly if no variable that has turned out
to hold a number is read by a node that the first walk came to before its definition, or passed on
by a copy to a variable that could be folded away as well. The walk comes to the second arm of a
conditional first. -/
theorem foldConstants_twice_iff {w : Work} (hbuilt : w.routine.Built) (options : Options) :
    Ends (foldConstants options) w (fun _ w' => ∃ t, w.routine.WellStructured 1 t ∧
        Ends (foldConstants options) w' (fun _ w'' => w''.routine = w'.routine ↔
            ∀ v c, w'.routine.constantOf v = some c → c.isNumeric = true →
              ¬ReadAhead w.routine (w.routine.entry :: t.sweep) v ∧
              ¬PassedOn w.routine (w.routine.entry :: t.sweep) v)
          fun _ => options.arithmetic = true ∧ ¬options.target.Sized)
      fun _ => options.arithmetic = true ∧ ¬options.target.Sized := by
  obtain ⟨t, ht⟩ := hbuilt.foldable
  refine (ends_foldConstants_sweeps ht.toWellStructured).mono fun _ w' h => ?_
  obtain ⟨t', hrun, -⟩ := h
  have ht' : w'.routine.Foldable 1 t' := hrun.run.foldable ht
  refine ⟨t, ht.toWellStructured, ?_⟩
  by_cases hstill : AllStill options w'.routine t'
  · refine Yields.ends ((yields_foldConstants_of_still ht' hstill).mono fun _ w'' hsame => ?_)
    refine iff_of_true hsame fun v c hv hnumeric => ⟨?_, not_passedOn ht hrun hstill hv hnumeric⟩
    exact not_readAhead ht hrun hstill hv hnumeric fun v => (hbuilt.untouched v).1
  · refine (ends_foldConstants_sweeps ht'.toWellStructured).mono fun _ w'' h => ?_
    obtain ⟨t'', hrun', -⟩ := h
    refine iff_of_false (fun hsame => hstill ?_) fun hahead => hstill (allStill ht hrun hahead)
    rw [hsame] at hrun'
    exact allStill_of_unchanged ht' hrun'

/-- A call that gets a constant defined in front of it. The definition goes, and a second walk finds
nothing to do. -/
theorem foldConstants_twice_iff_call :
    let callee : Signature := ⟨[.scalar .i32], none, .default⟩
    let calls : List Instruction := [.tmp none,
      .assign (some 1) .const (.scalar .i32) [.lit (.int 5)], .call none callee [.var 1]]
    let options : Options := ⟨{}, true⟩
    ∃ r b', Build.finish (Build.play default calls (Build.define "main" default)).1 = .ok r b' ∧
      r.Built ∧ Yields (foldConstants options) ⟨r, #[]⟩ fun _ w' => w'.routine.nextOf 0 = [3] ∧
        Yields (foldConstants options) w' fun _ w'' => w''.routine = w'.routine := by
  intro callee calls options
  obtain ⟨r, b', -, hfinish, hbuilt, -, hentry, hfirst, hconst, hreads, hwrites, hcall, hfolded⟩ :=
    Build.exists_main calls (by decide) (fun r => r.entry = 0 ∧ r.nextOf 0 = [2] ∧
      r.kindOf 2 = some (.op
    .const) ∧ (∀ n e, r.label n = some e → ∀ v ∈ e.args.filterMap Operand.var?, n = 3 ∧ v = 1) ∧
    (∀ n e, r.label n = some e → e.dest = some 1 → n = 2) ∧ (r.kindOf 3).any NodeKind.isPlainCall =
    true ∧ (foldConstants options).Yields ⟨r, #[]⟩ fun _ w' => w'.routine.nextOf 0 = [3] ∧
    (foldConstants options).Yields w' fun _ _ => True) (by decide +kernel)
  refine ⟨r, b', hfinish, hbuilt, ?_⟩
  obtain ⟨_, w', hok, hnext', htwice⟩ := yields_iff_exists.mp hfolded
  obtain ⟨_, w'', hok', -⟩ := yields_iff_exists.mp htwice
  refine yields_iff_exists.mpr ⟨_, w', hok, hnext', yields_iff_exists.mpr ⟨_, w'', hok', ?_⟩⟩
  obtain ⟨t, ht, hagain⟩ := (foldConstants_twice_iff (w := ⟨r, #[]⟩) hbuilt options).of_ok hok
  have hreader : ∀ {n e v}, r.label n = some e → .var v ∈ e.args → n = 3 ∧ v = 1 :=
    fun {n e v} he hv => hreads n e he v (mem_filterMap.mpr ⟨_, hv, rfl⟩)
  refine (hagain.of_ok hok').mpr fun v c _ _ => ⟨?_, ?_⟩
  · rintro ⟨m, d, e, e', hpair, he, hread, he', hw⟩
    obtain ⟨rfl, rfl⟩ := hreader he hread
    obtain rfl := hwrites _ _ he' (Node.write_mem_accesses_iff.mp hw).1
    -- the stream starts with the definition
    have hnext := eq_singleton ht.entry_degrees.2 ht.toLays.entry.1
    rw [hentry, hfirst, List.cons.injEq] at hnext
    have hshaped := ht.shaped
    have hnodup := nodup_order (ht.foldable hbuilt)
    rw [hentry] at hpair hnodup
    cases t with
    | done => simp [entryPort] at hnext
    | leaf n rest =>
      obtain rfl : 2 = n := hnext.1
      have hlater : [3, 2].Sublist rest.sweep := by
        simpa [sweep, sublist_cons_iff] using hpair
      have hmem : 2 ∈ rest.sweep := hlater.subset (by simp)
      simp [sweep, hmem] at hnodup
    | region o c body rest =>
      obtain rfl : 2 = o := hnext.1
      obtain ⟨form, suspends, hopen⟩ := hshaped.1
      cases hopen.symm.trans hconst
    | fork o c first second rest =>
      obtain rfl : 2 = o := hnext.1
      obtain ⟨suspends, hopen⟩ := hshaped.1
      cases hopen.symm.trans hconst
  · rintro ⟨n, -, e, u, he, hkind, hargs, -⟩
    obtain ⟨rfl, -⟩ := hreader he (by rw [hargs]; exact mem_cons_self)
    rcases hkind with hkind | hkind <;> simp [kindOf, he, hkind, NodeKind.isPlainCall] at hcall

/-- A constant that is passed on by a copy. The first walk fills in the copy, which is a definition
then, but only the second walk takes it out. -/
theorem foldConstants_leaves_copy :
    let callee : Signature := ⟨[.scalar .i32], none, .default⟩
    let calls : List Instruction := [.tmp none, .tmp none, .assign (some 1) .const (.scalar .i32)
      [.lit (.int 5)], .assign (some 2) .copy (.scalar .i32) [.var 1], .call none callee [.var 2]]
    ∃ r b', Build.finish (Build.play default calls (Build.define "main" default)).1 = .ok r b' ∧
      r.Built ∧ ∀ arithmetic, Yields (foldConstants ⟨{}, arithmetic⟩) ⟨r, #[]⟩ fun _ w' =>
        (w'.routine.nextOf 0 = [3] ∧ w'.routine.readsOf 2 = 1 ∧ w'.routine.constantOf 2 = none) ∧
        Yields (foldConstants ⟨{}, arithmetic⟩) w' fun _ w'' =>
          w''.routine.nextOf 0 = [4] ∧ w''.routine.readsOf 2 = 0 ∧
            w''.routine.constantOf 2 ≠ none := by
  intro callee calls
  obtain ⟨r, b', -, hfinish, hbuilt, -, hfolded⟩ :=
    Build.exists_main calls (by decide)
    (fun r => ∀ arithmetic : Bool, (foldConstants ⟨{}, arithmetic⟩).Yields ⟨r, #[]⟩ fun _ w' =>
      (w'.routine.nextOf 0 = [3] ∧ w'.routine.readsOf 2 = 1 ∧ w'.routine.constantOf 2 = none) ∧
      (foldConstants ⟨{}, arithmetic⟩).Yields w' fun _ w'' =>
        w''.routine.nextOf 0 = [4] ∧ w''.routine.readsOf 2 = 0 ∧
          w''.routine.constantOf 2 ≠ none) (by decide +kernel)
  exact ⟨r, b', hfinish, hbuilt, hfolded⟩

end Folding

end CoroutineIR
