import CoroutineIR.Proofs.Machine
import CoroutineIR.Proofs.Nesting
import CoroutineIR.Proofs.Spreading

/-!
# Well-structured routines

What the passes rely on: a routine whose stream is a strand and that passes the check. A coroutine
that has not been cut into steps yet is such a routine in which every region around a suspension is
marked. The builder produces nothing else.
-/

namespace CoroutineIR

open List NodeKind

variable {kinds : NodeId → Option NodeKind} {parent : NodeId} {t : Strand}

/-- Whether control is suspended at a node: it calls a coroutine and waits for it, or it yields. -/
def NodeKind.isSuspension : NodeKind → Bool
  | .yield => true
  | kind => kind.awaits

theorem NodeKind.not_awaits_of_calm {kind : NodeKind} (h : kind.isSuspension = false) :
    kind.awaits = false := by
  cases kind with
  | yield => rfl
  | _ => exact h

/-- Whether the region around a node has to be marked as suspending. -/
def NodeKind.rouses (kind : NodeKind) : Bool := kind.opensSuspending || kind.isSuspension

/-- Whether only the lowering produces such nodes. -/
def NodeKind.isLowered : NodeKind → Bool
  | .step _ | .goto _ _ | .call .directBegin _ | .call .indirectBegin _ | .call .finish _ => true
  | _ => false

/-- Whether a node does nothing but open or close a region. -/
def NodeKind.isBracket : NodeKind → Bool
  | .enter .block _ | .enter .loop _ | .close _ => true
  | _ => false

/-- Whether control just passes through a node. -/
def NodeKind.isPlain : NodeKind → Bool
  | .declare _ | .call _ _ | .yield | .op _ => true
  | _ => false

/-- Every region around a suspension, and every region around a marked one, is marked. -/
def Strand.Roused (kinds : NodeId → Option NodeKind) : NodeId → Strand → Prop
  | _, done => True
  | parent, leaf n rest =>
    ((kinds n).any NodeKind.rouses → (kinds parent).any NodeKind.opensSuspending) ∧
      rest.Roused kinds parent
  | parent, region o _ body rest =>
    ((kinds o).any NodeKind.rouses → (kinds parent).any NodeKind.opensSuspending) ∧
      body.Roused kinds o ∧ rest.Roused kinds parent
  | parent, fork o _ first second rest =>
    ((kinds o).any NodeKind.rouses → (kinds parent).any NodeKind.opensSuspending) ∧
      first.Roused kinds o ∧ second.Roused kinds o ∧ rest.Roused kinds parent

theorem Strand.roused_append {u : Strand} :
    (t.append u).Roused kinds parent ↔ t.Roused kinds parent ∧ u.Roused kinds parent := by
  induction t with
  | done => simp [Roused]
  | leaf n rest ih | region o c body rest _ ih | fork o c first second rest _ _ ih =>
    simp only [append, Roused, ih, and_assoc]

/-- What the parts of a strand ask for only gets weaker if fewer nodes rouse and more regions are
marked. -/
theorem Strand.Roused.weaken {kinds' : NodeId → Option NodeKind}
    {parent' : NodeId} (h : t.Roused kinds parent)
    (hrouses : ∀ n ∈ t.nodes, (kinds' n).any rouses → (kinds n).any rouses)
    (hmarked : ∀ n ∈ t.nodes, (kinds n).any opensSuspending → (kinds' n).any opensSuspending)
    (hparent : (kinds parent).any opensSuspending →
      (kinds' parent').any opensSuspending) : t.Roused kinds' parent' := by
  induction t generalizing parent parent' with
  | done => trivial
  | leaf n rest ih =>
    simp only [forall_leaf] at hrouses hmarked
    exact ⟨fun hn => hparent (h.1 (hrouses.1 hn)), ih h.2 hrouses.2 hmarked.2 hparent⟩
  | region o c body rest ihb ihr =>
    simp only [forall_region] at hrouses hmarked
    exact ⟨fun ho => hparent (h.1 (hrouses.1 ho)), ihb h.2.1 hrouses.2.1 hmarked.2.1 hmarked.1,
      ihr h.2.2 hrouses.2.2.2 hmarked.2.2.2 hparent⟩
  | fork o c first second rest iha ihb ihr =>
    simp only [forall_fork] at hrouses hmarked
    exact ⟨fun ho => hparent (h.1 (hrouses.1 ho)), iha h.2.1 hrouses.2.1 hmarked.2.1 hmarked.1,
      ihb h.2.2.1 hrouses.2.2.1 hmarked.2.2.1 hmarked.1,
      ihr h.2.2.2 hrouses.2.2.2.2 hmarked.2.2.2.2 hparent⟩

/-- More marks do no harm, as long as they are not on the nodes of the strand. -/
theorem Strand.Roused.mono {kinds' : NodeId → Option NodeKind} (h : t.Roused kinds parent)
    (heq : ∀ n ∈ t.nodes, kinds' n = kinds n)
    (hparent : (kinds parent).any opensSuspending →
      (kinds' parent).any opensSuspending) : t.Roused kinds' parent :=
  h.weaken (fun n hn => by rw [heq n hn]; exact id) (fun n hn => by rw [heq n hn]; exact id) hparent

/-- The same, said of the places of nodes. -/
theorem Strand.Roused.placed (h : t.Roused kinds parent) : ∀ p ∈ t.placed kinds parent,
      (kinds p.node).any rouses → (kinds p.parent).any opensSuspending := by
  induction t generalizing parent with
  | done => simp [Strand.placed]
  | leaf n rest ih =>
    simp only [Strand.placed, forall_mem_cons]
    exact ⟨h.1, ih h.2⟩
  | region o c body rest ihb ihr =>
    simp only [Strand.placed, cons_append, forall_mem_cons, forall_mem_append]
    exact ⟨h.1, ihb h.2.1, ihr h.2.2⟩
  | fork o c first second rest iha ihb ihr =>
    simp only [Strand.placed, cons_append, List.append_assoc, forall_mem_cons, forall_mem_append]
    exact ⟨h.1, iha h.2.1, ihb h.2.2.1, ihr h.2.2.2⟩

namespace Routine

/-- A stream that is a strand and passes the check. -/
structure WellStructured (r : Routine) (exit : NodeId) (t : Strand) :
    Prop extends r.Streams exit t where
  verified : r.verify = .ok ()

/-- A routine that suspends and has not been cut into steps. Nodes that only open or close a region
have no operands, and every region around a suspension is marked. -/
structure Coroutine (r : Routine) (exit : NodeId) (t : Strand) :
    Prop extends r.WellStructured exit t where
  suspends : r.suspends = .ok true
  plain : ∀ n ∈ t.nodes, ∀ kind, r.kindOf n = some kind → kind.isLowered = false
  brackets : ∀ n ∈ t.nodes, ∀ d, r.label n = some d → d.kind.isBracket = true →
    d.args = [] ∧ d.dest = none
  roused : t.Roused r.kindOf r.entry

namespace WellStructured

variable {r : Routine} {exit n : NodeId} {d : Node} {v : VarId}

variable (h : r.WellStructured exit t)
include h

theorem branchesFit : t.BranchesFit r.kindOf [r.entry] :=
  (h.toStreams.verify_eq_ok_iff.mp h.verified).1

theorem fits (hn : n ∈ r.live exit t) : r.Fits (r.live exit t) n :=
  ((h.toStreams.verify_eq_ok_iff.mp h.verified).2.1 n hn).1

theorem nestsDetached (hn : n ∈ r.live exit t) : r.NestsDetached n :=
  ((h.toStreams.verify_eq_ok_iff.mp h.verified).2.1 n hn).2

theorem counted : r.Counted (r.live exit t) :=
  (h.toStreams.verify_eq_ok_iff.mp h.verified).2.2

/-- A branch goes to a node that opens a region. -/
theorem branch_target (hn : n ∈ t.nodes) {guarded : Bool} {goal : Branch}
    (hd : r.label n = some d) (hkind : d.kind = .branch guarded goal) :
    ∃ d', r.label goal.target = some d' ∧ d'.kind.region?.isSome := by
  have hk : r.kindOf n = some (.branch guarded goal) := kindOf_of_label hd hkind
  obtain ⟨-, kind, hkind', hregion⟩ := (h.fits (by simp [hn])).target guarded goal hk
  obtain ⟨d', hd', rfl⟩ := Option.map_eq_some_iff.mp hkind'
  exact ⟨d', hd', hregion⟩

/-- Every access of a node of the stream is counted. -/
theorem tally_pos (hn : n ∈ r.live exit t) (hd : r.label n = some d)
    {access : Access} (ha : (v, access) ∈ d.accesses) : 0 < r.tally v access := by
  obtain ⟨-, _, ⟨acc, hacc, rfl⟩, hlt, hcounts⟩ := h.counted
  obtain ⟨ms, hms, -⟩ := h.nestsDetached hn
  obtain ⟨inner, rfl⟩ := exists_nested hms
  have hmem : (v, access) ∈ (r.live exit t).flatMap acc := by
    refine mem_flatMap.mpr ⟨n, hn, ?_⟩
    have heq := (hacc n hn).symm.trans (accesses_of_nested hms)
    rw [Except.ok.inj heq, flatMap_cons]
    exact mem_append_left _ (by simp [accessesAt, hd, ha])
  have hv : v < r.vars.size := hlt _ hmem
  have hx := Array.getElem?_eq_getElem hv
  have hpos := count_pos_iff.mpr hmem
  obtain ⟨hreads, hwrites⟩ := hcounts _ _ hx
  cases access with
  | read =>
    rw [tally, readsOf_eq hx]
    omega
  | write =>
    rw [tally, writesOf_eq hx]
    omega

/-- The result of a call counts as written. -/
theorem written (hn : n ∈ t.nodes) {form : CallForm} {sig : Signature} (hd : r.label n = some d)
    (hkind : d.kind = .call form sig) (hdest : d.dest = some v) : 0 < r.writesOf v :=
  have haccess : (v, Access.write) ∈ d.accesses := by simp [Node.accesses, hkind, hdest]
  h.tally_pos (by simp [hn]) hd haccess

end WellStructured

end Routine

end CoroutineIR
