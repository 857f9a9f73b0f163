import CoroutineIR.Proofs.Cutting

/-!
# The walk that opens steps

The first walk of the lowering gets through every strand, wherever it stands, and leaves the strand
cut into steps. There is one lemma for each kind of place the walk comes to, stated with what is
left to show once it has gone on from there, and the walk through a strand follows by induction on
the strand.
-/

namespace CoroutineIR

open List Option CoroutineIR.Action Strand Edit

namespace Routine

/-- A part of the stream that has not been cut yet: its labels are those before the walk, as are
those of all nodes that open a region. Branches go to such nodes, and results of calls count as
written. -/
structure Uncut (r : Routine) (old : NodeId → Option Node) (t : Strand) : Prop where
  label : ∀ m ∈ t.nodes, r.label m = old m
  opener : ∀ m d, old m = some d → d.kind.region?.isSome → r.label m = some d
  shaped : t.Shaped fun n => (old n).map Node.kind
  branch : ∀ n ∈ t.nodes, ∀ d guarded goal, old n = some d → d.kind = .branch guarded goal →
    ∃ d', old goal.target = some d' ∧ d'.kind.region?.isSome
  written : ∀ n ∈ t.nodes, ∀ d form sig v, old n = some d → d.kind = .call form sig →
    d.dest = some v → 0 < r.writesOf v

namespace Uncut

variable {r r' : Routine} {old : NodeId → Option Node} {t u : Strand} {free : List NodeId}

theorem part (h : r.Uncut old t) (hsub : u.nodes ⊆ t.nodes)
    (hshaped : u.Shaped fun n => (old n).map Node.kind) : r.Uncut old u where
  label m hm := h.label m (hsub hm)
  opener := h.opener
  shaped := hshaped
  branch n hn := h.branch n (hsub hn)
  written n hn := h.written n (hsub hn)

theorem lt_size (h : r.Uncut old t) {m : NodeId} (hm : m ∈ t.nodes) : m < r.nodes.size := by
  obtain ⟨kind, hkind⟩ := h.shaped.exists_kind hm
  obtain ⟨d, hd, -⟩ := map_eq_some_iff.mp hkind
  exact lt_of_label ((h.label m hm).trans hd)

theorem revised (h : r.Uncut old t) (hrev : r.Revises r' free) (hfree : ∀ m ∈ t.nodes, m ∉ free) :
    r'.Uncut old t where
  label m hm := (hrev.label_eq (h.lt_size hm) (hfree m hm)).trans (h.label m hm)
  opener m d hm hregion := hrev.labels m d (h.opener m d hm hregion) fun _ => hregion
  shaped := h.shaped
  branch := h.branch
  written n hn d form sig v hd hkind hdest :=
    Nat.lt_of_lt_of_eq (h.written n hn d form sig v hd hkind hdest) (hrev.tally v .write).symm

end Uncut

end Routine

/-- What stands in front of the rest of a strand once the walk has come there, with the flags in
front of it and behind it. -/
def Strand.Fronts (old label : NodeId → Option Node) (b b' : Bool) (place : Strand → Strand)
    (front : Strand) : Prop :=
  ∀ label' rest rest', (∀ m ∈ front.nodes, label' m = label m) → Cut old label' b' rest rest' →
    Cut old label' b (place rest) (front.append rest')

theorem Strand.Turned.fronts {old label : NodeId → Option Node} {b b' : Bool} {n : NodeId}
    {lead behind : Strand} (h : Turned old label n b' behind) (hstep : StepAhead label b lead) :
    Fronts old label b b' (.leaf n) (lead.append (.leaf n behind)) := by
  intro label' rest rest' heq hcut
  simp only [nodes_append, forall_mem_append, forall_leaf] at heq
  rw [append_assoc]
  exact .leaf (hstep.congr heq.1) (h.congr heq.2.1 heq.2.2) hcut

theorem Strand.Calm.fronts {old label : NodeId → Option Node} {b : Bool} {lead part : Strand}
    (h : Calm old part) (hstep : StepAhead label b lead)
    (hnew : ∀ m ∈ part.nodes, label m = old m) :
    Fronts old label b true part.append (lead.append part) := by
  intro label' rest rest' heq hcut
  simp only [nodes_append, forall_mem_append] at heq
  rw [append_assoc]
  exact .calm (hstep.congr heq.1) h (fun m hm => (heq.2 m hm).trans (hnew m hm)) hcut

namespace Lower

open Routine

variable {l : Lowering} {old : NodeId → Option Node} {exit n stop o c : NodeId} {C : Strand.Context}
  {rest t body : Strand} {step : Option NodeId} {second : Bool} {fuel m : Nat} {d dₒ : Node}
  {post : PUnit → Lowering → Prop} {form : Form}

/-- The walk goes on at the only node behind a node. -/
theorem yields_next {next : NodeId} {nexts : List NodeId}
    (hnext : l.routine.nextOf n = next :: nexts)
    (h : Yields (transformWithin fuel (some next) stop step second) l post) :
    ∃ d, l.routine.nodes[n]? = some d ∧
    Yields (transformWithin fuel d.firstNext stop step second) l post := by
  obtain ⟨d, hd, hfirst⟩ := exists_firstNext hnext
  exact ⟨d, hd, by rwa [hfirst]⟩

section

variable (h : l.routine.Carries exit (C.plug (.leaf n rest))) (hk : ∀ l' lead behind step' fuel',
    fuel ≤ fuel' → l'.routine.Carries exit (C.plug (lead.append (.leaf n (behind.append rest)))) →
    l.routine.Revises l'.routine [n] → Strand.StepAhead l'.routine.label step.isSome lead →
    Strand.Turned old l'.routine.label n step'.isSome behind → Yields (transformWithin fuel'
    (some (rest.entryPort (C.target (exit, 0))).1) stop step' second) l' post)
include h hk

/-- The walk past a node that stays in the open step. -/
theorem yields_keep (hold : old n = some d) (hlabel : l.routine.label n = some d)
    (hmove : moveAt d.kind = .keep) :
    Yields (transformWithin (fuel + 2) (some n) stop step second) l post := by
  simp only [transformWithin, yields_bind, Lower.yields_lift, yields_kind,
    node_of_label hlabel, exists_some_eq, hmove, yields_firstNext]
  refine yields_ensureStep h rfl step fun s l₁ lead h₁ hrev hstep => ?_
  refine yields_next (Carries.part (C := C.inside (.behind lead)) h₁).nextOf_leaf ?_
  exact hk l₁ lead .done (some s) _ (Nat.le_succ _) h₁ (hrev.mono (by simp)) hstep
    (.keep hold hmove (hrev.labels n d hlabel (by simp)))

/-- A suspension, with a jump put behind it. -/
theorem yields_yield (hold : old n = some d) (hlabel : l.routine.label n = some d)
    (hkind : d.kind = .yield) :
    Yields (transformWithin (fuel + 2) (some n) stop step second) l post := by
  simp only [transformWithin, yields_bind, Lower.yields_lift, yields_kind,
    node_of_label hlabel, exists_some_eq, hkind, moveAt, yields_firstNext]
  refine yields_ensureStep h rfl step fun s l₁ lead h₁ hrev hstep => ?_
  simp only [addPendingJump, yields_addNode]
  refine yields_insertAfter_new (C := C.inside (.behind lead)) h₁ rfl fun r₂ h₂ hrev₂ hjump => ?_
  have hrevs : l.routine.Revises r₂ [] := hrev.trans hrev₂
  refine yields_next (l := { l₁ with routine := r₂ })
    (Carries.part (C := C.inside (.behind lead)) h₂).leaf_rest.nextOf_leaf ?_
  exact hk _ lead (.leaf l₁.routine.nodes.size .done) none _ (Nat.le_succ _) h₂
    (hrevs.mono (by simp))
    (hstep.congr (h₁.front_label hrev₂ (by simp)))
    (.yield hold hkind (hrevs.labels n d hlabel (by simp)) hjump)

/-- A branch, which becomes a jump. -/
theorem yields_branch {guarded : Bool} {goal : Branch} (hun : l.routine.Uncut old (.leaf n rest))
    (hold : old n = some d) (hkind : d.kind = .branch guarded goal) :
    Yields (transformWithin (fuel + 2) (some n) stop step second) l post := by
  have hlabel : l.routine.label n = some d := (hun.label n (by simp)).trans hold
  obtain ⟨dₜ, htarget, hregion⟩ := hun.branch n (by simp) d guarded goal hold hkind
  simp only [transformWithin, yields_bind, Lower.yields_lift, yields_kind,
    node_of_label hlabel, exists_some_eq, hkind, moveAt, yields_firstNext]
  refine yields_ensureStep h rfl step fun s l₁ lead h₁ hrev hstep => ?_
  have htarget₁ : l₁.routine.label goal.target = some dₜ :=
    hrev.labels _ _ (hun.opener _ _ htarget hregion) (by simp)
  have hlabel₁ : l₁.routine.label n = some d := hrev.labels n d hlabel (by simp)
  refine yields_branchDestination htarget₁ hregion fun dest hdest => ?_
  rw [yields_setKind]
  refine ⟨lt_of_label hlabel₁, ?_⟩
  have hrev₂ := revises_setKind hlabel₁ (by rw [hkind]; rfl) (.goto guarded (.pending (some dest)))
  have h₂ : (l₁.routine.alter n ({ · with kind := .goto guarded (.pending (some dest)) })).Carries
      exit (C.plug (lead.append (.leaf n rest))) := h₁.congr rfl fun m _ =>
    ⟨nextOf_alter_of_eq (by intro d; rfl), prevOf_alter_of_eq (by intro d; rfl)⟩
  refine yields_next
    (l := { l₁ with
      routine := l₁.routine.alter n ({ · with kind := .goto guarded (.pending (some dest)) }) })
    (Carries.part (C := C.inside (.behind lead)) h₂).nextOf_leaf ?_
  have hnew : (l₁.routine.alter n ({ · with kind := .goto guarded (.pending (some dest)) })).label
      n = some { d with kind := .goto guarded (.pending (some dest)) } := by
    rw [label_alter (g := ({ · with kind := .goto guarded (.pending (some dest)) }))
      (by intro d; rfl), if_pos rfl, hlabel₁]
    rfl
  refine hk _ lead .done (if guarded then some s else none) _ (Nat.le_succ _) h₂ (hrev.trans hrev₂)
    (hstep.congr (h₁.front_label hrev₂ (by simp))) ?_
  cases guarded <;> exact .branch hold hkind ⟨dₜ, htarget, hdest⟩ hnew

/-- A call that suspends, split in two. -/
theorem yields_split {form first : CallForm} {sig : Signature}
    (hun : l.routine.Uncut old (.leaf n rest))
    (hold : old n = some d) (hkind : d.kind = .call form sig)
    (hfirst : form.begun? = some first) (hsuspends : sig.suspends = true) :
    Yields (transformWithin (fuel + 2) (some n) stop step second) l post := by
  have hlabel : l.routine.label n = some d := (hun.label n (by simp)).trans hold
  have hmove : moveAt d.kind = .split first sig := by
    simp [hkind, moveAt, firstHalf?_eq, hfirst, hsuspends]
  rw [transformWithin]
  simp only [yields_bind, Lower.yields_lift, yields_kind, node_of_label hlabel,
    exists_some_eq, hmove]
  refine yields_ensureStep h rfl step fun s l₁ lead h₁ hrev hstep => ?_
  have hlabel₁ : l₁.routine.label n = some d := hrev.labels n d hlabel (by simp)
  refine yields_splitCall (C := C.inside (.behind lead)) h₁ hlabel₁ (by rw [hkind]; rfl)
    (fun v hv => ?_) fun j f r₂ h₂ hrev₂ hn hj hf => ?_
  · exact Nat.lt_of_lt_of_eq (hun.written n (by simp) d form sig v hold hkind hv)
      (hrev.tally v .write).symm
  -- the second half opens a step of its own
  have h₂' : r₂.Carries exit
      ((C.inside (.behind (lead.append (.leaf n (.leaf j .done))))).plug (.leaf f rest)) := by
    simpa [Strand.Context.plug, Frame.fill, Strand.append_assoc, Strand.append] using h₂
  simp only [transformWithin, yields_bind, Lower.yields_lift, yields_kind, node_of_label hf,
    exists_some_eq, Node.detached, moveAt, firstHalf?, yields_firstNext]
  refine yields_ensureStep (l := { l₁ with routine := r₂ }) h₂' rfl none
    fun s' l₃ lead' h₃ hrev₃ hstep' => ?_
  cases hstep' with
  | @opens s₃ name hs₃ =>
    have h₃' : l₃.routine.Carries exit
        (C.plug (lead.append (.leaf n (.leaf j (.leaf s₃ (.leaf f rest)))))) := by
      simpa [Strand.Context.plug, Frame.fill, Strand.append_assoc, Strand.append] using h₃
    refine yields_next
      (Carries.part (C := C.inside (.behind (lead.append (.leaf n (.leaf j .done)))))
      h₃).leaf_rest.nextOf_leaf ?_
    exact hk l₃ lead (.leaf j (.leaf s₃ (.leaf f .done))) (some s') _ (Nat.le_refl _) h₃'
      ((hrev.trans hrev₂).trans hrev₃) (hstep.congr (h₁.front_label (hrev₂.trans hrev₃) (by simp)))
      (.split hold hkind hfirst hsuspends (hrev₃.labels _ _ hn (by simp))
      (hrev₃.labels _ _ hj (by simp)) hs₃ (hrev₃.labels _ _ hf (by simp)))

/-- The walk past a single node. -/
theorem yields_leaf (hun : l.routine.Uncut old (.leaf n rest)) :
    Yields (transformWithin (fuel + 2) (some n) stop step second) l post := by
  obtain ⟨⟨kind, hkind, hregion, hclose⟩, -⟩ := hun.shaped
  obtain ⟨d, hold, rfl⟩ := map_eq_some_iff.mp hkind
  have hlabel : l.routine.label n = some d := (hun.label n (by simp)).trans hold
  cases hk' : d.kind with
  | define | enter => simp [hk'] at hregion
  | close => simp [hk'] at hclose
  | branch guarded goal => exact yields_branch h hk hun hold hk'
  | yield => exact yields_yield h hk hold hlabel hk'
  | call form sig =>
    cases hfirst : form.begun? with
    | none => exact yields_keep h hk hold hlabel (by simp [hk', moveAt, firstHalf?_eq, hfirst])
    | some first =>
      cases hsuspends : sig.suspends with
      | false =>
        exact yields_keep h hk hold hlabel (by simp [hk', moveAt, firstHalf?_eq, hfirst, hsuspends])
      | true => exact yields_split h hk hun hold hk' hfirst hsuspends
  | declare | ret | step | goto | op => exact yields_keep h hk hold hlabel (by simp [hk', moveAt])

end

section

variable (h : l.routine.Carries exit (C.plug t)) (hport : t.entryPort (C.target (exit, 0)) = (o, 0))
    (hlabel : l.routine.label o = some d)
include h hport hlabel

/-- The walk past a region that is kept as a whole. `place` puts the region in front of the rest. -/
theorem yields_skip (hkind : d.kind = .enter form ⟨c, false⟩)
    (hk : ∀ l' lead s, l'.routine.Carries exit (C.plug (lead.append t)) →
      l.routine.Revises l'.routine [] →
      Strand.StepAhead l'.routine.label step.isSome lead → ∃ d', l'.routine.nodes[c]? = some d' ∧
      Yields (transformWithin fuel d'.firstNext stop (some s) second) l' post) :
    Yields (transformWithin (fuel + 1) (some o) stop step second) l post := by
  simp only [transformWithin, yields_bind, Lower.yields_lift, yields_kind, node_of_label
    hlabel, exists_some_eq, hkind, moveAt, Bool.not_false, if_true, yields_firstNext]
  exact yields_ensureStep h hport step fun s l₁ lead => hk l₁ lead s

/-- The walk into a block or loop that is taken apart. -/
theorem yields_dissolve (hkind : d.kind = .enter form ⟨c, true⟩) (hform : form ≠ .cond)
    (hk : ∀ l' lead, l'.routine.Carries exit (C.plug (lead.append t)) → l.routine.Revises l'.routine
      [] → JumpAhead l'.routine.label lead → ∃ d', l'.routine.nodes[o]? = some d' ∧
      Yields (transformWithin fuel d'.firstNext stop none second) l' post) :
    Yields (transformWithin (fuel + 1) (some o) stop step second) l post := by
  simp only [transformWithin, yields_bind, Lower.yields_lift, yields_kind, node_of_label
    hlabel, exists_some_eq, hkind, moveAt, Bool.not_true, Bool.false_eq_true, if_false, hform]
  split
  · simp only [yields_bind, Lower.yields_lift, Edit.insertBefore, yields_firstNext]
    rw [← yields_bind (f := fun jump => Edit.insertBeforeSlot o 0 jump)]
    exact yields_jumpBefore h hport fun j r' h' hrev hj =>
      hk { l with routine := r' } (.leaf j .done) h' hrev (.jump hj)
  · simp only [yields_bind, Lower.yields_lift, yields_firstNext]
    exact hk l .done h (.refl _ _) .none

omit hport hlabel in
/-- The walk at a closing node, which is reached at the end of the given part. It goes on there
unless it was to stop. -/
theorem yields_close (htarget : C.target (exit, 0) =
      (c, if second && decide (c = stop) then 1 else 0)) (hlabel : l.routine.label c = some d)
    (hkind : d.kind = .close o) (hopener : l.routine.label o = some dₒ)
    (hk : ∀ l' tail, l'.routine.Carries exit (C.plug (t.append tail)) →
      l.routine.Revises l'.routine [] → JumpAhead l'.routine.label tail →
      if c = stop then post () l' else ∃ d', l'.routine.nodes[c]? = some d' ∧
      Yields (transformWithin fuel d'.firstNext stop none second) l' post) :
    Yields (transformWithin (fuel + 1) (some c) stop step second) l post := by
  have hdone : l.routine.Carries exit ((C.inside (.behind t)).plug .done) := by
    rwa [Strand.Context.plug, Frame.fill, append_done]
  simp only [transformWithin, yields_bind, Lower.yields_lift, yields_kind,
    node_of_label hlabel, exists_some_eq, hkind, moveAt]
  split
  · simp only [yields_bind, Lower.yields_lift, yields_ite, yields_pure, yields_firstNext]
    exact yields_leaveStep hdone htarget hopener fun r' tail => hk { l with routine := r' } tail
  · simp only [yields_bind, Lower.yields_lift, yields_ite, yields_pure, yields_firstNext]
    exact hk l .done hdone (.refl _ _) .none

/-- The walk into a conditional that is cut up, its second arm first. -/
theorem yields_descend (hkind : d.kind = .enter .cond ⟨c, true⟩)
    (hk : ∀ l' lead s, l'.routine.Carries exit (C.plug (lead.append t)) →
      l.routine.Revises l'.routine [] →
      Strand.StepAhead l'.routine.label step.isSome lead → ∃ d', l'.routine.nodes[o]? = some d' ∧
      Yields (d'.next[1]?.elim (pure ()) fun first => transformWithin fuel (some first) c (some s)
      true) l' fun _ l'' => ∃ d'', l''.routine.nodes[o]? = some d'' ∧
      Yields (transformWithin fuel d''.firstNext stop (some s) second) l'' post) :
    Yields (transformWithin (fuel + 1) (some o) stop step second) l post := by
  simp only [transformWithin, yields_bind, Lower.yields_lift, yields_kind,
    node_of_label hlabel, exists_some_eq, hkind, moveAt, Bool.not_true, Bool.false_eq_true,
    if_false, if_true, yields_node]
  refine yields_ensureStep h hport step fun s l₁ lead h₁ hrev hstep => ?_
  obtain ⟨d', hd', hyields⟩ := hk l₁ lead s h₁ hrev hstep
  refine ⟨d', hd', ?_⟩
  cases hnext : d'.next[1]? with
  | none | some first =>
    rw [hnext] at hyields
    simp only [yields_bind, Lower.yields_lift, yields_firstNext]
    exact hyields

end

/-- The walk gets through a strand wherever it stands: it is enough that it gets through what
follows. -/
def Walks (old : NodeId → Option Node) (exit : NodeId) (t : Strand) : Prop :=
  ∀ (C : Strand.Context) (l : Lowering) (stop : NodeId) (step : Option NodeId) (second : Bool)
    (fuel m : Nat) (post : PUnit → Lowering → Prop), l.routine.Carries exit (C.plug t) →
    l.routine.Uncut old t → stop ∉ t.nodes → m + 2 * t.nodes.length ≤ fuel →
    (∀ l' t' step' fuel', m ≤ fuel' → l'.routine.Carries exit (C.plug t') →
    l.routine.Revises l'.routine t.leaves → Strand.Cut old l'.routine.label step.isSome t t' →
    Yields (transformWithin fuel' (some (C.target (exit, 0)).1) stop step' second) l' post) → Yields
    (transformWithin fuel (some (t.entryPort (C.target (exit, 0))).1) stop step second) l post

/-- Once the front of a part is cut, the walk goes on through the rest. -/
theorem Walks.behind {front : Strand} {place : Strand → Strand} {b : Bool}
    (hwalks : Walks old exit rest) (h : l.routine.Carries exit (C.plug (front.append rest)))
    (hun : l.routine.Uncut old rest) (hstop : stop ∉ rest.nodes)
    (hfuel : m + 2 * rest.nodes.length ≤ fuel)
    (hfront : Strand.Fronts old l.routine.label b step.isSome place front)
    (hk : ∀ l' t' step' fuel', m ≤ fuel' → l'.routine.Carries exit (C.plug t') →
      l.routine.Revises l'.routine rest.leaves → Strand.Cut old l'.routine.label b (place rest) t' →
      Yields (transformWithin fuel' (some (C.target (exit, 0)).1) stop step' second) l' post) :
    Yields (transformWithin fuel (some (rest.entryPort (C.target (exit, 0))).1) stop step second) l
    post := by
  refine hwalks (C.inside (.behind front)) l stop step second fuel m post h hun hstop hfuel
    fun l' rest' step' fuel' hfuel' h' hrev hcut => ?_
  refine hk l' (front.append rest') step' fuel' hfuel' h' hrev (hfront _ _ _ ?_ hcut)
  exact h.front_label hrev rest.leaves_sublist.subset

/-- The walk through an arm, past the closing node behind it, and through the rest. -/
theorem Walks.arm (frame : Strand → Frame) {lead : Strand}
    (hbody : Walks old exit body) (hrest : Walks old exit rest)
    (happend : ∀ rest u, ((frame .done).fill u).append rest = (frame rest).fill u)
    (htarget : ∀ dst, (frame rest).target dst = (c, 0)) (hnext : ∀ {r : Routine} {src u dst},
      r.Lays src ((frame rest).fill u) dst → r.nextOf c = [(rest.entryPort dst).1])
    (h : l.routine.Carries exit (C.plug (lead.append ((frame rest).fill body))))
    (hunb : l.routine.Uncut old body) (hunr : l.routine.Uncut old rest)
    (hstop : stop ∉ c :: body.nodes ++ rest.nodes) (hc : c ∉ body.nodes ∧ c ∉ rest.nodes)
    (hdisjoint : ∀ m ∈ rest.nodes, m ∉ body.nodes)
    (hlabel : l.routine.label c = some d) (hkind : d.kind = .close o)
    (hopener : l.routine.label o = some dₒ) (hregion : dₒ.kind.region?.isSome)
    (hfuel : m + 1 + 2 * (body.nodes.length + rest.nodes.length) ≤ fuel)
    (hk : ∀ l' body' tail rest' step' fuel', m ≤ fuel' →
      l'.routine.Carries exit (C.plug (lead.append ((frame rest').fill (body'.append tail)))) →
      l.routine.Revises l'.routine (body.leaves ++ rest.leaves) →
      (∀ m ∈ o :: c :: lead.nodes, l'.routine.label m = l.routine.label m) →
      Strand.Cut old l'.routine.label step.isSome body body' →
      JumpAhead l'.routine.label tail → Strand.Cut old l'.routine.label false rest rest' →
      Yields (transformWithin fuel' (some (C.target (exit, 0)).1) stop step' second) l' post) :
    Yields (transformWithin fuel (some (body.entryPort (c, 0)).1) stop step second) l post := by
  set D := (C.inside (.behind lead)).inside (frame rest)
  have hDt : D.target (exit, 0) = (c, 0) := htarget _
  simp only [cons_append, mem_cons, mem_append, not_or] at hstop
  rw [← hDt]
  refine hbody D l stop step second fuel (m + 1 + 2 * rest.nodes.length) post h hunb hstop.2.1
    (by omega) fun l₂ body' step₂ fuel₂ hfuel₂ h₂ hrev₂ hcut₂ => ?_
  obtain _ | fuel₂ := fuel₂
  · omega
  rw [hDt]
  have hcleaf : c ∉ body.leaves := fun hmem => hc.1 (body.leaves_sublist.subset hmem)
  have hlabel₂ : l₂.routine.label c = some d :=
    hrev₂.labels c d hlabel fun hmem => absurd hmem hcleaf
  have hopener₂ : l₂.routine.label o = some dₒ := hrev₂.labels o dₒ hopener fun _ => hregion
  have hne : c ≠ stop := fun heq => hstop.1 heq.symm
  refine yields_close h₂ (by simp [hDt, hne]) hlabel₂ hkind hopener₂ fun l₃ tail h₃ hrev₃ htail =>
    ?_
  rw [if_neg hne]
  refine yields_next
    (hnext (Carries.part (C := C.inside (.behind lead))
    (t := (frame rest).fill (body'.append tail)) h₃)) ?_
  have hrev := hrev₂.trans hrev₃
  rw [append_nil] at hrev
  set front := lead.append ((frame .done).fill (body'.append tail)) with hfront
  have h₃' : l₃.routine.Carries exit (C.plug (front.append rest)) := by
    rw [hfront, Strand.append_assoc, happend]
    exact h₃
  have hunr₃ : l₃.routine.Uncut old rest :=
    hunr.revised hrev fun m hm hmem => hdisjoint m hm (body.leaves_sublist.subset hmem)
  refine hrest (C.inside (.behind front)) l₃ stop none second fuel₂ m post h₃' hunr₃ hstop.2.2
    (by omega) fun l' rest' step' fuel' hfuel' h' hrev' hcut => ?_
  have hsame := h₃'.front_label hrev' rest.leaves_sublist.subset
  obtain ⟨before, behind, hfill⟩ := (Strand.Context.inside (frame .done) .hole).nodes_plug
  have hmem : ∀ m ∈ body'.nodes ++ tail.nodes, m ∈ front.nodes := fun m hm => by
    have hnodes : ((frame .done).fill (body'.append tail)).nodes = _ := hfill (body'.append tail)
    rw [hfront, nodes_append, hnodes, nodes_append]
    simp only [mem_append] at hm ⊢
    exact .inr (.inl (.inr hm))
  have hlt : ∀ m ∈ body'.nodes, m < l₂.routine.nodes.size := fun m hm => by
    obtain ⟨_, _, hnodes⟩ := D.nodes_plug
    exact h₂.lt_size (by simp [hnodes body', hm])
  have hrevs := hrev.trans hrev'
  have hleaves : body.leaves ++ rest.leaves ⊆ ((frame rest).fill body).nodes := by
    have hnodes : ((frame .done).fill body).nodes = _ := hfill body
    rw [← happend, nodes_append, hnodes]
    intro m hm
    rcases mem_append.mp hm with hm | hm
    · simp [body.leaves_sublist.subset hm]
    · simp [rest.leaves_sublist.subset hm]
  refine hk l' body' tail rest' step' fuel' hfuel' ?_ hrevs ?_ ?_ ?_ hcut
  · rw [← happend, ← Strand.append_assoc]
    exact h'
  · intro m hm
    rcases mem_cons.mp hm with rfl | hm
    · rw [hopener, hrevs.labels m dₒ hopener fun _ => hregion]
    rcases mem_cons.mp hm with rfl | hm
    · refine hrevs.label_eq (lt_of_label hlabel) fun hmem => ?_
      rcases mem_append.mp hmem with hmem | hmem
      · exact hc.1 (body.leaves_sublist.subset hmem)
      · exact hc.2 (rest.leaves_sublist.subset hmem)
    · exact h.front_label hrevs hleaves m hm
  · exact hcut₂.congr fun m hm =>
      (hsame m (hmem m (by simp [hm]))).trans (hrev₃.label_eq (hlt m hm) (by simp))
  · exact htail.congr fun m hm => hsame m (hmem m (by simp [hm]))

/-- The walk past a region that does not suspend and through the rest. -/
theorem walks_calm {part : Strand} (hcalm : Strand.Calm old part) (hrest : Walks old exit rest) :
    Walks old exit (part.append rest) := by
  intro C l stop step second fuel m post h hun hstop hfuel hk
  obtain ⟨o, c, d, form, hold, hkind, ho, hport, hnext⟩ := hcalm.opens
  have hshaped := hun.shaped
  rw [shaped_append] at hshaped
  simp only [nodes_append, length_append, mem_append, not_or] at hstop hfuel
  have hlabel : l.routine.label o = some d := (hun.label o (by simp [ho])).trans hold
  have hlength := length_pos_of_mem ho
  obtain _ | fuel := fuel
  · omega
  rw [hport]
  refine yields_skip h (hport ..) hlabel hkind fun l₁ lead s h₁ hrev hstep => ?_
  refine yields_next (hnext (Carries.part (C := C.inside (.behind lead)) h₁)) ?_
  have hun₁ := hun.revised hrev (by simp)
  have h₁' : l₁.routine.Carries exit (C.plug ((lead.append part).append rest)) := by
    rwa [Strand.append_assoc]
  have hnew : ∀ m ∈ part.nodes, l₁.routine.label m = old m :=
    fun m hm => hun₁.label m (by simp [hm])
  refine hrest.behind (C := C) (m := m) h₁' (hun₁.part (by simp) hshaped.2) hstop.2 (by omega)
    (hcalm.fronts hstep hnew) fun l' t' step' fuel' hfuel' h' hrev' => ?_
  exact hk l' t' step' fuel' hfuel' h' ((hrev.trans hrev').mono (by simp [leaves_append]))

/-- One node is walked past, and then the rest. -/
theorem walks_leaf (hrest : Walks old exit rest) : Walks old exit (.leaf n rest) := by
  intro C l stop step second fuel m post h hun hstop hfuel hk
  have hnodup := h.part_nodes.1
  simp only [Strand.nodes, nodup_cons, mem_cons, not_or, length_cons] at hnodup hstop hfuel
  obtain ⟨fuel, rfl⟩ : ∃ k, fuel = k + 2 := ⟨fuel - 2, by omega⟩
  refine yields_leaf h (fun l₁ lead behind step₁ fuel₁ hfuel₁ h₁ hrev hstep hturned => ?_) hun
  have hun₁ : l₁.routine.Uncut old rest :=
    (hun.part (fun m hm => by simp [hm]) hun.shaped.2).revised hrev
      fun m hm hmem => hnodup.1 ((show m = n from mem_singleton.mp hmem) ▸ hm)
  have h₁' : l₁.routine.Carries exit (C.plug ((lead.append (.leaf n behind)).append rest)) := by
    rwa [Strand.append_assoc]
  refine hrest.behind (m := m) h₁' hun₁ hstop.2 (by omega) (hturned.fronts hstep)
    fun l' t' step' fuel' hfuel' h' hrev' => ?_
  exact hk l' t' step' fuel' hfuel' h' (hrev.trans hrev')

/-- A region is dissolved, walked through or left alone. -/
theorem walks_region (hbody : Walks old exit body) (hrest : Walks old exit rest) :
    Walks old exit (.region o c body rest) := by
  intro C l stop step second fuel m post h hun hstop hfuel hk
  obtain ⟨-, -, -, -, -, hcb, hcr, hdisjoint⟩ := nodup_region h.part_nodes.1
  obtain ⟨⟨form, suspends, hko⟩, hkc, hsb, hsr⟩ := hun.shaped
  obtain ⟨dₒ, holdo, hkindo⟩ := map_eq_some_iff.mp hko
  obtain _ | _ := suspends
  · exact walks_calm (.region holdo hkindo) hrest C l stop step second fuel m post h
      hun hstop hfuel hk
  obtain ⟨d, holdc, hkindc⟩ := map_eq_some_iff.mp hkc
  have hlo : l.routine.label o = some dₒ := (hun.label o (by simp)).trans holdo
  have hlc : l.routine.label c = some d := (hun.label c (by simp)).trans holdc
  have hunb : l.routine.Uncut old body := hun.part (fun m hm => by simp [hm]) hsb
  have hunr : l.routine.Uncut old rest := hun.part (fun m hm => by simp [hm]) hsr
  simp only [Strand.nodes, cons_append, length_cons, length_append, mem_cons, mem_append,
    not_or] at hstop hfuel
  obtain _ | fuel := fuel
  · omega
  have harm : ∀ (l₁ : Lowering) (lead : Strand) step₁,
      l₁.routine.Carries exit (C.plug (lead.append (.region o c body rest))) → l.routine.Revises
      l₁.routine [] → Entered l₁.routine.label step.isSome form step₁.isSome lead →
      Yields (transformWithin fuel (some (body.entryPort (c, 0)).1) stop step₁ second) l₁ post := by
    intro l₁ lead step₁ h₁ hrev hentered
    have hlo₁ : l₁.routine.label o = some dₒ := hrev.labels o dₒ hlo (by simp)
    have hlc₁ : l₁.routine.label c = some d := hrev.labels c d hlc (by simp)
    refine Walks.arm (m := m) (.body o c) hbody hrest (fun _ _ => rfl) (fun _ => rfl)
      (fun hlays => hlays.nextOf_closer) h₁ (hunb.revised hrev (by simp))
      (hunr.revised hrev (by simp)) (by simp [hstop]) ⟨hcb, hcr⟩
      (fun m hm hmem => hdisjoint m hmem hm) hlc₁ hkindc hlo₁ (by simp [hkindo]) (by omega)
      fun l' body' tail rest' step' fuel' hfuel' h' hrev' hsame hcutb htail hcutr => ?_
    have hentered' := hentered.congr fun m hm => hsame m (by simp [hm])
    refine hk l' _ step' fuel' hfuel' h' (hrev.trans hrev')
      (.region hentered' holdo hkindo ?_ hcutb htail hcutr)
    simp only [forall_mem_cons]
    refine ⟨?_, ?_, by simp⟩
    · rw [hsame o (by simp), hlo₁, holdo]
    · rw [hsame c (by simp), hlc₁, holdc]
  by_cases hform : form = .cond
  · subst hform
    refine yields_descend h rfl hlo hkindo fun l₁ lead s h₁ hrev hstep => ?_
    obtain ⟨d', hd', hnext⟩ :=
      exists_next (Carries.part (C := C.inside (.behind lead)) h₁).nextOf_opener
    refine ⟨d', hd', ?_⟩
    rw [hnext]
    refine ⟨d', hd', ?_⟩
    rw [Node.firstNext, hnext]
    exact harm l₁ lead (some s) h₁ hrev (.descend hstep)
  · refine yields_dissolve h rfl hlo hkindo hform fun l₁ lead h₁ hrev hlead => ?_
    refine yields_next (Carries.part (C := C.inside (.behind lead)) h₁).nextOf_opener ?_
    exact harm l₁ lead none h₁ hrev (.dissolve hform hlead)

/-- A conditional is walked through or left alone. -/
theorem walks_fork {first second : Strand} (hfirst : Walks old exit first)
    (hsecond : Walks old exit second) (hrest : Walks old exit rest) :
    Walks old exit (.fork o c first second rest) := by
  intro C l stop step flag fuel m post h hun hstop hfuel hk
  obtain ⟨-, -, -, -, -, -, -, hcf, hcs, hcr, hdf, hds⟩ := nodup_fork h.part_nodes.1
  obtain ⟨⟨suspends, hko⟩, hkc, hsf, hss, hsr⟩ := hun.shaped
  obtain ⟨dₒ, holdo, hkindo⟩ := map_eq_some_iff.mp hko
  obtain _ | _ := suspends
  · exact walks_calm (.fork holdo hkindo) hrest C l stop step flag fuel m post h hun hstop hfuel hk
  obtain ⟨d, holdc, hkindc⟩ := map_eq_some_iff.mp hkc
  have hlo : l.routine.label o = some dₒ := (hun.label o (by simp)).trans holdo
  have hlc : l.routine.label c = some d := (hun.label c (by simp)).trans holdc
  have hunf : l.routine.Uncut old first := hun.part (fun m hm => by simp [hm]) hsf
  have huns : l.routine.Uncut old second := hun.part (fun m hm => by simp [hm]) hss
  have hunr : l.routine.Uncut old rest := hun.part (fun m hm => by simp [hm]) hsr
  simp only [Strand.nodes, cons_append, length_cons, length_append, mem_cons, mem_append,
    not_or] at hstop hfuel
  obtain _ | fuel := fuel
  · omega
  refine yields_descend h rfl hlo hkindo fun l₁ lead s h₁ hrev hstep => ?_
  obtain ⟨d', hd', hnext⟩ :=
    exists_next (Carries.part (C := C.inside (.behind lead)) h₁).nextOf_fork
  refine ⟨d', hd', ?_⟩
  rw [hnext]
  -- the second arm, up to the closing node
  refine hsecond ((C.inside (.behind lead)).inside (.second o c first rest)) l₁ c (some s)
    true fuel 1 _ h₁
    (huns.revised hrev (by simp)) hcs (by omega) fun l₂ second' step₂ fuel₂ hfuel₂ h₂ hrev₂ hcut₂ =>
    ?_
  obtain _ | fuel₂ := fuel₂
  · omega
  have hrev₂' : l.routine.Revises l₂.routine second.leaves := hrev.trans hrev₂
  have hlo₂ : l₂.routine.label o = some dₒ :=
    hrev₂'.labels o dₒ hlo fun _ => by simp [hkindo]
  have hlc₂ : l₂.routine.label c = some d :=
    hrev₂'.labels c d hlc fun hmem => absurd (second.leaves_sublist.subset hmem) hcs
  refine yields_close (c := c) (C := (C.inside (.behind lead)).inside (.second o c first rest)) h₂
    (by rw [decide_eq_true rfl]; rfl) hlc₂ hkindc hlo₂ fun l₃ tail' h₃ hrev₃ htail' => ?_
  rw [if_pos rfl]
  -- the first arm and the rest
  have hrev₃' : l.routine.Revises l₃.routine second.leaves := by simpa using hrev₂'.trans hrev₃
  refine yields_next (Carries.part (C := C.inside (.behind lead))
    (t := .fork o c first (second'.append tail') rest) h₃).nextOf_fork ?_
  have hlo₃ : l₃.routine.label o = some dₒ := hrev₃.labels o dₒ hlo₂ (by simp)
  have hlc₃ : l₃.routine.label c = some d := hrev₃.labels c d hlc₂ (by simp)
  refine Walks.arm (m := m) (.first o c (second'.append tail')) hfirst hrest (fun _ _ => rfl)
    (fun _ => rfl) (fun hlays => hlays.nextOf_join) h₃ (hunf.revised hrev₃' ?_)
    (hunr.revised hrev₃' ?_) (by simp [hstop]) ⟨hcf, hcr⟩
    (fun m hm hmem => (hdf m hmem).2 hm) hlc₃ hkindc hlo₃ (by simp [hkindo]) (by omega)
    fun l' first' tail rest' step' fuel' hfuel' h' hrev' hsame hcutf htail hcutr => ?_
  · exact fun m hm hmem => (hdf m hm).1 (second.leaves_sublist.subset hmem)
  · exact fun m hm hmem => hds m (second.leaves_sublist.subset hmem) hm
  · have hkept : ∀ m ∈ second'.nodes ++ tail'.nodes, l'.routine.label m = l₃.routine.label m := by
      intro m hm
      rw [← nodes_append] at hm
      obtain ⟨hnodup', hlt'⟩ := Carries.part_nodes (C := C.inside (.behind lead))
        (t := .fork o c first (second'.append tail') rest) h₃
      obtain ⟨-, -, -, -, -, -, -, -, -, -, hdf', hds'⟩ := nodup_fork hnodup'
      have hfork : m ∈ (Strand.fork o c first (second'.append tail') rest).nodes :=
        mem_append_left _ (mem_cons_of_mem _ (mem_append_right _ hm))
      refine hrev'.label_eq (hlt' m hfork) fun hmem => ?_
      rcases mem_append.mp hmem with hmem | hmem
      · exact (hdf' m (first.leaves_sublist.subset hmem)).1 hm
      · exact hds' m hm (rest.leaves_sublist.subset hmem)
    have hlead := h₁.front_label (hrev₂.trans hrev₃) fun m hm => by
      have hmem := second.leaves_sublist.subset (by simpa using hm)
      simp [hmem]
    have hlt₂ :=
      (Carries.part_nodes (C := (C.inside (.behind lead)).inside (.second o c first rest)) h₂).2
    refine hk l' _ step' fuel' hfuel' h' ((hrev₃'.trans hrev').mono ?_)
      (.fork (hstep.congr fun m hm => ?_)
      holdo hkindo ?_ hcutf htail (hcut₂.congr fun m hm => ?_) (htail'.congr fun m hm => ?_) hcutr)
    · intro m hm
      simp only [Strand.leaves, mem_append] at hm ⊢
      rcases hm with hm | hm | hm
      · exact .inl (.inr hm)
      · exact .inl (.inl hm)
      · exact .inr hm
    · exact (hsame m (by simp [hm])).trans (hlead m hm)
    · simp only [forall_mem_cons]
      refine ⟨?_, ?_, by simp⟩
      · rw [hsame o (by simp), hlo₃, holdo]
      · rw [hsame c (by simp), hlc₃, holdc]
    · exact (hkept m (by simp [hm])).trans (hrev₃.label_eq (hlt₂ m hm) (by simp))
    · exact hkept m (by simp [hm])

/-- The first walk gets through every part of a stream. -/
theorem walks (old : NodeId → Option Node) (exit : NodeId) (t : Strand) : Walks old exit t := by
  induction t with
  | done =>
    intro C l stop step second fuel m post h _ _ hfuel hk
    exact hk l .done step fuel (Nat.le_trans (Nat.le_add_right _ _) hfuel) h (.refl _ _) (.done _)
  | leaf n rest ih => exact walks_leaf ih
  | region o c body rest ihb ihr => exact walks_region ihb ihr
  | fork o c first second rest ihf ihs ihr => exact walks_fork ihf ihs ihr

/-- The first walk gets through a structured stream and leaves it cut into steps. -/
theorem yields_transform (h : l.routine.Streams exit t)
    (hbranch : ∀ n ∈ t.nodes, ∀ d guarded goal, l.routine.label n = some d →
      d.kind = .branch guarded goal → ∃ d', l.routine.label goal.target = some d' ∧
      d'.kind.region?.isSome) (hwritten : ∀ n ∈ t.nodes, ∀ d form sig v, l.routine.label n =
      some d → d.kind = .call form sig → d.dest = some v → 0 < l.routine.writesOf v) (hfuel : 2 +
      2 * t.nodes.length ≤ fuel) (hpost : ∀ l' t' tail, l'.routine.Carries exit (t'.append tail) →
      l.routine.Revises l'.routine t.leaves → Strand.Cut l.routine.label l'.routine.label false t
      t' → JumpAhead l'.routine.label tail → post () l') :
    Yields (transformWithin fuel (some l.routine.entry) exit none false) l post := by
  obtain ⟨name, sig, suspends, hentry⟩ := h.entry_kind
  obtain ⟨dₑ, hlabel, hkind⟩ := map_eq_some_iff.mp hentry
  obtain ⟨dₓ, hlabelx, hkindx⟩ := map_eq_some_iff.mp h.exit_kind
  obtain _ | fuel := fuel
  · omega
  simp only [transformWithin, yields_bind, Lower.yields_lift, yields_kind,
    node_of_label hlabel, exists_some_eq, hkind, moveAt, yields_firstNext, Node.firstNext,
    h.nextOf_entry, head?_cons]
  have hun : l.routine.Uncut l.routine.label t :=
    ⟨fun _ _ => rfl, fun _ _ hm _ => hm, h.shaped, hbranch, hwritten⟩
  refine walks l.routine.label exit t .hole l exit none false fuel 1 post h.toCarries hun
    h.exit_not_mem (by omega) fun l' t' step' fuel' hfuel' h' hrev hcut => ?_
  obtain _ | fuel' := fuel'
  · omega
  have hopener : l'.routine.label l.routine.entry = some dₑ :=
    hrev.labels _ _ hlabel fun _ => by simp [hkind]
  have hexit : l'.routine.label exit = some dₓ :=
    hrev.labels _ _ hlabelx fun hmem => absurd (t.leaves_sublist.subset hmem) h.exit_not_mem
  refine yields_close (c := exit) (C := .hole) h' rfl hexit hkindx hopener
    fun l'' tail h'' hrev' htail => ?_
  rw [if_pos rfl]
  have hlt := (Carries.part_nodes (C := .hole) h').2
  refine hpost l'' t' tail h'' (by simpa using hrev.trans hrev') (hcut.congr fun m hm => ?_) htail
  exact hrev'.label_eq (hlt m hm) (by simp)

end Lower

end CoroutineIR
