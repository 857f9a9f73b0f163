import CoroutineIR.Proofs.Stages

/-!
# Nodes across the lowering

Every node of a routine that has been cut into steps has been there before, with the operands it
had, or has been inserted and has none. What is gathered along the stream stays the same where the
two halves of a call contribute what the call did and the nodes that are taken out contribute
nothing. Branches are left only in regions that do not suspend, which stay as they are.
-/

namespace CoroutineIR

open List Option Attempt Strand Lower

/-! ### Node by node -/

/-- What becomes of a node that has been there before the cut. -/
inductive Node.Recast (d : Node) : Node → Prop
  | same : Recast d d
  | jump {guarded : Bool} {goal : Branch} {dest : NodeId} (h : d.kind = .branch guarded goal) :
    Recast d { d with kind := .goto guarded (.pending (some dest)) }
  | begin {form first : CallForm} {sig : Signature} (h : d.kind = .call form sig)
    (hfirst : form.begun? = some first) (hsuspends : sig.suspends = true) :
    Recast d { d with kind := .call first sig, dest := none }

namespace Strand

variable {old label : NodeId → Option Node} {b : Bool} {t t' lead : Strand} {n : NodeId} {d : Node}

/-- What becomes of the nodes of a strand. -/
theorem Cut.recast (h : Cut old label b t t') (hn : n ∈ t.nodes) (hd : old n = some d) :
    ∃ d', label n = some d' ∧ d.Recast d' := by
  rcases h.turned hn with hnew | ⟨b, behind, hturned⟩
  · exact ⟨d, hnew.trans hd, .same⟩
  cases hturned with
  | keep hold _ hnew | yield hold _ hnew => exact ⟨d, (hnew.trans hold.symm).trans hd, .same⟩
  | branch hold hkind _ hnew =>
    obtain rfl := some.inj (hold.symm.trans hd)
    exact ⟨_, hnew, .jump hkind⟩
  | split hold hkind hfirst hsuspends hnew =>
    obtain rfl := some.inj (hold.symm.trans hd)
    exact ⟨_, hnew, .begin hkind hfirst hsuspends⟩

/-- No call that waits for a coroutine is left where the cut comes by. -/
theorem Turned.not_awaits (h : Turned old label n b t) :
    ∃ d, label n = some d ∧ d.kind.awaits = false := by
  cases h with
  | keep _ hmove hnew => exact ⟨_, hnew, not_awaits_of_keep hmove⟩
  | yield _ hkind hnew => exact ⟨_, hnew, by rw [hkind]; rfl⟩
  | branch _ _ _ hnew => exact ⟨_, hnew, rfl⟩
  | @split _ _ _ _ form _ _ _ _ _ hfirst _ hnew =>
    refine ⟨_, hnew, ?_⟩
    cases form with
    | direct | indirect =>
      obtain rfl := some.inj hfirst
      rfl
    | directBegin | indirectBegin | finish | spawn | spawnIndirect => cases hfirst

/-- No branch is left where the cut comes by. -/
theorem Turned.not_branch (h : Turned old label n b t) :
    ∃ d, label n = some d ∧ ∀ guarded goal, d.kind ≠ .branch guarded goal := by
  cases h with
  | keep _ hmove hnew =>
    refine ⟨_, hnew, fun guarded goal hkind => ?_⟩
    simp [hkind, moveAt] at hmove
  | yield _ hkind hnew => exact ⟨_, hnew, by simp [hkind]⟩
  | branch _ _ _ hnew | split _ _ _ _ hnew => exact ⟨_, hnew, by simp⟩

/-! ### Accesses -/

variable {acc acc' : NodeId → List α} {ns os : List NodeId}

/-- What is gathered along the result of a cut is what is gathered along the strand, if inserted
jumps and steps contribute nothing and the halves of a call contribute what the call does. -/
theorem Cut.perm_flatMap (h : Cut old label b t t') (hos : t.nodes ⊆ os) (hns : t'.nodes ⊆ ns)
    (hnew : ∀ m ∈ ns, ∀ d, label m = some d → d.Inserted → d.dest = none → acc' m = [])
    (hkeep : ∀ m ∈ os, label m = old m → acc' m = acc m)
    (hbranch : ∀ m ∈ os, ∀ d guarded goal dest, old m = some d → d.kind = .branch guarded goal →
      label m = some { d with kind := .goto guarded (.pending (some dest)) } → acc' m = acc m)
    (hsplit : ∀ m ∈ os, ∀ f ∈ ns, ∀ d form first sig, old m = some d → d.kind = .call form sig →
      label m = some { d with kind := .call first sig, dest := none } →
      label f = some (.detached (.call .finish sig) d.dest d.ty []) →
      (acc' m ++ acc' f).Perm (acc m)) :
    (t'.nodes.flatMap acc').Perm (t.nodes.flatMap acc) := by
  have hstepAhead : ∀ {b : Bool} {lead : Strand}, StepAhead label b lead → lead.nodes ⊆ ns →
      lead.nodes.flatMap acc' = [] := by
    intro b lead hstep hsub
    cases hstep with
    | opened => rfl
    | @opens s name hs => simp [hnew s (hsub (by simp [nodes])) _ hs (.step _) rfl]
  have hjumpAhead : ∀ {lead : Strand}, JumpAhead label lead → lead.nodes ⊆ ns →
      lead.nodes.flatMap acc' = [] := by
    intro lead hjump hsub
    cases hjump with
    | none => rfl
    | @jump j hj => simp [hnew j (hsub (by simp [nodes])) _ hj .jump rfl]
  have hentered : ∀ {b b' : Bool} {form : Form} {lead : Strand}, Entered label b form b' lead →
      lead.nodes ⊆ ns → lead.nodes.flatMap acc' = [] := by
    intro b b' form lead hlead hsub
    cases hlead with
    | dissolve _ hlead => exact hjumpAhead hlead hsub
    | descend hlead => exact hstepAhead hlead hsub
  have hturns : ∀ {n : NodeId} {b : Bool} {behind : Strand}, Turned old label n b behind → n ∈ os →
      behind.nodes ⊆ ns → (acc' n ++ behind.nodes.flatMap acc').Perm (acc n) := by
    intro n b behind hturned hn hsub
    cases hturned with
    | keep hold _ hlabel => simp [hkeep n hn (hlabel.trans hold.symm)]
    | @yield j _ hold _ hlabel hjump =>
      simp [hkeep n hn (hlabel.trans hold.symm), hnew j (hsub (by simp [nodes])) _ hjump .jump rfl]
    | branch hold hkind _ hlabel => simp [hbranch n hn _ _ _ _ hold hkind hlabel]
    | @split j s f _ _ _ _ _ hold hkind _ _ hlabel hjump hs hf =>
      have hhalves := hsplit n hn f (hsub (by simp)) _ _ _ _ hold hkind hlabel hf
      simpa [nodes, hnew j (hsub (by simp)) _ hjump .jump rfl,
        hnew s (hsub (by simp)) _ hs (.step _) rfl] using hhalves
  induction h with
  | done => exact Perm.refl _
  | leaf hlead hturned _ ih =>
    simp only [nodes_append, append_subset, leaf_subset] at hns hos
    simp only [nodes_append, nodes, flatMap_append, flatMap_cons,
      hstepAhead hlead hns.1, nil_append]
    rw [← List.append_assoc]
    exact (hturns hturned hos.1 hns.2.2.1).append (ih hos.2 hns.2.2.2)
  | @calm _ _ part _ _ hlead _ hlabel _ ih =>
    simp only [nodes_append, append_subset] at hns hos
    have hpart : part.nodes.flatMap acc' = part.nodes.flatMap acc := by
      simp only [flatMap_def]
      exact congrArg _ (map_congr_left fun m hm => hkeep m (hos.1 hm) (hlabel m hm))
    simp only [nodes_append, flatMap_append, hstepAhead hlead hns.1, nil_append, hpart]
    exact (ih hos.2 hns.2.2).append_left _
  | @region _ _ o c _ _ _ _ _ _ _ _ hlead _ _ hlabel _ htail _ ihb ihr =>
    simp only [nodes_append, append_subset, region_subset, and_assoc] at hns hos
    obtain ⟨hsub, -, hbody, htail', -, hrest⟩ := hns
    simp only [nodes_append, nodes, cons_append, List.append_assoc, flatMap_append, flatMap_cons,
      hentered hlead hsub, hjumpAhead htail htail', nil_append, hkeep o hos.1 (hlabel o (by simp)),
      hkeep c hos.2.2.1 (hlabel c (by simp))]
    exact ((ihb hos.2.1 hbody).append ((ihr hos.2.2.2 hrest).append_left _)).append_left _
  | @fork _ o c _ _ _ _ _ _ _ _ _ _ hlead _ _ hlabel _ htail _ htail' _ iha ihb ihr =>
    simp only [nodes_append, append_subset, fork_subset, and_assoc] at hns hos
    obtain ⟨hsub, -, hfirst, htailsub, hsecond, htailsub', -, hrest⟩ := hns
    simp only [nodes_append, nodes, cons_append, List.append_assoc, flatMap_append, flatMap_cons,
      hstepAhead hlead hsub, hjumpAhead htail htailsub, hjumpAhead htail' htailsub', nil_append,
      hkeep o hos.1 (hlabel o (by simp)), hkeep c hos.2.2.2.1 (hlabel c (by simp))]
    exact ((iha hos.2.1 hfirst).append
      ((ihb hos.2.2.1 hsecond).append ((ihr hos.2.2.2.2 hrest).append_left _))).append_left _

variable {kinds : NodeId → Option NodeKind}

/-- What stays is what is not taken out, in its order. -/
theorem Shaped.nodes_dissolved (h : t.Shaped kinds) :
    (t.dissolved kinds).nodes = t.nodes.filter fun m => !goneAt kinds m := by
  induction t with
  | done => rfl
  | leaf n rest ih =>
    obtain ⟨⟨kind, hkind, hregion, hclose⟩, hrest⟩ := h
    simp [Strand.dissolved, ih hrest, goneAt_leaf hkind hregion hclose]
  | region o c body rest ihb ihr =>
    obtain ⟨⟨form, suspends, hopen⟩, hclose, hbody, hrest⟩ := h
    simp only [Strand.dissolved]
    split <;> simp_all [ihb hbody, ihr hrest, goneAt_opener hopen, goneAt_closer hclose]
  | fork o c first second rest iha ihb ihr =>
    obtain ⟨⟨suspends, hopen⟩, hclose, hfirst, hsecond, hrest⟩ := h
    have hstays : dissolvesAt kinds o = false := by
      simp [dissolvesAt, hopen, isDissolved]
    simp [Strand.dissolved, iha hfirst, ihb hsecond, ihr hrest, goneAt_opener hopen,
      goneAt_closer hclose, hstays]

theorem Shaped.mem_dissolved (h : t.Shaped kinds) :
    n ∈ (t.dissolved kinds).nodes ↔ n ∈ t.nodes ∧ goneAt kinds n = false := by
  simp [h.nodes_dissolved]

/-- What is gathered stays if the nodes that are taken out contribute nothing. -/
theorem Shaped.flatMap_dissolved (h : t.Shaped kinds)
    (hgone : ∀ m ∈ t.nodes, goneAt kinds m = true → acc m = []) :
    (t.dissolved kinds).nodes.flatMap acc = t.nodes.flatMap acc := by
  rw [h.nodes_dissolved]
  generalize t.nodes = nodes at hgone ⊢
  induction nodes with
  | nil => rfl
  | cons m rest ih =>
    obtain ⟨hm, hrest⟩ := forall_mem_cons.mp hgone
    rw [filter_cons]
    cases hat : goneAt kinds m with
    | true => simp [hm hat, ih hrest]
    | false => simp [ih hrest]

/-! ### Branches -/

/-- The regions around a strand can be exchanged if no branch goes there. -/
theorem BranchesFit.retarget (inner : List NodeId) {enclosing enclosing' : List NodeId}
    (h : t.BranchesFit kinds (inner ++ enclosing))
    (hout : ∀ m ∈ t.nodes, ∀ guarded goal, kinds m = some (.branch guarded goal) →
      goal.target ∉ enclosing) : t.BranchesFit kinds (inner ++ enclosing') := by
  induction t generalizing inner with
  | done => trivial
  | leaf n rest ih =>
    simp only [forall_leaf] at hout
    refine ⟨fun guarded goal hkind => ?_, ih _ h.2 hout.2⟩
    have hidx := h.1 guarded goal hkind
    have hnot := hout.1 guarded goal hkind
    simp only [List.idxOf?, findIdx?_append] at hidx ⊢
    grind
  | region o c body rest ihb ihr =>
    simp only [forall_region] at hout
    rw [BranchesFit, ← cons_append] at h ⊢
    exact ⟨ihb _ h.1 hout.2.1, ihr _ h.2 hout.2.2.2⟩
  | fork o c first second rest iha ihb ihr =>
    simp only [forall_fork] at hout
    rw [BranchesFit, ← cons_append] at h ⊢
    exact ⟨iha _ h.1 hout.2.1, ihb _ h.2.1 hout.2.2.1, ihr _ h.2.2 hout.2.2.2.2⟩

end Strand

namespace Routine

variable {r cut f : Routine} {u : Strand}

/-- Settling a jump leaves it a jump. -/
theorem settled_kind (r : Routine) (n : NodeId) (d : Node) : (r.settled n d).kind = d.kind ∨
    ∃ guarded origin, d.kind = .goto guarded (.pending origin) ∧
      (r.settled n d).kind = .goto guarded (r.destination (origin.getD n)) := by
  unfold settled
  split
  · rename_i hkind
    exact Or.inr ⟨_, _, hkind, rfl⟩
  · exact Or.inl rfl

theorem suspendsAt_of_enter {o c : NodeId} {form : Form}
    (h : r.kindOf o = some (.enter form ⟨c, true⟩)) : r.suspendsAt o = true := by
  simp [suspendsAt, h, NodeKind.opensSuspending]

/-- No call that waits for a coroutine is left: the cut comes by wherever a region suspends. -/
theorem not_awaits_of_cut {b : Bool} {t t' : Strand} (hcut : Cut r.label cut.label b t t')
    {parent : NodeId} (hshaped : t.Shaped r.kindOf)
    (hmarked : r.Marked (t.placed r.kindOf parent)) :
    ∀ n ∈ t.nodes, ∃ d, cut.label n = some d ∧ d.kind.awaits = false := by
  have hcloser : ∀ {o c : NodeId}, r.kindOf c = some (.close o) → cut.label c = r.label c →
      ∃ d, cut.label c = some d ∧ d.kind.awaits = false := by
    intro o c hclose hnew
    obtain ⟨d, hd, hkind⟩ := map_eq_some_iff.mp hclose
    exact ⟨d, hnew.trans hd, by rw [hkind]; rfl⟩
  induction hcut generalizing parent with
  | done => simp
  | leaf _ hturned _ ih =>
    exact forall_leaf.mpr ⟨hturned.not_awaits, ih hshaped.2 hmarked.leaf_rest⟩
  | calm _ hcalm hnew _ ih =>
    obtain ⟨hshaped, hshapedRest⟩ := shaped_append.mp hshaped
    obtain ⟨hcalm, hmarked⟩ := hmarked.calm_part hcalm hshaped
    rw [nodes_append, forall_mem_append]
    refine ⟨fun n hn => ?_, ih hshapedRest hmarked⟩
    obtain ⟨kind, hkind⟩ := hshaped.exists_kind hn
    obtain ⟨d, hd, rfl⟩ := map_eq_some_iff.mp hkind
    exact ⟨d, (hnew n hn).trans hd, NodeKind.not_awaits_of_calm ((hcalm n hn).suspension _ hkind)⟩
  | region _ hold hkind hnew _ _ _ ihb ihr =>
    exact forall_region.mpr ⟨⟨_, (hnew _ (by simp)).trans hold, by rw [hkind]; rfl⟩,
      ihb hshaped.2.2.1 hmarked.region_body, hcloser hshaped.2.1 (hnew _ (by simp)),
      ihr hshaped.2.2.2 hmarked.region_rest⟩
  | fork _ hold hkind hnew _ _ _ _ _ iha ihb ihr =>
    exact forall_fork.mpr ⟨⟨_, (hnew _ (by simp)).trans hold, by rw [hkind]; rfl⟩,
      iha hshaped.2.2.1 hmarked.fork_first, ihb hshaped.2.2.2.1 hmarked.fork_second,
      hcloser hshaped.2.1 (hnew _ (by simp)), ihr hshaped.2.2.2.2 hmarked.fork_rest⟩

/-- Branches are left only in regions that do not suspend, and these hold their targets. -/
theorem branchesFit_of_cut
    (hlabel : ∀ n ∈ u.nodes, ∀ d, cut.label n = some d → f.label n = some (cut.settled n d))
    {b : Bool} {t t' : Strand} (hcut : Cut r.label cut.label b t t') {parent : NodeId}
    {enclosing : List NodeId} (hsub : t'.nodes ⊆ u.nodes) (hshaped : t.Shaped r.kindOf)
    (hfit : t.BranchesFit r.kindOf enclosing) (hmarked : r.Marked (t.placed r.kindOf parent))
    (hplain : ∀ n ∈ t.nodes, ∀ guarded goal, r.kindOf n ≠ some (.goto guarded goal))
    (hsuspends : ∀ o ∈ enclosing, r.suspendsAt o = true) (around : List NodeId) :
    (t'.dissolved cut.kindOf).BranchesFit f.kindOf around := by
  -- a node that is no branch after the cut
  have hfree : ∀ {n : NodeId} {d : Node}, n ∈ u.nodes → cut.label n = some d →
      (∀ guarded goal, d.kind ≠ .branch guarded goal) →
      ∀ guarded goal, f.kindOf n ≠ some (.branch guarded goal) := by
    intro n d hn hd hkind guarded goal hbranch
    rw [kindOf, hlabel n hn d hd, map_some, some.injEq] at hbranch
    rcases cut.settled_kind n d with hsame | ⟨_, _, -, hjump⟩
    · exact hkind guarded goal (hsame.symm.trans hbranch)
    · simp [hbranch] at hjump
  have hwoven : ∀ {lead : Strand} (around : List NodeId), lead.Woven cut.label →
      lead.nodes ⊆ u.nodes → (lead.dissolved cut.kindOf).BranchesFit f.kindOf around := by
    intro lead around hlead hsub
    rw [hlead.dissolved_eq]
    refine branchesFit_iff.mpr fun p hp guarded goal hkind => ?_
    obtain ⟨d, hd, hinserted⟩ := hlead.inserted p.1 (mem_depths hp).1
    refine absurd hkind (hfree (hsub (mem_depths hp).1) hd ?_ guarded goal)
    cases hinserted <;> simp [openJump, Node.bare, Node.detached]
  induction hcut generalizing parent enclosing around with
  | done => trivial
  | leaf hlead hturned _ ih =>
    simp only [nodes_append, append_subset, leaf_subset] at hsub
    simp only [forall_leaf] at hplain
    rw [dissolved_append, branchesFit_append, dissolved, dissolved_append]
    refine ⟨hwoven around hlead.woven hsub.1, fun guarded goal hbranch => ?_, branchesFit_append.mpr
      ⟨hwoven around hturned.woven hsub.2.2.1,
      ih hsub.2.2.2 hshaped.2 hfit.2 hmarked.leaf_rest hplain.2 hsuspends around⟩⟩
    obtain ⟨d, hd, hkind⟩ := hturned.not_branch
    exact absurd hbranch (hfree hsub.2.1 hd hkind guarded goal)
  | @calm _ _ part _ _ hlead hcalm hnew _ ih =>
    obtain ⟨hshaped, hshapedRest⟩ := shaped_append.mp hshaped
    obtain ⟨hfit, hfitRest⟩ := branchesFit_append.mp hfit
    obtain ⟨hcalm, hmarked⟩ := hmarked.calm_part hcalm hshaped
    simp only [nodes_append, append_subset] at hsub
    rw [nodes_append, forall_mem_append] at hplain
    rw [dissolved_append, branchesFit_append, dissolved_append, branchesFit_append,
      dissolved_of_calmAt hnew hcalm]
    refine ⟨hwoven around hlead.woven hsub.1, ?_,
      ih hsub.2.2 hshapedRest hfitRest hmarked hplain.2 hsuspends around⟩
    have hout : ∀ n ∈ part.nodes, ∀ guarded goal, r.kindOf n = some (.branch guarded goal) →
        goal.target ∉ enclosing := by
      intro n hn guarded goal hkind hmem
      have hcalm := (hcalm n hn).target guarded goal hkind
      simp [hsuspends _ hmem] at hcalm
    refine (BranchesFit.retarget [] hfit hout).congr fun n hn => ?_
    obtain ⟨kind, hkind⟩ := hshaped.exists_kind hn
    obtain ⟨d, hd, rfl⟩ := map_eq_some_iff.mp hkind
    have hd' := hlabel n (hsub.2.1 hn) d ((hnew n hn).trans hd)
    rw [settled_of_ne fun guarded origin hgoto =>
      hplain.1 n hn guarded _ (kindOf_of_label hd hgoto)] at hd'
    rw [kindOf, hd', kindOf, hd]
  | @region _ _ o c d form lead body body' tail rest rest' hlead hold hkind _ _ htail _ ihb ihr =>
    simp only [nodes_append, append_subset, region_subset, and_assoc] at hsub
    simp only [forall_region] at hplain
    obtain ⟨hsublead, -, hsubbody, hsubtail, -, hsubrest⟩ := hsub
    have hsuspends' : ∀ m ∈ o :: enclosing, r.suspendsAt m = true := forall_mem_cons.mpr
      ⟨suspendsAt_of_enter (kindOf_of_label hold hkind), hsuspends⟩
    have hinner :
        ∀ around, ((body'.append tail).dissolved cut.kindOf).BranchesFit f.kindOf around :=
        fun around => by
      rw [dissolved_append, branchesFit_append]
      exact ⟨ihb hsubbody hshaped.2.2.1 hfit.1 hmarked.region_body hplain.2.1 hsuspends' around,
        hwoven around htail.woven hsubtail⟩
    have hbehind :=
      ihr hsubrest hshaped.2.2.2 hfit.2 hmarked.region_rest hplain.2.2.2 hsuspends around
    rw [dissolved_append, branchesFit_append, dissolved]
    refine ⟨hwoven around hlead.woven hsublead, ?_⟩
    split
    · exact branchesFit_append.mpr ⟨hinner around, hbehind⟩
    · exact ⟨hinner (o :: around), hbehind⟩
  | @fork _ o c d lead first first' tail second second' tail' rest rest' hlead hold hkind _ _ htail
      _ htail' _ iha ihb ihr =>
    simp only [nodes_append, append_subset, fork_subset, and_assoc] at hsub
    simp only [forall_fork] at hplain
    obtain ⟨hsublead, -, hsubfirst, hsubtail, hsubsecond, hsubtail', -, hsubrest⟩ := hsub
    have hsuspends' : ∀ m ∈ o :: enclosing, r.suspendsAt m = true := forall_mem_cons.mpr
      ⟨suspendsAt_of_enter (kindOf_of_label hold hkind), hsuspends⟩
    simp only [dissolved_append, dissolved, branchesFit_append, BranchesFit]
    exact ⟨hwoven around hlead.woven hsublead,
      ⟨iha hsubfirst hshaped.2.2.1 hfit.1 hmarked.fork_first hplain.2.1 hsuspends' _,
      hwoven _ htail.woven hsubtail⟩,
      ⟨ihb hsubsecond hshaped.2.2.2.1 hfit.2.1 hmarked.fork_second hplain.2.2.1 hsuspends' _,
      hwoven _ htail'.woven hsubtail'⟩,
      ihr hsubrest hshaped.2.2.2.2 hfit.2.2 hmarked.fork_rest hplain.2.2.2.2 hsuspends around⟩

end Routine

end CoroutineIR
