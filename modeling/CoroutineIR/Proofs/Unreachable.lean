import CoroutineIR.Proofs.Retiring

/-!
# The sweep over code that cannot run

The sweep goes along the stream from part to part. A part behind a return or a branch is taken out
node by node and region by region. A conditional whose condition is known loses the arm that is not
taken, and then its own two nodes, unless a branch still goes to it. Whatever the sweep does, the
stream is intact again afterwards.
-/

namespace CoroutineIR

open List Option CoroutineIR.Action Strand Edit

/-- A strand is entered at the same node wherever it leads to, unless it is empty. -/
theorem Strand.entry_cases (t : Strand) :
    (∃ n ∈ t.nodes, ∀ dst, t.entryPort dst = (n, 0)) ∨ t = .done := by
  cases t with
  | done => exact Or.inr rfl
  | leaf n rest => exact Or.inl ⟨n, by simp, fun _ => rfl⟩
  | region o c body rest | fork o c first second rest => exact Or.inl ⟨o, by simp, fun _ => rfl⟩

namespace Routine

variable {r r₁ : Routine} {exit o c n : NodeId} {t kept rest : Strand} {C : Strand.Context}

namespace Rewires

theorem rearmed {f : List NodeId → List NodeId} (hf : f [] = []) (h : r.Rewires r₁) (o c : NodeId) :
    r.Rewires (r₁.rearmed f o c) := by
  refine (h.alter o ?_).alter c ?_
  all_goals exact fun d => ⟨rfl, fun hnext hprev => by simp [hnext, hprev, hf]⟩

theorem excised (h : r.Rewires r₁) (o c : NodeId) (p q : Port) :
    r.Rewires (r₁.excised o c p q) := by
  refine (((h.alter p.1 ?_).alter q.1 ?_).alter o ?_).alter c ?_
  all_goals exact fun d => ⟨rfl, fun hnext hprev => by simp [hnext, hprev]⟩

end Rewires

theorem Carries.ne_target (h : r.Carries exit (C.plug t)) (hn : n ∈ t.nodes) :
    n ≠ (C.target (exit, 0)).1 := fun heq =>
  h.ports_not_mem.2 (heq ▸ hn)

/-- A region read as what it holds between two single nodes. -/
theorem Carries.openRegion (h : r.Carries exit (C.plug (.region o c kept rest))) :
    r.Carries exit (C.plug (.leaf o (kept.append (.leaf c rest)))) := by
  obtain ⟨before, behind, hwires⟩ := C.wires_plug (r.entry, 0) (exit, 0)
  refine h.of_wires ?_ ((C.perm_plug _).trans (.trans ?_ (C.perm_plug _).symm))
  · simp only [hwires, Strand.wires, wires_append]
    rw [wires_eq (o, 0) kept]
    simp
  · simp [nodes_append]

end Routine

namespace DeadCode

open Routine

variable {r r' r₁ : Routine} {w : Work} {exit o c n : NodeId} {t a b kept rest x : Strand}
  {C : Strand.Context} {taken : Bool} {post : PUnit → Routine → Prop}

/-! ### What the sweep does -/

/-- Of the conditional that the strand begins with, `kept` is the arm that is taken and `rest` is
what follows. -/
inductive Chooses (o c : NodeId) : Strand → Strand → Strand → Prop
  | only (a rest : Strand) : Chooses o c (.region o c a rest) a rest
  | first (a b rest : Strand) : Chooses o c (.fork o c a b rest) a rest
  | second (a b rest : Strand) : Chooses o c (.fork o c a b rest) b rest

namespace Chooses

theorem sublist (h : Chooses o c t kept rest) :
    (Strand.region o c kept rest).nodes.Sublist t.nodes := by
  cases h with
  | only => exact .refl _
  | first => exact Sublist.cons_cons o (Sublist.append (sublist_append_left _ _) (.refl _))
  | second => exact Sublist.cons_cons o (Sublist.append (sublist_append_right _ _) (.refl _))

variable {kinds : NodeId → Option NodeKind}

theorem fits {enclosing : List NodeId} (h : Chooses o c t kept rest)
    (hfit : t.BranchesFit kinds enclosing) :
    (Strand.region o c kept rest).BranchesFit kinds enclosing := by
  cases h with
  | only => exact hfit
  | first => exact ⟨hfit.1, hfit.2.2⟩
  | second => exact hfit.2

theorem roused {parent : NodeId} (h : Chooses o c t kept rest) (hroused : t.Roused kinds parent) :
    (Strand.region o c kept rest).Roused kinds parent := by
  cases h with
  | only => exact hroused
  | first => exact ⟨hroused.1, hroused.2.1, hroused.2.2.2⟩
  | second => exact ⟨hroused.1, hroused.2.2⟩

end Chooses

/-! ### Code behind a return or a branch -/

/-- Releasing a region. Its closing node accesses nothing. -/
theorem yields_cutOut_region (h : r.Intact exit (C.plug (.region o c a rest)))
    (hpost : ∀ r', r.Releases r' ((Strand.region o c a .done).nodes.flatMap r.accessesOf) →
      post () r') : Yields (cutOut o c) r post := by
  have hlays := h.toCarries.part
  have hclose := h.accessesOf_closer h.part.1.2.1 (by simp)
  obtain ⟨d, hd, hfirst⟩ := exists_firstNext hlays.nextOf_opener
  simp only [cutOut, yields_bind, yields_firstNext, hd, exists_some_eq, hfirst]
  refine yields_retireNodeVia (.refl r) hlays.nextOf_opener (h.nested_part (by simp))
    (fun v access => ?_) fun r₁ h₁ => ?_
  · simpa using h.counts_part [o] (a.nodes ++ c :: rest.nodes) (by simp) v access
  refine yields_retireStrain (C := .inside (.body o c rest) C) h₁ h.toAccounted h.shaped
    (fun v access => ?_) fun r₂ h₂ => hpost r₂ ?_
  · simpa using h.counts_part (o :: a.nodes) (c :: rest.nodes) (by simp) v access
  · simpa [Strand.nodes, hclose] using h₂

/-- Releasing a conditional with two arms. -/
theorem yields_cutOut_fork (h : r.Intact exit (C.plug (.fork o c a b rest)))
    (hpost : ∀ r', r.Releases r' ((Strand.fork o c a b .done).nodes.flatMap r.accessesOf) →
      post () r') : Yields (cutOut o c) r post := by
  have hlays := h.toCarries.part
  obtain ⟨⟨suspends, hkind⟩, hclose, -⟩ := h.part.1
  have hclose := h.accessesOf_closer hclose (by simp)
  obtain ⟨d, hd, hfirst⟩ := exists_firstNext hlays.nextOf_fork
  have hsplit :
      (Strand.fork o c a b rest).nodes.Perm (o :: b.nodes ++ a.nodes ++ c :: rest.nodes) := by
    refine perm_iff_count.mpr fun m => ?_
    simp only [Strand.nodes, cons_append, count_cons, count_append]
    omega
  simp only [cutOut, yields_bind, yields_firstNext, hd, exists_some_eq, hfirst]
  refine yields_retireNodeVia_fork (.refl r) hlays.nextOf_fork hkind (h.nested_part (by simp))
    (fun v access => ?_) fun r₁ h₁ => ?_
  · simpa using h.counts_part [o] (a.nodes ++ (b.nodes ++ c :: rest.nodes)) (by simp) v access
  refine yields_retireStrain (C := .inside (.second o c a rest) C) h₁ h.toAccounted h.shaped
    (fun v access => ?_) fun r₂ h₂ => ?_
  · simpa using h.counts_part (o :: b.nodes) (a.nodes ++ c :: rest.nodes)
      (by simpa using hsplit) v access
  refine yields_retireStrain (C := .inside (.first o c b rest) C) h₂ h.toAccounted h.shaped
      (fun v access => ?_) fun r₃ h₃ =>
    hpost r₃ (h₃.perm ?_)
  · simpa using h.counts_part _ _ hsplit v access
  · refine perm_iff_count.mpr fun access => ?_
    simp only [Strand.nodes, flatMap_cons, cons_append, flatMap_append, flatMap_nil, count_append,
      hclose, nil_append, append_nil]
    omega

/-- Taking out a single node. -/
theorem yields_removeDead_leaf (h : w.routine.Intact exit (C.plug (.leaf n rest))) :
    Yields (removeDead n) w fun next w' => next = some (rest.entryPort (C.target (exit, 0))).1 ∧
      w.routine.Leaves exit (C.plug (.leaf n rest)) w'.routine (C.plug rest) ⟨1, 0⟩ := by
  have hlays := h.toCarries.part
  obtain ⟨kind, hkind, hregion, -⟩ := h.part.1.1
  obtain ⟨d, hd, rfl, hnext, -⟩ := node_of_kindOf hkind
  have hfirst : d.firstNext = some (rest.entryPort (C.target (exit, 0))).1 := by
    rw [Node.firstNext, hnext, hlays.nextOf_leaf]
    rfl
  simp only [removeDead, yields_bind, Pass.yields_lift, yields_node, hd, exists_some_eq, hregion]
  refine yields_retireNodeVia (.refl _) hlays.nextOf_leaf (h.nested_part (by simp))
    (fun v access => ?_) fun r₁ h₁ => ?_
  · simpa using h.counts_part [n] (rest.nodes) (by simp) v access
  · simp only [unlink, yields_bind, Pass.yields_note, Pass.yields_lift, yields_pure]
    have hrew := (Rewires.refl r₁).bypassed n (C.source (r₁.entry, 0)).1
      (rest.entryPort (C.target (exit, 0))).1
    refine (yields_removeNode (h₁.carries h.toCarries)).mpr ⟨hfirst, ?_⟩
    exact h.leaves_rest (x := .leaf n .done) (by simpa [Strand.nodes] using h₁) hrew
      (h₁.carries h.toCarries).bypassed (by simp)

/-- Taking out a region once it is released. -/
theorem yields_unlinkPiece (h : r.Intact exit (C.plug (x.append rest)))
    (hrel : r.Releases r₁ (x.nodes.flatMap r.accessesOf)) (hentry : ∀ dst, x.entryPort dst = (o, 0))
    (hexit : ∀ src, x.exitPort src = (c, 0)) (hno : o ∈ x.nodes) (hnc : c ∈ x.nodes)
    (hin : r.inDegree o = 1) (hout : r.outDegree c = 1) :
    Yields (Edit.unlinkRange o c) r₁ fun _ r' =>
      r.Leaves exit (C.plug (x.append rest)) r' (C.plug rest) ⟨1, 0⟩ := by
  have hcarries := hrel.carries h.toCarries
  have hin' : r₁.inDegree o = 1 := by
    rw [inDegree, hrel.prevOf_eq]
    exact hin
  have hout' : r₁.outDegree c = 1 := by
    rw [outDegree, hrel.nextOf_eq]
    exact hout
  refine (yields_unlinkRange_part hcarries hentry hexit hin' hout').mpr ?_
  have hrew :=
    (Rewires.refl r₁).excised o c (C.source (r₁.entry, 0)) (rest.entryPort (C.target (exit, 0)))
  exact h.leaves_rest hrel hrew (hcarries.excised hentry hexit hno hnc) (length_pos_of_mem hno)

/-- Cutting out a region and unlinking it. -/
theorem yields_excise_region (h : r.Intact exit (C.plug (.region o c a rest))) :
    Yields (cutOut o c) r fun _ r₁ => Yields (Edit.unlinkRange o c) r₁ fun _ r' =>
      r.Leaves exit (C.plug (.region o c a rest)) r' (C.plug rest) ⟨1, 0⟩ := by
  have hsized := h.toCarries.part.sized
  refine yields_cutOut_region h fun r₁ h₁ => ?_
  exact yields_unlinkPiece (x := .region o c a .done) h h₁ (fun _ => rfl) (fun _ => rfl) (by simp)
    (by simp) hsized.1.1 hsized.2.1.2

/-- Cutting out a conditional with two arms and unlinking it. -/
theorem yields_excise_fork (h : r.Intact exit (C.plug (.fork o c a b rest))) :
    Yields (cutOut o c) r fun _ r₁ => Yields (Edit.unlinkRange o c) r₁ fun _ r' =>
      r.Leaves exit (C.plug (.fork o c a b rest)) r' (C.plug rest) ⟨1, 0⟩ := by
  have hsized := h.toCarries.part.sized
  refine yields_cutOut_fork h fun r₁ h₁ => ?_
  exact yields_unlinkPiece (x := .fork o c a b .done) h h₁ (fun _ => rfl) (fun _ => rfl) (by simp)
    (by simp) hsized.1.1 hsized.2.1.2

/-- Taking out a region that cannot be reached, given that it can be excised. -/
theorem yields_removeDead_enter {form : Form} {suspends : Bool} {y : NodeId} {good : Routine → Prop}
    (hkind : w.routine.kindOf o = some (.enter form ⟨c, suspends⟩))
    (hnext : w.routine.nextOf c = [y])
    (h : Yields (cutOut o c) w.routine fun _ r₁ => Yields (Edit.unlinkRange o c) r₁ fun _ r' =>
      good r') : Yields (removeDead o) w fun next w' => next = some y ∧ good w'.routine := by
  obtain ⟨d, hd, hdkind, -⟩ := node_of_kindOf hkind
  obtain ⟨d', hd', hfirst⟩ := exists_firstNext hnext
  simp only [removeDead, yields_bind, Pass.yields_lift, yields_node, hd, exists_some_eq, hdkind,
    NodeKind.region?, yields_firstNext, hd', hfirst, Pass.yields_note, yields_pure, true_and]
  exact h

variable {fuel : Nat}

/-- The sweep over dead code past a piece that is taken out. -/
theorem yields_forwardDead_cons (h : w.routine.Intact exit (C.plug (x.append rest)))
    (hentry : (x.append rest).entryPort (C.target (exit, 0)) = (n, 0))
    (hn : n ∈ (x.append rest).nodes)
    (hremove : Yields (removeDead n) w fun next w' =>
      next = some (rest.entryPort (C.target (exit, 0))).1 ∧
      w.routine.Leaves exit (C.plug (x.append rest)) w'.routine (C.plug rest) ⟨1, 0⟩)
    (hrest : ∀ w : Work, w.routine.Intact exit (C.plug rest) →
      Yields (forwardWithin fuel true (some (rest.entryPort (C.target (exit, 0))).1)
      (C.target (exit, 0)).1) w
        fun swept w' => w.routine.Leaves exit (C.plug rest) w'.routine (C.plug .done) swept) :
    Yields (forwardWithin (fuel + 1) true (some ((x.append rest).entryPort (C.target (exit, 0))).1)
      (C.target (exit, 0)).1) w
      fun swept w' =>
      w.routine.Leaves exit (C.plug (x.append rest)) w'.routine (C.plug .done) swept := by
  rw [hentry, forwardWithin, if_neg (h.toCarries.ne_target hn), if_pos rfl]
  refine yields_bind.mpr (hremove.mono fun next w₁ => ?_)
  rintro ⟨rfl, hleaves⟩
  exact yields_bind.mpr ((hrest w₁ hleaves.intact).mono fun swept w' hdone => hleaves.trans hdone)

/-- Behind a return or a branch nothing is left up to the end of the region. -/
theorem yields_forwardDead (h : w.routine.Intact exit (C.plug t)) (hfuel : t.nodes.length ≤ fuel) :
    Yields
    (forwardWithin fuel true (some (t.entryPort (C.target (exit, 0))).1) (C.target (exit, 0)).1) w
      fun swept w' => w.routine.Leaves exit (C.plug t) w'.routine (C.plug .done) swept := by
  induction t generalizing w fuel with
  | done =>
    rw [entryPort_done]
    cases fuel <;> simpa [forwardWithin] using Leaves.refl h
  | leaf n rest ih =>
    simp only [Strand.nodes, length_cons] at hfuel
    obtain _ | fuel := fuel
    · omega
    exact yields_forwardDead_cons (x := .leaf n .done) h rfl (by simp)
      (yields_removeDead_leaf h) fun w h => ih h (by omega)
  | region o c a rest _ ih =>
    simp only [Strand.nodes, cons_append, length_cons, length_append] at hfuel
    obtain _ | fuel := fuel
    · omega
    obtain ⟨form, suspends, hkind⟩ := h.part.1.1
    refine yields_forwardDead_cons (x := .region o c a .done) h rfl (by simp) ?_
      fun w h => ih h (by omega)
    exact yields_removeDead_enter hkind h.toCarries.part.nextOf_closer (yields_excise_region h)
  | fork o c a b rest _ _ ih =>
    simp only [Strand.nodes, cons_append, length_cons, length_append] at hfuel
    obtain _ | fuel := fuel
    · omega
    obtain ⟨suspends, hkind⟩ := h.part.1.1
    refine yields_forwardDead_cons (x := .fork o c a b .done) h rfl (by simp) ?_
      fun w h => ih h (by omega)
    exact yields_removeDead_enter hkind h.toCarries.part.nextOf_join (yields_excise_fork h)

/-! ### Conditionals that are decided -/

section

variable (h : r.Intact exit (C.plug (.fork o c a b rest)))
include h

/-- Exchanging the arms of a conditional. -/
theorem yields_swapArms :
    Yields (Edit.swapBranches o) r fun _ r' =>
    r'.Intact exit (C.plug (.fork o c b a rest)) ∧ Relinks r r' := by
  obtain ⟨hshaped, haims⟩ := h.part
  obtain ⟨⟨suspends, hkind⟩, hclose, ha, hb, hrest⟩ := hshaped
  refine (yields_swapBranches h.toCarries hkind).mpr ?_
  refine ⟨h.replace [] (.refl r) ((Rewires.refl r).rearmed rfl o c) h.toCarries.swapped
    ⟨⟨suspends, hkind⟩, hclose, hb, ha, hrest⟩ ⟨haims.2.1, haims.1, haims.2.2⟩ ?_,
    (Releases.refl r).relinks ((Rewires.refl r).rearmed rfl o c)⟩
  refine perm_iff_count.mpr fun m => ?_
  simp only [Strand.nodes, nil_append, cons_append, count_cons, count_append]
  omega

/-- Releasing the second arm of a conditional and cutting it off. -/
theorem yields_cutArm :
    Yields (retireStrain (b.entryPort (c, 1)).1 c) r fun _ r₁ =>
    Yields (dropElse o) r₁ fun _ r' =>
      r'.Intact exit (C.plug (.region o c a rest)) ∧ Relinks r r' := by
  obtain ⟨⟨⟨suspends, hkind⟩, hclose, ha, -, hrest⟩, haims⟩ := h.part
  have hsplit :
      (Strand.fork o c a b rest).nodes.Perm (b.nodes ++ (Strand.region o c a rest).nodes) := by
    refine perm_iff_count.mpr fun m => ?_
    simp only [Strand.nodes, cons_append, count_cons, count_append]
    omega
  refine yields_retireStrain (C := .inside (.second o c a rest) C) (.refl r) h.toAccounted
    h.shaped (fun v access => ?_) fun r₁ h₁ => ?_
  · simpa using h.counts_part _ _ hsplit v access
  · have hcarries := h₁.carries h.toCarries
    refine (yields_dropElse hcarries ((h₁.kindOf_eq o).trans hkind)).mpr ?_
    exact ⟨h.replace b.nodes (by simpa using h₁) ((Rewires.refl r₁).rearmed rfl o c) hcarries.armCut
      ⟨⟨.cond, suspends, hkind⟩, hclose, ha, hrest⟩ ⟨haims.1, haims.2.2⟩ hsplit,
      h₁.relinks ((Rewires.refl r₁).rearmed rfl o c)⟩

/-- The arm that is taken stays. -/
theorem yields_keepTakenArm (taken : Bool) : Yields (keepTakenArm o c taken) r fun _ r' =>
      r'.Intact exit (C.plug (.region o c (if taken then a else b) rest)) ∧ Relinks r r' := by
  have hkeep : ∀ {r : Routine} {a b : Strand}, r.Intact exit (C.plug (.fork o c a b rest)) →
      Yields (keepTakenArm o c true) r fun _ r' =>
      r'.Intact exit (C.plug (.region o c a rest)) ∧ Relinks r r' := by
    intro r a b h
    obtain ⟨d, hd, hnext⟩ := exists_next h.toCarries.part.nextOf_fork
    simp only [keepTakenArm, Bool.not_true, Bool.false_eq_true, if_false, yields_bind,
      yields_node, hd, exists_some_eq, hnext]
    exact yields_bind.mpr (yields_cutArm h)
  cases taken with
  | true => exact hkeep h
  | false =>
    refine yields_bind.mpr ((yields_swapArms h).mono fun _ r₁ h₁ =>
      (hkeep h₁.1).mono fun _ r' h' => ?_)
    exact ⟨h'.1, h₁.2.trans h'.2⟩

end

/-- Whether some branch of the stream goes to a node. -/
theorem exists_isBranchedTo (h : r.Carries exit t) : ∃ found, isBranchedTo r n = .ok found ∧
    (found = false → ∀ m ∈ t.nodes, ∀ guarded goal, r.kindOf m = some (.branch guarded goal) →
      goal.target ≠ n) := by
  obtain ⟨live, hlive, hperm⟩ := h.liveNodes_eq
  have hkinds : (live.mapM fun m => return (← r.node m).kind) =
      Except.ok (live.map fun m => (r.kindOf m).getD .ret) := by
    refine Attempt.mapM_eq_ok_map fun m hm => ?_
    obtain ⟨d, hd⟩ := h.exists_node (hperm.mem_iff.mp hm)
    rw [kindOf_eq hd, node_eq_ok_iff.mpr hd]
    rfl
  refine ⟨_, Attempt.bind_eq_ok_iff.mpr ⟨_, hlive, Attempt.bind_eq_ok_iff.mpr ⟨_, hkinds, rfl⟩⟩,
    fun hnone m hm guarded goal hk heq => ?_⟩
  have hmem : m ∈ live := hperm.mem_iff.mpr (mem_live hm)
  have hnot := List.any_eq_false.mp hnone _ (List.mem_map.mpr ⟨m, hmem, rfl⟩)
  rw [hk] at hnot
  exact hnot (by simp [heq])

section

variable (h : r.Intact exit (C.plug (.region o c kept rest)))
  (hrel : r.Releases r₁ (r.accessesOf o)) (hfree : ∀ m ∈ (C.plug (.region o c kept rest)).nodes,
    ∀ guarded goal, r.kindOf m = some (.branch guarded goal) → goal.target ≠ o)
include h hrel hfree

/-- What a region holds takes its place if nothing branches to it. -/
theorem intact_unwrapped (hrew : r₁.Rewires r')
    (hcarries : r'.Carries exit (C.plug (kept.append rest))) :
    r'.Intact exit (C.plug (kept.append rest)) := by
  obtain ⟨⟨-, hclose, hk, hr⟩, haims⟩ := h.part
  have hnothing := h.accessesOf_closer hclose (by simp)
  refine h.replace [o, c] (by simpa [hnothing] using hrel) hrew hcarries (shaped_append.mpr
    ⟨hk, hr⟩) (branching_append.mpr ⟨Aims.narrow [] haims.1 fun m hm =>
      hfree m (C.mem_plug.mpr (Or.inl (by simp [hm]))), haims.2⟩) ?_
  refine perm_iff_count.mpr fun m => ?_
  simp only [Strand.nodes, nodes_append, cons_append, nil_append, count_cons, count_append]
  omega

/-- The two nodes of a region leave one after the other once they are released. -/
theorem yields_unlinkEnds (hw : w.routine = r₁) :
    Yields (unlink c) w fun _ w₁ => Yields (unlink o) w₁ fun _ w' =>
    w'.routine.Intact exit (C.plug (kept.append rest)) ∧ Relinks r w'.routine := by
  subst hw
  have hopen := (hrel.carries h.toCarries).openRegion
  have hinner :=
    Carries.bypassed (C := .inside (.behind kept) (.inside (.behind (.leaf o .done)) C)) hopen
  simp only [unlink, yields_bind, Pass.yields_note, Pass.yields_lift]
  refine (yields_removeNode (C := .inside (.behind kept) (.inside (.behind (.leaf o .done)) C))
    hopen).mpr ?_
  refine (yields_removeNode (C := C) hinner).mpr ?_
  exact ⟨intact_unwrapped h hrel hfree (((Rewires.refl _).bypassed _ _ _).bypassed _ _ _)
    (Carries.bypassed (C := C) hinner),
    hrel.relinks (((Rewires.refl _).bypassed _ _ _).bypassed _ _ _)⟩

end

/-- What deciding a conditional leaves: the stream goes on where the arm that is taken begins, or at
a block around it. -/
structure Resolved (r : Routine) (exit o : NodeId) (C : Strand.Context) (t : Strand)
    (result : Option NodeId × Swept) (r' : Routine) (t' : Strand) : Prop where
  leaves : r.Leaves exit (C.plug t) r' (C.plug t') result.2
  resume : result.1 = some (t'.entryPort (C.target (exit, 0))).1
  shorter : t'.nodes.length < t.nodes.length ∨ ∃ c kept rest suspends, t' = .region o c kept rest ∧
    t'.nodes.length ≤ t.nodes.length ∧ r'.kindOf o = some (.enter .block ⟨c, suspends⟩)

section

variable {suspends : Bool} {value : Literal} {e : Node}
    (hkind : e.kind = .enter .cond ⟨c, suspends⟩) (hargs : e.args = [.lit value])
include hkind hargs

/-- A conditional that is still branched to becomes a block. -/
theorem yields_becomeBlock (h : r.Intact exit (C.plug (.region o c kept rest)))
    (he : r.label o = some e) : Yields (setKind o (.enter .block ⟨c, suspends⟩)) r fun _ r₁ =>
    Yields (setArgs o []) r₁ fun _ r' =>
      r'.Intact exit (C.plug (.region o c kept rest)) ∧
        r.Amends r' o e { e with kind := .enter .block ⟨c, suspends⟩, args := [] } := by
  have hmem : o ∈ (C.plug (.region o c kept rest)).nodes := C.mem_plug.mpr (Or.inl (by simp))
  have hdest : e.dest = none := (h.proper o hmem e he).dest_eq_none (by rw [hkind]; rfl)
  have hsize := lt_of_label he
  let f : Node → Node := fun d => { d with kind := .enter .block ⟨c, suspends⟩, args := [] }
  have hamends :
      r.Amends (r.alter o f) o e { e with kind := .enter .block ⟨c, suspends⟩, args := [] } :=
    amends_of_releases (f := f) he (fun _ => rfl) (fun _ => rfl) rfl (fun _ => rfl)
        (Releases.refl _) fun a => by
      simp [Node.accesses, hdest, hargs,
        show List.filterMap Operand.var? [Operand.lit value] = [] from rfl]
  have hkind' : (r.alter o f).kindOf o = some (.enter .block ⟨c, suspends⟩) :=
    kindOf_of_label hamends.label_self rfl
  have hother : ∀ m ≠ o, (r.alter o f).kindOf m = r.kindOf m :=
    fun m hm => kindOf_congr (hamends.label_of_ne hm)
  have hintact : (r.alter o f).Intact exit (C.plug (.region o c kept rest)) := by
    refine h.amend hamends hmem (by simp [hargs]) ?_ ?_ (fun hcond => by cases hcond) ?_ fun v hv =>
      ?_
    · obtain ⟨haround, ⟨-, hclose, hk, hr⟩⟩ := (C.shaped_plug_iff _ _).mp h.shaped
      have hnodup := (C.perm_plug (.region o c kept rest)).nodup_iff.mp h.nodup_nodes
      simp only [Strand.nodes, cons_append, List.append_assoc, nodup_cons, mem_append, mem_cons,
        not_or] at hnodup
      have hkeep : ∀ {u : Strand}, u.Shaped r.kindOf → o ∉ u.nodes →
          u.Shaped (r.alter o f).kindOf := fun hu ho =>
        hu.congr fun m hm => by rw [hother m fun heq => ho (heq ▸ hm)]
      refine (C.shaped_plug_iff _ _).mpr ⟨hkeep haround hnodup.1.2.2.2, ⟨.block, suspends, hkind'⟩,
        ?_, hkeep hk hnodup.1.1, hkeep hr hnodup.1.2.2.1⟩
      rw [hother c fun heq => hnodup.1.2.1 heq.symm]
      exact hclose
    · refine h.aims.mono (fun _ _ haim => haim) fun m _ guarded goal hk => ?_
      by_cases hm : m = o
      · rw [hm, hkind'] at hk
        cases hk
      · rwa [hother m hm] at hk
    · exact ⟨rfl, fun hsome => by simp [hdest] at hsome, fun _ => rfl, fun hk => by cases hk⟩
    · simp [hdest] at hv
  simp only [setArgs, yields_bind, yields_setKind, filterMap_nil]
  refine ⟨hsize, yields_pure.mpr ?_⟩
  simp only [yields_node, getElem?_alter, if_pos, node_of_label he, map_some, exists_some_eq,
    yields_changeNode, size_alter, hargs, filterMap_cons, filterMap_nil, Operand.var?]
  refine ⟨hsize, yields_pure.mpr ?_⟩
  rw [alter_alter]
  exact ⟨hintact, hamends⟩

/-- A conditional with one arm and a known condition is dissolved. -/
theorem yields_dissolve (h : w.routine.Intact exit (C.plug (.region o c kept rest)))
    (he : w.routine.label o = some e) : Yields (dissolve o c ⟨c, suspends⟩) w fun result w' =>
      (result = (some o, ⟨0, 1⟩) ∧ w'.routine.Intact exit (C.plug (.region o c kept rest)) ∧
          w.routine.Amends w'.routine o e
          { e with kind := .enter .block ⟨c, suspends⟩, args := [] }) ∨
        result = (some ((kept.append rest).entryPort (C.target (exit, 0))).1, ⟨2, 1⟩) ∧
          w'.routine.Intact exit (C.plug (kept.append rest)) ∧ Relinks w.routine w'.routine := by
  have hlays := h.toCarries.part
  have hnested := h.nested_part (n := o) (by simp)
  obtain ⟨found, hfound, hfree⟩ := exists_isBranchedTo (n := o) h.toCarries
  simp only [dissolve, yields_bind, Pass.yields_ask, hfound, Except.ok.injEq, exists_eq_left']
  cases found with
  | true =>
    simp only [if_true, yields_bind, Pass.yields_lift, yields_pure]
    refine (yields_becomeBlock hkind hargs h he).mono fun _ r₁ h₁ => h₁.mono fun _ r' h' =>
      Or.inl ⟨trivial, h'⟩
  | false =>
    simp only [Bool.false_eq_true, if_false, yields_bind, Pass.yields_lift]
    refine yields_uncountNode (.refl _) hnested (fun v access => ?_) fun r₁ h₁ => ?_
    · simpa using h.counts_part [o] (kept.nodes ++ c :: rest.nodes) (by simp) v access
    rw [nil_append] at h₁
    have hcarries := h₁.carries h.toCarries
    have hlays₁ := hcarries.part
    obtain ⟨d, hd, hfirst⟩ := exists_firstNext hlays₁.nextOf_opener
    obtain ⟨d', hd', hbehind⟩ := exists_firstNext hlays₁.nextOf_closer
    simp only [yields_firstNext, hd, some.injEq, exists_eq_left', hfirst]
    have hleave := yields_unlinkEnds (w := { w with routine := r₁ }) h h₁ (hfree rfl) rfl
    rcases kept.entry_cases with ⟨m, hm, hentry⟩ | rfl
    · have hne : m ≠ c := by
        obtain ⟨hnodup, -⟩ := h.toCarries.part_nodes
        simp only [Strand.nodes, cons_append, nodup_cons, nodup_append] at hnodup
        exact hnodup.2.2.2 m hm c (by simp)
      simp only [hentry, if_neg hne, yields_bind, yields_pure]
      refine hleave.mono fun _ w₁ h₂ => h₂.mono fun _ w' h' => Or.inr ⟨?_, h'⟩
      rw [entryPort_append, hentry]
    · simp only [entryPort_done, if_true, yields_bind, Pass.yields_lift,
        yields_firstNext, hd', exists_some_eq, hbehind, yields_pure]
      exact hleave.mono fun _ w₁ h₂ => h₂.mono fun _ w' h' => Or.inr ⟨rfl, h'⟩

/-- Dissolving what a conditional has been reduced to. -/
theorem yields_dissolve_resolved (hchooses : Chooses o c t kept rest) (he : r.label o = some e)
    (hcut : Relinks r w.routine) (h : w.routine.Intact exit (C.plug (.region o c kept rest))) :
    Yields (dissolve o c ⟨c, suspends⟩) w fun result w' =>
    ∃ t', Resolved r exit o C t result w'.routine t' := by
  have hlength := hchooses.sublist.length_le
  have hleaves : r.Leaves exit (C.plug t) w.routine (C.plug (.region o c kept rest)) {} :=
    Intact.leaves_part h hcut hchooses.sublist hlength (fun _ => hchooses.fits) hchooses.roused
  have he₁ := (hcut.label o).trans he
  refine (yields_dissolve hkind hargs h he₁).mono fun result w' hresult => ?_
  rcases hresult with ⟨rfl, hintact, hamends⟩ | ⟨rfl, hintact, hrelinks⟩
  · have hblock : w'.routine.kindOf o = some (.enter .block ⟨c, suspends⟩) :=
      kindOf_of_label hamends.label_self rfl
    have hturned : w.routine.Leaves exit (C.plug (.region o c kept rest)) w'.routine
        (C.plug (.region o c kept rest)) ⟨0, 1⟩ := by
      refine ⟨hintact, Nat.le_refl _, (fun hnone => by cases hnone),
        fun hmarks => ?_, fun hall m hm => ?_, fun m hm => ?_⟩
      · -- the block is marked as the conditional was
        exact hamends.roused hmarks (by rw [hkind]; rfl) (by rw [hkind]; rfl)
      · by_cases hmo : m = o
        · subst hmo
          intro x hx hcopy
          rw [kindOf, hx, map_some, some.injEq, hcopy] at hblock
          cases hblock
        · exact (boundAt_congr (hamends.label_of_ne hmo)).mpr (hall m hm)
      · exact ⟨hamends.entry ▸ hm, hamends.stemsAt ⟨id, fun hkept => by cases hkept⟩ m⟩
    exact ⟨.region o c kept rest, hleaves.trans hturned, rfl,
      Or.inr ⟨c, kept, rest, suspends, rfl, hlength, hblock⟩⟩
  · have hshort :
        (kept.append rest).nodes.length + 2 ≤ (Strand.region o c kept rest).nodes.length := by
      simp only [Strand.nodes, nodes_append, cons_append, length_cons, length_append]
      omega
    have hsub : (kept.append rest).nodes.Sublist (Strand.region o c kept rest).nodes := by
      rw [nodes_append]
      exact ((Sublist.refl _).append (sublist_cons_self c _)).cons o
    have hgone : w.routine.Leaves exit (C.plug (.region o c kept rest)) w'.routine
        (C.plug (kept.append rest)) ⟨2, 1⟩ :=
      Intact.leaves_part hintact hrelinks hsub hshort (fun hnone => by cases hnone)
        Strand.Roused.unwrap
    exact ⟨kept.append rest, hleaves.trans hgone, rfl, Or.inl (by omega)⟩

/-- Deciding a conditional with two arms. -/
theorem yields_resolve_fork (h : w.routine.Intact exit (C.plug (.fork o c a b rest)))
    (he : w.routine.label o = some e) : Yields (resolve o ⟨c, suspends⟩ taken) w fun result w' =>
      ∃ t', Resolved w.routine exit o C (.fork o c a b rest) result w'.routine t' := by
  obtain ⟨d, hd, hnext⟩ := exists_next h.toCarries.part.nextOf_fork
  simp only [resolve, yields_bind, Pass.yields_note, Pass.yields_lift, yields_node, hd,
    exists_some_eq, hnext, length_cons, length_nil]
  simp only [if_true, yields_bind, Pass.yields_lift]
  refine (yields_keepTakenArm h taken).mono fun _ r₁ h₁ => ?_
  cases taken with
  | true => exact yields_dissolve_resolved hkind hargs (.first a b rest) he h₁.2 h₁.1
  | false => exact yields_dissolve_resolved hkind hargs (.second a b rest) he h₁.2 h₁.1

/-- Deciding a conditional with one arm. -/
theorem yields_resolve_region (h : w.routine.Intact exit (C.plug (.region o c a rest)))
    (he : w.routine.label o = some e) : Yields (resolve o ⟨c, suspends⟩ taken) w fun result w' =>
      ∃ t', Resolved w.routine exit o C (.region o c a rest) result w'.routine t' := by
  have hlays := h.toCarries.part
  obtain ⟨d, hd, hnext⟩ := exists_next hlays.nextOf_opener
  obtain ⟨d', hd', hbehind⟩ := exists_firstNext hlays.nextOf_closer
  simp only [resolve, yields_bind, Pass.yields_note, Pass.yields_lift, yields_node, hd,
    exists_some_eq, hnext, length_cons, length_nil]
  rw [if_neg (by decide)]
  cases taken with
  | true => exact yields_dissolve_resolved hkind hargs (.only a rest) he (.refl _) h
  | false =>
    simp only [Bool.not_false, if_true, yields_bind, Pass.yields_lift, yields_firstNext, hd',
      exists_some_eq, hbehind]
    refine (yields_excise_region h).mono fun _ r₁ h₁ => h₁.mono fun _ r' h' => ?_
    refine ⟨rest, h', rfl, Or.inl ?_⟩
    simp
    omega

end

/-! ### The whole sweep -/

variable {form : Form} {suspends : Bool}

/-- With so much fuel the sweep gets through every part of an intact stream that is short enough. -/
def Clears (exit : NodeId) (fuel : Nat) : Prop :=
  ∀ (C : Strand.Context) (t : Strand) (w : Work), w.routine.Intact exit (C.plug t) →
    2 * t.nodes.length ≤ fuel →
    Yields (forwardWithin fuel false (some (t.entryPort (C.target (exit, 0))).1) (C.target (exit,
    0)).1) w fun swept w' => ∃ t', w.routine.Leaves exit (C.plug t) w'.routine (C.plug t') swept

/-- The sweep goes past a node or stops where control leaves. -/
theorem Clears.leaf (ih : Clears exit fuel) (h : w.routine.Intact exit (C.plug (.leaf n rest)))
    (hfuel : 2 * (Strand.leaf n rest).nodes.length ≤ fuel + 1) :
    Yields (forwardWithin (fuel + 1) false (some n) (C.target (exit, 0)).1) w
      fun swept w' =>
      ∃ t', w.routine.Leaves exit (C.plug (.leaf n rest)) w'.routine (C.plug t') swept := by
  obtain ⟨kind, hkind, hregion, -⟩ := h.part.1.1
  obtain ⟨d, hd, rfl, hnext, -⟩ := node_of_kindOf hkind
  have hfirst : d.firstNext = some (rest.entryPort (C.target (exit, 0))).1 := by
    rw [Node.firstNext, hnext, h.toCarries.part.nextOf_leaf]
    rfl
  simp only [Strand.nodes, length_cons] at hfuel
  -- what follows is swept behind the node
  have hlive : Yields (forwardWithin fuel false (some (rest.entryPort (C.target (exit, 0))).1)
      (C.target (exit, 0)).1) w
      fun swept w' =>
      ∃ t', w.routine.Leaves exit (C.plug (.leaf n rest)) w'.routine (C.plug t') swept :=
    (ih (.inside (.behind (.leaf n .done)) C) rest w h (by omega)).mono fun swept w' h' =>
      h'.elim fun t' ht' => ⟨.leaf n t', ht'⟩
  have hdead : Yields (forwardWithin fuel true (some (rest.entryPort (C.target (exit, 0))).1)
      (C.target (exit, 0)).1) w
      fun swept w' =>
      ∃ t', w.routine.Leaves exit (C.plug (.leaf n rest)) w'.routine (C.plug t') swept :=
    (yields_forwardDead (C := .inside (.behind (.leaf n .done)) C) h (by omega)).mono
      fun swept w' ht' => ⟨.leaf n .done, ht'⟩
  rw [forwardWithin, if_neg (h.toCarries.ne_target (by simp))]
  simp only [Bool.false_eq_true, if_false, yields_bind, Pass.yields_lift, yields_node, hd,
    exists_some_eq, hfirst]
  cases hk : d.kind with
  | enter form region =>
    rw [hk] at hregion
    cases hregion
  | branch guarded goal => cases guarded with
    | true => exact hlive
    | false => exact hdead
  | ret => exact hdead
  | define | declare | close | call | yield | step | goto | op => exact hlive

/-- A region that stays is swept inside and then behind. -/
theorem Clears.region (ih : Clears exit fuel)
    (h : w.routine.Intact exit (C.plug (.region o c a rest))) {d : Node}
    (hd : w.routine.nodes[o]? = some d) (hkind : d.kind = .enter form ⟨c, suspends⟩)
    (hopen : form = .cond → knownOutcome? d = none)
    (hfuel : 2 * a.nodes.length + 2 * rest.nodes.length ≤ fuel) :
    Yields (forwardWithin (fuel + 1) false (some o) (C.target (exit, 0)).1) w fun swept w' =>
    ∃ t', w.routine.Leaves exit (C.plug (.region o c a rest)) w'.routine (C.plug t') swept := by
  have hnext := (nextOf_eq hd).symm.trans h.toCarries.part.nextOf_opener
  have hinner := ih (.inside (.body o c rest) C) a w h (by omega)
  have hbehind : ∀ {w₁ : Work} {a' : Strand} {good : Swept → Work → Prop},
      w₁.routine.Intact exit (C.plug (.region o c a' rest)) →
      (∀ {swept w' rest'}, w₁.routine.Leaves exit (C.plug (.region o c a' rest)) w'.routine
      (C.plug (.region o c a' rest')) swept → good swept w') →
      Yields (Edit.firstNext c) w₁.routine fun next r' =>
        Yields (forwardWithin fuel false next (C.target (exit, 0)).1)
            { w₁ with routine := r' } good := by
    intro w₁ a' good h₁ hgood
    obtain ⟨d', hd', hfirst⟩ := exists_firstNext h₁.toCarries.part.nextOf_closer
    refine yields_firstNext.mpr ⟨d', hd', ?_⟩
    rw [hfirst]
    refine (ih (.inside (.behind (.region o c a' .done)) C) rest w₁ h₁ (by omega)).mono
      fun swept w' h' => ?_
    obtain ⟨rest', hrest'⟩ := h'
    exact hgood hrest'
  rw [forwardWithin, if_neg (h.toCarries.ne_target (by simp))]
  simp only [Bool.false_eq_true, if_false, yields_bind, Pass.yields_lift, yields_node, hd,
    exists_some_eq, hkind]
  cases form with
  | cond =>
    simp only [hopen rfl, hnext, mapM_cons, mapM_nil, yields_bind, yields_pure, Pass.yields_lift]
    refine hinner.mono fun swept w₁ h₁ => ?_
    obtain ⟨a', ha'⟩ := h₁
    exact hbehind ha'.intact fun hrest' => ⟨_, ((Leaves.refl h).trans ha').trans hrest'⟩
  | block | loop =>
    simp only [Node.firstNext, hnext, head?_cons, yields_bind, yields_pure, Pass.yields_lift]
    refine hinner.mono fun swept w₁ h₁ => ?_
    obtain ⟨a', ha'⟩ := h₁
    exact hbehind ha'.intact fun hrest' => ⟨_, ha'.trans hrest'⟩

/-- A conditional with two arms that stays is swept in both of them and then behind. -/
theorem Clears.fork (ih : Clears exit fuel)
    (h : w.routine.Intact exit (C.plug (.fork o c a b rest)))
    {d : Node} (hd : w.routine.nodes[o]? = some d)
    (hkind : d.kind = .enter .cond ⟨c, suspends⟩) (hopen : knownOutcome? d = none)
    (hfuel : 2 * (Strand.fork o c a b rest).nodes.length ≤ fuel + 1) :
    Yields (forwardWithin (fuel + 1) false (some o) (C.target (exit, 0)).1) w fun swept w' =>
    ∃ t', w.routine.Leaves exit (C.plug (.fork o c a b rest)) w'.routine (C.plug t') swept := by
  have hnext := (nextOf_eq hd).symm.trans h.toCarries.part.nextOf_fork
  simp only [Strand.nodes, cons_append, length_cons, length_append] at hfuel
  rw [forwardWithin, if_neg (h.toCarries.ne_target (by simp))]
  simp only [Bool.false_eq_true, if_false, yields_bind, Pass.yields_lift, yields_node, hd,
    exists_some_eq, hkind, hopen, hnext, mapM_cons, mapM_nil, yields_pure]
  refine (ih (.inside (.first o c b rest) C) a w h (by omega)).mono fun _ w₁ h₁ => ?_
  obtain ⟨a', ha'⟩ := h₁
  refine (ih (.inside (.second o c a' rest) C) b w₁ ha'.intact (by omega)).mono fun _ w₂ h₂ => ?_
  obtain ⟨b', hb'⟩ := h₂
  obtain ⟨d', hd', hfirst⟩ :=
    exists_firstNext (Carries.part (C := C) hb'.intact.toCarries).nextOf_join
  refine yields_firstNext.mpr ⟨d', hd', ?_⟩
  rw [hfirst]
  refine (ih (.inside (.behind (.fork o c a' b' .done)) C) rest w₂ hb'.intact (by omega)).mono
    fun _ w' h' => ?_
  obtain ⟨rest', hrest'⟩ := h'
  exact ⟨_, (((Leaves.refl h).trans ha').trans hb').trans hrest'⟩

/-- The condition of a conditional that is decided is a literal. -/
theorem exists_literal (h : r.Intact exit t) (ho : o ∈ t.nodes) {d : Node}
    (hd : r.nodes[o]? = some d) (hkind : d.kind = .enter .cond ⟨c, suspends⟩)
    (hknown : knownOutcome? d = some taken) : ∃ value, d.args = [.lit value] := by
  have hlength := h.conditions o ho _ (label_eq hd) (by rw [Node.unlinked_kind, hkind]; rfl)
  obtain ⟨arg, harg⟩ := length_eq_one_iff.mp hlength
  rw [Node.unlinked_args] at harg
  rw [knownOutcome?, harg] at hknown
  cases arg with
  | lit value => exact ⟨value, harg⟩
  | var v => cases hknown
  | node m => cases hknown

/-- A conditional that is decided: the sweep goes on in what it leaves. -/
theorem Clears.resolved (ih : ∀ k ≤ fuel, Clears exit k) (h : w.routine.Intact exit (C.plug t))
    (ho : o ∈ t.nodes) {d : Node} (hd : w.routine.nodes[o]? = some d)
    (hkind : d.kind = .enter .cond ⟨c, suspends⟩) (hknown : knownOutcome? d = some taken)
    (hresolve : ∀ value, d.args = [.lit value] →
      Yields (resolve o ⟨c, suspends⟩ taken) w fun result w' =>
      ∃ t', Resolved w.routine exit o C t result w'.routine t')
    (hfuel : 2 * t.nodes.length ≤ fuel + 1) :
    Yields (forwardWithin (fuel + 1) false (some o) (C.target (exit, 0)).1) w
      fun swept w' => ∃ t', w.routine.Leaves exit (C.plug t) w'.routine (C.plug t') swept := by
  obtain ⟨value, hargs⟩ := exists_literal h (C.mem_plug.mpr (Or.inl ho)) hd hkind hknown
  rw [forwardWithin, if_neg (h.toCarries.ne_target ho)]
  simp only [Bool.false_eq_true, if_false, yields_bind, Pass.yields_lift, yields_node, hd,
    exists_some_eq, hkind, hknown, yields_pure]
  refine (hresolve value hargs).mono fun result w₁ h₁ => ?_
  obtain ⟨t₁, hresolved⟩ := h₁
  simp only [hresolved.resume]
  have hleaves := hresolved.leaves
  rcases hresolved.shorter with hshort | ⟨c', kept, rest, suspends', rfl, hlength, hblock⟩
  · refine (ih fuel (Nat.le_refl _) C t₁ w₁ hleaves.intact (by omega)).mono fun swept w' h' => ?_
    obtain ⟨t', ht'⟩ := h'
    exact ⟨t', hleaves.trans ht'⟩
  · -- the block is entered, which takes one more unit of fuel
    simp only [Strand.nodes, cons_append, length_cons, length_append] at hlength
    obtain _ | fuel := fuel
    · omega
    obtain ⟨d', hd', hdkind, -⟩ := node_of_kindOf hblock
    refine (Clears.region (ih fuel (by omega)) hleaves.intact hd' hdkind
      (fun hcond => by cases hcond) (by omega)).mono fun swept w' h' => ?_
    obtain ⟨t', ht'⟩ := h'
    exact ⟨t', hleaves.trans ht'⟩

/-- The sweep gets through every part, given fuel for two visits of each node. -/
theorem clears (exit : NodeId) (fuel : Nat) : Clears exit fuel := by
  induction fuel using Nat.strong_induction_on with
  | _ fuel ih =>
  intro C t w h hfuel
  cases t with
  | done =>
    rw [entryPort_done]
    cases fuel <;> simpa [forwardWithin] using ⟨.done, Leaves.refl h⟩
  | leaf n rest =>
    obtain ⟨fuel, rfl⟩ : ∃ k, fuel = k + 1 := ⟨fuel - 1, by simp at hfuel; omega⟩
    exact (ih fuel (Nat.lt_succ_self _)).leaf h hfuel
  | region o c a rest =>
    obtain ⟨fuel, rfl⟩ : ∃ k, fuel = k + 1 := ⟨fuel - 1, by simp at hfuel; omega⟩
    obtain ⟨form, suspends, hkind⟩ := h.part.1.1
    obtain ⟨d, hd, hdkind, -⟩ := node_of_kindOf hkind
    have hstays : (form = .cond → knownOutcome? d = none) → _ := fun hopen =>
      (ih fuel (Nat.lt_succ_self _)).region h hd hdkind hopen (by simp at hfuel; omega)
    by_cases hcond : form = .cond
    · subst hcond
      cases hknown : knownOutcome? d with
      | none => exact hstays fun _ => hknown
      | some taken =>
        exact Clears.resolved (fun k hk => ih k (by omega)) h (by simp) hd hdkind hknown
          (fun value hargs =>
          yields_resolve_region (e := d.unlinked) hdkind hargs h (label_eq hd)) hfuel
    · exact hstays fun heq => absurd heq hcond
  | fork o c a b rest =>
    obtain ⟨fuel, rfl⟩ : ∃ k, fuel = k + 1 := ⟨fuel - 1, by simp at hfuel; omega⟩
    obtain ⟨suspends, hkind⟩ := h.part.1.1
    obtain ⟨d, hd, hdkind, -⟩ := node_of_kindOf hkind
    cases hknown : knownOutcome? d with
    | none => exact (ih fuel (Nat.lt_succ_self _)).fork h hd hdkind hknown hfuel
    | some taken =>
      exact Clears.resolved (fun k hk => ih k (by omega)) h (by simp) hd hdkind hknown
        (fun value hargs =>
        yields_resolve_fork (e := d.unlinked) hdkind hargs h (label_eq hd)) hfuel

/-- The sweep from the first node of an intact stream to its end. -/
theorem yields_forward (h : w.routine.Intact exit t) : Yields forward w fun swept w' =>
    ∃ t', w.routine.Leaves exit t w'.routine t' swept := by
  obtain ⟨d, hd, hfirst⟩ := exists_firstNext h.toStreams.nextOf_entry
  have hfuel := le_editFuel h.toStreams.length_le_size
  refine yields_bind.mpr
    (yields_get.mpr (yields_bind.mpr (yields_toAction.mpr ⟨d, node_eq_ok_iff.mpr hd, ?_⟩)))
  refine yields_bind.mpr (yields_toAction.mpr ⟨exit, h.toStreams.exit_eq, ?_⟩)
  rw [hfirst]
  exact clears exit _ .hole t w h (by omega)

end DeadCode

end CoroutineIR
