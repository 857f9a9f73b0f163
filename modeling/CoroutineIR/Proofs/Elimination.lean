import CoroutineIR.Proofs.Unread
import CoroutineIR.Proofs.Unreachable
import CoroutineIR.Proofs.Finished

/-!
# Dead code elimination

The sweeps alternate as long as the forward one removes nodes, so that the stream gets shorter from
round to round. What they leave is an intact stream; once its branches carry their depths again, it
is well structured.
-/

namespace CoroutineIR

open List Option CoroutineIR.Action Attempt Strand NodeKind Edit

namespace Strand

variable {kinds kinds' : NodeId → Option NodeKind} {enclosing : List NodeId} {t : Strand}

/-- Branches are listed in the order of the strand. -/
theorem depths_sublist : ((t.depths kinds enclosing).map Prod.fst).Sublist t.nodes := by
  induction t generalizing enclosing with
  | done => simp [depths]
  | leaf n rest ih =>
    simp only [depths, nodes, map_append, List.map_map]
    cases hb : (kinds n).bind branch? with
    | none => exact ih.cons n
    | some b => exact ih.cons_cons n
  | region o c body rest ihb ihr =>
    simp only [depths, nodes, map_append, cons_append]
    exact (ihb.append (ihr.cons c)).cons o
  | fork o c first second rest iha ihb ihr =>
    simp only [depths, nodes, map_append, cons_append]
    exact ((iha.append ihb).append (ihr.cons c)).cons o

/-- Branches go to regions around them exactly when they have a depth. -/
theorem aims_iff : t.Aims kinds enclosing ↔ ∀ p ∈ t.depths kinds enclosing, p.2.isSome = true := by
  unfold Aims
  induction t generalizing enclosing with
  | done => simp [depths, Branching]
  | leaf n rest ih =>
    simp only [depths, Branching, forall_mem_append, ih]
    refine and_congr_left fun _ => ?_
    cases hk : kinds n with
    | none => simp
    | some kind => cases kind <;> simp
  | region o c body rest ihb ihr => simp only [depths, Branching, forall_mem_append, ihb, ihr]
  | fork o c first second rest iha ihb ihr =>
    simp only [depths, Branching, forall_mem_append, iha, ihb, ihr, and_assoc]

/-- Depths only depend on the targets of branches. -/
theorem depths_congr (h : ∀ n ∈ t.nodes, ((kinds' n).bind branch?).map Branch.target =
    ((kinds n).bind branch?).map Branch.target) :
    t.depths kinds' enclosing = t.depths kinds enclosing := by
  induction t generalizing enclosing with
  | done => rfl
  | leaf n rest ih =>
    simp only [forall_leaf] at h
    simp only [depths, ih h.2]
    congr 1
    cases hb : (kinds n).bind branch? <;> cases hb' : (kinds' n).bind branch? <;>
      simp_all
  | region o c body rest ihb ihr =>
    simp only [forall_region] at h
    simp only [depths, ihb h.2.1, ihr h.2.2.2]
  | fork o c first second rest iha ihb ihr =>
    simp only [forall_fork] at h
    simp only [depths, iha h.2.1, ihb h.2.2.1, ihr h.2.2.2.2]

end Strand

namespace Routine

variable {r r' r₁ : Routine} {exit n : NodeId} {t : Strand} {guarded : Bool} {goal : Branch}

/-- The routine `r'` is `r` with other depths at branches. -/
structure Renumbers (r r' : Routine) : Prop where
  entry : r'.entry = r.entry
  label : ∀ m, r'.label m = r.label m ∨ ∃ e guarded goal depth, r.label m = some e ∧ e.kind =
    .branch guarded goal ∧ r'.label m = some { e with kind := .branch guarded { goal with depth } }

namespace Renumbers

theorem refl (r : Routine) : r.Renumbers r := ⟨rfl, fun _ => Or.inl rfl⟩

/-- Renumbering twice. -/
theorem trans (h : r.Renumbers r₁) (h' : r₁.Renumbers r') : r.Renumbers r' where
  entry := h'.entry.trans h.entry
  label m := by
    rcases h'.label m with hsame' | ⟨e₁, guarded₁, goal₁, depth₁, he₁, hkind₁, hnew₁⟩
    · rw [hsame']
      exact h.label m
    · rcases h.label m with hsame | ⟨e, guarded, goal, depth, he, hkind, hnew⟩
      · exact Or.inr ⟨e₁, guarded₁, goal₁, depth₁, hsame ▸ he₁, hkind₁, hnew₁⟩
      · obtain rfl := some.inj (hnew.symm.trans he₁)
        injection hkind₁ with hguarded hgoal
        refine Or.inr ⟨e, guarded, goal, depth₁, he, hkind, ?_⟩
        rw [hnew₁, ← hguarded, ← hgoal]

theorem stemsAt (h : r.Renumbers r') (m : NodeId) : r.StemsAt r' m := by
  rcases h.label m with hsame | ⟨e, guarded, goal, depth, he, -, hnew⟩
  · exact stemsAt_of_label hsame
  · intro e' he'
    obtain rfl := some.inj (hnew.symm.trans he')
    exact ⟨e, he, id, fun hkept => by cases hkept⟩

theorem boundAt_iff (h : r.Renumbers r') (m : NodeId) : r'.BoundAt m ↔ r.BoundAt m := by
  rcases h.label m with hsame | ⟨e, guarded, goal, depth, he, hkind, hnew⟩
  · exact boundAt_congr hsame
  · simp [BoundAt, he, hnew, Node.Bound, hkind]

/-- Only the depths of branches tell the two apart. -/
theorem kindOf_apply {β : Type} (h : r.Renumbers r') (f : Option NodeKind → β)
    (hf : ∀ guarded goal depth, f (some (.branch guarded { goal with depth })) =
      f (some (.branch guarded goal))) (m : NodeId) : f (r'.kindOf m) = f (r.kindOf m) := by
  rcases h.label m with hsame | ⟨e, guarded, goal, depth, he, hkind, hnew⟩
  · rw [kindOf, hsame, kindOf]
  · rw [kindOf, hnew, kindOf, he, map_some, map_some, hkind]
    exact hf guarded goal depth

end Renumbers

/-- Changing the depth that a branch carries. -/
theorem Intact.yields_setBranchDepth (h : r.Intact exit t) (hn : n ∈ t.nodes)
    (hkind : r.kindOf n = some (.branch guarded goal)) (depth : Nat) :
    Yields (setBranchDepth n (some depth)) r fun _ r' => r'.Intact exit t ∧
      (∀ m, r'.kindOf m = if m = n then some (.branch guarded { goal with depth })
      else r.kindOf m) ∧ r.Renumbers r' := by
  obtain ⟨e, he, hproper⟩ := h.exists_label hn
  have hek : e.kind = .branch guarded goal := by
    rw [kindOf, he, map_some] at hkind
    exact some.inj hkind
  have hdest : e.dest = none := hproper.dest_eq_none (by rw [hek]; rfl)
  let f : Node → Node := ({ · with kind := .branch guarded { goal with depth } })
  have hamends :
      r.Amends (r.alter n f) n e { e with kind := .branch guarded { goal with depth } } :=
    amends_of_releases (f := f) he (fun _ => rfl) (fun _ => rfl) rfl (fun _ => rfl)
        (Releases.refl _) fun a => by
      simp [Node.accesses, hdest]
  have hkinds : ∀ m, (r.alter n f).kindOf m =
      if m = n then some (.branch guarded { goal with depth }) else r.kindOf m := by
    intro m
    rw [kindOf, hamends.labels]
    split <;> rfl
  have hintact : (r.alter n f).Intact exit t := by
    refine h.amend hamends hn rfl (h.shaped.congr fun m _ =>
      hamends.kindOf_eq _ (by rw [hek]; rfl) m) ?_
      (fun hconditional => h.conditions n hn e he (by rw [hek]; exact hconditional)) ?_ fun v =>
      h.dests n hn e v he
    · rw [aims_iff, depths_congr fun m _ =>
        hamends.kindOf_apply (fun k => (k.bind branch?).map Branch.target)
          (by rw [hek]; rfl) m, ← aims_iff]
      exact h.aims
    · exact ⟨rfl, fun hsome => by simp [hdest] at hsome, (fun hbracket => by cases hbracket),
        fun hk => by cases hk⟩
  have hrenumbers : r.Renumbers (r.alter n f) := ⟨rfl, fun m => by
    by_cases hm : m = n
    · exact Or.inr ⟨e, guarded, goal, depth, hm ▸ he, hek, hm ▸ hamends.label_self⟩
    · exact Or.inl (hamends.label_of_ne hm)⟩
  simp only [setBranchDepth, yields_bind, yields_kind, node_of_label he, exists_some_eq, hek]
  exact yields_setKind.mpr ⟨lt_of_label he, hintact, hkinds, hrenumbers⟩

/-- Setting the depths of all listed branches. -/
theorem Intact.yields_setBranchDepths (h : r.Intact exit t) {ps : List (NodeId × Option Nat)}
    (hps : ∀ p ∈ ps, p.1 ∈ t.nodes ∧ p.2.isSome = true ∧ ∃ guarded goal,
      r.kindOf p.1 = some (.branch guarded goal)) (hnodup : (ps.map Prod.fst).Nodup) :
    Yields (ps.forM fun p => setBranchDepth p.1 p.2) r fun _ r' =>
    r'.Intact exit t ∧ (∀ m, m ∉ ps.map Prod.fst → r'.kindOf m = r.kindOf m) ∧ (∀ p ∈ ps,
      ∀ guarded goal, r.kindOf p.1 = some (.branch guarded goal) → ∃ depth, p.2 = some depth ∧
      r'.kindOf p.1 = some (.branch guarded { goal with depth })) ∧ r.Renumbers r' := by
  induction ps generalizing r with
  | nil => exact yields_pure.mpr ⟨h, fun _ _ => rfl, by simp, .refl r⟩
  | cons p ps ih =>
    obtain ⟨n, depth⟩ := p
    simp only [forall_mem_cons, map_cons, nodup_cons] at hps hnodup
    obtain ⟨⟨hn, hdepth, guarded, goal, hkind⟩, hrest⟩ := hps
    obtain ⟨depth, rfl⟩ := isSome_iff_exists.mp hdepth
    refine yields_bind.mpr ((h.yields_setBranchDepth hn hkind depth).mono fun _ r₁ h₁ => ?_)
    obtain ⟨hintact, hkinds, hrenumbers⟩ := h₁
    have hother : ∀ p ∈ ps, r₁.kindOf p.1 = r.kindOf p.1 := fun p hp => by
      have hne : p.1 ≠ n := fun heq => hnodup.1 (heq ▸ List.mem_map_of_mem hp)
      rw [hkinds, if_neg hne]
    refine (ih hintact (fun p hp => ?_) hnodup.2).mono fun _ r' h' => ?_
    · rw [hother p hp]
      exact hrest p hp
    · obtain ⟨hintact', hout, hset, hrenumbers'⟩ := h'
      refine ⟨hintact', fun m hm => ?_, ?_, hrenumbers.trans hrenumbers'⟩
      · rw [map_cons, mem_cons, not_or] at hm
        rw [hout m hm.2, hkinds, if_neg hm.1]
      · refine forall_mem_cons.mpr ⟨fun guarded' goal' hkind' => ?_,
          fun p hp guarded' goal' hkind' => ?_⟩
        · obtain ⟨rfl, rfl⟩ : guarded = guarded' ∧ goal = goal' := by
            simpa using some.inj (hkind.symm.trans hkind')
          exact ⟨depth, rfl, by rw [hout n hnodup.1, hkinds, if_pos rfl]⟩
        · exact hset p hp guarded' goal' (by rw [hother p hp]; exact hkind')

/-- Renumbering gives every branch of an intact stream its depth. -/
theorem Intact.yields_renumberBranches (h : r.Intact exit t) :
    Yields renumberBranches r fun _ r' =>
    r'.Intact exit t ∧ t.BranchesFit r'.kindOf [r'.entry] ∧
      (t.Roused r.kindOf r.entry → t.Roused r'.kindOf r'.entry) ∧ r.Renumbers r' := by
  have hsome := aims_iff.mp h.aims
  have hlisted : ∀ p ∈ t.depths r.kindOf [r.entry], p.1 ∈ t.nodes ∧ p.2.isSome = true ∧
      ∃ guarded goal, r.kindOf p.1 = some (.branch guarded goal) := fun p hp =>
    ⟨(mem_depths hp).1, hsome p hp, (mem_depths hp).2⟩
  refine yields_bind.mpr (yields_ask.mpr ⟨_, h.branchDepths_eq, ?_⟩)
  refine (h.yields_setBranchDepths hlisted (h.nodup_nodes.sublist depths_sublist)).mono
    fun _ r' h' => ?_
  obtain ⟨hintact, hout, hset, hrenumbers⟩ := h'
  have hentry := hrenumbers.entry
  -- the branches are those there were, with the same targets
  have htargets := hrenumbers.kindOf_apply (fun kind =>
    (kind.bind branch?).map Branch.target) fun _ _ _ => rfl
  refine ⟨hintact, branchesFit_iff.mpr fun p hp guarded goal hkind => ?_,
    fun hroused => ?_, hrenumbers⟩
  · rw [hentry, depths_congr fun n _ => htargets n] at hp
    obtain ⟨-, -, guarded₀, goal₀, hkind₀⟩ := hlisted p hp
    obtain ⟨depth, hdepth, hkind'⟩ := hset p hp guarded₀ goal₀ hkind₀
    have hsame := some.inj (hkind.symm.trans hkind')
    injection hsame with _ hgoal
    rw [hdepth, hgoal]
  · -- branches neither open regions nor suspend
    have hrouses := hrenumbers.kindOf_apply (Option.any rouses) fun _ _ _ => rfl
    have hmarked := hrenumbers.kindOf_apply (Option.any opensSuspending) fun _ _ _ => rfl
    rw [hentry]
    exact hroused.weaken (fun m _ => by rw [hrouses]; exact id)
      (fun m _ => by rw [hmarked]; exact id) (by rw [hmarked]; exact id)

end Routine

namespace Routine

variable {r : Routine} {exit : NodeId} {t : Strand}

/-- The counts of a well-structured routine are those of the accesses of its live nodes. -/
theorem WellStructured.exists_live (h : r.WellStructured exit t) :
    ∃ live accesses, r.liveNodes = .ok live ∧ live.Perm (r.live exit t) ∧
    live.mapM r.accesses = .ok accesses ∧ ∀ v < r.vars.size, ∀ access,
    r.tally v access = (if v = r.mem then 2 else 0) + accesses.flatten.count (v, access) := by
  obtain ⟨live, hlive, hperm⟩ := h.toStreams.liveNodes_eq
  refine ⟨live, live.map r.accessesOf, hlive, hperm,
    mapM_eq_ok_map fun n hn => ?_, fun v hv access => ?_⟩
  · exact accesses_of_nested (h.accounted.nested_eq (hperm.mem_iff.mp hn))
  · rw [h.tally_eq v access, ← flatMap_def, (hperm.flatMap_right r.accessesOf).count_eq]

/-- The entry and the exit of a routine that the builder delivers neither have operands nor a
destination. -/
theorem Built.mute {m : NodeId} {e : Node} (h : r.Built) (hr : r.WellStructured 1 t)
    (hm : m = r.entry ∨ m = 1) (he : r.label m = some e) : e.args = [] ∧ e.dest = none := by
  obtain ⟨-, -, -, hfresh⟩ := h.wellStructured
  obtain ⟨name, sig, suspends, hentry⟩ := hr.entry_kind
  refine (hfresh m e he).mute ?_
  have hkind : r.kindOf m = some e.kind := kindOf_of_label he rfl
  rcases hm with rfl | rfl
  · rw [some.inj (hkind.symm.trans hentry)]
    rfl
  · rw [some.inj (hkind.symm.trans hr.exit_kind)]
    rfl

/-- The nodes of a routine that the builder delivers are as they are made. -/
theorem Built.proper (h : r.Built) (hwell : r.WellStructured 1 t) : r.Proper t := by
  obtain ⟨-, -, -, hfresh⟩ := h.wellStructured
  refine ⟨fun n _ e he => ?_, fun n hn e v he hdest => ?_, fun v u hfolded => ?_⟩
  · have hnode := hfresh n e he
    refine ⟨hnode.plain, hnode.result,
      fun hbracket => (hnode.mute (isMute_of_isBracket hbracket)).1, fun hstorage => ?_⟩
    obtain ⟨hargs, v, hdest, -⟩ := hnode.storage hstorage
    exact ⟨by rw [hdest]; rfl, hargs⟩
  · by_cases hstorage : e.kind = .declare .storage
    · obtain ⟨-, u, hu, hlt⟩ := (hfresh n e he).storage hstorage
      obtain rfl := some.inj (hu.symm.trans hdest)
      exact hlt
    · -- the destination is written, so that its write is counted
      have hwrite : (v, .write) ∈ e.accesses := Node.write_mem_accesses_iff.mpr ⟨hdest, hstorage⟩
      obtain ⟨x, hx⟩ := exists_var_of_tally
        (hwell.tally_pos (mem_live hn) he hwrite)
      exact (Array.getElem?_eq_some_iff.mp hx).1
  · cases (h.untouched v).2.symm.trans hfolded

/-- A routine that the builder delivers is regular if its copies of variables go somewhere. -/
theorem Built.regular (h : r.Built) (hcopy : ∀ n e v, r.label n = some e → e.kind = .op .copy →
      e.args = [.var v] → e.dest.isSome = true) : ∃ t, r.WellStructured 1 t ∧ r.Regular t := by
  obtain ⟨t, hwell, -, -⟩ := h.wellStructured
  exact ⟨t, hwell, ⟨h.proper hwell, fun n _ e he hkind v => hcopy n e v he hkind⟩⟩

end Routine

namespace DeadCode

open Routine

variable {w : Work} {exit : NodeId} {t : Strand}

/-- The sweeps alternate until nothing is left to remove, unless a copy goes nowhere. -/
theorem ends_alternate (h : w.routine.Intact exit t) {fuel : Nat} (hfuel : t.nodes.length < fuel) :
    Ends (alternate fuel) w
      (fun swept w' => w.routine.Bound t ∧ ∃ t',
      w.routine.Leaves exit t w'.routine t' ⟨0, swept.resolved⟩) fun _ => ¬w.routine.Bound t := by
  induction fuel generalizing w t with
  | zero => omega
  | succ fuel ih =>
    rw [alternate]
    refine ends_bind.mpr ((ends_backward h).mono fun unread w₁ h₁ => ?_)
    obtain ⟨hbound, t₁, h₁⟩ := h₁
    refine ends_bind.mpr (Yields.ends ((yields_forward h₁.intact).mono fun dead w₂ h₂ => ?_))
    obtain ⟨t₂, h₂⟩ := h₂
    have hround := (h₁.trans h₂).resolves
    simp only
    split
    · exact Yields.ends (yields_pure.mpr ⟨hbound, t₂, hround⟩)
    · next hremoved =>
      have hlength := h₂.length
      have hlength' := h₁.length
      have hrest := (ih h₂.intact (by omega)).yields fun _ hnot => hnot (hround.bound hbound)
      refine ends_bind.mpr
        (Yields.ends (hrest.mono fun swept w₃ h₃ => Yields.ends (yields_pure.mpr ?_)))
      obtain ⟨-, t₃, h₃⟩ := h₃
      exact ⟨hbound, t₃, hround.trans h₃⟩

/-- Eliminating dead code leaves an intact stream whose branches carry their depths and whose
regions are marked where they were. It goes through exactly if copies go somewhere. -/
theorem ends_eliminate (h : w.routine.Intact exit t)
    (hfit : t.BranchesFit w.routine.kindOf [w.routine.entry]) :
    Ends eliminate w (fun _ w' => w.routine.Bound t ∧ ∃ t', w'.routine.Intact exit t' ∧
      t'.BranchesFit w'.routine.kindOf [w'.routine.entry] ∧ w'.routine.Bound t' ∧
      (t.Roused w.routine.kindOf w.routine.entry → t'.Roused w'.routine.kindOf w'.routine.entry) ∧
      ∀ n ∈ w'.routine.live exit t', n ∈ w.routine.live exit t ∧
      w.routine.StemsAt w'.routine n) fun _ => ¬w.routine.Bound t := by
  have hfuel := le_editFuel h.length_le_size
  refine ends_bind.mpr (Yields.ends (yields_get.mpr ?_))
  refine ends_bind.mpr ((ends_alternate h (by omega)).mono fun swept w₁ h₁ => Yields.ends ?_)
  obtain ⟨hbound, t', h₁⟩ := h₁
  have hbound' := h₁.bound hbound
  by_cases hresolved : 0 < swept.resolved
  · simp only [if_pos hresolved, yields_bind, Pass.yields_lift, Pass.summarize, Pass.yields_note]
    refine h₁.intact.yields_renumberBranches.mono fun _ r' h' => ?_
    obtain ⟨hintact, hfit', hroused, hrenumbers⟩ := h'
    refine ⟨hbound, t', hintact, hfit', fun m hm => (hrenumbers.boundAt_iff m).mpr (hbound' m hm),
      fun hmarks => hroused (h₁.roused hmarks), fun n hn => ?_⟩
    obtain ⟨hmem, hstem⟩ := h₁.stems n (hrenumbers.entry ▸ hn)
    exact ⟨hmem, hstem.trans (hrenumbers.stemsAt n)⟩
  · simp only [if_neg hresolved, Pass.summarize, Pass.yields_note]
    exact ⟨hbound, t', h₁.intact, h₁.fits (Nat.eq_zero_of_not_pos hresolved) hfit, hbound',
      h₁.roused, h₁.stems⟩

/-- Dead code elimination goes through on every well-structured routine that has not been cut into
steps and whose copies of variables go somewhere. What it leaves is well structured again, its
branches carry the depths of the regions that are left around them, and every variable is counted as
often as live nodes access it. -/
theorem eliminate_wellStructured (w : Work) (h : w.routine.WellStructured exit t)
    (hregular : w.routine.Regular t) :
    ∃ w' t', eliminate w = .ok () w' ∧ w'.routine.WellStructured exit t' ∧ w'.routine.Regular t' ∧
      t'.BranchesFit w'.routine.kindOf [w'.routine.entry] ∧ w'.routine.verify = .ok () ∧
      ∃ live accesses, w'.routine.liveNodes = .ok live ∧
        live.Perm (w'.routine.entry :: exit :: t'.nodes) ∧
        live.mapM w'.routine.accesses = .ok accesses ∧
        ∀ v < w'.routine.vars.size, ∀ access, w'.routine.tally v access =
          (if v = w'.routine.mem then 2 else 0) + accesses.flatten.count (v, access) := by
  have hyields := (ends_eliminate (h.intact hregular.toProper) h.branchesFit).yields fun _ hnot =>
    hnot hregular.bound
  obtain ⟨_, w', hok, -, t', hintact, hfit, hbound, -⟩ := yields_iff_exists.mp hyields
  have hwell := hintact.wellStructured hfit
  exact ⟨w', t', hok, hwell, ⟨hintact.toProper, hbound⟩, hfit, hwell.verified, hwell.exists_live⟩

/-- A branch in the arm of a conditional that is always taken. The other arm and what follows the
conditional go, and the branch leaves one region less. -/
theorem eliminate_wellStructured_decided :
    let calls : List Instruction :=
      [.declare .param (.scalar .i32) "p" false, .tmp none, .tmp none, .block,
      .cond (.lit (.int 1)), .branch 3, .otherwise,
      .assign (some 2) .add (.scalar .i32) [.var 1, .lit (.int 1)], .close,
      .call none default [.var 2], .close, .assign (some 3) .copy (.scalar .i32) [.var 1],
      .ret [.var 1]]
    ∃ r b' t w' t', Build.finish (Build.play default calls (Build.define "main" default)).1 =
      .ok r b' ∧ (r.WellStructured 1 t ∧ r.Regular t) ∧ r.kindOf 7 = some (.branch false ⟨3, 1⟩) ∧
      r.tally 1 .read = 4 ∧ eliminate ⟨r, #[]⟩ = .ok () w' ∧ w'.routine.WellStructured 1 t' ∧
      w'.routine.Regular t' ∧ w'.routine.kindOf 7 = some (.branch false ⟨3, 0⟩) ∧ w'.routine.tally 1
      .read = 2 ∧ w'.routine.liveNodes.toOption = some [0, 2, 3, 7, 4, 11, 1] := by
  intro calls
  obtain ⟨r, b', -, hfinish, hbuilt, -, hkind, htally, hcopies, hafter⟩ :=
    Build.exists_main calls (by decide) (fun r => r.kindOf 7 = some (.branch false ⟨3, 1⟩) ∧
      r.tally 1 .read = 4 ∧
      (∀ n e, r.label n = some e → e.kind = .op .copy → e.dest.isSome = true) ∧
      eliminate.Yields ⟨r, #[]⟩ fun _ w' => w'.routine.kindOf 7 = some (.branch false ⟨3, 0⟩) ∧
        w'.routine.tally 1 .read = 2 ∧
        w'.routine.liveNodes.toOption = some [0, 2, 3, 7, 4, 11, 1]) (by decide +kernel)
  obtain ⟨t, hwell, hregular⟩ := hbuilt.regular fun n e _ he hkind _ => hcopies n e he hkind
  obtain ⟨w', t', hok, hwell', hregular', -⟩ := eliminate_wellStructured ⟨r, #[]⟩ hwell hregular
  exact ⟨r, b', t, w', t', hfinish, ⟨hwell, hregular⟩, hkind, htally, hok, hwell', hregular',
    hafter.of_ok hok⟩

end DeadCode

end CoroutineIR
