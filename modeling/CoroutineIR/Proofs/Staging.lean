import CoroutineIR.Proofs.Elimination
import CoroutineIR.Proofs.Lowered
import CoroutineIR.Proofs.Propagation
import CoroutineIR.Proofs.TreeBuilding

/-!
# From stage to stage

What one stage of the compilation leaves behind is what the next one asks for. Until a routine is
cut into steps it is well structured and marks every region around a suspension. Afterwards its
suspensions deliver nothing, so that they stay in the stream when trees are built.
-/

namespace CoroutineIR

open Option CoroutineIR.Action Attempt NodeKind

/-- Whether a routine that has been cut into steps is left at a node to wait for something. -/
def NodeKind.isPause : NodeKind → Bool
  | .call .directBegin _ | .call .indirectBegin _ | .yield => true
  | _ => false

/-- An operation may be exchanged, and operands may be filled in. -/
theorem Node.Proper.alike {e e' : Node} (h : e.Proper)
    (hkind : e.kind.Alike e'.kind) (hdest : e'.dest = e.dest)
    (hargs : (∀ code, e'.kind ≠ .op code) → e.args = [] → e'.args = []) : e'.Proper := by
  obtain hkind | ⟨code, code', -, hkind⟩ := hkind
  · refine ⟨hkind ▸ h.plain, fun hsome => hkind ▸ h.result (hdest ▸ hsome), fun hbracket => ?_,
      fun hstorage => ?_⟩
    · exact hargs (fun code hcode => by rw [hcode] at hbracket; cases hbracket)
        (h.bracket (hkind ▸ hbracket))
    · obtain ⟨hsome, hnone⟩ := h.storage (hkind ▸ hstorage)
      exact ⟨hdest ▸ hsome,
        hargs (fun code hcode => by rw [hcode] at hstorage; cases hstorage) hnone⟩
  · refine ⟨by rw [hkind]; rfl, fun _ => by rw [hkind]; rfl, fun hbracket => ?_, fun hstorage => ?_⟩
    · rw [hkind] at hbracket
      cases hbracket
    · rw [hkind] at hstorage
      cases hstorage

namespace Routine

variable {r r' : Routine} {exit n m : NodeId} {t t' : Strand} {e e' : Node} {target : Target}
    {a b : Routine × Strand}

/-- A routine as the stages before the cutting pass it on. -/
structure Whole (r : Routine) (exit : NodeId) (t : Strand) :
    Prop extends r.WellStructured exit t, r.Proper t where
  roused : t.Roused r.kindOf r.entry
  yields : ∀ n ∈ t.nodes, ∀ e, r.label n = some e → e.kind = .yield → e.dest = none

/-- A routine that the builder delivers. -/
theorem Built.whole (h : r.Built) : ∃ t, r.Whole 1 t := by
  obtain ⟨t, hwell, hroused, hfresh⟩ := h.wellStructured
  exact ⟨t, hwell, h.proper hwell, hroused,
    fun n _ e he hkind => ((hfresh n e he).mute (by rw [hkind]; rfl)).2⟩

/-! ### Constant propagation -/

/-- Changing the operands of a node, or what an operation does. -/
theorem Whole.relabel (hr : r.Whole exit t) (h : r.Relabels r' n e e')
    (hr' : r'.WellStructured exit t) (hdest : e'.dest = e.dest)
    (hargs : (∀ code, e'.kind ≠ .op code) → e.args = [] → e'.args = []) : r'.Whole exit t := by
  have hback : ∀ m e₁, r'.label m = some e₁ → m = n ∧ e₁ = e' ∨ r.label m = some e₁ :=
      fun m e₁ he₁ => by
    rw [h.labels] at he₁
    split at he₁
    · exact Or.inl ⟨‹_›, (some.inj he₁).symm⟩
    · exact Or.inr he₁
  refine ⟨hr', ⟨fun m hm e₁ he₁ => ?_, fun m hm e₁ v he₁ hv => ?_, fun v u hfolded => ?_⟩,
    h.roused hr.roused (h.kind.apply_eq _ fun _ _ => rfl) (h.kind.apply_eq _ fun _ _ => rfl),
    fun m hm e₁ he₁ hkind => ?_⟩
  · obtain ⟨rfl, rfl⟩ | he₁ := hback m e₁ he₁
    · exact (hr.proper m hm e h.label).alike h.kind hdest hargs
    · exact hr.proper m hm e₁ he₁
  · rw [h.vars]
    obtain ⟨rfl, rfl⟩ | he₁ := hback m e₁ he₁
    · exact hr.dests m hm e v h.label (hdest ▸ hv)
    · exact hr.dests m hm e₁ v he₁ hv
  · rw [h.vars]
    exact hr.folded v u (by rwa [foldedOf, h.traits, ← foldedOf] at hfolded)
  · obtain ⟨rfl, rfl⟩ | he₁ := hback m e₁ he₁
    · have hyield := h.kind.eq_of_not_op (by simp [hkind])
      exact hdest.trans (hr.yields m hm e h.label (hyield.symm.trans hkind))
    · exact hr.yields m hm e₁ he₁ hkind

/-- A change by constant folding leaves the routine whole. -/
theorem Refines.whole (h : Refines target exit a b) (ha : a.1.Whole exit a.2) :
    b.1.Whole exit b.2 := by
  have hwell := h.wellStructured ha.toWellStructured
  cases h with
  | @drop r r' t t' d p s e v c h hlit hdest honce hquiet hconstants haddressable hfolded =>
    have hsub := h.bypasses.sub
    refine ⟨hwell, ⟨fun m hm e₁ he₁ => ?_, fun m hm e₁ v he₁ hv => ?_, fun v u huv => ?_⟩, ?_,
      fun m hm e₁ he₁ hkind => ?_⟩
    · exact ha.proper m (hsub.subset hm) e₁ (h.labels m ▸ he₁)
    · rw [h.vars]
      exact ha.dests m (hsub.subset hm) e₁ v (h.labels m ▸ he₁) hv
    · rw [h.vars]
      exact ha.folded v u (hfolded v ▸ huv)
    · obtain ⟨C, rest, rfl, rfl⟩ := h.bypasses.plug
      have hkinds : r'.kindOf = r.kindOf := funext h.bypasses.kinds
      rw [hkinds, h.bypasses.entry]
      have hroused := (C.roused_plug_iff _ _ _).mp ha.roused
      exact (C.roused_plug_iff _ _ _).mpr ⟨hroused.1, hroused.2.2⟩
    · exact ha.yields m (hsub.subset hm) e₁ (h.labels m ▸ he₁) hkind
  | @fill r r' t n e i v c h hn harg hc =>
    refine ha.relabel h hwell rfl fun _ hargs => ?_
    rw [hargs] at harg
    cases harg
  | @evaluate r r' t n e code values x h hn hkind hargs hvalue =>
    exact ha.relabel h hwell rfl fun hop => absurd rfl (hop .const)

theorem Refinements.whole (h : Refinements target exit a b) (ha : a.1.Whole exit a.2) :
    b.1.Whole exit b.2 := by
  induction h with
  | refl => exact ha
  | tail _ hstep ih => exact hstep.whole ih

/-! ### Dead code elimination -/

theorem Whole.intact (h : r.Whole exit t) : r.Intact exit t := h.toWellStructured.intact h.toProper

/-- What is left of a routine does not deliver anything where it yields. -/
theorem Intact.whole (h : r'.Intact exit t') (hfit : t'.BranchesFit r'.kindOf [r'.entry])
    (hroused : t'.Roused r'.kindOf r'.entry) (hr : r.Whole exit t)
    (hstems : ∀ n ∈ r'.live exit t', n ∈ r.live exit t ∧ r.StemsAt r' n) : r'.Whole exit t' := by
  refine ⟨h.wellStructured hfit, h.toProper, hroused, fun n hn e he hkind => ?_⟩
  obtain ⟨hmem, hstem⟩ := hstems n (by simp [hn])
  obtain ⟨e₀, he₀, hstem⟩ := hstem e he
  have hkind₀ : e₀.kind = .yield := (hstem.kind (by rw [hkind]; rfl)).trans hkind
  exact hstem.dest
    (hr.yields n (hr.mem_of_kindOf hmem (kindOf_of_label he₀ hkind₀) (by simp)) e₀ he₀ hkind₀)

/-! ### Cutting into steps -/

/-- A routine that suspends can be cut into steps. -/
theorem Whole.coroutine (h : r.Whole exit t) (hsuspends : r.suspends = .ok true) :
    r.Coroutine exit t where
  toWellStructured := h.toWellStructured
  suspends := hsuspends
  plain n hn kind hkind := by
    obtain ⟨e, he, rfl⟩ := map_eq_some_iff.mp hkind
    exact (h.proper n hn e he).plain
  brackets n hn d hd hbracket := by
    have hproper := h.proper n hn d hd
    refine ⟨hproper.bracket hbracket, hproper.dest_eq_none ?_⟩
    cases hkind : d.kind <;> simp_all [isBracket, NodeKind.isPlain]
  roused := h.roused

/-- A routine that has been cut into steps, or need not be. Where it waits nothing is delivered. -/
structure Staged (r : Routine) (exit : NodeId) (t : Strand) :
    Prop extends r.WellStructured exit t where
  pauses : ∀ n ∈ t.nodes, ∀ e, r.label n = some e → e.kind.isPause = true → e.dest = none

theorem Whole.staged (h : r.Whole exit t) : r.Staged exit t where
  toWellStructured := h.toWellStructured
  pauses n hn e he hpause := by
    have hplain := (h.proper n hn e he).plain
    refine h.yields n hn e he ?_
    cases hkind : e.kind with
    | yield => rfl
    | call form sig => cases form <;> simp_all [isPause, isLowered]
    | _ => simp_all [isPause]

namespace Stages

variable {marked cut settled final : Routine} {tail : Strand} {d : Node}

variable (h : r.Stages marked cut settled final exit t t' tail)
include h

/-- What becomes of a node of the stream. -/
theorem label_cases (hr : r.Coroutine exit t) (hd : r.label n = some d)
    (hn : n ∈ t.nodes) : final.label n = some d ∨ final.label n = some d.marked ∨
      (∃ guarded goal, final.label n = some { d with kind := .goto guarded goal }) ∨
      ∃ first sig, final.label n = some { d with kind := .call first sig, dest := none } := by
  have hplain : ∀ guarded origin, d.kind ≠ .goto guarded (.pending origin) :=
      fun guarded origin hkind => by
    have := hr.plain n hn d.kind (kindOf_of_label hd rfl)
    rw [hkind] at this
    cases this
  obtain ⟨d₁, hd₁, hcases⟩ : ∃ d₁, marked.label n = some d₁ ∧ (d₁ = d ∨ d₁ = d.marked) := by
    rcases h.spreads.labels n with heq | heq
    · exact ⟨d, heq.trans hd, Or.inl rfl⟩
    · exact ⟨d.marked, by rw [heq, hd]; rfl, Or.inr rfl⟩
  obtain ⟨d₂, hd₂, hrecast⟩ := h.cuts.recast hn hd₁
  have hfinal := h.label_eq (h.mem_cut hn) hd₂
  cases hrecast with
  | same =>
    obtain rfl | rfl := hcases
    · exact Or.inl (by rw [hfinal, settled_of_ne hplain])
    · have hmarked : ∀ guarded origin, d.marked.kind ≠ .goto guarded (.pending origin) :=
          fun guarded origin hkind => by
        simp only [Node.marked] at hkind
        cases hd : d.kind <;> simp_all
      exact Or.inr (Or.inl (by rw [hfinal, settled_of_ne hmarked]))
  | jump hkind =>
    have hd' := (h.spreads.label_iff (by simp [hkind])).mp hd₁
    obtain rfl := some.inj (hd.symm.trans hd')
    exact Or.inr (Or.inr (Or.inl ⟨_, _, by rw [hfinal, settled_of_eq rfl]⟩))
  | @begin _ first sig hkind =>
    have hd' := (h.spreads.label_iff (by simp [hkind])).mp hd₁
    obtain rfl := some.inj (hd.symm.trans hd')
    exact Or.inr (Or.inr (Or.inr ⟨first, sig, by rw [hfinal, settled_of_ne (by simp)]⟩))

/-- Where the lowered routine waits nothing is delivered. -/
theorem pauses_silently (hr : r.Whole exit t)
    (hsuspends : r.suspends = .ok true) (hn : n ∈ (t'.append tail).nodes)
    (he : final.label n = some e) (hpause : e.kind.isPause = true) : e.dest = none := by
  obtain hmem | ⟨d, hd, hinserted⟩ := h.mem_or_inserted hn
  · obtain ⟨d, hd⟩ := isSome_iff_exists.mp (label_isSome.mpr (hr.lt_size (n := n) (by simp [hmem])))
    have hsilent := hr.staged.pauses n hmem d hd
    rcases h.label_cases (hr.coroutine hsuspends) hd hmem with hfinal | hfinal | ⟨guarded, goal,
      hfinal⟩ | ⟨first, sig, hfinal⟩ <;> obtain rfl := some.inj (he.symm.trans hfinal)
    · exact hsilent hpause
    · refine hsilent ?_
      rw [← hpause, Node.marked]
      cases d.kind <;> rfl
    · cases hpause
    · rfl
  · rw [h.label_eq hn hd, some.injEq] at he
    subst he
    cases hinserted with
    | jump => rw [settled_of_eq rfl] at hpause; cases hpause
    | step | finish =>
      rw [settled_of_ne (by simp [Node.bare, Node.detached])] at hpause; cases hpause

/-- A routine that has been cut into steps. -/
theorem staged (hr : r.Whole exit t) (hsuspends : r.suspends = .ok true) :
    final.Staged exit ((t'.append tail).dissolved cut.kindOf) where
  toWellStructured := ⟨h.final_streams, h.verify_eq_ok (hr.coroutine hsuspends)⟩
  pauses _ hn _ he hpause :=
    h.pauses_silently hr hsuspends (h.streams.shaped.mem_dissolved.mp hn).1 he hpause

end Stages

/-! ### Notes about variables -/

/-- Notes about variables that leave the counts alone do not matter. -/
theorem Adds.wellStructured (h : r.Adds r' []) (hr : r.WellStructured exit t) :
    r'.WellStructured exit t := by
  have hsame : r.SameStream r' := .of_nodes h.nodes h.entry
  have haccounted :=
    hr.accounted.shrink [] h.symm (.refl _) (hsame.streams hr.toStreams).toCarries (.refl _)
  exact hsame.wellStructured hr (fun m => by rw [h.label_eq]) haccounted.nests haccounted.counted

theorem Adds.staged (h : r.Adds r' []) (hr : r.Staged exit t) : r'.Staged exit t where
  toWellStructured := h.wellStructured hr.toWellStructured
  pauses n hn e he := hr.pauses n hn e (h.label_eq n ▸ he)

end Routine

/-- Dead code elimination goes through exactly if copies go somewhere, and leaves a routine of the
same kind. -/
theorem DeadCode.ends_eliminate_whole {w : Work} {exit : NodeId}
    {t : Strand} (h : w.routine.Whole exit t) :
    Ends eliminate w (fun _ w' => ∃ t', w'.routine.Whole exit t') fun _ => ¬w.routine.Bound t := by
  refine (ends_eliminate h.intact h.branchesFit).mono ?_
  rintro _ w' ⟨-, t', hintact, hfit, -, hroused, hstems⟩
  exact ⟨t', hintact.whole hfit (hroused h.roused) h hstems⟩

/-! ### Building trees -/

/-- A node that delivers nothing stays where it is when definitions are moved. -/
theorem Inlinings.mem_of_destOf {exit n : NodeId} {a b : Routine × Strand} (h : Inlinings exit a b)
    (ha : a.1.WellStructured exit a.2) (hn : n ∈ a.1.live exit a.2) (hdest : a.1.destOf n = none) :
    n ∈ b.1.live exit b.2 := by
  by_contra hout
  obtain ⟨gone, hgathers⟩ := h.exists_gathers ha
  obtain ⟨v, _, _, _, hmoved⟩ := hgathers.moved n (hgathers.mem_gone h.entry_eq hn hout)
  rw [hmoved.dest] at hdest
  cases hdest

end CoroutineIR
