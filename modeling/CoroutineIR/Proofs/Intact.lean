import CoroutineIR.DeadCode.Elimination
import CoroutineIR.Proofs.Dissolving
import CoroutineIR.Proofs.Excising
import CoroutineIR.Proofs.Revision
import CoroutineIR.Proofs.Session

/-!
# Streams that are being cleaned up

While dead code is removed the stream stays a strand whose counts are exact. Only the depths that
branches carry may fall behind, since a conditional that has been decided does not count towards
them any more; the regions branches go to stay around them. Everything that is removed is first
released and then unlinked, so that what is left is such a stream again.
-/

namespace CoroutineIR

open List Option CoroutineIR.Action Attempt

namespace Strand

variable {kinds : NodeId → Option NodeKind}
    {enclosing : List NodeId} {t u : Strand}

/-- A region that no branch goes to does not matter. -/
theorem Aims.narrow {o : NodeId} (inner : List NodeId) (h : t.Aims kinds (inner ++ o :: enclosing))
    (hnone : ∀ n ∈ t.nodes, ∀ guarded goal, kinds n = some (.branch guarded goal) →
      goal.target ≠ o) : t.Aims kinds (inner ++ enclosing) := by
  unfold Aims at h ⊢
  induction t generalizing inner with
  | done => trivial
  | leaf n rest ih =>
    simp only [forall_leaf] at hnone
    refine ⟨fun guarded goal hk => ?_, ih inner h.2 hnone.2⟩
    have htarget := h.1 guarded goal hk
    have hne := hnone.1 guarded goal hk
    simp only [mem_append, mem_cons] at htarget ⊢
    tauto
  | region o' c body rest ihb ihr =>
    simp only [forall_region] at hnone
    exact ⟨ihb (o' :: inner) h.1 hnone.2.1, ihr inner h.2 hnone.2.2.2⟩
  | fork o' c first second rest iha ihb ihr =>
    simp only [forall_fork] at hnone
    exact ⟨iha (o' :: inner) h.1 hnone.2.1, ihb (o' :: inner) h.2.1 hnone.2.2.1,
      ihr inner h.2.2 hnone.2.2.2.2⟩

namespace Context

variable (C : Context)

/-- The region around a part, given the one around the whole. -/
def parent (outermost : NodeId) : Context → NodeId
  | hole => outermost
  | inside (.behind _) C => C.parent outermost
  | inside (.body o _ _) _ | inside (.first o _ _ _) _ | inside (.second o _ _ _) _ => o

/-- Marks are looked at around a part and in it. -/
theorem roused_plug_iff (kinds : NodeId → Option NodeKind) (outermost : NodeId) (u : Strand) :
    (C.plug u).Roused kinds outermost ↔
      (C.plug .done).Roused kinds outermost ∧ u.Roused kinds (C.parent outermost) := by
  induction C generalizing u with
  | hole => simp [plug, parent, Roused]
  | inside f C ih =>
    rw [plug, plug, ih, ih (f.fill .done)]
    cases f with
    | behind t => simp only [Frame.fill, roused_append, parent, Roused]; tauto
    | body o c rest | first o c b rest | second o c a rest =>
      simp only [Frame.fill, parent, Roused]; tauto

end Context

/-- What a marked region holds may stand in its place. -/
theorem Roused.unwrap {parent o c : NodeId} (h : (region o c t u).Roused kinds parent) :
    (t.append u).Roused kinds parent := by
  obtain ⟨hopener, hbody, hrest⟩ := h
  refine roused_append.mpr ⟨hbody.weaken (fun _ _ => id) (fun _ _ => id) fun hmarked =>
    hopener ?_, hrest⟩
  cases hk : kinds o with
  | none => simp [hk] at hmarked
  | some kind => simp_all [NodeKind.rouses]

end Strand

/-- A node as it is made before a routine is cut into steps: only operations, declarations, calls
and yields have destinations, what just opens or closes a region has no operands, and storage is
declared for a variable. -/
structure Node.Proper (e : Node) : Prop where
  plain : e.kind.isLowered = false
  result : e.dest.isSome = true → e.kind.isPlain = true
  bracket : e.kind.isBracket = true → e.args = []
  storage : e.kind = .declare .storage → e.dest.isSome = true ∧ e.args = []

/-- A copy of a variable goes somewhere. -/
def Node.Bound (e : Node) : Prop := e.kind = .op .copy → ∀ v, e.args = [.var v] →
    e.dest.isSome = true

/-- What a node may have become: the definition of a number, a block or a branch with another depth.
-/
def NodeKind.isAcquired : NodeKind → Bool
  | .op .const | .enter .block _ | .branch _ _ => true
  | _ => false

/-- What is left of a node has no destination if there was none. -/
structure Node.Stems (e' e : Node) : Prop where
  dest : e.dest = none → e'.dest = none
  kind : e'.kind.isAcquired = false → e.kind = e'.kind

theorem Node.Stems.refl (e : Node) : e.Stems e := ⟨id, fun _ => rfl⟩

theorem Node.Stems.trans {e e' e'' : Node} (h' : e''.Stems e') (h : e'.Stems e) : e''.Stems e where
  dest := fun hnone => h'.dest (h.dest hnone)
  kind := fun hkept => by
    have hkind := h'.kind hkept
    rw [← hkind] at hkept ⊢
    exact h.kind hkept

theorem Node.Proper.dest_eq_none {e : Node} (h : e.Proper) (hplain : e.kind.isPlain = false) :
    e.dest = none := by
  cases hd : e.dest with
  | none => rfl
  | some v =>
    rw [h.result (by rw [hd]; rfl)] at hplain
    cases hplain

namespace Routine

variable {r r' r₁ : Routine} {exit n m : NodeId} {t t' : Strand} {e e' : Node} {v u : VarId}
  {access : Access} {lost : List (VarId × Access)} {C : Strand.Context}

theorem Releases.tally_eq (h : r.Releases r' lost) (v : VarId) (access : Access) :
    r.tally v access = r'.tally v access + lost.count (v, access) := h.adds.tally_eq v access

theorem Releases.label_eq (h : r.Releases r' lost) (n : NodeId) : r'.label n = r.label n :=
    (h.adds.label_eq n).symm

/-- The nodes of `r'` do what they do in `r`, however they are linked. -/
structure Relinks (r r' : Routine) : Prop where
  entry : r'.entry = r.entry
  label : ∀ m, r'.label m = r.label m

theorem Relinks.refl (r : Routine) : r.Relinks r := ⟨rfl, fun _ => rfl⟩

theorem Relinks.trans (h : r.Relinks r₁) (h' : r₁.Relinks r') : r.Relinks r' :=
  ⟨h'.entry.trans h.entry, fun m => (h'.label m).trans (h.label m)⟩

theorem Relinks.kindOf (h : r.Relinks r') : r'.kindOf = r.kindOf :=
    funext fun m => kindOf_congr (h.label m)

/-- Releasing accesses and moving edges. -/
theorem Releases.relinks (h : r.Releases r₁ lost) (hrew : r₁.Rewires r') : r.Relinks r' :=
  ⟨hrew.entry.trans h.adds.entry.symm, fun m => (hrew.label m).trans (h.label_eq m)⟩

/-- Releasing the accesses of nodes and then unlinking them leaves the counts exact. -/
theorem Accounted.shrink (h : r.Accounted exit t) (gone : List NodeId)
    (hadds : r₁.Adds r (gone.flatMap r.accessesOf)) (hrew : r₁.Rewires r')
    (hcarries : r'.Carries exit t') (hperm : t.nodes.Perm (gone ++ t'.nodes)) :
    r'.Accounted exit t' := by
  refine h.without gone hcarries (hrew.entry.trans hadds.entry.symm) (hrew.mem.trans hadds.mem.symm)
    (by rw [hrew.vars, hadds.size]) (fun m => (hrew.label m).trans ((hadds.label_eq m).symm))
    (fun m hm => hrew.detached m (by rwa [Detached, ← hadds.nextOf_eq, ← hadds.prevOf_eq])) hperm
    fun v access => ?_
  rw [hadds.tally_eq v access, tally_congr hrew.vars]

/-- The nodes of the stream are as they are made, and the variables they and notes about variables
name exist. -/
structure Proper (r : Routine) (t : Strand) : Prop where
  proper : ∀ n ∈ t.nodes, ∀ e, r.label n = some e → e.Proper
  dests : ∀ n ∈ t.nodes, ∀ e v, r.label n = some e → e.dest = some v → v < r.vars.size
  folded : ∀ v u, r.foldedOf v = some u → u < r.vars.size

/-- What a node copies goes somewhere. -/
def BoundAt (r : Routine) (n : NodeId) : Prop := ∀ e, r.label n = some e → e.Bound

/-- Copies of variables go somewhere. -/
def Bound (r : Routine) (t : Strand) : Prop := ∀ n ∈ t.nodes, r.BoundAt n

theorem boundAt_congr (h : r'.label n = r.label n) : r'.BoundAt n ↔ r.BoundAt n := by
  rw [BoundAt, BoundAt, h]

/-- What a node is in `r'` is left of what it is in `r`. -/
def StemsAt (r r' : Routine) (n : NodeId) : Prop :=
    ∀ e', r'.label n = some e' → ∃ e, r.label n = some e ∧ e'.Stems e

theorem stemsAt_of_label (h : r'.label n = r.label n) : r.StemsAt r' n :=
    fun e' he' => ⟨e', h ▸ he', .refl e'⟩

theorem StemsAt.trans {r'' : Routine} (h : r.StemsAt r' n) (h' : r'.StemsAt r'' n) :
    r.StemsAt r'' n := fun e'' he'' => by
  obtain ⟨e', he', hstems'⟩ := h' e'' he''
  obtain ⟨e, he, hstems⟩ := h e' he'
  exact ⟨e, he, hstems'.trans hstems⟩

/-- A node whose label changes and the others. -/
theorem Amends.stemsAt (ha : r.Amends r' n e e') (hstems : e'.Stems e) (m : NodeId) :
    r.StemsAt r' m := by
  by_cases hm : m = n
  · subst hm
    intro x hx
    obtain rfl := some.inj (ha.label_self.symm.trans hx)
    exact ⟨e, ha.label, hstems⟩
  · exact stemsAt_of_label (ha.label_of_ne hm)

/-- The nodes of the stream are as they are made, and copies of variables go somewhere. -/
structure Regular (r : Routine) (t : Strand) : Prop extends r.Proper t where
  bound : r.Bound t

/-- A strand with exact counts in which all branches go to regions around them, whatever depths they
carry. -/
structure Intact (r : Routine) (exit : NodeId) (t : Strand) : Prop
    extends r.Streams exit t, r.Accounted exit t, r.Proper t where
  aims : t.Aims r.kindOf [r.entry]
  conditions : ∀ n ∈ t.nodes, ∀ e, r.label n = some e → e.kind.isConditional = true →
    e.args.length = 1

theorem WellStructured.intact (h : r.WellStructured exit t) (hproper : r.Proper t) :
    r.Intact exit t :=
  { h.toStreams, h.accounted, hproper with
    aims := h.branchesFit.aims
    conditions := fun _ hn => (h.fits (mem_live hn)).condition }

namespace Intact

variable (h : r.Intact exit t)
include h

theorem exists_label (hn : n ∈ t.nodes) : ∃ e, r.label n = some e ∧ e.Proper := by
  obtain ⟨d, hd⟩ := h.exists_node (mem_live hn)
  exact ⟨_, label_eq hd, h.proper n hn _ (label_eq hd)⟩

/-- Once branches carry their depths the check passes. -/
theorem wellStructured (hfit : t.BranchesFit r.kindOf [r.entry]) : r.WellStructured exit t := by
  refine ⟨h.toStreams,
    h.toStreams.verify_eq_ok_iff.mpr ⟨hfit, fun n hn => ⟨?_, h.nests n hn⟩, h.counted⟩⟩
  refine ⟨fun guarded goal hkind => h.toStreams.branch_target hfit hn hkind,
    fun guarded goal hkind => ?_, fun e he hcondition => ?_⟩
  · obtain ⟨e, he, hproper⟩ := h.exists_label (h.toStreams.mem_of_kindOf hn hkind (by simp))
    rw [kindOf, he, map_some, some.injEq] at hkind
    have hplain := hproper.plain
    rw [hkind] at hplain
    cases hplain
  · refine h.conditions n (h.toStreams.mem_of_kindOf hn (kindOf_of_label he rfl) fun _ _ _ _ => ?_)
      e he hcondition
    constructor <;> intro hkind <;> simp [hkind] at hcondition

/-- A node that just opens or closes a region accesses nothing. -/
theorem accessesOf_bracket (hn : n ∈ t.nodes) {kind : NodeKind} (hkind : r.kindOf n = some kind)
    (hbracket : kind.isBracket = true) : r.accessesOf n = [] := by
  obtain ⟨e, he, hproper⟩ := h.exists_label hn
  obtain rfl : e.kind = kind := by
    rw [kindOf, he] at hkind
    exact some.inj hkind
  have hargs := hproper.bracket hbracket
  have hdest : e.dest = none := hproper.dest_eq_none (by
    cases hk : e.kind <;> simp_all [NodeKind.isPlain, NodeKind.isBracket])
  rw [accessesOf_flat he (by rw [Node.Flat, hargs]; simp), Node.accesses, hargs, hdest]
  simp

/-- Releasing the accesses of nodes and then unlinking them. -/
theorem shrink (gone : List NodeId) (hrel : r.Releases r₁ (gone.flatMap r.accessesOf))
    (hrew : r₁.Rewires r') (hcarries : r'.Carries exit t') (hshaped : t'.Shaped r.kindOf)
    (haims : t'.Aims r.kindOf [r.entry]) (hperm : t.nodes.Perm (gone ++ t'.nodes)) :
    r'.Intact exit t' := by
  have hkinds := (hrel.relinks hrew).kindOf
  obtain ⟨hentry, hlabels⟩ := hrel.relinks hrew
  have hvars : r'.vars.size = r.vars.size := by rw [hrew.vars, hrel.adds.size]
  have hsub : ∀ n ∈ t'.nodes, n ∈ t.nodes := fun n hn => hperm.mem_iff.mpr (mem_append_right _ hn)
  have haccounted := h.toAccounted.shrink gone hrel.adds hrew hcarries hperm
  exact {
    toCarries := hcarries
    shaped := hkinds ▸ hshaped
    entry_kind := by rw [hkinds, hentry]; exact h.entry_kind
    exit_kind := by rw [hkinds, hentry]; exact h.exit_kind
    nests := haccounted.nests
    counted := haccounted.counted
    aims := by rw [hkinds, hentry]; exact haims
    conditions := fun n hn e he => h.conditions n (hsub n hn) e (hlabels n ▸ he)
    proper := fun n hn e he => h.proper n (hsub n hn) e (hlabels n ▸ he)
    dests := fun n hn e v he hv => hvars ▸ h.dests n (hsub n hn) e v (hlabels n ▸ he) hv
    folded := fun v u hfolded => by
      rw [hvars]
      refine h.folded v u ?_
      rwa [foldedOf, traits, hrew.vars, ← traits, hrel.traits, ← foldedOf] at hfolded }

/-- Changing the label of a node. -/
theorem amend (ha : r.Amends r' n e e') (hn : n ∈ t.nodes)
    (hargs : e'.args.filterMap Operand.node? = e.args.filterMap Operand.node?)
    (hshaped : t.Shaped r'.kindOf)
    (haims : t.Aims r'.kindOf [r.entry]) (hcondition : e'.kind.isConditional = true →
      e'.args.length = 1)
    (hproper : e'.Proper) (hdest : ∀ v, e'.dest = some v → v < r.vars.size) : r'.Intact exit t := by
  have haccounted := h.toAccounted.amend ha (mem_live hn) hargs
  have hends : ∀ m, m ∉ t.nodes → r'.kindOf m = r.kindOf m := fun m hm => by
    have hne : m ≠ n := fun heq => hm (heq ▸ hn)
    rw [kindOf, ha.label_of_ne hne, kindOf]
  have hlabel : ∀ {P : Node → Prop}, P e' → (∀ m ∈ t.nodes, ∀ x, r.label m = some x → P x) →
      ∀ m ∈ t.nodes, ∀ x, r'.label m = some x → P x := by
    intro P hself hother m hm x hx
    by_cases hne : m = n
    · subst hne
      obtain rfl := some.inj (ha.label_self.symm.trans hx)
      exact hself
    · exact hother m hm x (ha.label_of_ne hne ▸ hx)
  exact {
    toCarries := haccounted.toCarries
    shaped := hshaped
    entry_kind := by rw [ha.entry, hends _ h.entry_not_mem]; exact h.entry_kind
    exit_kind := by rw [ha.entry, hends _ h.exit_not_mem]; exact h.exit_kind
    nests := haccounted.nests
    counted := haccounted.counted
    aims := ha.entry.symm ▸ haims
    conditions :=
      hlabel (P := fun x => x.kind.isConditional = true → x.args.length = 1) hcondition h.conditions
    proper := hlabel (P := Node.Proper) hproper h.proper
    dests := fun m hm x v hx => hlabel (P := fun x => ∀ v, x.dest = some v → v < r'.vars.size)
      (ha.vars.symm ▸ hdest) (fun m hm x hx v => ha.vars.symm ▸ h.dests m hm x v hx) m hm x hx v
    folded := fun v u hfolded => by
      rw [ha.vars]
      exact h.folded v u (by rwa [foldedOf, ha.traits, ← foldedOf] at hfolded) }

/-- Noting that a variable is folded into another one. -/
theorem fold (hv : v < r.vars.size) (hu : u < r.vars.size) :
    (r.alterVar v ({ · with foldedInto := some u })).Intact exit t := by
  have hadds : r.Adds (r.alterVar v ({ · with foldedInto := some u })) [] :=
    .alterVar hv fun _ => rfl
  have hcarries : (r.alterVar v ({ · with foldedInto := some u })).Carries exit t :=
    h.toCarries.congr rfl fun _ _ => ⟨rfl, rfl⟩
  have haccounted := h.toAccounted.shrink [] hadds.symm (.refl _) hcarries (.refl _)
  exact {
    toCarries := hcarries
    shaped := h.shaped
    entry_kind := h.entry_kind
    exit_kind := h.exit_kind
    nests := haccounted.nests
    counted := haccounted.counted
    aims := h.aims
    conditions := h.conditions
    proper := h.proper
    dests := by
      rw [size_alterVar]
      exact h.dests
    folded := fun x y hfolded => by
      rw [size_alterVar]
      rw [foldedOf, traits_alterVar (g := ({ · with foldedInto := some u })) fun _ => rfl]
        at hfolded
      split at hfolded
      · obtain ⟨z, hz, hzy⟩ := bind_eq_some_iff.mp hfolded
        obtain ⟨_, -, rfl⟩ := map_eq_some_iff.mp hz
        obtain rfl := some.inj hzy
        exact hu
      · exact h.folded x y hfolded }

omit h

variable {x u' : Strand}

theorem part (h : r.Intact exit (C.plug x)) :
    x.Shaped r.kindOf ∧ x.Aims r.kindOf (C.regions [r.entry]) :=
  ⟨((C.shaped_plug_iff _ x).mp h.shaped).2, ((C.branching_plug _ _ _ x).mp h.aims).2⟩

/-- Releasing and unlinking nodes of a part. -/
theorem replace (h : r.Intact exit (C.plug x)) (gone : List NodeId)
    (hrel : r.Releases r₁ (gone.flatMap r.accessesOf)) (hrew : r₁.Rewires r')
    (hcarries : r'.Carries exit (C.plug u')) (hshaped : u'.Shaped r.kindOf)
    (haims : u'.Aims r.kindOf (C.regions [r.entry])) (hperm : x.nodes.Perm (gone ++ u'.nodes)) :
    r'.Intact exit (C.plug u') := by
  have hshape := (C.shaped_plug_iff _ x).mp h.shaped
  have haround := (C.branching_plug _ _ _ x).mp h.aims
  refine h.shrink gone hrel hrew hcarries ((C.shaped_plug_iff _ u').mpr ⟨hshape.1, hshaped⟩)
    ((C.branching_plug _ _ _ u').mpr ⟨haround.1, haims⟩) ?_
  refine (C.perm_plug x).trans (((hperm.append_right _).trans ?_))
  rw [List.append_assoc]
  exact (C.perm_plug u').symm.append_left gone

end Intact

/-- The stream `t'` of `r'` is what a sweep has left of the stream `t` of `r`. -/
structure Leaves (r : Routine) (exit : NodeId) (t : Strand) (r' : Routine) (t' : Strand)
    (swept : DeadCode.Swept) : Prop where
  intact : r'.Intact exit t'
  length : t'.nodes.length + swept.removed ≤ t.nodes.length
  fits : swept.resolved = 0 → t.BranchesFit r.kindOf [r.entry] → t'.BranchesFit r'.kindOf [r'.entry]
  roused : t.Roused r.kindOf r.entry → t'.Roused r'.kindOf r'.entry
  bound : r.Bound t → r'.Bound t'
  stems : ∀ n ∈ r'.entry :: exit :: t'.nodes, n ∈ r.entry :: exit :: t.nodes ∧ r.StemsAt r' n

namespace Leaves

variable {r'' : Routine} {t'' : Strand} {swept swept' : DeadCode.Swept}

theorem refl (h : r.Intact exit t) : r.Leaves exit t r t {} :=
  ⟨h, Nat.le_refl _, fun _ hfit => hfit, id, id, fun _ hn => ⟨hn, stemsAt_of_label rfl⟩⟩

/-- Two changes one after the other. -/
theorem trans (h : r.Leaves exit t r' t' swept) (h' : r'.Leaves exit t' r'' t'' swept') :
    r.Leaves exit t r'' t'' (swept + swept') where
  intact := h'.intact
  length := by
    have hlength := h.length
    have hlength' := h'.length
    change t''.nodes.length + (swept.removed + swept'.removed) ≤ _
    omega
  fits := fun hnone hfit => by
    change swept.resolved + swept'.resolved = 0 at hnone
    exact h'.fits (by omega) (h.fits (by omega) hfit)
  roused := fun hroused => h'.roused (h.roused hroused)
  bound := fun hbound => h'.bound (h.bound hbound)
  stems := fun n hn => by
    obtain ⟨hn', hstems'⟩ := h'.stems n hn
    obtain ⟨hmem, hstems⟩ := h.stems n hn'
    exact ⟨hmem, hstems.trans hstems'⟩

/-- How many nodes were removed only matters while the sweep goes on. -/
theorem resolves (h : r.Leaves exit t r' t' swept) : r.Leaves exit t r' t' ⟨0, swept.resolved⟩ :=
  { h with length := by have := h.length; dsimp only; omega }

end Leaves

/-- A node gets a label of the same shape with the same operands. -/
theorem Relabels.leaves (ha : r.Relabels r' n e e') (h : r.Intact exit t) (hn : n ∈ t.nodes)
    (hargs : e'.args = e.args) (hproper : e'.Proper)
    (hdest : ∀ v, e'.dest = some v → v < r.vars.size) (hbound : e.Bound → e'.Bound)
    (hstems : e'.Stems e) : r.Leaves exit t r' t {} where
  intact := by
    refine h.amend ha.toAmends hn (by rw [hargs]) (ha.streams h.toStreams).shaped ?_
      (fun hcond => ?_) hproper hdest
    · exact h.aims.mono (fun _ _ haim => haim) fun m _ guarded goal hk =>
        (ha.kindOf_iff (by simp)).mp hk
    · have hkind : e'.kind = e.kind := ha.kind.eq_of_not_op fun code heq => by simp [heq] at hcond
      rw [hargs]
      exact h.conditions n hn e ha.label (hkind ▸ hcond)
  length := Nat.le_refl _
  fits := fun _ hfit => ha.entry ▸ hfit.mono fun m _ guarded goal hk =>
    (ha.kindOf_iff (by simp)).mp hk
  roused := fun hroused =>
    ha.roused hroused (ha.kind.apply_eq _ fun _ _ => rfl) (ha.kind.apply_eq _ fun _ _ => rfl)
  bound := fun hall m hm => by
    by_cases hmn : m = n
    · subst hmn
      intro x hx
      obtain rfl := some.inj (ha.label_self.symm.trans hx)
      exact hbound (hall m hm e ha.label)
    · exact (boundAt_congr (ha.label_of_ne hmn)).mpr (hall m hm)
  stems := fun m hm => ⟨ha.entry ▸ hm, ha.stemsAt hstems m⟩

end Routine

end CoroutineIR
