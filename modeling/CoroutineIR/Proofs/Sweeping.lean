import CoroutineIR.Proofs.Stages
import CoroutineIR.Proofs.Visiting

/-!
# The walk that propagates constants

The walk comes to every node of the stream once, to the nodes of the second arm of a conditional
before those of the first one and before the conditional itself. It takes out no node but the one it
is at, so that what it has not come to is as it was.
-/

namespace CoroutineIR

open List CoroutineIR.Action Folding Strand

namespace Strand

variable {t : Strand}

/-- The nodes in the order of the walk. The second arm of a conditional comes before the conditional
itself. -/
def sweep : Strand → List NodeId
  | done => []
  | leaf n rest => n :: rest.sweep
  | region o c body rest => o :: body.sweep ++ c :: rest.sweep
  | fork o c first second rest => second.sweep ++ o :: first.sweep ++ c :: rest.sweep

/-- The walk meets every node once. -/
theorem sweep_perm (t : Strand) : t.sweep.Perm t.nodes := by
  induction t with
  | done => exact .refl _
  | leaf n rest ih => exact ih.cons n
  | region o c body rest ihb ihr => exact ((ihb.append (ihr.cons c)).cons o)
  | fork o c first second rest iha ihb ihr =>
    simp only [sweep, nodes, List.append_assoc, cons_append]
    refine perm_middle.trans (Perm.cons o ?_)
    refine (perm_append_comm_assoc _ _ _).trans ?_
    exact iha.append (ihb.append (ihr.cons c))

theorem entryPort_mem (dst : Port) (t : Strand) :
    (t.entryPort dst).1 ∈ t.nodes ∨ (t.entryPort dst).1 = dst.1 := by
  rcases t.entryPort_cases dst with ⟨n, hn, heq⟩ | ⟨-, heq⟩
  · exact Or.inl (heq ▸ hn)
  · exact Or.inr (congrArg Prod.fst heq)

/-- A strand in front of which a walk stands is not entered at a node the walk has come to. -/
theorem entry_fresh (dst : Port) {l : List NodeId} (h : (l ++ t.sweep ++ [dst.1]).Nodup) :
    (t.entryPort dst).1 ∉ l := by
  rw [List.append_assoc, nodup_append] at h
  refine fun hl => h.2.2 _ hl _ ?_ rfl
  rw [mem_append, t.sweep_perm.mem_iff, mem_singleton]
  exact t.entryPort_mem dst

end Strand

namespace Folding

open Routine

variable {exit n : NodeId} {t : Strand} {w : Work} {options : Options}

namespace Visit

variable {a b : Routine × Strand} {m : NodeId}

variable (h : Visit options exit n a b)
include h

theorem run : Refinements options.target exit a b := by
  cases h with
  | leave hrun _ _ h =>
    obtain ⟨p, s, hdrops⟩ := h.drops
    exact hrun.tail
      (.drop hdrops h.literal h.dest h.once h.quiet h.constants h.addressable h.folded)
  | fill hrun => exact hrun
  | reduce hrun => exact hrun

/-- The other nodes keep their labels. -/
theorem label_of_ne (hm : m ≠ n) : b.1.label m = a.1.label m := by
  cases h with
  | leave _ hlabel _ hfolds =>
    obtain ⟨p, s, hdrops⟩ := hfolds.drops
    exact (hdrops.labels m).trans (hlabel.label_of_ne hm)
  | fill _ hlabel | reduce _ hlabel => exact hlabel.label_of_ne hm

/-- The other nodes stay in the stream. -/
theorem mem_new (hm : m ∈ a.1.entry :: a.2.nodes) (hne : m ≠ n) : m ∈ b.1.entry :: b.2.nodes := by
  cases h with
  | leave _ hlabel _ hfolds =>
    obtain ⟨p, s, hdrops⟩ := hfolds.drops
    rw [hdrops.bypasses.entry, hlabel.entry]
    refine mem_cons.mpr ((mem_cons.mp hm).imp_right fun hm => ?_)
    exact (mem_cons.mp (hdrops.bypasses.nodes.mem_iff.mp hm)).resolve_left hne
  | fill _ hlabel | reduce _ hlabel =>
    rw [hlabel.entry]
    exact hm

/-- No edge changes but those to the node. -/
theorem nextOf (hm : m ∈ b.1.entry :: b.2.nodes) :
    ∃ s, b.1.nextOf m = (a.1.nextOf m).map fun k => if k = n then s else k := by
  have hstay : ∀ l : List NodeId, l = l.map fun k => if k = n then n else k := fun l => by
    refine (List.map_id l).symm.trans (map_congr_left fun k _ => ?_)
    split
    · rename_i hk
      exact hk
    · rfl
  cases h with
  | leave _ hlabel _ hfolds =>
    obtain ⟨p, s, hdrops⟩ := hfolds.drops
    have hm : m ∈ _ :: exit :: _ := mem_cons.mpr ((mem_cons.mp hm).imp_right (mem_cons_of_mem _))
    exact ⟨s, by rw [hdrops.bypasses.edges m hm, hlabel.next]⟩
  | fill _ hlabel | reduce _ hlabel => exact ⟨n, (hlabel.next m).trans (hstay _)⟩

end Visit

/-- The walk comes to the nodes of a list, one after another. -/
inductive Sweeps (options : Options) (exit : NodeId) :
    List NodeId → Routine × Strand → Routine × Strand → Prop
  | nil {a : Routine × Strand} : Sweeps options exit [] a a
  | cons {n : NodeId} {ns : List NodeId} {a b c : Routine × Strand} (hvisit : Visit options exit n a
    b) (hrest : Sweeps options exit ns b c) : Sweeps options exit (n :: ns) a c

namespace Sweeps

variable {a b c : Routine × Strand} {m : NodeId} {ns ms : List NodeId}

theorem single (h : Visit options exit n a b) : Sweeps options exit [n] a b := .cons h .nil

variable (h : Sweeps options exit ns a b)
include h

theorem append (h' : Sweeps options exit ms b c) : Sweeps options exit (ns ++ ms) a c := by
  induction h with
  | nil => exact h'
  | cons hvisit _ ih => exact .cons hvisit (ih h')

theorem run : Refinements options.target exit a b := by
  induction h with
  | nil => exact .refl
  | cons hvisit _ ih => exact hvisit.run.trans ih

/-- The nodes that the walk does not come to keep their labels. -/
theorem label_eq (hm : m ∉ ns) : b.1.label m = a.1.label m := by
  induction h with
  | nil => rfl
  | cons hvisit _ ih =>
    rw [mem_cons, not_or] at hm
    exact (ih hm.2).trans (hvisit.label_of_ne hm.1)

/-- The nodes that the walk does not come to stay in the stream. -/
theorem mem_new (hm : m ∈ a.1.entry :: a.2.nodes) (hout : m ∉ ns) : m ∈ b.1.entry :: b.2.nodes := by
  induction h with
  | nil => exact hm
  | cons hvisit _ ih =>
    rw [mem_cons, not_or] at hout
    exact ih (hvisit.mem_new hm hout.1) hout.2

/-- The edges between nodes that the walk does not come to stay. -/
theorem nextOf (hm : m ∈ a.1.entry :: a.2.nodes) (hout : m ∉ ns) :
    ∃ f : NodeId → NodeId, (∀ k ∉ ns, f k = k) ∧ b.1.nextOf m = (a.1.nextOf m).map f := by
  induction h with
  | nil => exact ⟨id, fun _ _ => rfl, (List.map_id _).symm⟩
  | cons hvisit _ ih =>
    rw [mem_cons, not_or] at hout
    have hmem := hvisit.mem_new hm hout.1
    obtain ⟨s, hs⟩ := hvisit.nextOf hmem
    obtain ⟨f, hf, hnext⟩ := ih hmem hout.2
    refine ⟨fun k => f (if k = _ then s else k),
      fun k hk => ?_, by rw [hnext, hs, List.map_map]; rfl⟩
    rw [mem_cons, not_or] at hk
    simp only [if_neg hk.1, hf k hk.2]

end Sweeps

theorem foldStrain_stop (fuel : ℕ) (stop : NodeId) :
    foldStrain options fuel (some stop) stop = pure 0 := by
  cases fuel <;> simp [foldStrain]

section Walk

variable {inv : Routine → Strand → Prop} {fault : Fault IrError → Prop} {post : Work → Prop}
  {fuel arm : ℕ} {m stop : NodeId} {r₀ : Routine} {t₀ rest : Strand} {src dst : Port}
  {l : List NodeId}

/-- The walk through a routine has come to the nodes `l`. -/
def Swept (options : Options) (exit : NodeId) (inv : Routine → Strand → Prop) (r₀ : Routine)
    (t₀ : Strand) (l : List NodeId) (w : Work) : Prop :=
  ∃ t, Sweeps options exit l (r₀, t₀) (w.routine, t) ∧ inv w.routine t

variable (hstep : ∀ w t n, inv w.routine t → n ∈ w.routine.entry :: t.nodes →
      Ends (foldNode options n) w (fun _ w' =>
      ∃ t', Visit options exit n (w.routine, t) (w'.routine, t') ∧ inv w'.routine t') fault)
    (hs : Swept options exit inv r₀ t₀ l w) (hn : n ∈ r₀.entry :: t₀.nodes)
include hstep hs hn

/-- From a node on, once its second arm has been walked. -/
theorem ends_walk {ms : List NodeId} (hfresh : n ∉ l) (hnext : r₀.nextOf n = m :: ms) (hm : m ∉ l)
    (hgo : ∀ w', Swept options exit inv r₀ t₀ (l ++ [n]) w' →
      Ends (foldStrain options fuel (some m) stop) w' (fun _ => post) fault) :
    Ends (do
      let next ← Edit.firstNext n
      let folded ← foldNode options n
      let rest ← foldStrain options fuel next stop
      return arm + (if folded then 1 else 0) + rest : Pass ℕ) w (fun _ => post) fault := by
  obtain ⟨t, hsweeps, hr⟩ := hs
  -- the node in front of which control stands has not been visited, so the edge is still there
  obtain ⟨f, hf, hedges⟩ := hsweeps.nextOf hn hfresh
  rw [hnext, map_cons, hf m hm] at hedges
  obtain ⟨d, hd, hfirst⟩ := exists_firstNext hedges
  have hlook : Yields (liftM (Edit.firstNext n) : Pass (Option NodeId)) w fun next w' =>
      d.firstNext = next ∧ w = w' := by
    simp [hd]
  refine ends_bind.mpr (Yields.ends (hlook.mono fun next w' hsame => ?_))
  obtain ⟨rfl, rfl⟩ := hsame
  refine ends_bind.mpr
    ((hstep w t n hr (hsweeps.mem_new hn hfresh)).mono fun folded w' hvisit => ?_)
  obtain ⟨t', hvisit, hr'⟩ := hvisit
  rw [hfirst]
  exact ends_bind.mpr ((hgo w' ⟨t', hsweeps.append (.single hvisit), hr'⟩).mono fun _ w'' hpost =>
    Yields.ends (yields_pure.mpr hpost))

/-- From a node with one successor on. -/
theorem ends_foldStrain_leaf (hnext : r₀.nextOf n = [(rest.entryPort dst).1])
    (hnodup : (l ++ [n] ++ rest.sweep ++ [dst.1]).Nodup) (hstop : n ≠ stop)
    (hgo : ∀ w', Swept options exit inv r₀ t₀ (l ++ [n]) w' →
      Ends (foldStrain options fuel (some (rest.entryPort dst).1) stop) w' (fun _ => post) fault) :
    Ends (foldStrain options (fuel + 1) (some n) stop) w (fun _ => post) fault := by
  have hentry := entry_fresh dst hnodup
  have hfresh : n ∉ l :=
    fun hl => (nodup_append.mp hnodup.of_append_left.of_append_left).2.2 n hl n (by simp) rfl
  obtain ⟨f, -, hedges⟩ := hs.choose_spec.1.nextOf hn hfresh
  rw [hnext, map_singleton] at hedges
  obtain ⟨d, hd, hdnext⟩ := exists_next hedges
  have hlook : Yields (liftM (Edit.node n) : Pass Node) w fun d' w' => d = d' ∧ w = w' := by
    simp [hd]
  have harm : d.secondArm? = none := by
    unfold Node.secondArm?
    split
    · rename_i hpair
      rw [hdnext] at hpair
      cases hpair
    · rfl
  rw [foldStrain, if_neg hstop]
  refine ends_bind.mpr (Yields.ends (hlook.mono fun d' w' hsame => ?_))
  obtain ⟨rfl, rfl⟩ := hsame
  rw [harm]
  exact ends_walk hstep hs hn hfresh hnext (fun hl => hentry (mem_append_left _ hl)) hgo

omit hn

/-- The walk along a strand comes to its nodes in the order of the sweep, and goes on behind it. -/
theorem ends_foldStrain {u : Strand} (hlays : r₀.Lays src u dst) (hshaped : u.Shaped r₀.kindOf)
    (hsub : ∀ n ∈ u.nodes, n ∈ r₀.entry :: t₀.nodes) (hnodup : (l ++ u.sweep ++ [dst.1]).Nodup)
    (hstop : stop ∉ u.nodes)
    (hfuel : u.nodes.length < fuel) (hgo : ∀ w' left,
      Swept options exit inv r₀ t₀ (l ++ u.sweep) w' →
      fuel ≤ left + u.nodes.length →
      Ends (foldStrain options left (some dst.1) stop) w' (fun _ => post) fault) :
    Ends (foldStrain options fuel (some (u.entryPort dst).1) stop) w (fun _ => post) fault := by
  induction u generalizing w l src dst stop fuel post with
  | done => exact hgo w fuel (by simpa [Strand.sweep] using hs) (Nat.le_add_right _ _)
  | leaf n rest ih =>
    rw [forall_leaf] at hsub
    rw [Strand.sweep, append_cons l n] at hnodup hgo
    simp only [Strand.nodes, mem_cons, not_or, length_cons] at hstop hfuel hgo
    obtain _ | fuel := fuel
    · omega
    refine ends_foldStrain_leaf hstep hs hsub.1 hlays.nextOf_leaf hnodup
      (Ne.symm hstop.1) fun w₁ h₁ => ?_
    exact ih h₁ hlays.leaf_rest hshaped.2 hsub.2 hnodup hstop.2 (by omega) fun w' left h' hleft =>
      hgo w' left h' (by omega)
  | region o c body rest ihb ihr =>
    obtain ⟨-, -, hbody, hrest⟩ := hshaped
    rw [forall_region] at hsub
    rw [show l ++ (Strand.region o c body rest).sweep =
      l ++ [o] ++ body.sweep ++ [c] ++ rest.sweep by simp [Strand.sweep]] at hnodup hgo
    simp only [mem_region, not_or] at hstop
    simp only [Strand.nodes, length_cons, length_append] at hfuel hgo
    obtain _ | fuel := fuel
    · omega
    have hinner := hnodup.of_append_left.of_append_left
    refine ends_foldStrain_leaf hstep hs hsub.1 hlays.nextOf_opener hinner
      (Ne.symm hstop.1) fun w₁ h₁ => ?_
    refine ihb h₁ hlays.region_body hbody hsub.2.1 hinner hstop.2.1 (by omega)
      fun w₂ left h₂ hleft => ?_
    obtain _ | left := left
    · omega
    refine ends_foldStrain_leaf hstep h₂ hsub.2.2.1 hlays.nextOf_closer hnodup
      (Ne.symm hstop.2.2.1) fun w₃ h₃ => ?_
    exact ihr h₃ hlays.region_rest hrest hsub.2.2.2 hnodup hstop.2.2.2 (by omega)
      fun w' left' h' hleft' => hgo w' left' h' (by omega)
  | fork o c first second rest iha ihb ihr =>
    obtain ⟨⟨suspends, hkind⟩, -, hfirst, hsecond, hrest⟩ := hshaped
    rw [forall_fork] at hsub
    rw [show l ++ (Strand.fork o c first second rest).sweep =
        l ++ second.sweep ++ [o] ++ first.sweep ++ [c] ++ rest.sweep by
      simp [Strand.sweep]] at hnodup hgo
    simp only [mem_fork, not_or] at hstop
    simp only [Strand.nodes, length_cons, length_append] at hfuel hgo
    obtain _ | fuel := fuel
    · omega
    have hinner := hnodup.of_append_left.of_append_left
    have harm : (l ++ second.sweep ++ [c]).Nodup := hinner.sublist
      (((sublist_append_left _ _).trans (sublist_append_left _ _)).append (.refl [c]))
    have hc : c ∉ second.nodes := fun hmem =>
      (nodup_append.mp harm).2.2 c (mem_append_right l (second.sweep_perm.mem_iff.mpr hmem)) c
        (by simp) rfl
    have hfresh : o ∉ l ++ second.sweep := fun hmem =>
      (nodup_append.mp hinner.of_append_left.of_append_left).2.2 o hmem o (by simp) rfl
    -- neither arm of the conditional has been entered
    obtain ⟨t, hsweeps, -⟩ := id hs
    obtain ⟨f, hf, hedges⟩ := hsweeps.nextOf hsub.1 fun hl => hfresh (mem_append_left _ hl)
    rw [hlays.nextOf_fork, map_cons, map_singleton, hf _ (entry_fresh (c, 1) harm)] at hedges
    obtain ⟨d, hd, hdnext⟩ := exists_next hedges
    have hlook : Yields (liftM (Edit.node o) : Pass Node) w fun d' w' => d = d' ∧ w = w' := by
      simp [hd]
    have harm? : d.secondArm? = some ((second.entryPort (c, 1)).1, c) := by
      rw [← kindOf_congr (hsweeps.label_eq fun hl => hfresh (mem_append_left _ hl)), kindOf_eq hd,
        Option.some.injEq] at hkind
      rw [Node.secondArm?, hkind, hdnext]
    rw [entryPort_fork, foldStrain, if_neg (Ne.symm hstop.1)]
    refine ends_bind.mpr (Yields.ends (hlook.mono fun d' w' hsame => ?_))
    obtain ⟨rfl, rfl⟩ := hsame
    rw [harm?]
    -- the second arm, up to the end of the conditional
    have hwalked : Ends (foldStrain options fuel (some (second.entryPort (c, 1)).1) c) w
        (fun _ w₁ => Swept options exit inv r₀ t₀ (l ++ second.sweep) w₁) fault := by
      refine ihb hs hlays.fork_second hsecond hsub.2.2.1 harm hc (by omega) fun w₁ left h₁ _ => ?_
      rw [foldStrain_stop]
      exact Yields.ends (yields_pure.mpr h₁)
    refine ends_bind.mpr (hwalked.mono fun arm w₁ h₁ => ?_)
    have hentry := entry_fresh (c, 0) hinner
    refine ends_walk hstep h₁ hsub.1 hfresh hlays.nextOf_fork
      (fun hl => hentry (mem_append_left _ hl)) fun w₂ h₂ => ?_
    refine iha h₂ hlays.fork_first hfirst hsub.2.1 hinner hstop.2.1 (by omega)
      fun w₃ left h₃ hleft => ?_
    obtain _ | left := left
    · omega
    refine ends_foldStrain_leaf hstep h₃ hsub.2.2.2.1 hlays.nextOf_join hnodup
      (Ne.symm hstop.2.2.2.1) fun w₄ h₄ => ?_
    exact ihr h₄ hlays.fork_rest hrest hsub.2.2.2.2 hnodup hstop.2.2.2.2 (by omega)
      fun w' left' h' hleft' => hgo w' left' h' (by omega)

omit hs

variable (inv) in
/-- The walk through a routine comes to all nodes of the stream in the order of the sweep. -/
theorem ends_foldConstants_of (hr : inv w.routine t) (hwell : w.routine.WellStructured exit t) :
    Ends (foldConstants options) w (fun _ w' => ∃ t',
      Sweeps options exit (w.routine.entry :: t.sweep) (w.routine, t) (w'.routine, t') ∧
      inv w'.routine t') fault := by
  have hget : Yields (get : Pass Work) w fun s w' => w = s ∧ w = w' := ⟨rfl, rfl⟩
  refine ends_bind.mpr (Yields.ends (hget.mono fun s w₀ hsame => ?_))
  obtain ⟨rfl, rfl⟩ := hsame
  refine ends_bind.mpr (ends_toAction (fun stop hstop => ?_) fun fault hfault => ?_)
  · obtain rfl : exit = stop := Except.ok.inj (hwell.exit_eq.symm.trans hstop)
    have hfuel := le_editFuel hwell.length_le_size
    obtain ⟨fuel, heq⟩ : ∃ fuel, w.routine.editFuel = fuel + 1 := ⟨w.routine.editFuel - 1, by omega⟩
    have hnodup : ([] ++ [w.routine.entry] ++ t.sweep ++ [exit]).Nodup :=
      ((t.sweep_perm.append_right [exit]).cons w.routine.entry).nodup_iff.mpr hwell.nodup_layout
    have hwalk : Ends (foldStrain options w.routine.editFuel (some w.routine.entry) exit) w
        (fun _ => Swept options exit inv w.routine t (w.routine.entry :: t.sweep)) fault := by
      rw [heq]
      refine ends_foldStrain_leaf hstep ⟨t, .nil,
        hr⟩ mem_cons_self hwell.nextOf_entry hnodup hwell.entry_ne_exit fun w₁ h₁ => ?_
      refine ends_foldStrain hstep h₁ hwell.toLays hwell.shaped (fun n hn => mem_cons_of_mem _ hn)
        hnodup hwell.exit_not_mem (by omega) fun w' left h' _ => ?_
      rw [foldStrain_stop]
      exact Yields.ends (yields_pure.mpr h')
    exact ends_bind.mpr (hwalk.mono fun folded w' h => Yields.ends (Pass.yields_note.mpr h))
  · rw [hwell.exit_eq] at hfault
    cases hfault

end Walk

/-- Propagating constants is a walk through all nodes of the stream. -/
theorem ends_foldConstants_sweeps (hr : w.routine.WellStructured exit t) :
    Ends (foldConstants options) w (fun _ w' => ∃ t',
        Sweeps options exit (w.routine.entry :: t.sweep) (w.routine, t) (w'.routine, t') ∧
        w'.routine.WellStructured exit t')
      fun _ => options.arithmetic = true ∧ ¬options.target.Sized := by
  refine ends_foldConstants_of (fun r t => r.WellStructured exit t) (fun w t n hr hn => ?_) hr hr
  have hn' : n ∈ w.routine.live exit t :=
    mem_live_of_entry hn
  obtain ⟨d, hd⟩ := hr.exists_node hn'
  refine ((ends_foldNode hr hn' (label_eq hd)).imp fun _ hfault =>
    ⟨hfault.1, not_sized_of_value? hfault.2⟩).mono fun _ w' h => ?_
  obtain ⟨t', hvisit⟩ := h
  exact ⟨t', hvisit, hvisit.run.wellStructured hr⟩

/-- Propagating constants takes out definitions, fills in known values and replaces operations by
their values. -/
theorem ends_foldConstants (hr : w.routine.WellStructured exit t) :
    Ends (foldConstants options) w (fun _ w' => ∃ t', Refinements options.target exit (w.routine,
      t) (w'.routine, t')) fun _ => options.arithmetic = true ∧ ¬options.target.Sized :=
  (ends_foldConstants_sweeps hr).mono fun _ _ h => h.imp fun _ h => h.1.run

end Folding

end CoroutineIR
