import CoroutineIR.Proofs.Lowered

/-!
# The order of nodes in steps

After the lowering everything that does something stands in a step: going back from it along first
predecessors, a step is met before a jump. A suspension is the last thing a step does; behind the
first half of a call comes a jump to the step that begins with the second half.
-/

namespace CoroutineIR

open List Option Attempt Routine Strand NodeKind Node

/-- Whether a step that is open before the node is not open behind it. -/
def NodeKind.endsStep : NodeKind → Bool
  | .goto false _ | .define .. => true
  | _ => false

/-- Whether a node does something, so that it has to stand in a step. -/
def NodeKind.acts : NodeKind → Bool
  | .op _ | .call .. | .declare _ | .ret | .yield | .enter .cond _ | .goto true _ => true
  | _ => false

/-- Whether the node is the first half of a call. -/
def NodeKind.begins : NodeKind → Bool
  | .call .directBegin _ | .call .indirectBegin _ => true
  | _ => false

namespace NodeKind

variable {kind : NodeKind}

theorem begins_eq_false (h : kind.isLowered = false) : kind.begins = false := by
  cases kind with
  | call form sig => cases form <;> simp_all [isLowered, begins]
  | _ => rfl

theorem endsStep_eq_false (h : kind.isLowered = false)
    (hdefine : ∀ name sig body, kind ≠ .define name sig body) : kind.endsStep = false := by
  cases kind with
  | goto guarded goal => simp [isLowered] at h
  | define name sig body => exact absurd rfl (hdefine name sig body)
  | _ => rfl

end NodeKind

namespace Routine

/-- Going back from a node along first predecessors, a step is met before a jump and before the
start. -/
inductive InStep (r : Routine) : NodeId → Prop
  | here {n : NodeId} {name : String} (hkind : r.kindOf n = some (.step name)) : InStep r n
  | back {n m : NodeId} {kind : NodeKind} (hkind : r.kindOf n = some kind) (hopen : kind.endsStep =
    false) (hprev : (r.prevOf n).head? = some m) (hstep : InStep r m) : InStep r n

/-- Behind the first half of the call that a node has been comes a jump to the step that begins with
the second half, which takes the result. -/
def Resumes (r : Routine) (call : Node) (n : NodeId) : Prop :=
  ∃ form first sig jump step finish name, call.kind = .call form sig ∧ form.begun? = some first ∧
    r.label n = some { call with kind := .call first sig, dest := none } ∧ r.nextOf n = [jump] ∧
    r.kindOf jump = some (.goto false (.step step)) ∧ r.kindOf step = some (.step name) ∧ r.nextOf
    step = [finish] ∧ r.label finish = some (.detached (.call .finish sig) call.dest call.ty [])

/-- What the order of nodes in steps demands of a node, given the nodes before the lowering. -/
structure Orderly (old : NodeId → Option Node) (r : Routine) (n : NodeId) : Prop where
  inStep : ∀ kind, r.kindOf n = some kind → kind.acts = true → r.InStep n
  begins : ∀ kind, r.kindOf n = some kind → kind.begins = true → ∃ call, old n = some call ∧
    r.Resumes call n
  yields : r.kindOf n = some .yield → ∃ jump goal, r.nextOf n = [jump] ∧
    r.kindOf jump = some (.goto false goal)
  calm : ∀ form region, r.kindOf n = some (.enter form region) → form ≠ .cond →
    region.suspends = false

variable {r : Routine} {src dst : Port} {n m : NodeId} {kind : NodeKind} {t : Strand}
    {old : NodeId → Option Node}

/-- A node that suspends nothing only has to stand in a step. -/
theorem orderly_of_inStep (hkind : r.kindOf n = some kind)
    (hbegins : kind.begins = false) (hyield : kind ≠ .yield)
    (hcalm : ∀ form region, kind = .enter form region → form ≠ .cond → region.suspends = false)
    (hstep : kind.acts = true → r.InStep n) : r.Orderly old n where
  inStep kind' hkind' hacts := by
    obtain rfl := some.inj (hkind.symm.trans hkind')
    exact hstep hacts
  begins kind' hkind' hbegins' := by
    obtain rfl := some.inj (hkind.symm.trans hkind')
    simp [hbegins] at hbegins'
  yields hkind' := absurd (some.inj (hkind.symm.trans hkind')) hyield
  calm form region hkind' := hcalm form region (some.inj (hkind.symm.trans hkind'))

/-- A step that is open in front of a strand without jumps is open at all its nodes and behind it.
-/
theorem Lays.inStep (h : r.Lays src t dst) (hstep : r.InStep src.1)
    (hkinds : ∀ n ∈ t.nodes, ∃ kind, r.kindOf n = some kind ∧ kind.endsStep = false) :
    (∀ n ∈ t.nodes, r.InStep n) ∧ r.InStep (t.exitPort src).1 := by
  have hback : ∀ {n m : NodeId} {ms : List NodeId}, (∃ kind, r.kindOf n = some kind ∧
      kind.endsStep = false) → r.prevOf n = m :: ms → r.InStep m → r.InStep n :=
    fun ⟨kind, hkind, hopen⟩ hprev hm => .back hkind hopen (by rw [hprev]; rfl) hm
  induction t generalizing src dst with
  | done => exact ⟨by simp, hstep⟩
  | leaf n rest ih =>
    simp only [forall_leaf] at hkinds ⊢
    have hn := hback hkinds.1 h.prevOf_leaf hstep
    obtain ⟨hrest, hexit⟩ := ih h.leaf_rest hn hkinds.2
    exact ⟨⟨hn, hrest⟩, hexit⟩
  | region o c body rest ihb ihr =>
    simp only [forall_region] at hkinds ⊢
    have ho := hback hkinds.1 h.prevOf_opener hstep
    obtain ⟨hbody, hexit⟩ := ihb h.region_body ho hkinds.2.1
    have hc := hback hkinds.2.2.1 h.prevOf_closer hexit
    obtain ⟨hrest, hexit'⟩ := ihr h.region_rest hc hkinds.2.2.2
    exact ⟨⟨ho, hbody, hc, hrest⟩, hexit'⟩
  | fork o c first second rest iha ihb ihr =>
    simp only [forall_fork] at hkinds ⊢
    have ho := hback hkinds.1 h.prevOf_fork hstep
    obtain ⟨hfirst, hexit⟩ := iha h.fork_first ho hkinds.2.1
    obtain ⟨hsecond, -⟩ := ihb h.fork_second ho hkinds.2.2.1
    have hc := hback hkinds.2.2.2.1 h.prevOf_join hexit
    obtain ⟨hrest, hexit'⟩ := ihr h.fork_rest hc hkinds.2.2.2.2
    exact ⟨⟨ho, hfirst, hsecond, hc, hrest⟩, hexit'⟩

namespace Stages

variable {marked cut settled final : Routine} {exit : NodeId} {t' tail lead : Strand}
    {d : Node} {b : Bool}

section

variable (h : r.Stages marked cut settled final exit t t' tail)
include h

variable (hn : n ∈ (t'.append tail).nodes)
include hn

theorem kindOf_final (hd : cut.label n = some d)
    (hgoto : ∀ guarded goal, d.kind ≠ .goto guarded goal) : final.kindOf n = some d.kind := by
  rw [kindOf, h.label_eq hn hd, settled_of_ne fun guarded origin => hgoto guarded _, map_some]

theorem kindOf_close {o : NodeId} (hkind : cut.kindOf n = some (.close o)) :
    final.kindOf n = some (.close o) := by
  obtain ⟨d, hd, hdk⟩ := map_eq_some_iff.mp hkind
  rw [h.kindOf_final hn hd (by simp [hdk]), hdk]

theorem kindOf_jump {guarded : Bool} {origin : Option NodeId} (hd : cut.label n = some d)
    (hkind : d.kind = .goto guarded (.pending origin)) :
    final.kindOf n = some (.goto guarded (cut.destination (origin.getD n))) := by
  rw [kindOf, h.label_eq hn hd, settled_of_eq hkind, map_some]

omit hn

/-- The ends of a conditional stay as they are. -/
theorem kinds_of_cond {o c : NodeId} {region : Region} (ho : o ∈ (t'.append tail).nodes)
    (hc : c ∈ (t'.append tail).nodes) (hnew : ∀ m ∈ [o, c], cut.label m = marked.label m)
    (hold : marked.label o = some d) (hkind : d.kind = .enter .cond region)
    (hclose : marked.kindOf c = some (.close o)) :
    final.kindOf o = some (.enter .cond region) ∧ final.kindOf c = some (.close o) := by
  have hcond := h.kindOf_final ho ((hnew o (by simp)).trans hold) (by simp [hkind])
  rw [hkind] at hcond
  refine ⟨hcond, h.kindOf_close hc ?_⟩
  rw [kindOf, hnew c (by simp)]
  exact hclose

/-- A jump in front of a region is in order. -/
theorem orderly_jump (hlead : JumpAhead cut.label lead)
    (hsub : lead.nodes ⊆ (t'.append tail).nodes) : ∀ n ∈ lead.nodes, final.Orderly old n := by
  cases hlead with
  | none => simp
  | @jump j hj =>
    have hkind := h.kindOf_jump (hsub (by simp)) hj rfl
    simp only [Strand.nodes, forall_mem_singleton]
    exact orderly_of_inStep hkind rfl (by simp) (by simp)
      (by simp [acts])

/-- Behind what stands in front of a node a step is open. -/
theorem inStep_ahead (hlead : StepAhead cut.label b lead)
    (hsub : lead.nodes ⊆ (t'.append tail).nodes) (hstep : b = true → final.InStep src.1) :
    (∀ n ∈ lead.nodes, final.Orderly old n) ∧ final.InStep (lead.exitPort src).1 := by
  cases hlead with
  | opened => exact ⟨by simp, hstep rfl⟩
  | @opens s name hs =>
    have hkind := h.kindOf_final (hsub (by simp)) hs (by simp [bare, Node.detached])
    simp only [Strand.nodes, forall_mem_singleton]
    exact ⟨orderly_of_inStep hkind rfl (by simp [bare, Node.detached])
      (by simp [bare, Node.detached])
      (by simp [bare, Node.detached, acts]), .here hkind⟩

/-- A part in which nothing suspends is in order if a step is open in front of it, and the step
stays open. -/
theorem orderly_part {part : Strand} (hlays : final.Lays src part dst)
    (hsub : part.nodes ⊆ (t'.append tail).nodes) (hnew : ∀ n ∈ part.nodes,
      cut.label n = marked.label n) (hcalm : ∀ n ∈ part.nodes, marked.CalmAt n)
    (hplain : ∀ n ∈ part.nodes, ∀ kind, marked.kindOf n = some kind →
      kind.isLowered = false) (hshaped : part.Shaped marked.kindOf) (hstep : final.InStep src.1) :
    (∀ n ∈ part.nodes, final.Orderly old n) ∧ final.InStep (part.exitPort src).1 := by
  have hkinds : ∀ n ∈ part.nodes, ∃ kind, final.kindOf n = some kind ∧ marked.kindOf n = some kind ∧
      ∀ name sig body, kind ≠ .define name sig body := by
    intro n hn
    obtain ⟨kind, hkind, hdefine⟩ := hshaped.exists_kind_ne_define hn
    obtain ⟨d, hd, rfl⟩ := map_eq_some_iff.mp hkind
    refine ⟨d.kind,
      h.kindOf_final (hsub hn) ((hnew n hn).trans hd) fun guarded goal hgoto => ?_, hkind, hdefine⟩
    simpa [hgoto, NodeKind.isLowered] using hplain n hn _ hkind
  obtain ⟨hnodes, hexit⟩ := hlays.inStep hstep fun n hn => by
    obtain ⟨kind, hfinal, hkind, hdefine⟩ := hkinds n hn
    exact ⟨kind, hfinal, endsStep_eq_false (hplain n hn kind hkind) hdefine⟩
  refine ⟨fun n hn => ?_, hexit⟩
  obtain ⟨kind, hfinal, hkind, -⟩ := hkinds n hn
  refine orderly_of_inStep hfinal (begins_eq_false (hplain n hn kind hkind)) ?_ ?_ fun _ =>
    hnodes n hn
  · rintro rfl
    simpa [isSuspension] using (hcalm n hn).suspension _ hkind
  · rintro form region rfl -
    simpa [suspendsAt, hkind, opensSuspending, region?] using (hcalm n hn).region

/-- A node of a strand that is cut and what has been put behind it are in order, if a step is open
in front of it. -/
theorem orderly_turned {behind p' v : Strand} {src' dst' : Port}
    (hturned : Turned marked.label cut.label n b behind)
    (h₁ : cut.Lays src' (.leaf n (behind.append p')) dst')
    (h₂ : final.Lays src (.leaf n (behind.append v)) dst) (hn : n ∈ (t'.append tail).nodes)
    (hbehind : behind.nodes ⊆ (t'.append tail).nodes)
    (hshaped : ∃ kind, marked.kindOf n = some kind ∧ kind.region? = none ∧ kind.isClose = false)
    (hplain : ∀ kind, marked.kindOf n = some kind → kind.isLowered = false)
    (hopen : final.InStep src.1) : final.Orderly marked.label n ∧
    (∀ m ∈ behind.nodes, final.Orderly marked.label m) ∧
    (b = true → final.InStep (behind.exitPort (n, 0)).1) := by
  cases hturned with
  | @keep d hold hmove hnew =>
    have hlowered := hplain d.kind (kindOf_of_label hold rfl)
    have hkind := h.kindOf_final hn hnew fun guarded goal hgoto => by simp [hgoto,
      NodeKind.isLowered] at hlowered
    obtain ⟨kind, hk, hregion, -⟩ := hshaped
    obtain rfl := some.inj ((kindOf_of_label hold rfl).symm.trans hk)
    have hin : final.InStep n := by
      refine .back hkind (endsStep_eq_false hlowered ?_)
        (by rw [h₂.prevOf_leaf]; rfl) hopen
      intro name sig body hdefine
      simp [hdefine] at hregion
    refine ⟨orderly_of_inStep hkind (begins_eq_false hlowered) ?_
      (fun form region henter => by simp [henter] at hregion) fun _ => hin, by simp, fun _ => hin⟩
    rintro hyield
    simp [hyield, Lower.moveAt] at hmove
  | @yield j d hold hkind hnew hjump =>
    have hyield := h.kindOf_final hn hnew (by simp [hkind])
    rw [hkind] at hyield
    have hj := h.kindOf_jump (hbehind (by simp)) hjump rfl
    refine ⟨?_, h.orderly_jump (.jump hjump) hbehind, by simp⟩
    exact {
      inStep := fun _ _ _ => .back hyield rfl (by rw [h₂.prevOf_leaf]; rfl) hopen
      begins := by simp [hyield, NodeKind.begins]
      yields := fun _ => ⟨j, _, h₂.nextOf_leaf, hj⟩
      calm := by simp [hyield] }
  | branch hold hkind hdest hnew =>
    have hgoto := h.kindOf_jump hn hnew rfl
    have hin : b = true → final.InStep n := by
      rintro rfl
      exact .back hgoto rfl (by rw [h₂.prevOf_leaf]; rfl) hopen
    refine ⟨orderly_of_inStep hgoto rfl (by simp) (by simp) fun hacts => hin ?_, by simp, hin⟩
    cases b with
    | true => rfl
    | false => simp [acts] at hacts
  | @split j s f d form first sig name hold hkind hfirst hsuspends hnew hjump hs hf =>
    simp only [leaf_subset] at hbehind
    obtain ⟨hj, hsmem, hfmem, -⟩ := hbehind
    have hbegin := h.label_eq hn hnew
    rw [settled_of_ne (by simp)] at hbegin
    have hfinish := h.label_eq hfmem hf
    rw [settled_of_ne (by simp [Node.detached])] at hfinish
    have hstepKind := h.kindOf_final hsmem hs (by simp [bare, Node.detached])
    have hfinishKind := h.kindOf_final hfmem hf (by simp [Node.detached])
    -- the jump looks for a step from where it stands, and the next node is one
    have hscan : cut.Scan j (some s) :=
      .pass (kindOf_of_label hjump rfl) rfl (by rw [h₁.leaf_rest.nextOf_leaf]; rfl)
        (.found (kindOf_of_label hs rfl) rfl)
    have hgoto := h.kindOf_jump hj hjump rfl
    have hjmem := mem_cons_of_mem cut.entry (mem_cons_of_mem exit hj)
    simp only [getD_none, destination, h.streams.nextStep_eq hjmem hscan] at hgoto
    have hin : final.InStep n :=
      .back (kindOf_of_label hbegin rfl) rfl (by rw [h₂.prevOf_leaf]; rfl) hopen
    have hin' : final.InStep f :=
      .back hfinishKind rfl (by rw [h₂.leaf_rest.leaf_rest.leaf_rest.prevOf_leaf]; rfl)
        (.here hstepKind)
    have hsplit : final.Resumes d n := ⟨form, first, sig, j, s, f, name, hkind, hfirst, hbegin,
      h₂.nextOf_leaf, hgoto, hstepKind, h₂.leaf_rest.leaf_rest.nextOf_leaf, hfinish⟩
    refine ⟨?_, forall_leaf.mpr ⟨?_,
      forall_leaf.mpr ⟨?_, forall_leaf.mpr ⟨?_, by simp⟩⟩⟩, fun _ => hin'⟩
    · exact {
        inStep := fun _ _ _ => hin
        begins := fun _ _ _ => ⟨d, hold, hsplit⟩
        yields := by simp [kindOf_of_label hbegin rfl]
        calm := by simp [kindOf_of_label hbegin rfl] }
    · exact orderly_of_inStep hgoto rfl (by simp) (by simp) (by simp [acts])
    · exact orderly_of_inStep hstepKind rfl (by simp [bare, Node.detached])
        (by simp [bare, Node.detached]) (by simp [bare, Node.detached, acts])
    · exact orderly_of_inStep hfinishKind rfl (by simp [Node.detached])
        (by simp [Node.detached]) fun _ => hin'

/-- What a strand is cut into is in order. -/
theorem orderly_of_cut {p p' : Strand} (hcut : Cut marked.label cut.label b p p') {parent : NodeId}
    {src' dst' : Port} (h₁ : cut.Lays src' p' dst')
    (h₂ : final.Lays src (p'.dissolved cut.kindOf) dst) (hsub : p'.nodes ⊆ (t'.append tail).nodes)
    (hshaped : p.Shaped marked.kindOf) (hmarked : marked.Marked (p.placed marked.kindOf parent))
    (hplain : ∀ n ∈ p.nodes, ∀ kind, marked.kindOf n = some kind → kind.isLowered = false)
    (hstep : b = true → final.InStep src.1) :
    ∀ n ∈ (p'.dissolved cut.kindOf).nodes, final.Orderly marked.label n := by
  induction hcut generalizing parent src dst src' dst' with
  | done => simp [dissolved]
  | @leaf _ _ _ lead behind _ _ hlead hturned _ ih =>
    simp only [nodes_append lead, nodes_append behind, append_subset, leaf_subset] at hsub
    rw [forall_leaf] at hplain
    rw [dissolved_append, hlead.woven.dissolved_eq, dissolved, dissolved_append,
      hturned.woven.dissolved_eq] at h₂ ⊢
    obtain ⟨horderly, hopen⟩ := h.inStep_ahead hlead hsub.1 hstep
    replace h₁ := h₁.append_right
    replace h₂ := h₂.append_right
    obtain ⟨hn, hbehind, hstep'⟩ :=
      h.orderly_turned hturned h₁ h₂ hsub.2.1 hsub.2.2.1 hshaped.1 hplain.1 hopen
    simp only [nodes_append, Strand.nodes, forall_mem_append, forall_mem_cons]
    exact ⟨horderly, hn, hbehind, ih h₁.leaf_rest.append_right h₂.leaf_rest.append_right hsub.2.2.2
      hshaped.2 hmarked.leaf_rest hplain.2 hstep'⟩
  | @calm _ lead part _ _ hlead hcalm hnew _ ih =>
    obtain ⟨hshaped, hshapedRest⟩ := shaped_append.mp hshaped
    obtain ⟨hcalm, hmarked⟩ := hmarked.calm_part hcalm hshaped
    simp only [nodes_append lead, nodes_append part, append_subset] at hsub
    rw [nodes_append, forall_mem_append] at hplain
    rw [dissolved_append, hlead.woven.dissolved_eq, dissolved_append,
      dissolved_of_calmAt hnew hcalm] at h₂ ⊢
    obtain ⟨horderly, hopen⟩ := h.inStep_ahead hlead hsub.1 hstep
    obtain ⟨hpart, hexit⟩ :=
      h.orderly_part h₂.append_right.append_left hsub.2.1 hnew hcalm hplain.1 hshaped hopen
    simp only [nodes_append, forall_mem_append]
    exact ⟨horderly, hpart, ih h₁.append_right.append_right h₂.append_right.append_right hsub.2.2
      hshapedRest hmarked hplain.2 fun _ => hexit⟩
  | @region b b' o c d form lead body body' tail' rest rest' hentered hold hkind hnew hbody hjump
      hrest ihb ihr =>
    have hopen' := kindOf_of_label ((hnew _ (by simp)).trans hold) hkind
    simp only [nodes_append lead, nodes_append body', append_subset, region_subset,
      and_assoc] at hsub
    rw [forall_region] at hplain
    obtain ⟨hsublead, ho, hsubbody, hsubtail, hc, hsubrest⟩ := hsub
    replace h₁ := h₁.append_right
    rw [dissolved_append, hentered.woven.dissolved_eq, dissolved, dissolved_append,
      hjump.woven.dissolved_eq, dissolvesAt_of_enter hopen'] at h₂ ⊢
    cases hentered with
    | dissolve hform hlead =>
      simp only [hform, ne_eq, not_false_eq_true, decide_true, Bool.and_self, if_true] at h₂ ⊢
      simp only [nodes_append, forall_mem_append]
      exact ⟨h.orderly_jump hlead hsublead,
        ⟨ihb h₁.region_body.append_left h₂.append_right.append_left.append_left hsubbody
        hshaped.2.2.1 hmarked.region_body hplain.2.1 (by simp), h.orderly_jump hjump hsubtail⟩,
        ihr h₁.region_rest h₂.append_right.append_right hsubrest hshaped.2.2.2 hmarked.region_rest
        hplain.2.2.2 (by simp)⟩
    | descend hlead =>
      simp only [ne_eq, not_true_eq_false, decide_false, Bool.false_and, Bool.false_eq_true,
        if_false] at h₂ ⊢
      obtain ⟨horderly, hopen⟩ := h.inStep_ahead hlead hsublead hstep
      replace h₂ := h₂.append_right
      obtain ⟨hcond, hclose⟩ := h.kinds_of_cond ho hc hnew hold hkind hshaped.2.1
      have hin : final.InStep o := .back hcond rfl (by rw [h₂.prevOf_opener]; rfl) hopen
      simp only [nodes_append, forall_mem_append, forall_region]
      exact ⟨horderly, orderly_of_inStep hcond rfl (by simp) (by simp) fun _ => hin,
        ⟨ihb h₁.region_body.append_left h₂.region_body.append_left hsubbody hshaped.2.2.1
        hmarked.region_body hplain.2.1
          fun _ => hin, h.orderly_jump hjump hsubtail⟩,
        orderly_of_inStep hclose rfl (by simp) (by simp) (by simp [acts]),
        ihr h₁.region_rest h₂.region_rest hsubrest hshaped.2.2.2 hmarked.region_rest
        hplain.2.2.2 (by simp)⟩
  | @fork b o c d lead first first' tail₁ second second' tail₂ rest rest' hlead hold hkind hnew
      hfirst hjump hsecond hjump' hrest iha ihb ihr =>
    simp only [nodes_append lead, nodes_append first', nodes_append second', append_subset,
      fork_subset, and_assoc] at hsub
    rw [forall_fork] at hplain
    obtain ⟨hsublead, ho, hsubfirst, hsubtail, hsubsecond, hsubtail', hc, hsubrest⟩ := hsub
    obtain ⟨horderly, hopen⟩ := h.inStep_ahead hlead hsublead hstep
    replace h₁ := h₁.append_right
    rw [dissolved_append, hlead.woven.dissolved_eq, dissolved, dissolved_append, dissolved_append,
      hjump.woven.dissolved_eq, hjump'.woven.dissolved_eq] at h₂ ⊢
    replace h₂ := h₂.append_right
    obtain ⟨hcond, hclose⟩ := h.kinds_of_cond ho hc hnew hold hkind hshaped.2.1
    have hin : final.InStep o := .back hcond rfl (by rw [h₂.prevOf_fork]; rfl) hopen
    simp only [nodes_append, forall_mem_append, forall_fork, and_assoc]
    exact ⟨horderly, orderly_of_inStep hcond rfl (by simp) (by simp) fun _ => hin,
      iha h₁.fork_first.append_left h₂.fork_first.append_left hsubfirst hshaped.2.2.1
      hmarked.fork_first hplain.2.1 fun _ => hin, h.orderly_jump hjump hsubtail,
      ihb h₁.fork_second.append_left h₂.fork_second.append_left hsubsecond hshaped.2.2.2.1
      hmarked.fork_second hplain.2.2.1 fun _ => hin, h.orderly_jump hjump' hsubtail',
      orderly_of_inStep hclose rfl (by simp) (by simp) (by simp [acts]), ihr h₁.fork_rest
      h₂.fork_rest hsubrest hshaped.2.2.2.2 hmarked.fork_rest hplain.2.2.2.2 (by simp)⟩

/-- Every node of the routine that has been lowered is in order. -/
theorem orderly (hr : r.Coroutine exit t)
    (hn : n ∈ final.entry :: exit :: ((t'.append tail).dissolved cut.kindOf).nodes) :
    final.Orderly r.label n := by
  have hstreams := h.final_streams
  have horderly : final.Orderly marked.label n := by
    simp only [mem_cons] at hn
    rcases hn with rfl | rfl | hn
    · obtain ⟨name, sig, suspends, hentry⟩ := hstreams.entry_kind
      exact orderly_of_inStep hentry rfl (by simp) (by simp)
        (by simp [acts])
    · exact orderly_of_inStep hstreams.exit_kind rfl (by simp) (by simp)
        (by simp [acts])
    · have htail : tail.dissolved cut.kindOf = tail := by
        have hleaves := h.leaves
        cases hleaves <;> rfl
      have hlays := hstreams.toLays
      rw [dissolved_append, htail] at hlays hn
      rw [nodes_append, mem_append] at hn
      rcases hn with hn | hn
      · exact h.orderly_of_cut h.cuts h.streams.append_left hlays.append_left
          (fun m hm => by simp [hm])
          (h.spreads.streams hr.toStreams).shaped h.marks (h.marked_plain hr)
          (fun hopen => absurd hopen Bool.false_ne_true) n hn
      · exact h.orderly_jump h.leaves (fun m hm => by simp [hm]) n hn
  refine { horderly with begins := fun kind hkind hbegins => ?_ }
  obtain ⟨call, hcall, hresumes⟩ := horderly.begins kind hkind hbegins
  refine ⟨call, (h.spreads.label_iff ?_).mp hcall, hresumes⟩
  obtain ⟨form, first, sig, -, -, -, -, hcallKind, -⟩ := hresumes
  simp [hcallKind]

end

end Stages

end Routine

/-- Lowering succeeds. Afterwards the check passes, every jump goes to a step of the stream or ends
the routine, every branch that is left goes to a region around it, no block or loop suspends,
whatever does something stands in a step, and behind a suspension comes a jump, which for a call
leads to the step that takes the result. -/
theorem Lower.lowerToSteps_orderly {l : Lowering} {exit : NodeId} {t : Strand}
    (h : l.routine.Coroutine exit t) : Action.Yields lowerToSteps l fun _ l' =>
      l'.routine.verify = .ok () ∧ ∃ u live, l'.routine.Streams exit u ∧
        l'.routine.liveNodes = .ok live ∧ live.Perm (l'.routine.entry :: exit :: u.nodes) ∧
        u.BranchesFit l'.routine.kindOf [] ∧ ∀ n ∈ live, l'.routine.Orderly l.routine.label n ∧
          ∀ guarded goal, l'.routine.kindOf n = some (.goto guarded goal) →
            l'.routine.Lands live goal := by
  refine yields_lowerToSteps h fun l' marked cut settled t' tail hstages =>
    ⟨hstages.verify_eq_ok h, ?_⟩
  have hstreams := hstages.final_streams
  have hwell : l'.routine.WellStructured exit _ := ⟨hstreams, hstages.verify_eq_ok h⟩
  obtain ⟨live, hlive, hperm⟩ := hstreams.liveNodes_eq
  refine ⟨_, live, hstreams, hlive, hperm, hstages.branchesFit h [], fun n hn => ?_⟩
  have hmem := hperm.mem_iff.mp hn
  refine ⟨hstages.orderly h hmem, fun guarded goal hkind => ?_⟩
  have hlands := (hwell.fits hmem).lands guarded goal hkind
  cases goal with
  | step m => exact hlands.imp_left hperm.mem_iff.mpr
  | pending | terminal => exact hlands

/-- A coroutine that calls another one in a loop, as long as the result says so, and yields in
between. -/
theorem Lower.lowerToSteps_orderly_loop :
    let callee : Signature := ⟨[], none, .coroutine⟩
    let calls : List Instruction :=
      [.tmp none, .loop, .call (some 1) callee [.var 1], .yieldNow, .branchIf (.var 1) 2,
        .close, .ret [.var 1]]
    ∃ r b' t, Build.finish (Build.play default calls (Build.define "main" default)).1 = .ok r b' ∧
      r.Coroutine 1 t ∧ ∀ l : Lowering, l.routine = r → Action.Yields lowerToSteps l fun _ l' =>
      l'.routine.verify = .ok () ∧ ∃ u live, l'.routine.Streams 1 u ∧ l'.routine.liveNodes =
      .ok live ∧ live.Perm (l'.routine.entry :: 1 :: u.nodes) ∧ u.BranchesFit l'.routine.kindOf [] ∧
          ∀ n ∈ live, l'.routine.Orderly r.label n ∧
            ∀ guarded goal, l'.routine.kindOf n = some (.goto guarded goal) →
            l'.routine.Lands live goal := by
  intro callee calls
  obtain ⟨r, b', -, hfinish, hbuilt, -, hsuspends⟩ :=
    Build.exists_main calls (by decide) (fun r => r.suspends = .ok true) (by decide +kernel)
  obtain ⟨t, ht⟩ := hbuilt.coroutine hsuspends
  exact ⟨r, b', t, hfinish, ht, fun l hl => hl ▸ lowerToSteps_orderly (hl ▸ ht)⟩

end CoroutineIR
