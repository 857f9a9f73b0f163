import CoroutineIR.Proofs.Expression
import CoroutineIR.Proofs.Recasting

/-!
# The check after the lowering

A routine that has been lowered passes the check: sub-expressions stay detached, the accesses along
the stream are the same as before, so that the counts are exact, every jump is settled, and every
branch that is left goes to a region around it.
-/

namespace CoroutineIR

open List Option Attempt Routine Strand NodeKind Node

/-! ### Nodes -/

/-- What the check asks of a node by itself is the same. -/
structure Node.Matches (d d' : Node) : Prop where
  args : d'.args = d.args
  dest : d'.dest = d.dest
  accesses : d'.accesses = d.accesses
  conditional : d'.kind.isConditional = d.kind.isConditional

namespace Node.Matches

variable {d d' d'' : Node}

theorem refl (d : Node) : d.Matches d := ⟨rfl, rfl, rfl, rfl⟩

theorem trans (h : d.Matches d') (h' : d'.Matches d'') : d.Matches d'' :=
  ⟨h'.args.trans h.args, h'.dest.trans h.dest, h'.accesses.trans h.accesses,
    h'.conditional.trans h.conditional⟩

theorem marked (d : Node) : d.Matches d.marked :=
    ⟨rfl, rfl, d.accesses_marked, d.isConditional_marked⟩

/-- A branch and a jump under the same condition. -/
theorem jump {guarded : Bool} {goal : Branch} (h : d.kind = .branch guarded goal) (jump : Jump) :
    d.Matches { d with kind := .goto guarded jump } := by
  obtain ⟨kind, ty, dest, args, next, prev⟩ := d
  obtain rfl : kind = .branch guarded goal := h
  cases dest <;> exact ⟨rfl, rfl, rfl, rfl⟩

theorem settled (r : Routine) (n : NodeId) (d : Node) : d.Matches (r.settled n d) := by
  unfold Routine.settled
  obtain ⟨kind, ty, dest, args, next, prev⟩ := d
  dsimp only
  split
  · cases dest <;> exact ⟨rfl, rfl, rfl, rfl⟩
  · exact .refl _

end Node.Matches

namespace Routine.Stages

variable {r marked cut settled final : Routine} {exit n m : NodeId} {t t' tail : Strand}
  {d d' : Node} {guarded : Bool} {goal : Jump}

section

variable (h : r.Stages marked cut settled final exit t t' tail)
include h

theorem mem_cut (hn : n ∈ t.nodes) : n ∈ (t'.append tail).nodes := by
  simp [h.cuts.weaves.1 hn]

theorem marked_label (hd : r.label n = some d) : ∃ d', marked.label n = some d' ∧ d.Matches d' := by
  rcases h.spreads.labels n with heq | heq
  · exact ⟨d, heq.trans hd, .refl d⟩
  · exact ⟨d.marked, by rw [heq, hd]; rfl, .marked d⟩

/-- A node that is no leaf of the stream. -/
theorem label_outside (hd : r.label n = some d) (hn : n ∉ t.leaves) :
    ∃ d', final.label n = some d' ∧ d.Matches d' := by
  obtain ⟨d₁, hd₁, hmatches⟩ := h.marked_label hd
  have hd₂ := h.revises.labels n d₁ hd₁ fun hmem => absurd hmem hn
  rw [h.rewires.label]
  rcases h.settles.labels n d₁ hd₂ with hd₃ | ⟨hd₃, -⟩
  · exact ⟨_, hd₃, hmatches.trans (.settled cut n d₁)⟩
  · exact ⟨_, hd₃, hmatches⟩

/-- A node of the stream. -/
theorem label_inside (hd : r.label n = some d) (hn : n ∈ t.nodes) :
      ∃ d', final.label n = some d' ∧ (d.Matches d' ∨ ∃ form first sig, d.kind = .call form sig ∧
        d' = { d with kind := .call first sig, dest := none }) := by
  obtain ⟨d₁, hd₁, hmatches⟩ := h.marked_label hd
  obtain ⟨d₂, hd₂, hrecast⟩ := h.cuts.recast hn hd₁
  refine ⟨_, h.label_eq (h.mem_cut hn) hd₂, ?_⟩
  cases hrecast with
  | same => exact Or.inl (hmatches.trans (.settled cut n _))
  | jump hkind => exact Or.inl ((hmatches.trans (.jump hkind _)).trans (.settled cut n _))
  | @begin form first sig hkind hfirst hsuspends =>
    have hd' := (h.spreads.label_iff (by simp [hkind])).mp hd₁
    obtain rfl := some.inj (hd.symm.trans hd')
    exact Or.inr ⟨form, first, sig, hkind, by rw [settled_of_ne (by simp)]⟩

theorem detached (hm : m < r.nodes.size) (hdetached : r.Detached m) : final.Detached m := by
  refine h.rewires.detached m ?_
  rw [Detached, h.settles.next, h.settles.prev]
  refine h.revises.detached m (h.spreads.size ▸ hm) ?_
  rw [Detached, h.spreads.next, h.spreads.prev]
  exact hdetached

/-- What is nested in a node of the stream is the same as before. -/
theorem nested_eq (hr : r.Coroutine exit t) (hn : n ∈ r.live exit t) :
    final.nested n = .ok (n :: r.below n) ∧ ∀ m ∈ r.below n, ∃ d d', r.label m = some d ∧
    final.label m = some d' ∧ d.Matches d' := by
  have hinner : ∀ m ∈ r.below n, ∃ d d', r.label m = some d ∧ final.label m = some d' ∧
      d.Matches d' := by
    intro m hm
    obtain ⟨d, hd⟩ := hr.exists_label_below hn hm
    have hleaf : m ∉ t.leaves :=
      fun hmem => hr.not_mem_below hn (by simp [t.leaves_sublist.subset hmem]) hm
    exact ⟨d, (h.label_outside hd hleaf).imp fun _ hd' => ⟨hd, hd'⟩⟩
  have hoperands : ∀ {m d d'}, r.label m = some d → final.label m = some d' → d'.args = d.args →
      final.operandNodes m = r.operandNodes m := fun hd hd' hargs => by
    rw [operandNodes, operandNodes, hd, hd', map_some, map_some, hargs]
  refine ⟨nested_congr (hr.nested_eq hn) (forall_mem_cons.mpr ⟨?_, fun m hm => ?_⟩), hinner⟩
  · obtain ⟨d, hd⟩ := exists_label_of_nested (hr.nested_eq hn) (mem_cons_self ..)
    by_cases hmem : n ∈ t.nodes
    · obtain ⟨d', hd', hcases⟩ := h.label_inside hd hmem
      refine hoperands hd hd' ?_
      rcases hcases with hmatches | ⟨_, _, _, -, rfl⟩
      · exact hmatches.args
      · rfl
    · obtain ⟨d', hd', hmatches⟩ := h.label_outside hd fun hleaf =>
        hmem (t.leaves_sublist.subset hleaf)
      exact hoperands hd hd' hmatches.args
  · obtain ⟨d, d', hd, hd', hmatches⟩ := hinner m hm
    exact hoperands hd hd' hmatches.args

/-- Every node of the stream has been there before or is inserted. -/
theorem mem_or_inserted (hn : n ∈ (t'.append tail).nodes) :
    n ∈ t.nodes ∨ ∃ d, cut.label n = some d ∧ d.Inserted := by
  rw [nodes_append, mem_append] at hn
  exact hn.elim (h.cuts.weaves.2 n) fun hn => Or.inr (h.leaves.woven.inserted n hn)

theorem inserted_label (hn : n ∈ (t'.append tail).nodes) (hd : cut.label n = some d)
    (hinserted : d.Inserted) : ∃ d', final.label n = some d' ∧ d.Matches d' ∧ d'.args = [] := by
  refine ⟨_, h.label_eq hn hd, .settled cut n d, ?_⟩
  rw [(Node.Matches.settled cut n d).args]
  cases hinserted <;> rfl

/-! ### Accesses -/

/-- A node of the stream accesses what it did, apart from what the node itself does. -/
theorem accessesOf_split (hr : r.Coroutine exit t) (hn : n ∈ r.live exit t)
    (hd : r.label n = some d) (hd' : final.label n = some d') :
    ∃ more, r.accessesOf n = d.accesses ++ more ∧ final.accessesOf n = d'.accesses ++ more := by
  obtain ⟨hnested, hinner⟩ := h.nested_eq hr hn
  refine ⟨(r.below n).flatMap r.innerAccesses, by rw [accessesOf_eq, accessesAt_self hd], ?_⟩
  rw [accessesOf_eq, accessesAt_self hd', below_of_nested hnested]
  refine congrArg _ (flatMap_congr fun m hm => ?_)
  obtain ⟨e, e', he, he', hmatches⟩ := hinner m hm
  rw [innerAccesses, innerAccesses, he, he', elim_some, elim_some, hmatches.accesses, hmatches.dest]

theorem accessesOf_of_matches (hr : r.Coroutine exit t) (hn : n ∈ r.live exit t)
    (hd : r.label n = some d) (hd' : final.label n = some d') (hmatches : d.Matches d') :
    final.accessesOf n = r.accessesOf n := by
  obtain ⟨more, hold, hnew⟩ := h.accessesOf_split hr hn hd hd'
  rw [hold, hnew, hmatches.accesses]

theorem accessesOf_inserted (hn : n ∈ (t'.append tail).nodes) (hd : cut.label n = some d)
    (hinserted : d.Inserted) : final.accessesOf n = d.accesses := by
  obtain ⟨d', hd', hmatches, hargs⟩ := h.inserted_label hn hd hinserted
  rw [accessesOf_flat hd' (by simp [Node.Flat, hargs]), hmatches.accesses]

/-- What is taken out is a node that only opens or closes a region. -/
theorem bracket_of_gone (hr : r.Coroutine exit t)
    (hn : n ∈ (t'.append tail).nodes) (hgone : goneAt cut.kindOf n = true) :
    n ∈ t.nodes ∧ ∃ d, r.label n = some d ∧ d.kind.isBracket = true := by
  obtain ⟨kind, hkind⟩ := h.streams.shaped.exists_kind hn
  obtain ⟨d₂, hd₂, rfl⟩ := map_eq_some_iff.mp hkind
  have hbracket : d₂.kind.isBracket = true := by
    cases hk : d₂.kind with
    | close => rfl
    | enter form region =>
      rw [goneAt_of_ne hkind (by simp [hk]), hk] at hgone
      cases form <;> simp_all [Lower.isDissolved, isBracket]
    | _ =>
      rw [goneAt_of_ne hkind (by simp [hk]), hk] at hgone
      simp [Lower.isDissolved] at hgone
  rcases h.mem_or_inserted hn with hmem | ⟨e, he, hinserted⟩
  · refine ⟨hmem, ?_⟩
    obtain ⟨d, hd⟩ := hr.exists_node (n := n) (by simp [hmem])
    refine ⟨_, Routine.label_eq hd, ?_⟩
    obtain ⟨d₁, hd₁, -⟩ := h.marked_label (Routine.label_eq hd)
    obtain ⟨e, he, hrecast⟩ := h.cuts.recast hmem hd₁
    obtain rfl := some.inj (hd₂.symm.trans he)
    have hsame : d₁.kind.isBracket = true := by
      cases hrecast with
      | same => exact hbracket
      | jump | begin => simp [isBracket] at hbracket
    have hunmarked : ∀ kind : NodeKind, kind.unmarked.isBracket = kind.isBracket := by
      intro kind
      cases kind with
      | enter form region => cases form <;> rfl
      | _ => rfl
    have hkinds := h.spreads.kindOf_unmarked n
    rw [kindOf, hd₁, kindOf, Routine.label_eq hd, map_some, map_some, map_some, map_some,
      some.injEq] at hkinds
    rw [← hunmarked, ← hkinds, hunmarked]
    exact hsame
  · obtain rfl := some.inj (hd₂.symm.trans he)
    cases hinserted <;> simp [openJump, bare, Node.detached, isBracket] at hbracket

theorem entry_eq_entry : final.entry = r.entry := by
  rw [h.entry_eq, h.revises.entry, h.spreads.entry]

/-- The ends of the stream stay as they are. -/
theorem ends_label (hr : r.Streams exit t) (hn : n ∈ [r.entry, exit]) :
    n ∈ r.live exit t ∧ ∃ d d', r.label n = some d ∧ final.label n = some d' ∧ d.Matches d' := by
  have hmem : n ∈ r.live exit t := by
    simp only [mem_cons, not_mem_nil, or_false] at hn ⊢
    exact hn.imp_right Or.inl
  have hnot : n ∉ t.nodes := by
    simp only [mem_cons, not_mem_nil, or_false] at hn
    rcases hn with rfl | rfl
    · exact hr.entry_not_mem
    · exact hr.exit_not_mem
  obtain ⟨d, hd⟩ := hr.exists_node hmem
  exact ⟨hmem, _, (h.label_outside (Routine.label_eq hd) fun hleaf =>
    hnot (t.leaves_sublist.subset hleaf)).imp fun _ hd' => ⟨Routine.label_eq hd, hd'⟩⟩

theorem accessesOf_ends (hr : r.Coroutine exit t) (hn : n ∈ [r.entry, exit]) :
    final.accessesOf n = r.accessesOf n := by
  obtain ⟨hmem, d, d', hd, hd', hmatches⟩ := h.ends_label hr.toStreams hn
  exact h.accessesOf_of_matches hr hmem hd hd' hmatches

end

/-- The two halves of a call access what the call did. -/
theorem perm_halves {form first : CallForm} {sig : Signature} (hkind : d.kind = .call form sig)
    (below : List (VarId × Access)) :
    ((({ d with kind := .call first sig, dest := none } : Node).accesses ++ below) ++
      (Node.detached (.call .finish sig) d.dest d.ty []).accesses).Perm (d.accesses ++ below) := by
  obtain ⟨kind, ty, dest, args, next, prev⟩ := d
  obtain rfl : kind = .call form sig := hkind
  cases dest with
  | none => simp [Node.accesses, Node.detached]
  | some v =>
    simp only [Node.accesses, Node.detached, filterMap_nil, map_nil, append_nil, nil_append,
      singleton_append]
    exact perm_append_singleton _ _

section

variable (h : r.Stages marked cut settled final exit t t' tail)
include h

/-- A node that is not from the routine before has been put into the stream. -/
theorem exists_inserted (hn : n ∈ final.entry :: exit :: (t'.append tail).nodes)
    (hnew : n ∉ r.live exit t) :
    n ∈ (t'.append tail).nodes ∧ ∃ d, cut.label n = some d ∧ d.Inserted := by
  rw [h.entry_eq_entry] at hn
  simp only [mem_cons, not_or] at hn hnew
  have hcut := (hn.resolve_left hnew.1).resolve_left hnew.2.1
  exact ⟨hcut, (h.mem_or_inserted hcut).resolve_left hnew.2.2⟩

/-- Sub-expressions still lie beside the stream. -/
theorem nestsDetached (hr : r.Coroutine exit t)
    (hn : n ∈ final.entry :: exit :: (t'.append tail).nodes) : final.NestsDetached n := by
  by_cases hmem : n ∈ r.live exit t
  · obtain ⟨hnested, hinner⟩ := h.nested_eq hr hmem
    have hbelow := below_of_nested hnested
    refine nestsDetached_of_below (hbelow.symm ▸ hnested) fun m hm => ?_
    rw [hbelow] at hm
    obtain ⟨e, -, he, -⟩ := hinner m hm
    exact h.detached (lt_of_label he) (hr.below_detached hmem hm).2
  · obtain ⟨hcut, e, he, hinserted⟩ := h.exists_inserted hn hmem
    obtain ⟨d', hd', -, hargs⟩ := h.inserted_label hcut he hinserted
    exact ⟨[n], nested_flat hd' (by simp [Node.Flat, hargs]), by simp⟩

/-- The nodes left in the stream access what those before did. -/
theorem accesses_perm (hr : r.Coroutine exit t) :
    (((t'.append tail).dissolved cut.kindOf).nodes.flatMap final.accessesOf).Perm
    (t.nodes.flatMap r.accessesOf) := by
  have hstream : ∀ {n}, n ∈ t.nodes → n ∈ r.live exit t := fun hn => by simp [hn]
  have hinserted : ∀ m ∈ (t'.append tail).nodes, ∀ d, cut.label m = some d → d.Inserted →
      d.dest = none → final.accessesOf m = [] := by
    intro m hm d hd hinserted hdest
    rw [h.accessesOf_inserted hm hd hinserted]
    cases hinserted with
    | jump | step => rfl
    | finish sig dest ty =>
      obtain rfl : dest = none := hdest
      rfl
  have hgone : ∀ m ∈ (t'.append tail).nodes, goneAt cut.kindOf m = true →
      final.accessesOf m = [] := by
    intro m hm hgone
    obtain ⟨hmem, d, hd, hbracket⟩ := h.bracket_of_gone hr hm hgone
    obtain ⟨hargs, hdest⟩ := hr.brackets m hmem d hd hbracket
    obtain ⟨d', hd', hcases⟩ := h.label_inside hd hmem
    have hmatches : d.Matches d' := by
      refine hcases.resolve_right ?_
      rintro ⟨_, _, _, hkind, _⟩
      simp [hkind, isBracket] at hbracket
    rw [h.accessesOf_of_matches hr (hstream hmem) hd hd' hmatches,
      accessesOf_flat hd (by simp [Node.Flat, hargs])]
    simp [Node.accesses, hargs, hdest]
  have hmarked : ∀ {m d}, marked.label m = some d → d.kind.region? = none → r.label m = some d :=
    fun hd hregion => (h.spreads.label_iff hregion).mp hd
  rw [h.streams.shaped.flatMap_dissolved hgone]
  have htail : tail.nodes.flatMap final.accessesOf = [] := by
    have hleaves := h.leaves
    cases hleaves with
    | none => rfl
    | @jump j hj => simp [hinserted j (by simp [Strand.nodes]) _ hj .jump rfl]
  rw [nodes_append, flatMap_append, htail, append_nil]
  refine h.cuts.perm_flatMap (List.Subset.refl _) (fun m hm => by simp [hm]) hinserted
    (fun m hm heq => ?_) (fun m hm d guarded goal dest hd hkind hnew => ?_)
    fun m hm f hf d form first sig hd hkind hnew hfinish => ?_
  · obtain ⟨d, hd⟩ := hr.exists_node (hstream hm)
    obtain ⟨d₁, hd₁, hmatches⟩ := h.marked_label (Routine.label_eq hd)
    exact h.accessesOf_of_matches hr (hstream hm) (Routine.label_eq hd)
      (h.label_eq (h.mem_cut hm) (heq.trans hd₁)) (hmatches.trans (.settled cut m d₁))
  · exact h.accessesOf_of_matches hr (hstream hm) (hmarked hd (by simp [hkind]))
      (h.label_eq (h.mem_cut hm) hnew) ((Node.Matches.jump hkind _).trans (.settled cut m _))
  · have hd' := hmarked hd (by simp [hkind])
    have hbegin := h.label_eq (h.mem_cut hm) hnew
    rw [settled_of_ne (by simp)] at hbegin
    obtain ⟨more, hold, hnew'⟩ := h.accessesOf_split hr (hstream hm) hd' hbegin
    rw [hnew', h.accessesOf_inserted hf hfinish (.finish ..), hold]
    exact perm_halves hkind more

/-- The counts are exact after the lowering. -/
theorem counted (hr : r.Coroutine exit t) :
    final.Counted (final.entry :: exit :: ((t'.append tail).dissolved cut.kindOf).nodes) := by
  refine hr.accounted.counted_of_balance (by rw [h.rewires.mem, h.settles.mem, h.revises.mem,
    h.spreads.mem]) (Nat.le_of_eq (by rw [h.rewires.vars, h.settles.vars, h.revises.vars,
    h.spreads.vars])) (fun n hn => h.nestsDetached hr ?_) fun v access => ?_
  · simp only [mem_cons] at hn ⊢
    exact hn.imp_right (Or.imp_right fun hn => (h.streams.shaped.mem_dissolved.mp hn).1)
  · have htally : final.tally v access = r.tally v access := by
      rw [tally_congr (h.rewires.vars.trans h.settles.vars), h.revises.tally,
        tally_congr h.spreads.vars]
    simp only [htally, h.entry_eq_entry, flatMap_cons, count_append, (h.accesses_perm hr).count_eq,
      h.accessesOf_ends hr (mem_cons_self ..),
      h.accessesOf_ends hr (mem_cons_of_mem _ (mem_cons_self ..))]

/-! ### The check -/

/-- Every node that is not taken out of the stream has stayed. -/
theorem mem_final (hn : n ∈ (t'.append tail).nodes) {kind : NodeKind}
    (hkind : cut.kindOf n = some kind) (hregion : kind.region? = none)
    (hclose : kind.isClose = false) : n ∈ ((t'.append tail).dissolved cut.kindOf).nodes :=
  h.streams.shaped.mem_dissolved.mpr ⟨hn, goneAt_leaf hkind hregion hclose⟩

variable (hr : r.Coroutine exit t)
include hr

/-- The cut leaves no jump settled. -/
theorem pending_of_goto (hn : n ∈ (t'.append tail).nodes) (hd : cut.label n = some d)
    (hkind : d.kind = .goto guarded goal) : ∃ origin, goal = .pending origin := by
  rcases h.mem_or_inserted hn with hmem | ⟨e, he, hinserted⟩
  · obtain ⟨d₀, hd₀⟩ := hr.exists_node (n := n) (by simp [hmem])
    obtain ⟨d₁, hd₁, -⟩ := h.marked_label (Routine.label_eq hd₀)
    obtain ⟨e, he, hrecast⟩ := h.cuts.recast hmem hd₁
    obtain rfl := some.inj (hd.symm.trans he)
    cases hrecast with
    | same =>
      have hlowered := hr.plain n hmem _ ((h.spreads.kindOf_iff rfl).mp (kindOf_of_label hd₁ hkind))
      simp [isLowered] at hlowered
    | jump =>
      obtain ⟨-, rfl⟩ := NodeKind.goto.inj hkind
      exact ⟨_, rfl⟩
    | begin => simp at hkind
  · obtain rfl := some.inj (hd.symm.trans he)
    cases hinserted with
    | jump =>
      obtain ⟨-, rfl⟩ := NodeKind.goto.inj hkind
      exact ⟨_, rfl⟩
    | step | finish => simp [bare, Node.detached] at hkind

omit hr in
/-- What is found by looking for a step is a step of the stream. -/
theorem step_of_scan (hn : n ∈ cut.entry :: exit :: (t'.append tail).nodes) {res : Option NodeId}
    (hscan : cut.Scan n res) (hres : res = some m) :
    m ∈ ((t'.append tail).dissolved cut.kindOf).nodes ∧
    ∃ name, final.kindOf m = some (.step name) := by
  induction hscan with
  | @found n kind hkind hstep =>
    obtain rfl := some.inj hres
    obtain ⟨name, rfl⟩ : ∃ name, kind = .step name := by
      cases kind <;> simp at hstep
      exact ⟨_, rfl⟩
    have hmem := h.streams.mem_of_kindOf hn hkind (by simp)
    refine ⟨h.mem_final hmem hkind rfl rfl, name, ?_⟩
    obtain ⟨d, hd, hdk⟩ := map_eq_some_iff.mp hkind
    rw [kindOf, h.label_eq hmem hd, settled_of_ne (by simp [hdk]), map_some, hdk]
  | pass _ _ hnext _ ih => exact ih (h.streams.next_mem hn (mem_of_head? hnext)) hres
  | last => simp at hres

/-- Every jump goes to a step of the stream or ends the routine. -/
theorem lands (hn : n ∈ (t'.append tail).nodes)
    (hkind : final.kindOf n = some (.goto guarded goal)) :
    final.Lands (final.entry :: exit :: ((t'.append tail).dissolved cut.kindOf).nodes) goal := by
  obtain ⟨kind, hk⟩ := h.streams.shaped.exists_kind hn
  obtain ⟨d, hd, rfl⟩ := map_eq_some_iff.mp hk
  rw [kindOf, h.label_eq hn hd, map_some, some.injEq] at hkind
  obtain ⟨origin, hpending, rfl⟩ : ∃ origin, d.kind = .goto guarded (.pending origin) ∧
      goal = cut.destination (origin.getD n) := by
    rcases cut.settled_kind n d with hsame | ⟨guarded', origin, hpending, hsettled⟩
    · obtain ⟨origin, rfl⟩ := h.pending_of_goto hr hn hd (hsame.symm.trans hkind)
      rw [settled_of_eq (hsame.symm.trans hkind)] at hkind
      exact absurd (NodeKind.goto.inj hkind).2 (cut.destination_ne_pending _ _)
    · obtain ⟨rfl, rfl⟩ := NodeKind.goto.inj (hkind.symm.trans hsettled)
      exact ⟨origin, hpending, rfl⟩
  have horigin := h.origins n hn d guarded origin hd hpending
  obtain ⟨res, hscan⟩ := h.streams.exists_scan horigin
  rw [destination, h.streams.nextStep_eq horigin hscan]
  cases res with
  | none => trivial
  | some m =>
    obtain ⟨hm, hstep⟩ := h.step_of_scan horigin hscan rfl
    exact ⟨by simp [hm], hstep⟩

/-- The regions around a branch that is left are those it has had. -/
theorem branchesFit (around : List NodeId) :
    ((t'.append tail).dissolved cut.kindOf).BranchesFit final.kindOf around := by
  have hsub : t'.nodes ⊆ (t'.append tail).nodes := fun n hn => by simp [hn]
  rw [dissolved_append, branchesFit_append]
  refine ⟨branchesFit_of_cut (fun n hn d hd => h.label_eq hn hd) h.cuts hsub
    (h.spreads.streams hr.toStreams).shaped (h.marked_fit hr) h.marks (h.marked_no_goto hr)
    (forall_mem_singleton.mpr (h.marked_suspends hr)) around, ?_⟩
  have hleaves := h.leaves
  cases hleaves with
  | none => trivial
  | @jump j hj =>
    refine ⟨fun guarded goal hbranch => ?_, trivial⟩
    rw [kindOf, h.label_eq (by simp) hj, map_some, some.injEq] at hbranch
    rcases cut.settled_kind j openJump with hsame | ⟨_, _, -, hjump⟩
    · exact absurd (hsame.symm.trans hbranch) (by simp [openJump, bare, Node.detached])
    · simp [hbranch] at hjump

/-- Conditions still have one operand. -/
theorem condition (hn : n ∈ final.entry :: exit :: (t'.append tail).nodes)
    (hd : final.label n = some d) (hconditional : d.kind.isConditional = true) :
    d.args.length = 1 := by
  -- what the check has asked of a node before holds of it still
  have hbefore : ∀ {e : Node}, n ∈ r.live exit t → r.label n = some e → e.Matches d →
      d.args.length = 1 := by
    intro e hmem he hmatches
    rw [hmatches.args]
    exact (hr.fits hmem).condition e he (hmatches.conditional ▸ hconditional)
  by_cases hmem : n ∈ r.live exit t
  · obtain ⟨e, he⟩ := hr.exists_node hmem
    by_cases hinside : n ∈ t.nodes
    · obtain ⟨d', hd', hcases⟩ := h.label_inside (Routine.label_eq he) hinside
      obtain rfl := some.inj (hd.symm.trans hd')
      rcases hcases with hmatches | ⟨_, _, _, -, rfl⟩
      · exact hbefore hmem (Routine.label_eq he) hmatches
      · simp at hconditional
    · obtain ⟨d', hd', hmatches⟩ := h.label_outside (Routine.label_eq he) fun hleaf =>
        hinside (t.leaves_sublist.subset hleaf)
      obtain rfl := some.inj (hd.symm.trans hd')
      exact hbefore hmem (Routine.label_eq he) hmatches
  · obtain ⟨hcut, e, he, hinserted⟩ := h.exists_inserted hn hmem
    obtain rfl := some.inj (hd.symm.trans (h.label_eq hcut he))
    rw [(Node.Matches.settled cut n e).conditional] at hconditional
    cases hinserted <;> simp [openJump, bare, Node.detached] at hconditional

/-- A routine that has been lowered passes the check. -/
theorem verify_eq_ok : final.verify = .ok () := by
  have hstreams := h.final_streams
  have hbranches := h.branchesFit hr [final.entry]
  refine hstreams.verify_eq_ok_iff.mpr ⟨hbranches, fun n hn => ?_, h.counted hr⟩
  have hcut : n ∈ final.entry :: exit :: (t'.append tail).nodes := by
    simp only [mem_cons] at hn ⊢
    exact hn.imp_right (Or.imp_right fun hn => (h.streams.shaped.mem_dissolved.mp hn).1)
  refine ⟨⟨fun guarded goal hbranch => ?_, fun guarded goal hjump => ?_,
    fun d hd hcond => h.condition hr hcut hd hcond⟩, h.nestsDetached hr hcut⟩
  · exact hstreams.branch_target hbranches hn hbranch
  · refine h.lands hr (n := n) ?_ hjump
    exact (h.streams.shaped.mem_dissolved.mp (hstreams.mem_of_kindOf hn hjump (by simp))).1

end

end Routine.Stages

end CoroutineIR
