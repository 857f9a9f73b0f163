import CoroutineIR.Proofs.Finished
import CoroutineIR.Proofs.Settling
import CoroutineIR.Proofs.Stepping

/-!
# The stages of the lowering

The lowering spreads marks of suspension, cuts the stream into steps, settles the jumps and
dissolves regions. On a coroutine none of this fails, and what each walk leaves behind is what the
next one asks for.
-/

namespace CoroutineIR

variable {r r' : Routine} {exit : NodeId} {t : Strand} {kinds : NodeId → Option NodeKind}

open List Option CoroutineIR.Action Strand NodeKind Edit Lower

namespace Routine

variable {placed : List Placement} {o c parent : NodeId} {form : Form} {rest : Strand}

/-! ### Fuel -/

theorem add_length_le_foldl {α : Type} {f : Nat → α → Nat} (hf : ∀ k a, k < f k a) (l : List α)
    (k : Nat) : k + l.length ≤ l.foldl f k := by
  induction l generalizing k with
  | nil => simp
  | cons a l ih =>
    have := hf k a
    have := ih (f k a)
    rw [foldl_cons, length_cons]
    omega

theorem size_le_supply (r : Routine) : r.nodes.size ≤ r.supply := by
  unfold supply
  rw [← Array.foldl_toList, ← Array.foldl_toList]
  refine Nat.le_trans ?_
    (Nat.le_trans (Nat.le_add_right _ _) (add_length_le_foldl (by intros; omega) _ _))
  simpa using add_length_le_foldl (by intros; omega) r.nodes.toList 0

/-- A walk that edits has fuel enough to meet every node twice. -/
theorem le_editFuel {k : Nat} (h : k ≤ r.nodes.size) : 2 * k ≤ r.editFuel := by
  have hsupply := r.size_le_supply
  unfold editFuel
  rcases Nat.eq_zero_or_pos r.supply with hzero | hpos
  · omega
  · have hone : 1 ≤ (r.supply + 1) * (r.supply + 1) := Nat.mul_pos (Nat.succ_pos _) (Nat.succ_pos _)
    calc 2 * k ≤ (r.supply + 1) * (r.supply + 1) := Nat.mul_le_mul (by omega) (by omega)
      _ = 1 * ((r.supply + 1) * (r.supply + 1)) := (Nat.one_mul _).symm
      _ ≤ (r.supply + 1) * (r.supply + 1) * ((r.supply + 1) * (r.supply + 1)) :=
        Nat.mul_le_mul_right _ hone
      _ = _ := (Nat.mul_assoc _ _ _).symm

/-! ### Marks -/

/-- The marks of suspension are complete: whatever holds a suspension, a suspending region or a
branch to one is marked. -/
structure Marked (r : Routine) (placed : List Placement) : Prop where
  raised : r.Raised placed
  uncrossed : ∀ p ∈ placed, ∀ target ∈ p.target, r.suspendsAt target = true →
    r.suspendsAt p.parent = true
  suspension : ∀ p ∈ placed, ∀ kind, r.kindOf p.node = some kind → kind.isSuspension = true →
    r.suspendsAt p.parent = true

theorem Marked.mono {placed' : List Placement} (h : r.Marked placed) (hsub : placed' ⊆ placed) :
    r.Marked placed' where
  raised p hp := h.raised p (hsub hp)
  uncrossed p hp := h.uncrossed p (hsub hp)
  suspension p hp := h.suspension p (hsub hp)

section Marked

variable {n : NodeId} {body first second : Strand}

theorem Marked.leaf_rest (h : r.Marked ((leaf n rest).placed r.kindOf parent)) :
    r.Marked (rest.placed r.kindOf parent) :=
  h.mono fun p hp => by simp [placed, hp]

theorem Marked.region_body (h : r.Marked ((region o c body rest).placed r.kindOf parent)) :
    r.Marked (body.placed r.kindOf o) :=
  h.mono fun p hp => by simp [placed, hp]

theorem Marked.region_rest (h : r.Marked ((region o c body rest).placed r.kindOf parent)) :
    r.Marked (rest.placed r.kindOf parent) :=
  h.mono fun p hp => by simp [placed, hp]

variable (h : r.Marked ((fork o c first second rest).placed r.kindOf parent))
include h

theorem Marked.fork_first : r.Marked (first.placed r.kindOf o) :=
  h.mono fun p hp => by simp [placed, hp]

theorem Marked.fork_second : r.Marked (second.placed r.kindOf o) :=
  h.mono fun p hp => by simp [placed, hp]

theorem Marked.fork_rest : r.Marked (rest.placed r.kindOf parent) :=
  h.mono fun p hp => by simp [placed, hp]

end Marked

/-- Nothing suspends at a node: it opens no region that does, it does not wait for a coroutine, and
it does not branch to a region that suspends. -/
structure CalmAt (r : Routine) (n : NodeId) : Prop where
  region : r.suspendsAt n = false
  suspension : ∀ kind, r.kindOf n = some kind → kind.isSuspension = false
  target : ∀ guarded goal, r.kindOf n = some (.branch guarded goal) →
    r.suspendsAt goal.target = false

theorem calmAt_closer (h : r.kindOf c = some (.close o)) : r.CalmAt c where
  region := by simp [suspendsAt, h, opensSuspending]
  suspension kind hkind := by
    obtain rfl := some.inj (h.symm.trans hkind)
    rfl
  target := by simp [h]

theorem calmAt_opener (h : r.kindOf o = some (.enter form ⟨c, false⟩)) : r.CalmAt o where
  region := by simp [suspendsAt, h, opensSuspending]
  suspension kind hkind := by
    obtain rfl := some.inj (h.symm.trans hkind)
    rfl
  target := by simp [h]

theorem CalmAt.dissolvesAt {n : NodeId} (h : r.CalmAt n) : dissolvesAt r.kindOf n = false := by
  have hcalm := h.region
  unfold suspendsAt at hcalm
  unfold CoroutineIR.dissolvesAt
  cases hkind : r.kindOf n with
  | none => rfl
  | some kind =>
    cases kind with
    | enter form region => cases form <;> simp_all [isDissolved, opensSuspending]
    | _ => rfl

/-- What a region that is not marked holds is not marked. -/
theorem Marked.calm_node (h : r.Marked placed) {p : Placement} (hp : p ∈ placed)
    (hcalm : r.suspendsAt p.parent = false) : r.suspendsAt p.node = false := by
  by_contra hsuspends
  simp [h.raised p hp (by simpa using hsuspends)] at hcalm

/-- Nothing suspends in a region that is not marked. -/
theorem Marked.calm_nodes (h : r.Marked (t.placed r.kindOf parent))
    (hcalm : r.suspendsAt parent = false) (hshaped : t.Shaped r.kindOf) :
    ∀ n ∈ t.nodes, r.CalmAt n := by
  induction t generalizing parent with
  | done => simp
  | leaf n rest ih =>
    simp only [forall_leaf]
    refine ⟨⟨h.calm_node (mem_cons_self ..) hcalm,
      fun kind hkind => ?_, fun guarded goal hkind => ?_⟩, ih h.leaf_rest hcalm hshaped.2⟩
    · by_contra hsuspension
      have hmark := h.suspension _ (mem_cons_self ..) kind hkind (by simpa using hsuspension)
      simp [hcalm] at hmark
    · by_contra htarget
      have hmark := h.uncrossed _ (mem_cons_self ..) goal.target (by simp [hkind])
        (by simpa using htarget)
      simp [hcalm] at hmark
  | region o c body rest ihb ihr =>
    simp only [forall_region]
    obtain ⟨⟨form, suspends, hopen⟩, hclose, hbody, hrest⟩ := hshaped
    have ho := h.calm_node (mem_cons_self ..) hcalm
    obtain rfl : suspends = false := by
      simpa [suspendsAt, hopen, opensSuspending, region?] using ho
    exact ⟨calmAt_opener hopen, ihb h.region_body ho hbody, calmAt_closer hclose,
      ihr h.region_rest hcalm hrest⟩
  | fork o c first second rest iha ihb ihr =>
    simp only [forall_fork]
    obtain ⟨⟨suspends, hopen⟩, hclose, hfirst, hsecond, hrest⟩ := hshaped
    have ho := h.calm_node (mem_cons_self ..) hcalm
    obtain rfl : suspends = false := by
      simpa [suspendsAt, hopen, opensSuspending, region?] using ho
    exact ⟨calmAt_opener hopen, iha h.fork_first ho hfirst, ihb h.fork_second ho hsecond,
      calmAt_closer hclose, ihr h.fork_rest hcalm hrest⟩

/-- Nothing suspends in a region that is not marked, its ends included. -/
theorem Marked.calm_part {part : Strand} (hcalm : Calm r.label part)
    (h : r.Marked ((part.append rest).placed r.kindOf parent)) (hshaped : part.Shaped r.kindOf) :
    (∀ n ∈ part.nodes, r.CalmAt n) ∧ r.Marked (rest.placed r.kindOf parent) := by
  cases hcalm with
  | region hold hkind =>
    have ho := calmAt_opener (kindOf_of_label hold hkind)
    exact ⟨forall_region.mpr ⟨ho, h.region_body.calm_nodes ho.region hshaped.2.2.1,
      calmAt_closer hshaped.2.1, nofun⟩, h.region_rest⟩
  | fork hold hkind =>
    have ho := calmAt_opener (kindOf_of_label hold hkind)
    exact ⟨forall_fork.mpr ⟨ho, h.fork_first.calm_nodes ho.region hshaped.2.2.1,
      h.fork_second.calm_nodes ho.region hshaped.2.2.2.1, calmAt_closer hshaped.2.1,
      nofun⟩, h.fork_rest⟩

namespace Coroutine

theorem raised (h : r.Coroutine exit t) : r.Raised (t.placed r.kindOf r.entry) := by
  intro p hp hsuspends
  refine h.roused.placed p hp ?_
  obtain ⟨kind, hkind, hopens⟩ := suspendsAt_iff.mp hsuspends
  simp [hkind, rouses, hopens]

theorem suspension (h : r.Coroutine exit t) {p : Placement} (hp : p ∈ t.placed r.kindOf r.entry)
    {kind : NodeKind} (hkind : r.kindOf p.node = some kind)
    (hsuspension : kind.isSuspension = true) : r.suspendsAt p.parent = true :=
  h.roused.placed p hp (by simp [hkind, rouses, hsuspension])

/-- The body of a coroutine suspends. -/
theorem suspendsAt_entry (h : r.Coroutine exit t) : r.suspendsAt r.entry = true := by
  obtain ⟨name, sig, suspends, hkind⟩ := h.entry_kind
  obtain ⟨d, hd, hdk, -⟩ := node_of_kindOf hkind
  have hsuspends := h.suspends
  simp only [Routine.suspends, definition, node_eq_ok_iff.mpr hd, Attempt.ok_bind, hdk,
    Attempt.pure_eq_ok, Except.ok.injEq] at hsuspends
  simp [suspendsAt, hkind, opensSuspending, hsuspends]

end Coroutine

end Routine

/-- Spreading marks of suspension over a well-structured routine comes to an end and changes nothing
but marks. No branch to a marked region crosses one that is not marked any more, no other set of
marks that has this property and holds those there were is smaller, and what stands around marked
regions is marked if it was. -/
theorem Edit.spreadSuspension_least {r : Routine} {exit : NodeId} {t : Strand}
    (h : r.WellStructured exit t) :
    ∃ r', Edit.spreadSuspension r = .ok () r' ∧ r.Spreads r' ∧
      t.Uncrossed (r'.suspendsAt · = true) r.kindOf [r.entry] ∧
      (∀ marks : NodeId → Prop, (∀ n, r.suspendsAt n = true → marks n) →
        t.Uncrossed marks r.kindOf [r.entry] → ∀ n, r'.suspendsAt n = true → marks n) ∧
      (r.Raised (t.placed r.kindOf r.entry) → r'.Raised (t.placed r.kindOf r.entry)) := by
  have hyields : Yields spreadSuspension r fun _ r' =>
      ∃ changed, r.Marking r' (t.placed r.kindOf r.entry) changed ∧
          t.Uncrossed (r'.suspendsAt · = true) r.kindOf [r.entry] :=
    yields_spreadSuspension h.toStreams h.branchesFit fun r' changed hmarking hclosed =>
      ⟨changed, hmarking, h.closed_iff.mp hclosed⟩
  obtain ⟨_, r', hok, _, hmarking, huncrossed⟩ := yields_iff_exists.mp hyields
  exact ⟨r', hok, hmarking.toSpreads, huncrossed,
    fun marks hmarks hclosed =>
    hmarking.least marks (h.closed_iff.mpr hclosed) hmarks, hmarking.raised⟩

/-- A loop in a block in a loop that suspends. The branch to the outer loop marks the inner one, and
the branch to that one then marks the block around it, which takes another round. -/
theorem Edit.spreadSuspension_least_rounds :
    let calls : List Instruction := [.declare .param (.scalar .i32) "p" false, .loop, .block, .loop,
      .block, .branchIf (.var 1) 7, .close, .branchIf (.var 1) 3, .close, .close, .yieldNow, .close]
    ∃ r b' t r', Build.finish (Build.play default calls (Build.define "main" default)).1 =
      .ok r b' ∧ r.WellStructured 1 t ∧
      [3, 5, 7, 9].map r.suspendsAt = [true, false, false, false] ∧
      Edit.spreadSuspension r = .ok () r' ∧ r.Spreads r' ∧
      t.Uncrossed (r'.suspendsAt · = true) r.kindOf [0] ∧
      [3, 5, 7, 9].map r'.suspendsAt = [true, true, true, true] := by
  intro calls
  obtain ⟨r, b', t, hfinish, -, hwell, hentry, hbefore, hspread⟩ :=
    Build.exists_main calls (by decide)
    (fun r => r.entry = 0 ∧ [3, 5, 7, 9].map r.suspendsAt = [true, false, false, false] ∧
      spreadSuspension.Yields r fun _ r' =>
      [3, 5, 7, 9].map r'.suspendsAt = [true, true, true, true]) (by decide +kernel)
  obtain ⟨r', hok, hspreads, huncrossed, -⟩ := spreadSuspension_least hwell
  exact ⟨r, b', t, r', hfinish, hwell, hbefore, hok, hspreads, hentry ▸ huncrossed,
    hspread.of_ok hok⟩

namespace Routine

/-! ### The stages -/

/-- What the walks of the lowering make of a routine, one after the other. -/
structure Stages (r marked cut settled final : Routine) (exit : NodeId)
    (t t' tail : Strand) : Prop where
  spreads : r.Spreads marked
  marks : marked.Marked (t.placed marked.kindOf marked.entry)
  revises : marked.Revises cut t.leaves
  cuts : Cut marked.label cut.label false t t'
  leaves : JumpAhead cut.label tail
  streams : cut.Streams exit (t'.append tail)
  /-- Every open jump looks for its step from a node of the stream on. -/
  origins : ∀ n ∈ (t'.append tail).nodes, ∀ d guarded origin, cut.label n = some d →
    d.kind = .goto guarded (.pending origin) →
    origin.getD n ∈ cut.entry :: exit :: (t'.append tail).nodes
  settles : cut.Settles settled (t'.append tail).nodes
  rewires : settled.Rewires final
  carries : final.Carries exit ((t'.append tail).dissolved cut.kindOf)

end Routine

/-- Where a branch goes on is a node of the stream. -/
theorem Routine.Streams.arrives_mem {n dest : NodeId} (h : r.Streams exit t)
    (hfit : t.BranchesFit r.kindOf [r.entry]) (hn : n ∈ t.nodes) {guarded : Bool} {goal : Branch}
    (hkind : r.kindOf n = some (.branch guarded goal)) (hdest : Arrives r.label goal.target dest) :
    dest ∈ r.live exit t := by
  obtain ⟨d, hd, hdest⟩ := hdest
  rcases hfit.target h.shaped hn hkind with hentry | ⟨hmem, form, region, henter⟩
  · obtain ⟨name, sig, suspends, hdefine⟩ := h.entry_kind
    rw [mem_singleton.mp hentry] at hd
    rw [Routine.kindOf, hd, map_some, some.injEq] at hdefine
    simp only [hdefine, isLoop, Bool.false_eq_true, if_false, partner?,
      region?, map_some, some.injEq] at hdest
    simp [hdest]
  · have hclose := h.shaped.closer_mem hmem henter rfl
    rw [Routine.kindOf, hd, map_some, some.injEq] at henter
    split at hdest
    · simp [hdest, hmem]
    · simp only [henter, partner?, region?, map_some, some.injEq] at hdest
      simp [← hdest, hclose]

/-- A stream that has been cut into steps is structured. -/
theorem Routine.Revises.streams {t' tail : Strand} (hrev : r.Revises r' t.leaves)
    (h : r.Streams exit t) (hcarries : r'.Carries exit (t'.append tail))
    (hcut : Cut r.label r'.label false t t') (htail : JumpAhead r'.label tail) :
    r'.Streams exit (t'.append tail) where
  toCarries := hcarries
  shaped := shaped_append.mpr ⟨hcut.shaped h.shaped, htail.woven.shaped⟩
  entry_kind := by
    obtain ⟨name, sig, suspends, hkind⟩ := h.entry_kind
    obtain ⟨d, hd, hdk⟩ := map_eq_some_iff.mp hkind
    refine ⟨name, sig, suspends, ?_⟩
    rw [hrev.entry, Routine.kindOf, hrev.labels _ d hd fun _ => by simp [hdk], map_some, hdk]
  exit_kind := by
    obtain ⟨d, hd, hdk⟩ := map_eq_some_iff.mp h.exit_kind
    have hleaf : exit ∉ t.leaves := fun hmem => h.exit_not_mem (t.leaves_sublist.subset hmem)
    rw [hrev.entry, Routine.kindOf, hrev.labels _ d hd fun hmem => absurd hmem hleaf, map_some, hdk]

/-- Settling jumps does not change which regions are taken apart. -/
theorem Routine.Settles.dissolved_eq {ns : List NodeId} (h : r.Settles r' ns) (t : Strand) :
    t.dissolved r'.kindOf = t.dissolved r.kindOf := by
  have hsame : ∀ n, dissolvesAt r'.kindOf n = dissolvesAt r.kindOf n := by
    intro n
    have hmap :=
      congrArg (Option.any id) (h.map_kindOf (f := isDissolved) (fun _ _ _ => rfl) n)
    rwa [Option.any_map, Option.any_map] at hmap
  induction t with
  | done => rfl
  | leaf n rest ih => simp only [dissolved, ih]
  | region o c body rest ihb ihr => simp only [dissolved, hsame, ihb, ihr]
  | fork o c first second rest iha ihb ihr => simp only [dissolved, iha, ihb, ihr]

/-- A strand without regions to be taken apart stays. -/
theorem Strand.dissolved_of_calm (h : ∀ n ∈ t.nodes, dissolvesAt kinds n = false) :
    t.dissolved kinds = t := by
  induction t with
  | done => rfl
  | leaf n rest ih => rw [dissolved, ih fun m hm => h m (mem_cons_of_mem _ hm)]
  | region o c body rest ihb ihr =>
    simp only [forall_region] at h
    simp [dissolved, h.1, ihb h.2.1, ihr h.2.2.2]
  | fork o c first second rest iha ihb ihr =>
    simp only [forall_fork] at h
    rw [dissolved, iha h.2.1, ihb h.2.2.1, ihr h.2.2.2.2]

/-- Nothing is taken apart where nothing suspends. -/
theorem Routine.dissolved_of_calmAt {cut : Routine} (hnew : ∀ n ∈ t.nodes, cut.label n = r.label n)
    (hcalm : ∀ n ∈ t.nodes, r.CalmAt n) : t.dissolved cut.kindOf = t := by
  refine dissolved_of_calm fun n hn => ?_
  rw [dissolvesAt, kindOf, hnew n hn]
  exact (hcalm n hn).dissolvesAt

/-- What is left of a strand when regions are taken apart has the kinds of its places. -/
theorem Strand.Shaped.dissolved {kinds' : NodeId → Option NodeKind} (h : t.Shaped kinds) :
    (t.dissolved kinds').Shaped kinds := by
  induction t with
  | done => trivial
  | leaf n rest ih => exact ⟨h.1, ih h.2⟩
  | region o c body rest ihb ihr =>
    rw [Strand.dissolved]
    split
    · exact shaped_append.mpr ⟨ihb h.2.2.1, ihr h.2.2.2⟩
    · exact ⟨h.1, h.2.1, ihb h.2.2.1, ihr h.2.2.2⟩
  | fork o c first second rest iha ihb ihr =>
    exact ⟨h.1, h.2.1, iha h.2.2.1, ihb h.2.2.2.1, ihr h.2.2.2.2⟩

namespace Routine.Stages

variable {marked cut settled final : Routine} {n : NodeId} {t' tail : Strand} {d : Node}

section

variable (h : r.Stages marked cut settled final exit t t' tail)
include h

theorem entry_eq : final.entry = cut.entry :=
  h.rewires.entry.trans h.settles.entry

variable (hr : r.Coroutine exit t)
include hr

theorem marked_fit : t.BranchesFit marked.kindOf [marked.entry] := by
  rw [h.spreads.entry]
  exact hr.branchesFit.congr fun n _ => h.spreads.kindOf_unmarked n

theorem marked_plain : ∀ n ∈ t.nodes, ∀ kind, marked.kindOf n = some kind →
    kind.isLowered = false := by
  intro n hn kind hkind
  by_contra hlowered
  have hregion : kind.region? = none := by cases kind <;> simp_all [isLowered]
  exact hlowered (hr.plain n hn kind ((h.spreads.kindOf_iff hregion).mp hkind))

theorem marked_no_goto :
    ∀ n ∈ t.nodes, ∀ guarded goal, marked.kindOf n ≠ some (.goto guarded goal) := by
  intro n hn guarded goal hkind
  simpa [isLowered] using h.marked_plain hr n hn _ hkind

theorem marked_suspends : marked.suspendsAt marked.entry = true := by
  rw [h.spreads.entry]
  exact h.spreads.suspendsAt hr.suspendsAt_entry

omit hr

/-- What the last two walks make of a node. -/
theorem label_eq (hn : n ∈ (t'.append tail).nodes) (hd : cut.label n = some d) :
    final.label n = some (cut.settled n d) := by
  rw [h.rewires.label]
  exact (h.settles.labels n d hd).resolve_right fun hnot => hnot.2 hn

/-- The routine that has been lowered is structured. -/
theorem final_streams : final.Streams exit ((t'.append tail).dissolved cut.kindOf) := by
  have hsettled := h.settles.streams h.streams
  exact {
    toCarries := h.carries
    shaped := by
      rw [h.rewires.kindOf_eq]
      exact hsettled.shaped.dissolved
    entry_kind := by
      rw [h.rewires.kindOf_eq, h.rewires.entry]
      exact hsettled.entry_kind
    exit_kind := by
      rw [h.rewires.kindOf_eq, h.rewires.entry]
      exact hsettled.exit_kind }

end

end Routine.Stages

namespace Lower

open Routine

variable {l : Lowering}

/-- The lowering of a coroutine succeeds. -/
theorem yields_lowerToSteps (h : l.routine.Coroutine exit t) {post : PUnit → Lowering → Prop}
    (hpost : ∀ l' marked cut settled t' tail,
      l.routine.Stages marked cut settled l'.routine exit t t' tail → post () l') :
    Yields lowerToSteps l post := by
  simp only [lowerToSteps, yields_bind, yields_liftPass, Pass.yields_ask, h.suspends,
    Except.ok.injEq, exists_eq_left', if_true, Lower.yields_lift]
  refine yields_spreadSuspension h.toStreams h.branchesFit fun marked _ hmarking hclosed => ?_
  have hspreads := hmarking.toSpreads
  have hstreams := hspreads.streams h.toStreams
  have hfit : t.BranchesFit marked.kindOf [marked.entry] := by
    rw [hspreads.entry]
    exact h.branchesFit.congr fun n _ => hspreads.kindOf_unmarked n
  have hmarks : marked.Marked (t.placed marked.kindOf marked.entry) := by
    rw [hspreads.entry, hspreads.placed_eq]
    refine ⟨hmarking.raised h.raised,
      fun p hp target ht => hclosed.parent hp ht (h.toStreams.parentIn_placed p hp),
      fun p hp kind hkind hsuspension => hspreads.suspendsAt (h.suspension hp ?_ hsuspension)⟩
    refine (hspreads.kindOf_iff ?_).mp hkind
    cases kind <;> simp_all [isSuspension, awaits]
  simp only [yields_get, hstreams.exit_eq]
  refine yields_toAction.mpr ⟨exit, rfl, ?_⟩
  have hfuel : 2 + 2 * t.nodes.length ≤ marked.editFuel := by
    have := le_editFuel hstreams.length_le_size
    omega
  refine yields_transform (l := { l with routine := marked }) hstreams
    (fun n hn d guarded goal hd hkind => ?_)
    (fun n hn d form sig v hd hkind hdest => ?_) hfuel fun l₂ t' tail hcarries hrev hcut htail => ?_
  · have hd' := (hspreads.label_iff (by simp [hkind])).mp hd
    obtain ⟨e, he, hregion⟩ := h.branch_target hn hd' hkind
    obtain ⟨region, hregion⟩ := isSome_iff_exists.mp hregion
    obtain ⟨kind, region', hk, hregion'⟩ :=
      hspreads.exists_region (n := goal.target) ⟨e.kind, region, kindOf_of_label he rfl, hregion⟩
    obtain ⟨e', he', rfl⟩ := map_eq_some_iff.mp hk
    exact ⟨e', he', by simp [hregion']⟩
  · have hwritten := h.written hn ((hspreads.label_iff (by simp [hkind])).mp hd) hkind hdest
    rwa [writesOf, ← hspreads.vars] at hwritten
  · have hcuts := hrev.streams hstreams hcarries hcut htail
    have hsub : t.nodes ⊆ (t'.append tail).nodes := fun m hm => by simp [hcut.weaves.1 hm]
    have hplain : ∀ m ∈ t.nodes, ∀ d guarded goal, marked.label m = some d →
        d.kind ≠ .goto guarded goal := by
      intro m hm d guarded goal hd hkind
      have hk : marked.kindOf m = some (.goto guarded goal) := kindOf_of_label hd hkind
      have hlowered := h.plain m hm _ ((hspreads.kindOf_iff rfl).mp hk)
      simp [isLowered] at hlowered
    have htraced :
        ∀ m ∈ (t'.append tail).nodes, Traced marked.label l₂.routine.label t.nodes m := by
      rw [nodes_append, forall_mem_append]
      exact ⟨hcut.traced (List.Subset.refl _) hplain,
        fun m hm => traced_of_inserted (htail.woven.inserted m hm)⟩
    have hentry : l₂.routine.entry = marked.entry := hrev.entry
    have hlength := hcuts.length_le_size
    rw [← hentry]
    have horigins : ∀ n ∈ (t'.append tail).nodes, ∀ d guarded origin, l₂.routine.label n = some d →
        d.kind = .goto guarded (.pending origin) →
        origin.getD n ∈ l₂.routine.entry :: exit :: (t'.append tail).nodes := by
      intro m hm d guarded origin hd hkind
      cases origin with
      | none => exact mem_live hm
      | some dest =>
        obtain ⟨n, hn, d', guarded', goal, hd', hkind', hdest⟩ :=
          htraced m hm d guarded dest hd hkind
        have hk : marked.kindOf n = some (.branch guarded' goal) := kindOf_of_label hd' hkind'
        have hmem := hstreams.arrives_mem hfit hn hk hdest
        rw [hentry]
        simp only [getD_some, mem_cons] at hmem ⊢
        exact hmem.imp_right (Or.imp_right fun hmem => hsub hmem)
    refine yields_settleWithin hcuts horigins ?_ fun w hsettles => ?_
    · have := le_editFuel hlength
      omega
    · have hsettled := hsettles.streams hcuts
      rw [← hsettles.entry]
      refine yields_dissolveWithin hsettled ?_ fun final hfinal hrewires => ?_
      · have := le_editFuel hsettled.length_le_size
        omega
      · simp only [Pass.summarize, Pass.yields_note]
        rw [hsettles.dissolved_eq] at hfinal
        exact hpost _ marked l₂.routine w.routine t' tail
          ⟨hspreads, hmarks, hrev, hcut, htail, hcuts, horigins, hsettles, hrewires, hfinal⟩

end Lower

end CoroutineIR
