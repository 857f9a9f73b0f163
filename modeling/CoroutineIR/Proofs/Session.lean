import CoroutineIR.Proofs.Building

/-!
# Sessions with the builder

A session is a sequence of calls to the builder in which calls that fail are ignored. The calls that
succeed describe a tree of statements. Finishing succeeds exactly when every region has been closed,
and the routine it delivers is the encoding of that tree: its edges are the wires of the tree, every
branch carries its depth, and the check passes.
-/

namespace CoroutineIR

open List CoroutineIR.Action Outline Routine

/-- The calls made one after the other, ignoring those that fail: the builder reached and the calls
that succeeded. -/
def Build.play (types : Registry) : List Instruction → Builder → Builder × List Instruction
  | [], b => (b, [])
  | i :: rest, b =>
    match i.run types b with
    | .ok _ b' => let (reached, made) := play types rest b'; (reached, i :: made)
    | .error _ b' => play types rest b'

namespace Outline

/-- An outline has a variable for each that a call creates. -/
theorem vars_follow (o : Outline) (i : Instruction) : (o.follow i).vars = o.vars + i.creates := by
  have hcall : ∀ form dest sig args, (o.addCall form dest sig args).vars = o.vars := by
    intro form dest sig args
    unfold addCall
    dsimp only
    split <;> rfl
  have hclose : o.close.vars = o.vars := by
    unfold close
    split <;> rfl
  cases i <;> first | rfl | exact hcall _ _ _ _ | exact hclose

/-- Every region that is open has been opened and not closed. -/
theorem length_outer_follow {o : Outline} {i : Instruction}
    (hcloses : i.closes = true → o.outer ≠ []) : (o.follow i).outer.length +
    (if i.closes then 1 else 0) = o.outer.length + if i.opens then 1 else 0 := by
  have hcall : ∀ form dest sig args, (o.addCall form dest sig args).outer = o.outer := by
    intro form dest sig args
    unfold addCall
    dsimp only
    split <;> rfl
  cases i with
  | close =>
    obtain ⟨l, outer, houter⟩ := exists_cons_of_ne_nil (hcloses rfl)
    simp [follow, Outline.close, houter, Instruction.closes, Instruction.opens]
  | call | callIndirect | spawn | spawnIndirect =>
    simp [follow, hcall, Instruction.closes, Instruction.opens]
  | declare | tmp | assign | yieldNow | ret | otherwise | branch | branchIf => rfl
  | block | loop | cond => rfl

end Outline

namespace Builder.Represents

variable {b b' : Builder} {o : Outline}

/-- A session starts with the empty body. -/
theorem define (name : String) (sig : Signature) :
    (Build.define name sig).Represents (Outline.start name sig) where
  coherent := .start name sig
  tracks :=
    { labels := fun n => by
        rcases n with _ | _ | n <;> rfl
      linked := fun n => by
        rcases n with _ | _ | n <;> exact ⟨rfl, rfl⟩
      entry := rfl
      mem := rfl
      vars := rfl
      tally := fun v access => by
        rcases v with _ | v <;> cases access <;> rfl
      untouched := fun v => by
        rcases v with _ | v <;> exact ⟨rfl, rfl⟩ }
  opened := rfl
  current := rfl

variable (h : b.Represents o)
include h

/-- Along a session the builder follows the outline of the calls that succeeded. -/
theorem play (types : Registry) {calls : List Instruction}
    (hscoped : Instruction.Scoped o.vars calls) :
    (Build.play types calls b).1.Represents ((Build.play types calls b).2.foldl Outline.follow o) ∧
    ((Build.play types calls b).2.foldl Outline.follow o).outer.length +
    (Build.play types calls b).2.countP Instruction.closes =
    o.outer.length + (Build.play types calls b).2.countP Instruction.opens := by
  induction calls generalizing b o with
  | nil => exact ⟨h, rfl⟩
  | cons i calls ih =>
    obtain ⟨hi, hrest⟩ := hscoped
    have hstep := h.run_atomic types hi
    unfold Atomic at hstep
    unfold Build.play
    cases hrun : i.run types b with
    | ok u b' =>
      rw [hrun] at hstep
      rw [← vars_follow] at hrest
      obtain ⟨hrep, hcount⟩ := ih hstep.1 hrest
      have hlength := length_outer_follow hstep.2
      simp only [foldl_cons, countP_cons]
      exact ⟨hrep, by omega⟩
    | error e b' =>
      rw [hrun] at hstep
      obtain rfl : b' = b := hstep
      -- a call that creates a variable does not fail, so the scope is that of the next call
      have hcreates : i.creates = 0 := by
        by_contra hne
        have := h.yields_run types hne
        simp [Yields, hrun] at this
      rw [hcreates] at hrest
      exact ih h hrest

/-- A body with an open region cannot be finished. -/
theorem finish_error (houter : o.outer ≠ []) : ∃ e, Build.finish b = .error e b := by
  obtain ⟨l, outer, houter⟩ := exists_cons_of_ne_nil houter
  have hopened : b.opened = o.inner.opener :: l.opener :: outer.map Scope.opener := by
    rw [h.opened, Outline.opened, houter]
    rfl
  obtain ⟨routine, _, current⟩ := b
  dsimp only at hopened
  subst hopened
  exact ⟨.refused (.unclosedConstruct o.inner.opener), rfl⟩

/-- Finishing joins the body to the end of the routine. -/
theorem yields_finish (houter : o.outer = []) :
    Yields Build.finish b fun r _ =>
    r.Tracks o.contents (o.inner.sofar.wires (0, 0) (1, 0)) o.vars := by
  have hnested := h.coherent.nested
  rw [houter] at hnested
  obtain ⟨_, hopener, -, hfirst⟩ := hnested
  have hopened : b.opened = [o.inner.opener] := by
    rw [h.opened, Outline.opened, houter]
    rfl
  obtain ⟨name, sig, suspends, hentry⟩ := h.coherent.entry_kind
  obtain ⟨d, hd, hkind⟩ := h.exists_node hentry
  have hexit : b.routine.exit = .ok 1 := by
    rw [← h.tracks.entry] at hd
    simp [Routine.exit, definition, node_eq_ok_iff.mpr hd, hkind]
  have hwires : o.wires ++ [(o.inner.port, (1, 0))] = o.inner.sofar.wires (0, 0) (1, 0) := by
    have hsource : o.inner.source = (0, 0) := by simp [Scope.source, hopener, hfirst]
    rw [Strand.wires_eq]
    simp [Outline.wires, houter, approach, Scope.wires, hfirst, Scope.port, hsource]
  unfold Build.finish
  simp only [yields_bind, yields_get, hopened, yields_ask, hexit, Except.ok.injEq, exists_eq_left',
    h.current, yields_pure]
  refine h.yields_link (q := (1, 0)) (show 1 < _ from h.coherent.two_le_length) rfl
    fun r' htracks => ?_
  rw [hwires] at htracks
  exact htracks

/-- Only a body without open regions can be finished. -/
theorem tracks_finish {r : Routine} (hok : Build.finish b = .ok r b') :
    o.outer = [] ∧ r.Tracks o.contents (o.inner.sofar.wires (0, 0) (1, 0)) o.vars := by
  by_cases houter : o.outer = []
  · have hyields := h.yields_finish houter
    simp only [Yields, hok] at hyields
    exact ⟨houter, hyields⟩
  · obtain ⟨e, herror⟩ := h.finish_error houter
    simp [hok] at herror

/-- A call that fails changes nothing. -/
theorem eq_of_run_error {types : Registry} {i : Instruction} (hi : i.ScopedIn o.vars)
    {e : Fault IrError} (hrun : i.run types b = .error e b') : b' = b := by
  have hatomic := h.run_atomic types hi
  simp only [Atomic, hrun] at hatomic
  exact hatomic

end Builder.Represents

/-! ### The finished routine -/

/-- The node opens a region around the strand or one in it. -/
def Strand.Opens (kinds : NodeId → Option NodeKind) (enclosing : List NodeId) (t : Strand)
    (n : NodeId) : Prop :=
  n ∈ enclosing ∨ n ∈ t.nodes ∧ ∃ form region, kinds n = some (.enter form region)

section Branches

variable {kinds : NodeId → Option NodeKind} {enclosing : List NodeId}
    {t : Strand} {n : NodeId}

/-- A branch goes to one of the regions around it. -/
theorem Strand.BranchesFit.target (h : t.BranchesFit kinds enclosing) (hshaped : t.Shaped kinds)
    (hn : n ∈ t.nodes) {guarded : Bool} {goal : Branch}
    (hkind : kinds n = some (.branch guarded goal)) : t.Opens kinds enclosing goal.target := by
  obtain ⟨C, rest, rfl⟩ := hshaped.exists_leaf hn hkind rfl rfl
  have hidx := ((C.branchesFit_plug_iff kinds enclosing _).mp h).2.1 guarded goal hkind
  have hregion : goal.target ∈ C.regions enclosing := by
    by_contra hnone
    rw [idxOf?_eq_none_iff.mpr hnone] at hidx
    cases hidx
  refine (C.mem_regions hshaped hregion).imp_right ?_
  rintro ⟨form, c, suspends, hopen, hmem, -⟩
  exact ⟨hmem, form, _, hopen⟩

end Branches

/-- Where a branch goes, a region is opened. -/
theorem Routine.Streams.branch_target {r : Routine} {exit n : NodeId} {t : Strand}
    (h : r.Streams exit t) (hfit : t.BranchesFit r.kindOf [r.entry]) (hn : n ∈ r.live exit t)
    {guarded : Bool} {goal : Branch} (hkind : r.kindOf n = some (.branch guarded goal)) :
    goal.target ∈ r.live exit t ∧ ∃ kind, r.kindOf goal.target = some kind ∧
    kind.region?.isSome := by
  obtain ⟨name, sig, suspends, hentry⟩ := h.entry_kind
  rcases hfit.target h.shaped (h.mem_of_kindOf hn hkind (by simp)) hkind with htarget |
    ⟨hin, form, region, henter⟩
  · rw [mem_singleton.mp htarget]
    exact ⟨by simp, _, hentry, rfl⟩
  · exact ⟨by simp [hin], _, henter, rfl⟩

namespace Builder.Represents

variable {b : Builder} {o : Outline} {r : Routine} (h : b.Represents o) (houter : o.outer = [])
  (hr : r.Tracks o.contents (o.inner.sofar.wires (0, 0) (1, 0)) o.vars)

include h houter

/-- The nodes of a body without open regions. -/
theorem ids_body : (0 :: 1 :: o.inner.sofar.nodes).Perm (List.range o.contents.length) := by
  have hids := h.coherent.ids
  have hnested := h.coherent.nested
  rw [houter] at hids hnested
  obtain ⟨_, hopener, hcloser, hfirst⟩ := hnested
  simpa [Scope.ids, hopener, hcloser, hfirst] using hids

include hr

/-- The finished routine is the encoding of the tree, and every branch carries its depth. -/
theorem streams : r.Streams 1 o.inner.sofar ∧ o.inner.sofar.BranchesFit r.kindOf [r.entry] := by
  have hkinds : r.kindOf = o.kinds := funext fun n => by rw [Routine.kindOf, hr.labels]; rfl
  have hnested := h.coherent.nested
  rw [houter] at hnested
  have hcarries : r.Carries 1 o.inner.sofar := by
    refine Linked.carries ?_ ?_
    · rw [hr.entry]
      exact hr.linked
    · rw [Routine.live, hr.entry]
      exact (h.ids_body houter).nodup_iff.mpr nodup_range
  refine ⟨⟨hcarries, ?_, ?_, ?_⟩, ?_⟩
  · rw [hkinds]
    exact hnested.fits.sofar_shaped
  · rw [hkinds, hr.entry]
    exact h.coherent.entry_kind
  · rw [hkinds, hr.entry]
    exact h.coherent.exit_kind
  · rw [hkinds, hr.entry, ← hnested.2.1]
    exact hnested.fits.sofar_fits

/-- The counts of the finished routine are those of its nodes. -/
theorem counted : r.Counted (r.live 1 o.inner.sofar) := by
  have hlabel : ∀ n < o.contents.length, ∃ d, r.nodes[n]? = some d ∧ d.Flat ∧
      d.accesses = o.contents[n]?.elim [] Node.accesses := by
    intro n hn
    have hn' := getElem?_eq_getElem hn
    have hnode := node_of_label ((hr.labels n).trans hn')
    refine ⟨_, hnode, (h.coherent.plain _ (getElem_mem hn)).flat, ?_⟩
    rw [hn']
    rfl
  have hall : (List.range o.contents.length).flatMap
      (fun n => o.contents[n]?.elim [] Node.accesses) = o.contents.flatMap Node.accesses := by
    simp only [flatMap_def]
    congr 1
    refine ext_getElem? fun n => ?_
    by_cases hn : n < o.contents.length <;> simp [hn]
  have hcounted : r.Counted (List.range o.contents.length) := by
    refine ⟨?_, _, ⟨fun n => o.contents[n]?.elim [] Node.accesses, fun n hn => ?_, rfl⟩, ?_,
      fun v x hx => ?_⟩
    · -- the memory variable counts as read from the start
      rw [hr.mem]
      by_contra hzero
      have hreads := hr.tally 0 .read
      rw [Routine.tally, readsOf, Array.getElem?_eq_none (Nat.le_of_not_lt hzero)] at hreads
      simp at hreads
      omega
    · obtain ⟨d, hd, hflat, haccesses⟩ := hlabel n (mem_range.mp hn)
      rw [accesses_eq hd hflat, haccesses]
    · intro a ha
      rw [hall] at ha
      obtain ⟨d, hd, had⟩ := mem_flatMap.mp ha
      rw [hr.vars]
      exact (h.coherent.plain d hd).accesses_lt a had
    · rw [hall, hr.mem, ← Routine.readsOf_eq hx, ← Routine.writesOf_eq hx]
      exact ⟨hr.tally v .read, hr.tally v .write⟩
  rw [Routine.live, hr.entry]
  exact hcounted.perm (h.ids_body houter).symm

/-- The finished routine passes the check. -/
theorem verify_eq_ok : r.verify = .ok () := by
  obtain ⟨hstreams, hbranches⟩ := h.streams houter hr
  refine hstreams.verify_eq_ok_iff.mpr ⟨hbranches, fun n hn => ?_, h.counted houter hr⟩
  have hlt : n < o.contents.length := by
    rw [Routine.live, hr.entry, (h.ids_body houter).mem_iff] at hn
    exact mem_range.mp hn
  have hplain := h.coherent.plain _ (getElem_mem hlt)
  have hlabel := (hr.labels n).trans (getElem?_eq_getElem hlt)
  have hnode := node_of_label hlabel
  have hkind : r.kindOf n = some o.contents[n].kind := by rw [Routine.kindOf_eq hnode]
  refine ⟨⟨fun guarded goal hbranch => ?_, fun guarded goal hjump => ?_, fun d hd hcond => ?_⟩, [n],
    Routine.nested_eq hnode hplain.flat, by simp⟩
  · exact hstreams.branch_target hbranches hn hbranch
  · exact absurd (Option.some.inj (hkind.symm.trans hjump)) (hplain.no_jump guarded goal)
  · obtain rfl := Option.some.inj (hlabel.symm.trans hd)
    exact hplain.condition hcond

end Builder.Represents

/-- For every session whose operands and destinations are in scope, from the body of a routine on:

* a further call that fails leaves the builder as it was;
* the routine can be finished exactly when every region that was opened has been closed;
* the finished routine has the nodes described by the calls that succeeded, its live nodes are those
  of the tree they describe, joined as in the tree, every branch carries the number of regions
  between itself and its target, and the check passes. -/
theorem Build.session_wellFormed (types : Registry) (name : String) (sig : Signature)
    (calls : List Instruction) (hscoped : Instruction.Scoped 1 calls) :
    let reached := (play types calls (define name sig)).1
    let made := (play types calls (define name sig)).2
    let tree := (Outline.describe name sig made).inner.sofar
    (∀ i : Instruction, i.ScopedIn reached.routine.vars.size →
      ∀ e b', i.run types reached = .error e b' → b' = reached) ∧
    ((∃ r b', finish reached = .ok r b') ↔
      made.countP Instruction.opens = made.countP Instruction.closes) ∧
    ∀ r b', finish reached = .ok r b' →
      (∀ n, r.label n = (Outline.describe name sig made).contents[n]?) ∧
      (∃ live, r.liveNodes = .ok live ∧ live.Perm (r.entry :: 1 :: tree.nodes)) ∧
      r.Streams 1 tree ∧ tree.BranchesFit r.kindOf [r.entry] ∧ r.verify = .ok () := by
  intro reached made tree
  obtain ⟨hrep, hcount⟩ : reached.Represents (describe name sig made) ∧
      (describe name sig made).outer.length + made.countP Instruction.closes =
        0 + made.countP Instruction.opens :=
    (Builder.Represents.define name sig).play types hscoped
  have houter : (describe name sig made).outer = [] ↔
      made.countP Instruction.opens = made.countP Instruction.closes := by
    rw [← length_eq_zero_iff]
    omega
  refine ⟨fun i hi e b' hrun => ?_, ⟨?_, ?_⟩, fun r b' hok => ?_⟩
  · rw [hrep.tracks.vars] at hi
    exact hrep.eq_of_run_error hi hrun
  · rintro ⟨r, b', hok⟩
    exact houter.mp (hrep.tracks_finish hok).1
  · intro hclosed
    obtain ⟨r, b', hok, _⟩ := yields_iff_exists.mp (hrep.yields_finish (houter.mpr hclosed))
    exact ⟨r, b', hok⟩
  · obtain ⟨hclosed, htracks⟩ := hrep.tracks_finish hok
    obtain ⟨hstreams, hbranches⟩ := hrep.streams hclosed htracks
    exact ⟨htracks.labels, hstreams.liveNodes_eq, hstreams, hbranches,
      hrep.verify_eq_ok hclosed htracks⟩

/-- A loop around a conditional with two arms. The second attempt at a second arm and the second
attempt to close the loop fail. -/
theorem Build.session_wellFormed_loop :
    let calls : List Instruction :=
      [.tmp none, .loop, .cond (.var 1), .branch 2, .otherwise, .otherwise, .ret [.var 1], .close,
        .branchIf (.var 1) 2, .close, .close]
    let reached := (play default calls (define "main" default)).1
    Instruction.Scoped 1 calls ∧ (play default calls (define "main" default)).2.length = 9 ∧
      ∃ r b', finish reached = .ok r b' ∧ r.verify = .ok () := by
  intro calls reached
  have hscoped : Instruction.Scoped 1 calls := by decide
  obtain ⟨_, hfinish, hresult⟩ := session_wellFormed default "main" default calls hscoped
  obtain ⟨r, b', hok⟩ := hfinish.mpr (by decide +kernel)
  exact ⟨hscoped, by decide +kernel, r, b', hok, (hresult r b' hok).2.2.2.2⟩

end CoroutineIR
