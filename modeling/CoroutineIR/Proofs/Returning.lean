import CoroutineIR.Proofs.Discovery
import CoroutineIR.Proofs.Layout

/-!
# Declared results and the collector

The caller reads the declared results once the routine has returned or come to its end. So a result
that may hold a pointer has to be seen by every collection from which control can come there without
the result being written. Jumps that end the routine are no such place: a result that is only kept
until one of them is not shown.
-/

namespace CoroutineIR

open List Option Attempt CoroutineIR.Action

namespace Routine

variable {r : Routine} {results : List VarId} {v : VarId} {n : NodeId}

/-- From behind a node control can come to a return or to the end without the variable being
written. -/
inductive EndsUnwritten (r : Routine) (v : VarId) : NodeId → Prop
  | here {n : NodeId} (hends : r.endsAt n) : EndsUnwritten r v n
  | onward {n m : NodeId} (hm : r.Follows n m) (hwrite : .write v ∉ r.ownEvents m)
    (h : EndsUnwritten r v m) : EndsUnwritten r v n

/-- The collector may run at a node, and from there control can come to a return or to the end
without the variable being written. -/
def CollectsBeforeEnd (r : Routine) (v : VarId) (n : NodeId) : Prop :=
  ∃ before waiting behind, r.ownEvents n = before ++ .collect waiting :: behind ∧
    .write v ∉ behind ∧ r.EndsUnwritten v n

theorem EndsUnwritten.aliveBehind (h : r.EndsUnwritten v n) (hv : v ∈ results) :
    r.endsAt n ∨ r.AliveBehind results v n := by
  induction h with
  | here hends => exact Or.inl hends
  | onward hm hwrite _ ih =>
    rcases ih with hends | halive
    · exact Or.inr (.read hm (readsFirst_finalReads.mpr (Or.inr ⟨hwrite, hends, hv⟩)))
    · exact Or.inr (.pass hm hwrite halive)

/-- Such a collection is in need of a result. -/
theorem CollectsBeforeEnd.collectsAt (h : r.CollectsBeforeEnd v n) (hv : v ∈ results) :
    r.CollectsAt results v n := by
  obtain ⟨before, waiting, behind, hown, hwrite, hpath⟩ := h
  refine Or.inr ⟨before, waiting, behind, hown, ?_⟩
  rcases hpath.aliveBehind hv with hends | halive
  · exact Or.inl (readsFirst_finalReads.mpr (Or.inr ⟨hwrite, hends, hv⟩))
  · exact Or.inr ⟨hwrite, halive⟩

namespace Spills

variable {r' : Routine} {exit : NodeId} {t : Strand} {S : VarId → Prop}

variable (h : r.Spills r' S) (hr : r.WellStructured exit t)
include h hr

/-- A variable of the routine is written by the same nodes. -/
theorem write_mem_iff (hn : n ∈ r.live exit t)
    (hv : v < r.vars.size) : .write v ∈ r'.ownEvents n ↔ .write v ∈ r.ownEvents n := by
  have hkeep : keeps r (.write v) = true := by simpa [keeps] using hv
  have hmem : ∀ es : List Event, .write v ∈ es ↔ .write v ∈ es.filter (keeps r) :=
    fun es => by simp [hkeep]
  rw [hmem, h.filter_events hr hn, ← hmem]

theorem endsUnwritten (hv : v < r.vars.size)
    (hn : n ∈ r.live exit t) (hend : r'.EndsUnwritten v n) : r.EndsUnwritten v n := by
  induction hend with
  | here hends => exact .here ((h.endsAt_iff _).mp hends)
  | @onward n m hm hwrite _ ih =>
    rw [h.follows_iff] at hm
    have hmem := hr.mem_of_follows hn hm
    exact .onward hm (fun hmem' => hwrite ((h.write_mem_iff hr hmem hv).mpr hmem')) (ih hmem)

/-- Spilling adds no collection before the end. -/
theorem collectsBeforeEnd (hv : v < r.vars.size)
    (hn : n ∈ r.live exit t) (hcollects : r'.CollectsBeforeEnd v n) : r.CollectsBeforeEnd v n := by
  obtain ⟨before, waiting, behind, hown, hwrite, hend⟩ := hcollects
  have hfilter := h.filter_events hr hn
  rw [hown, filter_append, filter_cons_of_pos (by rfl)] at hfilter
  obtain ⟨before', rest, hown', -, hrest⟩ := filter_eq_append_iff.mp hfilter.symm
  obtain ⟨skipped, behind', rfl, -, -, hbehind⟩ := filter_eq_cons_iff.mp hrest
  refine ⟨before' ++ skipped, waiting, behind', by rw [hown', List.append_assoc],
    fun hmem => hwrite ?_, h.endsUnwritten hr hv hn hend⟩
  have hkept : .write v ∈ behind'.filter (keeps r) :=
    mem_filter.mpr ⟨hmem, by simpa [keeps] using hv⟩
  rw [hbehind] at hkept
  exact mem_of_mem_filter hkept

omit h hr

/-- A variable of the routine is declared as a result by the same nodes. -/
theorem result (h : r.Spills r' S) (hv : v < r.vars.size) {m : NodeId}
    (hresult : r'.result? m = some v) : r.result? m = some v := by
  obtain ⟨d', hd', hdest⟩ := bind_eq_some_iff.mp hresult
  split at hdest
  · rename_i hkind
    have hkinds := h.kinds m
    rw [kindOf, hd', map_some, hkind] at hkinds
    obtain ⟨d, hd, hkind'⟩ := map_eq_some_iff.mp hkinds.symm
    have hdests := h.dest m
    rw [destOf_eq hd', destOf_eq hd, hdest] at hdests
    rcases hdests with heq | ⟨-, u, hu, hle, -⟩
    · rw [result?, hd, bind_some, if_pos hkind', heq]
    · rw [← some.inj hu] at hle
      exact absurd hv (Nat.not_lt.mpr hle)
  · cases hdest

end Spills

end Routine

namespace Collector

variable {r r' : Routine} {exit n : NodeId} {t : Strand} {types : Registry} {v : VarId}

/-- A variable that may hold a pointer and that a collection is in need of is visible once the pass
has succeeded. -/
theorem discoverable_of_makes (hmakes : (discoverPointers types).Makes r () r')
    (h : r.WellStructured exit t) : ∃ S, r.Spills r' S ∧ ∀ v n, r.Traces types v → r.Reached n →
    r.CollectsAt (r.results exit t) v n → r'.Discoverable v := by
  obtain ⟨journal, journal', hok⟩ := hmakes
  obtain ⟨p, marked, waiting, hp, hmarked, -, hroutine⟩ := exists_of_discoverPointers hok
  obtain rfl : r' = _ := hroutine
  have hspills := Routine.Spills.all r (marked.members p.routine.vars.size) waiting
  refine ⟨_, hspills, fun v n htraces hreached hcollects => ?_⟩
  obtain ⟨hsame, rfl, hposes, htracks, hresults⟩ := Problem.poses_of_ofRoutine h hp
  obtain ⟨marked', hmarked', hcomplete, -⟩ := hposes.solve_eq
  obtain rfl := Except.ok.inj (hmarked.symm.trans hmarked')
  have htracked := (htracks v).mpr htraces
  have hv := hposes.tracked v htracked
  refine (hspills.shown v (hsame ▸ hv)).mpr (Or.inr (Or.inl (BitSet.mem_members.mpr ⟨hv, ?_⟩)))
  refine hcomplete v htracked ⟨n, hsame ▸ hreached, ?_⟩
  rw [hsame]
  exact hcollects.congr_results fun hv => (hresults v).mpr ⟨hv, htraces⟩

end Collector

namespace Compile

/-- Declared results stay visible until the routine returns or comes to its end. Whenever a routine
has been compiled, a declared result of it that may hold a pointer is visible if at some node that
control reaches the collector may run and control can come from there to a return or to the end
without the result being written. -/
theorem routine_results_visible {ctx : Context} {l l' : Lowering} {compiled : Compiled}
    (hbuilt : l.routine.Built) (hanalyze : ctx.settings.analyzePointers = true)
    (hok : Compile.routine ctx l = .ok compiled l') :
    ∃ live, l'.routine.liveNodes = .ok live ∧
      ∀ m ∈ live, ∀ v, l'.routine.result? m = some v → l'.routine.Traces ctx.types v →
        ∀ n, l'.routine.Reached n → l'.routine.CollectsBeforeEnd v n →
          l'.routine.Discoverable v := by
  obtain ⟨folded, cleaned, staged, treed, hcourse⟩ := exists_course hok
  obtain ⟨t, ht, -⟩ := hcourse.exists_staged hbuilt
  obtain ⟨t', hrun, hsame⟩ := hcourse.exists_inlinings ht.toWellStructured
  have hwell : treed.WellStructured 1 t' := hrun.wellStructured ht.toWellStructured
  have hshows := hcourse.shows
  rw [if_pos hanalyze] at hshows
  obtain ⟨S, hspills, hvisible⟩ := Collector.discoverable_of_makes hshows hwell
  obtain ⟨live, hlive, hperm⟩ := (hsame.streams hwell.toStreams).liveNodes_eq
  refine ⟨live, hlive, fun m hm v hresult htraces n hreached hcollects => ?_⟩
  rw [hperm.mem_iff, Routine.live, hsame.entry] at hm
  -- a variable that the analysis has added is visible anyway
  by_cases hv : v < treed.vars.size
  · have hreached' := hsame.reached hreached
    have hresult' : v ∈ treed.results 1 t' := mem_filterMap.mpr ⟨m, hm, hspills.result hv hresult⟩
    exact hvisible v n ((hspills.traces_iff hv).mp htraces) hreached'
      ((hspills.collectsBeforeEnd hwell hv (hwell.mem_of_reached hreached') hcollects).collectsAt
      hresult')
  · obtain ⟨-, x, -, hx, -⟩ := htraces
    obtain ⟨x, hx, hshown, -⟩ :=
      hspills.spare v (Nat.not_lt.mp hv) (Array.getElem?_eq_some_iff.mp hx).1
    exact ⟨x, hx, hshown⟩

/-- A coroutine that keeps a pointer in its result while it waits, runs a call that may collect and
returns. -/
theorem routine_results_visible_return :
    let source : Signature := ⟨[], some (.scalar .ptr), .default⟩
    let callee : Signature := ⟨[], none, .default⟩
    let calls : List Instruction := [.declare .result (.scalar .ptr) "r" false,
      .call (some 1) source [], .yieldNow, .call none callee [], .ret []]
    ∃ r b' compiled l', Build.finish (Build.play default calls (Build.define "main" default)).1 =
      .ok r b' ∧ r.Built ∧ Compile.routine ⟨default, {}⟩ { routine := r } = .ok compiled l' ∧
      compiled.lowered = true ∧ l'.routine.result? 2 = some 1 ∧ l'.routine.Traces default 1 ∧
      l'.routine.Reached 5 ∧ l'.routine.CollectsBeforeEnd 1 5 ∧ l'.routine.Discoverable 1 := by
  intro source callee calls
  obtain ⟨r, b', -, hfinish, hbuilt, -, hcompiled⟩ :=
    Build.exists_main calls (by decide)
    (fun r => (Compile.routine ⟨default, {}⟩).Yields { routine := r } fun compiled l' =>
    compiled.lowered = true ∧ l'.routine.liveNodes = .ok [0, 7, 2, 3, 4, 8, 9, 5, 6, 1] ∧
    List.IsChain l'.routine.Follows [l'.routine.entry, 7, 2, 3, 4, 8, 9, 5] ∧ l'.routine.Follows 5
    6 ∧ l'.routine.kindOf 6 = some .ret ∧ l'.routine.ownEvents 5 = [.collect []] ∧
    l'.routine.ownEvents 6 = [] ∧ l'.routine.result? 2 = some 1 ∧ 1 ≠ l'.routine.mem ∧
    l'.routine.vars[1]?.bind Variable.ty = some (.scalar .ptr)) (by decide +kernel)
  obtain ⟨compiled, l', hok, hlowered, hlive, hpath, hnext, hret, hcollect, hquiet,
      hresult, hmem, hty⟩ :=
    yields_iff_exists.mp hcompiled
  have htraces : l'.routine.Traces default 1 := .of_ptr hmem hty
  have hreached : l'.routine.Reached 5 := .of_path hpath
  have hcollects : l'.routine.CollectsBeforeEnd 1 5 :=
    ⟨[], [], [], hcollect, by simp, .onward (m := 6) hnext (by simp [hquiet]) (.here (Or.inl hret))⟩
  obtain ⟨live, hlive', hvisible⟩ := routine_results_visible hbuilt rfl hok
  obtain rfl := Except.ok.inj (hlive'.symm.trans hlive)
  exact ⟨r, b', compiled, l', hfinish, hbuilt, hok, hlowered, hresult, htraces, hreached, hcollects,
    hvisible 2 (by decide) 1 hresult htraces 5 hreached hcollects⟩

/-- The same coroutine without the return. Its last step ends with a jump that ends the routine, at
which nothing is read, so that the result is not visible while the call runs. -/
theorem routine_result_hidden_at_jump :
    let source : Signature := ⟨[], some (.scalar .ptr), .default⟩
    let callee : Signature := ⟨[], none, .default⟩
    let calls : List Instruction := [.declare .result (.scalar .ptr) "r" false,
      .call (some 1) source [], .yieldNow, .call none callee []]
    ∃ r b' compiled l', Build.finish (Build.play default calls (Build.define "main" default)).1 =
        .ok r b' ∧ r.Built ∧ Compile.routine ⟨default, {}⟩ { routine := r } = .ok compiled l' ∧
      l'.routine.result? 2 = some 1 ∧ l'.routine.Traces default 1 ∧ l'.routine.Reached 5 ∧
      l'.routine.ownEvents 5 = [.collect []] ∧ l'.routine.Follows 5 9 ∧
      l'.routine.kindOf 9 = some (.goto false .terminal) ∧ l'.routine.ownEvents 9 = [] ∧
      ¬l'.routine.Discoverable 1 := by
  intro source callee calls
  obtain ⟨r, b', -, hfinish, hbuilt, -, hcompiled⟩ :=
    Build.exists_main calls (by decide)
    (fun r => (Compile.routine ⟨default, {}⟩).Yields { routine := r } fun _ l' =>
    l'.routine.result? 2 = some 1 ∧
      (1 ≠ l'.routine.mem ∧ l'.routine.vars[1]?.bind Variable.ty = some (.scalar .ptr)) ∧
      List.IsChain l'.routine.Follows [l'.routine.entry, 6, 2, 3, 4, 7, 8, 5] ∧
      l'.routine.ownEvents 5 = [.collect []] ∧ l'.routine.Follows 5 9 ∧
      l'.routine.kindOf 9 = some (.goto false .terminal) ∧
      l'.routine.ownEvents 9 = [] ∧
      l'.routine.vars[1]?.map Variable.discoverable = some false) (by decide +kernel)
  obtain ⟨compiled, l', hok, hresult, ⟨hmem, hty⟩, hpath, hcollect, hnext, hjump,
      hquiet, hhidden⟩ :=
    yields_iff_exists.mp hcompiled
  refine ⟨r, b', compiled, l', hfinish, hbuilt, hok, hresult, .of_ptr hmem hty, .of_path hpath,
    hcollect, hnext, hjump, hquiet, ?_⟩
  rintro ⟨x, hx, hshown⟩
  simp [hx, hshown] at hhidden

end Compile

end CoroutineIR
