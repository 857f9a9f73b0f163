import CoroutineIR.Proofs.Finished
import CoroutineIR.Proofs.Liveness
import CoroutineIR.Proofs.Pointers
import CoroutineIR.Proofs.Spilling

/-!
# What the collector is shown

A variable that may hold a pointer is marked if a collection is in need of it: its value is read
after the collection, or it waits on the operand stack meanwhile. Apart from these, only the
destinations of sub-expressions whose result waits on the stack are marked.
-/

namespace CoroutineIR

open List Attempt CoroutineIR.Action Routine

namespace Attempt

variable {ε α β : Type} {l kept : List α} {f : α → Attempt ε Bool} {a : α}

/-- Gathering lists under the monad. -/
theorem mapM_flatten_eq_ok {f : α → Attempt ε (List β)} {P : α → β → Prop}
    (h : ∀ a ∈ l, ∃ bs, f a = .ok bs ∧ ∀ b, b ∈ bs ↔ P a b) :
    ∃ bss, l.mapM f = .ok bss ∧ ∀ b, b ∈ bss.flatten ↔ ∃ a ∈ l, P a b := by
  induction l with
  | nil => exact ⟨[], rfl, by simp⟩
  | cons a l ih =>
    simp only [forall_mem_cons] at h
    obtain ⟨bs, hbs, hmem⟩ := h.1
    obtain ⟨bss, hbss, hmem'⟩ := ih h.2
    refine ⟨bs :: bss, ?_, by simp [hmem, hmem']⟩
    rw [mapM_cons, hbs]
    simp only [ok_bind, hbss]
    rfl

/-- Keeping elements succeeds only if there is an answer for each of them. -/
theorem exists_of_filterM (h : l.filterM f = .ok kept) (ha : a ∈ l) : ∃ b, f a = .ok b := by
  obtain ⟨kept', haux, -⟩ := bind_eq_ok_iff.mp h
  clear h
  suffices hany : ∀ acc : List α, l.filterAuxM f acc = .ok kept' →
    ∃ b, f a = .ok b from hany [] haux
  clear haux
  induction l with
  | nil => cases ha
  | cons a' l ih =>
    intro acc haux
    obtain ⟨b, hb, hrest⟩ := bind_eq_ok_iff.mp haux
    obtain rfl | ha := mem_cons.mp ha
    · exact ⟨b, hb⟩
    · exact ih ha _ hrest

theorem mem_filterM_iff (h : l.filterM f = .ok kept) : a ∈ kept ↔ a ∈ l ∧ f a = .ok true := by
  obtain ⟨kept', hkept', hmem⟩ :=
      filterM_eq_ok (f := f) (P := fun a => f a = .ok true) (l := l) fun a ha => by
    obtain ⟨b, hb⟩ := exists_of_filterM h ha
    exact ⟨b, hb, by rw [hb, Except.ok.injEq]⟩
  obtain rfl := Except.ok.inj (h.symm.trans hkept')
  exact hmem a

end Attempt

namespace Routine

variable {r r' : Routine} {exit n m : NodeId} {t : Strand} {types : Registry} {v : VarId}

/-- The registry knows the types of variables and of nodes. -/
structure TypedIn (r : Routine) (types : Registry) : Prop where
  closed : types.Closed
  vars : ∀ x ∈ r.vars, ∀ ty ∈ x.ty, types.Knows ty
  nodes : ∀ d ∈ r.nodes, ∀ ty ∈ d.ty, types.Knows ty

instance : Decidable (r.TypedIn types) :=
  decidable_of_iff (types.Closed ∧ (∀ x ∈ r.vars, ∀ ty ∈ x.ty, types.Knows ty) ∧
    ∀ d ∈ r.nodes, ∀ ty ∈ d.ty, types.Knows ty)
    ⟨fun h => ⟨h.1, h.2.1, h.2.2⟩, fun h => ⟨h.closed, h.vars, h.nodes⟩⟩

/-- A variable other than the memory that may hold a pointer. -/
def Traces (r : Routine) (types : Registry) (v : VarId) : Prop :=
  v ≠ r.mem ∧ ∃ x ty, r.vars[v]? = some x ∧ x.ty = some ty ∧ types.HoldsPointer ty

theorem Traces.of_ptr (hmem : v ≠ r.mem) (hty : r.vars[v]?.bind Variable.ty = some (.scalar .ptr)) :
    r.Traces types v := by
  obtain ⟨x, hx, hty⟩ := Option.bind_eq_some_iff.mp hty
  exact ⟨hmem, x, _, hx, hty, .scalar⟩

/-- Spilling does not change which variables may hold a pointer. -/
theorem Spills.traces_iff {S : VarId → Prop} (h : r.Spills r' S) (hv : v < r.vars.size) :
    r'.Traces types v ↔ r.Traces types v := by
  have hv' := Nat.lt_of_lt_of_le hv h.grows
  have hvars := h.vars v hv
  rw [Array.getElem?_eq_getElem hv, Array.getElem?_eq_getElem hv'] at hvars
  have hsame : r'.vars[v].unmarked.ty = r.vars[v].unmarked.ty := by rw [Option.some.inj hvars]
  replace hsame : r'.vars[v].ty = r.vars[v].ty := hsame
  simp only [Traces, h.mem, Array.getElem?_eq_getElem hv, Array.getElem?_eq_getElem hv',
    Option.some.injEq, exists_and_left, exists_eq_left', hsame]

/-- The variable a node declares as a result. -/
def result? (r : Routine) (n : NodeId) : Option VarId :=
  (r.label n).bind fun d => if d.kind = .declare .result then d.dest else none

/-- The declared results of a routine. -/
def results (r : Routine) (exit : NodeId) (t : Strand) : List VarId :=
  (r.entry :: exit :: t.nodes).filterMap r.result?

/-- The result of a sub-expression of a node may hold a pointer and waits on the operand stack while
an operand behind it may run the collector. -/
def WaitsAt (r : Routine) (types : Registry) (m n : NodeId) : Prop :=
  (∃ x ∈ n :: r.below n, r.Outlasts x (.node m)) ∧ ∃ d ty, r.label m = some d ∧ d.ty = some ty ∧
    types.HoldsPointer ty

section Results

variable {results results' : List VarId}

theorem readsFirst_finalReads {es : List Event} : ReadsFirst v (es ++ r.finalReads results n) ↔
    ReadsFirst v es ∨ .write v ∉ es ∧ r.endsAt n ∧ v ∈ results := by
  rw [readsFirst_append, finalReads]
  split
  · rename_i hends
    simp [readsFirst_map_read, hends]
  · rename_i hends
    simp [readsFirst_nil, hends]

/-- Whether a variable is alive depends on the results only as far as it is one of them. -/
theorem AliveBehind.congr_results (h : r.AliveBehind results v n)
    (hv : v ∈ results → v ∈ results') : r.AliveBehind results' v n := by
  induction h with
  | read hm hread =>
    refine .read hm ?_
    rw [readsFirst_finalReads] at hread ⊢
    exact hread.imp_right (And.imp_right (And.imp_right hv))
  | pass hm hwrite _ ih => exact .pass hm hwrite ih

theorem CollectsAt.congr_results (h : r.CollectsAt results v n) (hv : v ∈ results → v ∈ results') :
    r.CollectsAt results' v n := by
  refine h.imp_right fun h => ?_
  obtain ⟨before, waiting, behind, hown, h⟩ := h
  refine ⟨before, waiting, behind, hown,
    h.imp (fun hread => ?_) (And.imp_right fun h => h.congr_results hv)⟩
  rw [readsFirst_finalReads] at hread ⊢
  exact hread.imp_right (And.imp_right (And.imp_right hv))

end Results

/-- The result of a node is a variable of the routine. -/
theorem WellStructured.lt_of_result (h : r.WellStructured exit t) (hn : n ∈ r.live exit t)
    (hv : r.result? n = some v) : v < r.vars.size := by
  obtain ⟨d, hd, hdest⟩ := Option.bind_eq_some_iff.mp hv
  split at hdest
  · rename_i hkind
    have haccess : (v, Access.read) ∈ d.accesses := by simp [Node.accesses, hkind, hdest]
    obtain ⟨x, hx⟩ := exists_var_of_tally (h.tally_pos hn hd haccess)
    exact (Array.getElem?_eq_some_iff.mp hx).1
  · simp at hdest

end Routine

namespace Collector

variable {r : Routine} {exit n m : NodeId} {t : Strand} {types : Registry} {v : VarId} {p : Problem}

/-- Whether a variable is one that may hold a pointer. -/
def tracks (types : Registry) (r : Routine) (v : VarId) : Query Bool := do
  if v = r.mem then
    return false
  match (← r.var v).ty with
  | some ty => types.hasPointers ty
  | none => return false

/-- An answer about a variable is right. -/
theorem traces_iff_of_tracks {b : Bool} (hv : v < r.vars.size) (h : tracks types r v = .ok b) :
    b = true ↔ r.Traces types v := by
  have hx := Array.getElem?_eq_getElem hv
  unfold tracks at h
  by_cases hmem : v = r.mem
  · simp only [hmem, if_true] at h
    obtain rfl := Except.ok.inj h
    simp [Routine.Traces, hmem]
  simp only [hmem, if_false, var_eq_ok_iff.mpr hx, ok_bind] at h
  cases hty : r.vars[v].ty with
  | none =>
    rw [hty] at h
    obtain rfl := Except.ok.inj h
    simp [Routine.Traces, hx, hty]
  | some ty =>
    rw [hty] at h
    rw [Registry.holdsPointer_iff_of_hasPointers h]
    simp [Routine.Traces, hmem, hx, hty]

/-- The variables found to be tracked are those that may hold a pointer. -/
theorem contains_of_trackedVars {tracked : BitSet} (h : trackedVars types r = .ok tracked) :
    tracked.contains v = true ↔ r.Traces types v := by
  obtain ⟨held, hheld, hset⟩ := bind_eq_ok_iff.mp h
  obtain rfl := Except.ok.inj hset
  rw [BitSet.contains_ofList, decide_eq_true_eq, mem_filterM_iff hheld]
  constructor
  · rintro ⟨hv, htrue⟩
    exact (traces_iff_of_tracks (by simpa [Arena.ids] using hv) htrue).mp rfl
  · intro htraces
    obtain ⟨-, x, -, hx, -⟩ := id htraces
    have hv : v < r.vars.size := (Array.getElem?_eq_some_iff.mp hx).1
    have hmem : v ∈ Arena.ids r.vars := by simpa [Arena.ids] using hv
    obtain ⟨b, hb⟩ := exists_of_filterM hheld hmem
    exact ⟨hmem, ((traces_iff_of_tracks hv hb).mpr htraces) ▸ hb⟩

/-- The variables that may hold a pointer can be found if their types are known. -/
theorem exists_trackedVars (htypes : r.TypedIn types) :
    ∃ tracked, trackedVars types r = .ok tracked := by
  have hone : ∀ v ∈ Arena.ids r.vars, ∃ b, tracks types r v = .ok b ∧
      (b = true ↔ r.Traces types v) := by
    intro v hv
    have hv' : v < r.vars.size := by simpa [Arena.ids] using hv
    have hx := Array.getElem?_eq_getElem hv'
    obtain ⟨b, hb⟩ : ∃ b, tracks types r v = .ok b := by
      unfold tracks
      by_cases hmem : v = r.mem
      · exact ⟨false, by simp only [hmem, if_true]; rfl⟩
      simp only [hmem, if_false, var_eq_ok_iff.mpr hx, ok_bind]
      cases hty : r.vars[v].ty with
      | none => exact ⟨false, rfl⟩
      | some ty =>
        obtain ⟨b, hb, -⟩ : ∃ b, (types.hasPointers ty : Query Bool) = .ok b ∧
            (b = true ↔ types.HoldsPointer ty) :=
          Registry.hasPointers_eq htypes.closed (htypes.vars _ (Array.mem_of_getElem? hx) ty hty)
        exact ⟨b, hb⟩
    exact ⟨b, hb, traces_iff_of_tracks hv' hb⟩
  obtain ⟨kept, hrun, -⟩ := filterM_eq_ok hone
  exact ⟨.ofList kept, bind_eq_ok_iff.mpr ⟨kept, hrun, rfl⟩⟩

/-- The declared results that may hold a pointer. -/
theorem trackedResults_eq (h : r.WellStructured exit t) {live : List NodeId}
    (hlive : r.liveNodes = .ok live) (tracked : BitSet) :
    trackedResults r tracked = .ok ((live.filterMap r.result?).filter tracked.contains) := by
  obtain ⟨live', hlive', hperm⟩ := h.liveNodes_eq
  obtain rfl := Except.ok.inj (hlive.symm.trans hlive')
  have hdests : (live.mapM fun n => do
      let node ← r.node n
      return if node.kind = .declare .result then node.dest else none :
          Query _) = .ok (live.map r.result?) := by
    refine mapM_eq_ok_map fun n hn => ?_
    obtain ⟨d, hd⟩ := h.exists_node (hperm.mem_iff.mp hn)
    simp only [node_eq_ok_iff.mpr hd, ok_bind, Routine.result?,
      Routine.label_eq hd, Option.bind_some]
    rfl
  have hkept : (live.filterMap r.result?).filterM (isTracked r tracked) =
      .ok ((live.filterMap r.result?).filter tracked.contains) := by
    refine filterM_eq_ok_filter fun v hv => ?_
    obtain ⟨n, hn, hresult⟩ := mem_filterMap.mp hv
    rw [isTracked, if_pos (h.lt_of_result (hperm.mem_iff.mp hn) hresult)]
  simp only [trackedResults, hlive, bind, Except.bind] at hdests ⊢
  rw [hdests, ← hkept]
  simp only [filterMap_map, Function.id_comp]

/-- Equations that have been set up are those of the routine. -/
theorem Problem.poses_of_ofRoutine (h : r.WellStructured exit t)
    (hp : Problem.ofRoutine types r = .ok p) :
    p.routine = r ∧ p.types = types ∧ p.Poses exit t ∧ (∀ v, p.Tracks v ↔ r.Traces types v) ∧
    ∀ v, v ∈ p.results ↔ v ∈ r.results exit t ∧ r.Traces types v := by
  obtain ⟨tracked, htracked, hp⟩ := bind_eq_ok_iff.mp hp
  obtain ⟨results, hresults, hp⟩ := bind_eq_ok_iff.mp hp
  obtain ⟨preds, hpreds, hp⟩ := bind_eq_ok_iff.mp hp
  obtain rfl := Except.ok.inj hp
  have hcontains : ∀ v, tracked.contains v = true ↔ r.Traces types v :=
    fun v => contains_of_trackedVars htracked
  obtain ⟨live, hlive, hperm⟩ := h.liveNodes_eq
  obtain rfl := Except.ok.inj (hresults.symm.trans (trackedResults_eq h hlive tracked))
  have hmem : ∀ v, v ∈ (live.filterMap r.result?).filter tracked.contains ↔
      v ∈ r.results exit t ∧ tracked.contains v = true :=
    fun v => by rw [mem_filter, (hperm.filterMap r.result?).mem_iff, Routine.results]
  obtain ⟨preds', hpreds', hsize, hedges⟩ := h.flowPreds_eq
  obtain rfl := Except.ok.inj (hpreds.symm.trans hpreds')
  refine ⟨rfl, rfl, ⟨h, fun v hv => ?_, fun v hv => ?_, hsize, hedges⟩, hcontains,
    fun v => by rw [hmem, hcontains]⟩
  · obtain ⟨-, x, -, hx, -⟩ := (hcontains v).mp hv
    exact (Array.getElem?_eq_some_iff.mp hx).1
  · obtain ⟨n, hn, hresult⟩ := mem_filterMap.mp ((hmem v).mp hv).1
    exact h.lt_of_result hn hresult

/-- The equations can be set up if the types are known. -/
theorem Problem.exists_ofRoutine (h : r.WellStructured exit t) (htypes : r.TypedIn types) :
    ∃ p, Problem.ofRoutine types r = .ok p := by
  obtain ⟨tracked, htracked⟩ := exists_trackedVars htypes
  obtain ⟨live, hlive, -⟩ := h.liveNodes_eq
  obtain ⟨preds, hpreds, -⟩ := h.flowPreds_eq
  exact ⟨_, bind_eq_ok_iff.mpr ⟨tracked, htracked, bind_eq_ok_iff.mpr
    ⟨_, trackedResults_eq h hlive tracked, bind_eq_ok_iff.mpr ⟨preds, hpreds, rfl⟩⟩⟩⟩

namespace Problem

/-- Whether the result of a sub-expression may hold a pointer. -/
theorem yieldsPointer_eq (htypes : p.routine.TypedIn p.types) (hm : p.routine.Delivers m) :
    ∃ b, p.yieldsPointer m = .ok b ∧
      (b = true ↔ ∃ d ty, p.routine.label m = some d ∧ d.ty = some ty ∧
      p.types.HoldsPointer ty) := by
  obtain ⟨d, hd, -⟩ := hm
  simp only [yieldsPointer, node_eq_ok_iff.mpr (node_of_label hd), ok_bind]
  cases hty : d.ty with
  | none => exact ⟨false, rfl, by simp [hd, hty]⟩
  | some ty =>
    obtain ⟨b, hb, hholds⟩ : ∃ b, (p.types.hasPointers ty : Query Bool) = .ok b ∧
        (b = true ↔ p.types.HoldsPointer ty) :=
      Registry.hasPointers_eq htypes.closed
        (htypes.nodes _ (Array.mem_of_getElem? (node_of_label hd)) ty hty)
    exact ⟨b, hb, by rw [hholds]; simp [hd, hty]⟩

/-- The sub-expression whose result waits, if it is one. -/
def temp? : Waiting → Option NodeId
  | .temp n => some n
  | _ => none

/-- The sub-expressions that wait during an event. -/
theorem waitingTemps_eq (htypes : p.routine.TypedIn p.types) {vars : VarId → Prop} {e : Event}
    (he : e.Mentions vars p.routine.Delivers) :
    ∃ ms, p.waitingTemps e = .ok ms ∧ ∀ m, m ∈ ms ↔ ∃ waiting, e = .collect waiting ∧ .temp m ∈
    waiting ∧ ∃ d ty, p.routine.label m = some d ∧ d.ty = some ty ∧ p.types.HoldsPointer ty := by
  cases e with
  | read v => exact ⟨[], rfl, by simp⟩
  | write v => exact ⟨[], rfl, by simp⟩
  | collect waiting =>
    have hmem : ∀ m, m ∈ waiting.filterMap temp? ↔ .temp m ∈ waiting := by
      intro m
      rw [mem_filterMap]
      constructor
      · rintro ⟨x, hx, heq⟩
        cases x with
        | temp k =>
          obtain rfl := Option.some.inj heq
          exact hx
        | lit => simp [temp?] at heq
        | var v => simp [temp?] at heq
      · exact fun hm => ⟨_, hm, rfl⟩
    obtain ⟨ms, hrun, hms⟩ := filterM_eq_ok fun m hm =>
      yieldsPointer_eq htypes (he _ ((hmem m).mp hm))
    refine ⟨ms, hrun, fun m => ?_⟩
    rw [hms, hmem]
    simp

theorem mem_foldl_dedup {ms seen : List NodeId} :
    m ∈ ms.foldl (fun seen n => if n ∈ seen then seen else seen ++ [n]) seen ↔
    m ∈ seen ∨ m ∈ ms := by
  induction ms generalizing seen with
  | nil => simp
  | cons n ms ih =>
    rw [foldl_cons, ih]
    split
    · rename_i hn
      rw [mem_cons]
      exact ⟨Or.imp_right Or.inr, fun h => h.elim Or.inl (Or.rec (fun h => Or.inl (h ▸ hn)) Or.inr)⟩
    · simp [or_assoc]

/-- The sub-expressions whose pointer waits while the collector may run. -/
theorem Poses.waitingPointers_eq (hp : p.Poses exit t) (htypes : p.routine.TypedIn p.types) :
    ∃ ms, p.waitingPointers = .ok ms ∧ (∀ m ∈ ms, p.routine.Delivers m) ∧
      ∀ m, m ∈ ms ↔ ∃ n ∈ p.routine.live exit t, p.routine.WaitsAt p.types m n := by
  obtain ⟨live, hlive, hperm⟩ := hp.routine.liveNodes_eq
  have hnode : ∀ n ∈ live, ∃ ms, ((do
      let temps ← (← p.routine.events p.results n).mapM p.waitingTemps
      return temps.flatten : Query _) = .ok ms) ∧ ∀ m, m ∈ ms ↔ p.routine.WaitsAt p.types m n := by
    intro n hn
    obtain ⟨hevents, hmentions⟩ := hp.events_eq (hperm.mem_iff.mp hn)
    obtain ⟨temps, hrun, hmem⟩ := mapM_flatten_eq_ok fun e he =>
      waitingTemps_eq htypes (hmentions e he)
    refine ⟨temps.flatten, ?_, fun m => ?_⟩
    · simp only [hevents, ok_bind, hrun]
      rfl
    · rw [hmem, Routine.WaitsAt, ← hp.routine.waitsDuring_node (hperm.mem_iff.mp hn)]
      constructor
      · rintro ⟨_, he, waiting, rfl, hm, hpointer⟩
        rcases mem_append.mp he with he | he
        · exact ⟨⟨waiting, he, hm⟩, hpointer⟩
        · exact absurd he collect_notMem_finalReads
      · rintro ⟨⟨waiting, he, hm⟩, hpointer⟩
        exact ⟨_, mem_append_left _ he, waiting, rfl, hm, hpointer⟩
  obtain ⟨found, hrun, hmem⟩ := mapM_flatten_eq_ok hnode
  refine ⟨found.flatten.foldl (fun seen n => if n ∈ seen then seen else seen ++ [n]) [], ?_, ?_, ?_⟩
  · rw [waitingPointers, hlive]
    simp only [ok_bind] at hrun ⊢
    rw [hrun]
    rfl
  · intro m hm
    rw [mem_foldl_dedup, hmem] at hm
    obtain ⟨n, hn, houtlasts, -⟩ := hm.resolve_left (by simp)
    replace hn := hperm.mem_iff.mp hn
    obtain ⟨waiting, he, hm⟩ := (hp.routine.waitsDuring_node hn).mpr houtlasts
    exact (hp.routine.events_eq hn []).2 _ he _ hm
  · intro m
    rw [mem_foldl_dedup, hmem]
    simp [hperm.mem_iff]

end Problem

variable {w : Work}

/-- Marking succeeds. It marks every variable that may hold a pointer and that a collection at a
node control reaches is in need of. A variable it marks is the destination of a sub-expression whose
pointer waits on the stack, or may hold a pointer and a collection at some node of the stream is in
need of it. -/
theorem discoverPointers_exact (h : w.routine.WellStructured exit t)
    (htypes : w.routine.TypedIn types) : Yields (discoverPointers types) w fun _ w' =>
      (∀ v n, w.routine.Traces types v → w.routine.Reached n →
        w.routine.CollectsAt (w.routine.results exit t) v n → w'.routine.Discoverable v) ∧
      ∀ v, v < w.routine.vars.size → w'.routine.Discoverable v → w.routine.Discoverable v ∨
        (∃ m d, w.routine.label m = some d ∧ d.dest = some v ∧
          ∃ n ∈ w.routine.entry :: exit :: t.nodes, w.routine.WaitsAt types m n) ∨
        w.routine.Traces types v ∧ ∃ n ∈ w.routine.entry :: exit :: t.nodes,
          w.routine.CollectsAt (w.routine.results exit t) v n := by
  obtain ⟨r, journal⟩ := w
  obtain ⟨p, hp⟩ := Problem.exists_ofRoutine h htypes
  obtain ⟨rfl, rfl, hposes, htracks, hresults⟩ := Problem.poses_of_ofRoutine h hp
  obtain ⟨marked, hmarked, hcomplete, hsound⟩ := hposes.solve_eq
  obtain ⟨waiting, hwaiting, hdelivers, hwaits⟩ := hposes.waitingPointers_eq htypes
  have hpointed : ∀ v, v ∈ marked.members p.routine.vars.size ↔ marked.contains v = true :=
      fun v => by
    rw [BitSet.mem_members]
    exact and_iff_right_of_imp fun hv => hposes.tracked v (hsound v hv).1
  refine (yields_discoverPointers hp hmarked rfl hwaiting hdelivers).mono fun _ w' hw' => ?_
  have hspills := Routine.Spills.all p.routine (marked.members p.routine.vars.size) waiting
  rw [← hw'] at hspills
  refine ⟨fun v n htraces hreached hcollects => ?_, fun v hv hshown => ?_⟩
  · have htracked := (htracks v).mpr htraces
    have hmem := hcomplete v htracked
      ⟨n, hreached, hcollects.congr_results fun hv => (hresults v).mpr ⟨hv, htraces⟩⟩
    exact (hspills.shown v (hposes.tracked v htracked)).mpr
      (Or.inr (Or.inl ((hpointed v).mpr hmem)))
  · refine ((hspills.shown v hv).mp hshown).imp_right fun hv' => ?_
    rcases hv' with hmem | ⟨m, hm, hdest⟩
    · obtain ⟨htracked, n, hn, hcollects⟩ := hsound v ((hpointed v).mp hmem)
      exact Or.inr ⟨(htracks v).mp htracked, n, hn,
        hcollects.congr_results fun hv => ((hresults v).mp hv).1⟩
    · obtain ⟨d, hd, hdest⟩ := Option.bind_eq_some_iff.mp hdest
      exact Or.inl ⟨m, d, hd, hdest, (hwaits m).mp hm⟩

/-- A pointer that is taken from one call and returned after another one has to be seen. -/
theorem discoverPointers_exact_call :
    let callee : Signature := ⟨[], some (.scalar .ptr), .default⟩
    let calls : List Instruction :=
      [.tmp (some (.scalar .ptr)), .call (some 1) callee [], .call none callee [], .ret [.var 1]]
    ∃ r b' t, Build.finish (Build.play default calls (Build.define "main" default)).1 = .ok r b' ∧
      r.WellStructured 1 t ∧ r.TypedIn default ∧
      r.Traces default 1 ∧ r.Reached 3 ∧ r.CollectsAt (r.results 1 t) 1 3 ∧
      Yields (discoverPointers default) ⟨r, #[]⟩ fun _ w' => w'.routine.Discoverable 1 := by
  intro callee calls
  obtain ⟨r, b', t, hfinish, -, ht, htyped, hmem, hty, hpath, hnext, hcollect, hread⟩ :=
    Build.exists_main calls (by decide) (fun r => r.TypedIn default ∧ 1 ≠ r.mem ∧
    r.vars[1]?.bind Variable.ty = some (.scalar .ptr) ∧ List.IsChain r.Follows [r.entry, 2, 3] ∧
    r.Follows 3 4 ∧ r.ownEvents 3 = [.collect []] ∧ r.ownEvents 4 = [.read 1]) (by decide +kernel)
  have htraces : r.Traces default 1 := .of_ptr hmem hty
  have hreached : r.Reached 3 := .of_path hpath
  have hcollects : r.CollectsAt (r.results 1 t) 1 3 := by
    refine Or.inr ⟨[], [], [], hcollect, Or.inr ⟨by simp, .read (m := 4) hnext ?_⟩⟩
    rw [hread]
    exact .read _
  refine ⟨r, b', t, hfinish, ht, htyped, htraces, hreached, hcollects, ?_⟩
  exact (discoverPointers_exact (w := ⟨r, #[]⟩) ht htyped).mono fun _ w' h =>
    h.1 1 3 htraces hreached hcollects

end Collector

end CoroutineIR
