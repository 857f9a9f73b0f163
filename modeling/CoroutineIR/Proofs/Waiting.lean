import CoroutineIR.Proofs.Discovery
import CoroutineIR.Proofs.TreeBuilding

/-!
# Pointers on the operand stack

A pointer that a sub-expression delivers waits on the operand stack while the operands behind it are
evaluated. If the collector may run meanwhile, the sub-expression gets a variable that the collector
sees. This keeps the check, since each new variable is written and read once, and it is done once:
the second time every pointer that waits has its variable.
-/

namespace CoroutineIR

open List Attempt CoroutineIR.Action NodeKind

namespace Routine

variable {r r' : Routine} {exit n m : NodeId} {t : Strand} {types : Registry}
  {es : List Event} {ms : List NodeId} {d : Node}

/-- The result of a sub-expression is a pointer that waits on the operand stack while an operand
behind it may run the collector. -/
def Awaits (r : Routine) (types : Registry) (exit : NodeId) (t : Strand) (m : NodeId) : Prop :=
  ∃ n ∈ r.entry :: exit :: t.nodes, r.WaitsAt types m n

/-- What waits is an operand. -/
theorem Awaits.mem_below (h : r.Awaits types exit t m) (hr : r.WellStructured exit t) :
    m ∈ (r.live exit t).flatMap r.below := by
  obtain ⟨n, hn, ⟨x, hx, d, after, -, hd, hsuffix, -⟩, -⟩ := h
  have hmem : m ∈ (n :: r.below n).tail :=
    mem_tail_of_nestedWithin (hr.nested_eq hn) hx hd (hsuffix.mem (mem_cons_self ..))
  exact mem_flatMap.mpr ⟨n, hn, hmem⟩

/-- No sub-expression is a declaration. -/
def Undeclared (r : Routine) (exit : NodeId) (t : Strand) : Prop :=
  ∀ n ∈ r.live exit t, ∀ m ∈ r.below n, (r.kindOf m).any NodeKind.isDeclaration = false

/-- The builder nests nothing. -/
theorem Built.undeclared (h : r.Built) (hr : r.WellStructured exit t) : r.Undeclared exit t := by
  intro n hn m hm
  obtain ⟨d, hd⟩ := Option.isSome_iff_exists.mp (label_isSome.mpr (hr.lt_size hn))
  rw [below, nested_flat hd (h.flat hd)] at hm
  cases hm

/-- Declarations are not moved when trees are built. -/
theorem Inlines.undeclared {t' : Strand} {i : ℕ} {v : VarId}
    {reader e : Node} {assigned : List VarId} {k p s : NodeId}
    (h : r.Inlines r' exit t t' n i v k reader e assigned p s) (hr : r.WellStructured exit t)
    (hnone : r.Undeclared exit t) : r'.Undeclared exit t' := by
  intro x hx m hm
  rw [h.bypasses.kinds]
  rcases h.below_cases hr hx hm with rfl | ⟨y, hy, hm⟩
  · rw [kindOf_of_label h.defines.label rfl, Option.any_some, h.defines.not_declaration]
  · exact hnone y hy m hm

/-! ### Keeping the check -/

/-- Changes of variables that leave the counts alone do not matter. -/
theorem WellStructured.expose (hr : r.WellStructured exit t) (v : VarId) :
    (r.expose v).WellStructured exit t := by
  have hsame : r.SameStream (r.expose v) := .alterVar v _
  have htally : ∀ u access, (r.expose v).tally u access = r.tally u access := by
    intro u access
    cases access <;> simp only [tally, readsOf, writesOf, Routine.expose, getElem?_alterVar] <;>
      split <;> cases r.vars[u]? <;> rfl
  have haccounted : (r.expose v).Accounted exit t := by
    refine hr.accounted.without [] (hsame.streams hr.toStreams).toCarries rfl rfl (size_expose v)
      (fun _ => rfl) (fun _ h => h) (.refl _) fun u access => ?_
    rw [htally, flatMap_nil, count_nil]
    rfl
  exact hsame.wellStructured hr (fun _ => rfl) haccounted.nests haccounted.counted

/-- A sub-expression that stands in one place and is no declaration may get a destination of its
own. -/
theorem WellStructured.stow (hr : r.WellStructured exit t) (hd : r.label m = some d)
    (hdest : d.dest = none) (hdecl : d.kind.isDeclaration = false)
    (honce : ((r.live exit t).flatMap r.below).count m = 1) (ty : Option Ty) :
    (r.stow m ty).WellStructured exit t := by
  have hsame := r.sameStream_stow m ty
  have hnested : ∀ n ∈ r.live exit t, (r.stow m ty).nested n = .ok (n :: r.below n) := fun n hn =>
    nested_congr (hr.nested_eq hn) fun x _ => by
      rw [operandNodes, operandNodes, label_stow]
      split
      · rw [Option.map_map]
        rfl
      · rfl
  have hbelow : ∀ n ∈ r.live exit t, (r.stow m ty).below n = r.below n :=
    fun n hn => below_of_nested (hnested n hn)
  have hnests : ∀ n ∈ r.live exit t, (r.stow m ty).NestsDetached n := fun n hn =>
    nestsDetached_of_below (hbelow n hn ▸ hnested n hn) fun x hx => by
      rw [Detached, hsame.nextOf, hsame.prevOf]
      exact (hr.below_detached hn (hbelow n hn ▸ hx)).2
  refine hsame.wellStructured hr (fun x => ?_) hnests
    (hr.accounted.counted_of_balance rfl (by simp) hnests fun v access => ?_)
  · rw [label_stow]
    split
    · rw [Option.map_map]
      rfl
    · rfl
  -- the stream itself accesses what it did, and the sub-expression its destination
  have hmem : m ∈ (r.live exit t).flatMap r.below := count_pos_iff.mp (by omega)
  have hown : (r.live exit t).flatMap (fun n => (r.stow m ty).accessesAt n n) =
      (r.live exit t).flatMap fun n => r.accessesAt n n := by
    refine flatMap_congr fun n hn => ?_
    obtain ⟨k, hk, hm⟩ := mem_flatMap.mp hmem
    have hne : n ≠ m := fun heq => hr.not_mem_below hk hn (heq ▸ hm)
    rw [accessesAt, label_stow, if_neg hne, accessesAt]
  have hperm := perm_cons_erase hmem
  have hothers : (((r.live exit t).flatMap r.below).erase m).flatMap (r.stow m ty).innerAccesses =
      (((r.live exit t).flatMap r.below).erase m).flatMap r.innerAccesses := by
    refine flatMap_congr fun x hx => ?_
    have hne : x ≠ m := by
      rintro rfl
      have hpos := count_pos_iff.mpr hx
      rw [count_erase_self] at hpos
      omega
    rw [innerAccesses, label_stow, if_neg hne, innerAccesses]
  have hself : ((r.stow m ty).innerAccesses m).count (v, access) =
      (r.innerAccesses m).count (v, access) + if v = r.vars.size then 1 else 0 := by
    have hkind : ({ d with dest := some r.vars.size } : Node).accesses =
        (r.vars.size, .write) :: d.accesses := by
      rw [Node.accesses, Node.accesses, hdest]
      cases hk : d.kind with
      | declare => simp [hk] at hdecl
      | _ => rfl
    rw [innerAccesses, innerAccesses, label_stow, if_pos rfl, hd, Option.map_some, Option.elim_some,
      Option.elim_some, hkind, hdest]
    by_cases hv : v = r.vars.size
    · cases access <;> simp [hv]
    · cases access <;> simp [hv, Ne.symm hv]
  have htally :
      (r.stow m ty).tally v access = r.tally v access + if v = r.vars.size then 1 else 0 := by
    cases access <;> simp only [tally, readsOf, writesOf, getElem?_stow] <;> split <;> simp_all
  have hcount : ∀ x : Routine, (((r.live exit t).flatMap r.below).flatMap x.innerAccesses).count (v,
      access) = (x.innerAccesses m).count (v, access) +
        ((((r.live exit t).flatMap r.below).erase m).flatMap x.innerAccesses).count (v, access) :=
        fun x => by
    rw [(hperm.flatMap_right _).count_eq, flatMap_cons, count_append]
  rw [show (r.stow m ty).live exit t = r.live exit t from rfl, (r.flatMap_accessesOf_perm
    _).count_eq, ((r.stow m ty).flatMap_accessesOf_perm _).count_eq, flatMap_congr hbelow, hown,
    count_append, count_append, hcount r, hcount (r.stow m ty), hothers, hself, htally]
  omega


/-! ### Giving destinations -/

variable {S : VarId → Prop} {T : NodeId → Prop}

theorem Spills.operandNodes_eq (h : r.Spills r' S) (m : NodeId) :
    r'.operandNodes m = r.operandNodes m := by
  have hlabels := congrArg (Option.map fun d : Node => d.args.filterMap Operand.node?) (h.labels m)
  rwa [Option.map_map, Option.map_map] at hlabels

theorem Spills.below_eq (h : r.Spills r' S) (hr : r.WellStructured exit t)
    (hn : n ∈ r.live exit t) : r'.below n = r.below n :=
  below_of_nested (nested_congr (hr.nested_eq hn) fun m _ => h.operandNodes_eq m)

/-- The sub-expressions of a set have destinations of which some are new, and the stream passes the
check. -/
structure Stows (r r' : Routine) (exit : NodeId) (t : Strand) (T : NodeId → Prop) : Prop where
  well : r'.WellStructured exit t
  spills : ∃ S, r.Spills r' S
  gained : ∀ m, r'.destOf m ≠ r.destOf m → T m
  given : ∀ m, T m → (r'.destOf m).isSome

namespace Stows

/-- Making variables visible one after the other. -/
theorem exposeAll (hr : r.WellStructured exit t) (vs : List VarId) :
    r.Stows (vs.foldl Routine.expose r) exit t fun _ => False where
  well := by
    induction vs generalizing r with
    | nil => exact hr
    | cons v vs ih => exact ih (hr.expose v)
  spills := ⟨_, (Spills.refl r).exposeAll vs⟩
  gained m hne := by
    refine hne ?_
    clear hne hr
    induction vs generalizing r with
    | nil => rfl
    | cons v vs ih => exact ih (r := r.expose v)
  given _ := False.elim

variable (h : r.Stows r' exit t T) (hr : r.WellStructured exit t)
include h hr

/-- One more sub-expression gets a destination. -/
theorem spill (hm : (r.label m).isSome)
    (hdecl : r.destOf m = none → (r.kindOf m).any isDeclaration = false)
    (honce : ((r.live exit t).flatMap r.below).count m = 1) :
    r.Stows (r'.spill m) exit t fun k => T k ∨ k = m := by
  obtain ⟨S, hspills⟩ := h.spills
  obtain ⟨d, hd⟩ := Option.isSome_iff_exists.mp hm
  obtain ⟨d', hd', -⟩ := hspills.exists_label hd
  have hnext : ∃ S, r.Spills (r'.spill m) S := ⟨_, hspills.spill m⟩
  cases hdest : d'.dest with
  | some v =>
    have hspill : r'.spill m = r'.expose v := by
      simp only [Routine.spill, hd', hdest, Option.elim_some]
    rw [hspill] at hnext ⊢
    refine ⟨h.well.expose v, hnext, fun k hk => Or.inl (h.gained k hk), ?_⟩
    rintro k (hk | rfl)
    · exact h.given k hk
    · change (r'.destOf k).isSome
      rw [destOf_eq hd', hdest]
      rfl
  | none =>
    have hspill : r'.spill m = r'.stow m d'.ty := by
      simp only [Routine.spill, hd', hdest, Option.elim_none]
    rw [hspill] at hnext ⊢
    have hkind : d'.kind.isDeclaration = false := by
      have hnone : r.destOf m = none := by
        rcases hspills.dest m with heq | ⟨hnone, -⟩
        · rw [← heq, destOf_eq hd', hdest]
        · exact hnone
      have hplain := hdecl hnone
      rwa [← hspills.kinds m, kindOf, hd'] at hplain
    have hcount : ((r'.live exit t).flatMap r'.below).count m = 1 := by
      rw [live, hspills.entry, flatMap_congr fun n hn => hspills.below_eq hr hn, honce]
    refine ⟨h.well.stow hd' hdest hkind hcount d'.ty, hnext, fun k hk => ?_, fun k hk => ?_⟩
    · rw [destOf_stow] at hk
      split at hk
      · exact Or.inr ‹k = m›
      · exact Or.inl (h.gained k hk)
    · rw [destOf_stow]
      split
      · rename_i heq
        rw [heq, hd']
        rfl
      · rename_i hne
        exact h.given k (hk.resolve_right hne)

/-- Spilling sub-expressions one after the other. -/
theorem spillAll (hms : ∀ m ∈ ms, (r.label m).isSome ∧ (r.destOf m = none → (r.kindOf m).any
        isDeclaration = false) ∧ ((r.live exit t).flatMap r.below).count m = 1) :
      r.Stows (ms.foldl Routine.spill r') exit t fun m => T m ∨ m ∈ ms := by
  induction ms generalizing r' T with
  | nil => simpa using h
  | cons m ms ih =>
    simp only [forall_mem_cons] at hms
    obtain ⟨⟨hm, hdecl, honce⟩, hms⟩ := hms
    have hrest := ih (h.spill hr hm hdecl honce) hms
    simpa only [mem_cons, foldl_cons, or_assoc] using hrest

/-- Nodes of the stream declare the same results. -/
theorem result?_eq (hn : n ∈ r.live exit t)
    (hT : ∀ m, T m → m ∈ (r.live exit t).flatMap r.below) : r'.result? n = r.result? n := by
  obtain ⟨S, hspills⟩ := h.spills
  have hdest : r'.destOf n = r.destOf n := by
    by_contra hne
    obtain ⟨k, hk, hmem⟩ := mem_flatMap.mp (hT n (h.gained n hne))
    exact hr.not_mem_below hk hn hmem
  obtain ⟨e, he⟩ := hr.exists_node hn
  obtain ⟨d, hd⟩ : ∃ d, r.label n = some d := ⟨_, label_eq he⟩
  obtain ⟨d', hd', hsame⟩ := hspills.exists_label hd
  have hkind : d'.undirected.kind = d.undirected.kind := by rw [hsame]
  rw [destOf_eq hd, destOf_eq hd'] at hdest
  rw [result?, result?, hd, hd', Option.bind_some, Option.bind_some, hdest,
    show d'.kind = d.kind from hkind]

end Stows

/-! ### What stays -/

/-- Spilling keeps types within the registry. -/
theorem Spills.typedIn (h : r.Spills r' S) (htypes : r.TypedIn types) : r'.TypedIn types where
  closed := htypes.closed
  vars x hx ty hty := by
    obtain ⟨v, hv, rfl⟩ := Array.mem_iff_getElem.mp hx
    have hx := Array.getElem?_eq_getElem hv
    by_cases hold : v < r.vars.size
    · have hvars := h.vars v hold
      rw [hx, Array.getElem?_eq_getElem hold] at hvars
      have hsame : r'.vars[v].unmarked.ty = r.vars[v].unmarked.ty := by rw [Option.some.inj hvars]
      exact htypes.vars _ (Array.getElem_mem hold) ty (hsame ▸ hty)
    · obtain ⟨y, hy, -, -, m, d, hd, hsame⟩ := h.spare v (Nat.not_lt.mp hold) hv
      obtain rfl := Option.some.inj (hx.symm.trans hy)
      exact htypes.nodes _ (Array.mem_of_getElem? (node_of_label hd)) ty (hsame ▸ hty)
  nodes d hd ty hty := by
    obtain ⟨m, hm, rfl⟩ := Array.mem_iff_getElem.mp hd
    have hlabels := h.labels m
    rw [label_eq (Array.getElem?_eq_getElem hm)] at hlabels
    obtain ⟨e, he, hsame⟩ := Option.map_eq_some_iff.mp hlabels.symm
    have hty' : e.undirected.ty = r'.nodes[m].unlinked.undirected.ty := by rw [hsame]
    exact htypes.nodes _ (Array.mem_of_getElem? (node_of_label he)) ty
      (show e.ty = some ty from hty' ▸ hty)

/-- Spilling does not change what waits. -/
theorem Spills.waitsAt_iff (h : r.Spills r' S) (hr : r.WellStructured exit t)
    (hr' : r'.WellStructured exit t) (hn : n ∈ r.live exit t) :
    r'.WaitsAt types m n ↔ r.WaitsAt types m n := by
  have hcollect : ∀ waiting, .collect waiting ∈ r'.ownEvents n ↔
      .collect waiting ∈ r.ownEvents n := by
    intro waiting
    have hkept : ∀ es : List Event, .collect waiting ∈ es ↔
        .collect waiting ∈ es.filter (Spills.keeps r) := fun es => by
      simp [Spills.keeps]
    rw [hkept, h.filter_events hr hn, ← hkept]
  have hty : (∃ d ty, r'.label m = some d ∧ d.ty = some ty ∧ types.HoldsPointer ty) ↔
      ∃ d ty, r.label m = some d ∧ d.ty = some ty ∧ types.HoldsPointer ty := by
    have hlabels := congrArg (Option.map Node.ty) (h.labels m)
    rw [Option.map_map, Option.map_map] at hlabels
    have hsplit :
        ∀ x : Routine, (∃ d ty, x.label m = some d ∧ d.ty = some ty ∧ types.HoldsPointer ty) ↔
        ∃ ty, (x.label m).map (Node.ty ∘ Node.undirected) = some (some ty) ∧
        types.HoldsPointer ty := fun x => by
      simp only [Option.map_eq_some_iff]
      constructor
      · rintro ⟨d, ty, hd, hty, hholds⟩
        exact ⟨ty, ⟨d, hd, hty⟩, hholds⟩
      · rintro ⟨ty, ⟨d, hd, hty⟩, hholds⟩
        exact ⟨d, ty, hd, hty, hholds⟩
    rw [hsplit, hsplit, hlabels]
  rw [WaitsAt, WaitsAt, ← hr.waitsDuring_node hn,
    ← hr'.waitsDuring_node (live_congr h.entry .. ▸ hn), hty]
  simp only [WaitsDuring, hcollect]

theorem SameStream.liveNodes_eq (h : r.SameStream r') : r'.liveNodes = r.liveNodes := by
  have hgraph : r'.graph = r.graph := by
    rw [graph, graph, h.size]
    congr 1
    funext n
    rcases h.node_cases n with ⟨hd, hd'⟩ | ⟨d, d', hd, hd', -, hnext⟩
    · rw [hd, hd']
    · rw [hd, hd']
      exact congrArg Except.ok hnext
  rw [liveNodes, liveNodes, hgraph, h.entry]

theorem expose_eq_self {v : VarId} (h : r.Discoverable v) : r.expose v = r := by
  obtain ⟨x, hx, hshown⟩ := h
  have hvars : r.vars.modify v ({ · with discoverable := true }) = r.vars := by
    refine Array.ext_getElem? fun u => ?_
    rw [Array.getElem?_modify]
    split
    · rename_i heq
      rw [← heq, hx, Option.map_some, ← hshown]
    · rfl
  rw [expose, alterVar, hvars]

theorem spill_eq_self {v : VarId} (hdest : r.destOf m = some v) (h : r.Discoverable v) :
    r.spill m = r := by
  obtain ⟨d, hd, hv⟩ := Option.bind_eq_some_iff.mp hdest
  simp only [spill, hd, hv, Option.elim_some, expose_eq_self h]

end Routine

theorem Inlinings.undeclared {a b : Routine × Strand} (h : Inlinings exit a b)
    (ha : a.1.WellStructured exit a.2) (hnone : a.1.Undeclared exit a.2) :
    b.1.Undeclared exit b.2 :=
  (h.keeps (P := fun c => c.1.WellStructured exit c.2 ∧ c.1.Undeclared exit c.2)
      ⟨ha, hnone⟩ fun hinlines hc =>
    ⟨hinlines.wellStructured hc.1, hinlines.undeclared hc.1 hc.2⟩).2

/-! ### Solving again -/

namespace Collector.Problem

variable {p p' : Problem} {exit n : NodeId} {t : Strand} {temps temps' : NodeId → Prop}
    {es : List Event} {s s' : Solution}

/-- The equations of a routine before and after pointers have been shown. -/
structure Repeats (p p' : Problem) (exit : NodeId) (t : Strand) : Prop where
  first : p.Poses exit t
  second : p'.Poses exit t
  spills : ∃ S, p.routine.Spills p'.routine S
  tracks : ∀ v, v < p.routine.vars.size → p'.tracked.contains v = p.tracked.contains v
  results : p'.results = p.results
  preds : p'.preds = p.preds

namespace Repeats

variable (h : p.Repeats p' exit t)
include h

theorem isTracked_eq {v : VarId} (hv : v < p.routine.vars.size) :
    isTracked p'.routine p'.tracked v = isTracked p.routine p.tracked v := by
  obtain ⟨S, hspills⟩ := h.spills
  rw [isTracked, isTracked, if_pos hv, if_pos (Nat.lt_of_lt_of_le hv hspills.grows), h.tracks v hv]

theorem waitingVars_eq {waiting : List Waiting}
    (hwaiting : ∀ x ∈ waiting, x.Mentions (· < p.routine.vars.size) temps) :
    p'.waitingVars waiting = p.waitingVars waiting := by
  induction waiting with
  | nil => rfl
  | cons x waiting ih =>
    simp only [forall_mem_cons] at hwaiting
    cases x with
    | lit => exact ih hwaiting.2
    | temp m => exact ih hwaiting.2
    | var v => rw [waitingVars, waitingVars, h.isTracked_eq hwaiting.1, ih hwaiting.2]

/-- Going back over events, writes to variables that have been added do not matter. -/
theorem undoAll_filter (hes : ∀ e ∈ es.filter (Routine.Spills.keeps p.routine),
      e.Mentions (· < p.routine.vars.size) temps)
    (hes' : ∀ e ∈ es, e.Mentions (· < p'.routine.vars.size) temps') {alive : BitSet}
    (marked : BitSet) (halive : ∀ v, alive.contains v = true → v < p.routine.vars.size) : p'.undoAll
    es alive marked = p.undoAll (es.filter (Routine.Spills.keeps p.routine)) alive marked := by
  induction es with
  | nil => rfl
  | cons e es ih =>
    have hrest : ∀ e ∈ es.filter (Routine.Spills.keeps p.routine),
        e.Mentions (· < p.routine.vars.size) temps := fun e he =>
      hes e (((sublist_cons_self ..).filter _).mem he)
    rw [forall_mem_cons] at hes'
    obtain ⟨alive', marked', hrun, hmem, -⟩ := undoAll_eq hrest alive marked
    rw [filter_cons] at hes ⊢
    rw [undoAll, ih hrest hes'.2, hrun]
    cases e with
    | read v =>
      have hv : v < p.routine.vars.size := hes _ (mem_cons_self ..)
      simp only [Routine.Spills.keeps, if_true, undoAll, hrun, ok_bind, undo, h.isTracked_eq hv]
    | collect waiting =>
      have hwaiting : ∀ x ∈ waiting, x.Mentions (· < p.routine.vars.size) temps :=
        hes _ (mem_cons_self ..)
      simp only [Routine.Spills.keeps, if_true, undoAll, hrun, ok_bind, undo,
        h.waitingVars_eq hwaiting]
    | write v =>
      have hv' : v < p'.routine.vars.size := hes'.1
      by_cases hv : v < p.routine.vars.size
      · simp only [Routine.Spills.keeps, hv, hv', decide_true, if_true, undoAll,
          hrun, ok_bind, undo]
      · have hgone : alive'.erase v = alive' := by
          refine BitSet.ext_contains fun u => ?_
          rw [BitSet.contains_erase, Bool.and_eq_left_iff_imp]
          intro hu
          have hold : u < p.routine.vars.size :=
            ((hmem u).mp hu).elim (fun ht => h.first.tracked u ht.1) fun ha => halive u ha.2
          simpa using fun heq : v = u => hv (heq ▸ hold)
        simp only [Routine.Spills.keeps, hv, hv', decide_false, Bool.false_eq_true, if_false,
          if_true, ok_bind, undo, hgone, hrun]

/-- The second run sees the events of the first and those of new variables. -/
theorem eventsOf_filter (hn : n ∈ p.routine.live exit t) :
    (p'.eventsOf n).filter (Routine.Spills.keeps p.routine) = p.eventsOf n := by
  obtain ⟨S, hspills⟩ := h.spills
  have hkept : (p.eventsOf n).filter (Routine.Spills.keeps p.routine) = p.eventsOf n := by
    refine filter_eq_self.mpr fun e he => ?_
    have hmentions := (h.first.events_eq hn).2 e he
    cases e with
    | write v => exact decide_eq_true hmentions
    | _ => rfl
  have hfinal : p'.routine.finalReads p'.results n = p.routine.finalReads p.results n := by
    simp only [Routine.finalReads, h.results, hspills.endsAt_iff]
  rw [← hkept, eventsOf, eventsOf, filter_append, filter_append,
    hspills.filter_events h.first.routine hn, hfinal]

/-- A second run updates as the first. -/
theorem update_eq (happrox : p.Approximates exit t s) (hn : n ∈ p.routine.live exit t) :
    p'.update s n = p.update s n := by
  obtain ⟨S, hspills⟩ := h.spills
  have hn' : n ∈ p'.routine.live exit t := Routine.live_congr hspills.entry .. ▸ hn
  obtain ⟨hevents, hmentions⟩ := h.first.events_eq hn
  obtain ⟨hevents', hmentions'⟩ := h.second.events_eq hn'
  obtain ⟨behind, hbehind, hmem⟩ := h.first.aliveBehind_eq happrox.size hn
  have hbehind' : p'.aliveBehind s n = .ok behind := by
    rw [← hbehind, aliveBehind, hspills.flowSuccs_eq, aliveBehind]
  have hold : ∀ v, behind.contains v = true → v < p.routine.vars.size := by
    intro v hv
    obtain ⟨m, hm, hbefore⟩ := (hmem v).mp hv
    exact h.first.tracked v (happrox.sound m (h.first.routine.flow_mem hn m hm) v hbefore).1
  rw [← h.eventsOf_filter hn] at hmentions hevents
  have hundo := h.undoAll_filter hmentions hmentions' s.marked hold
  simp only [update, hevents, hevents', hbehind, hbehind', hundo, ok_bind]

/-- The iteration takes the same course. -/
theorem iterate_eq {fuel fuel' : Nat} {worklist : UniqueStack NodeId} (hfuel : fuel ≤ fuel')
    (happrox : p.Approximates exit t s) (hwork : ∀ n ∈ worklist.items, n ∈ p.routine.live exit t)
    (hrun : p.iterate fuel worklist s = .ok s') : p'.iterate fuel' worklist s = .ok s' := by
  induction fuel generalizing worklist s fuel' with
  | zero =>
    rcases eq_nil_or_concat' worklist.items with hnil | ⟨rest, n, hitems⟩
    · rw [iterate_nil hnil] at hrun ⊢
      exact hrun
    · rw [iterate_zero hitems] at hrun
      cases hrun
  | succ fuel ih =>
    rcases eq_nil_or_concat' worklist.items with hnil | ⟨rest, n, hitems⟩
    · rw [iterate_nil hnil] at hrun ⊢
      exact hrun
    obtain ⟨fuel', rfl⟩ := Nat.exists_eq_add_of_le' (Nat.lt_of_lt_of_le (Nat.succ_pos fuel) hfuel)
    have hn : n ∈ p.routine.live exit t := hwork n (by simp [hitems])
    have hrest : ∀ m ∈ worklist.pop.2.items, m ∈ p.routine.live exit t := fun m hm =>
      hwork m (by rw [hitems]; simp_all)
    obtain ⟨changed, s₁, hupdate, happrox₁, -⟩ := h.first.update_eq happrox hn
    rw [iterate_concat _ _ _ hitems, hupdate] at hrun
    rw [iterate_concat _ _ _ hitems, h.update_eq happrox hn, hupdate, h.preds]
    cases changed with
    | false => exact ih (Nat.le_of_succ_le_succ hfuel) happrox₁ hrest hrun
    | true =>
      have hlt : n < p.preds.size := by
        rw [h.first.preds_size]
        exact h.first.routine.lt_size hn
      have hrow := Array.getElem?_eq_getElem hlt
      simp only [ok_bind, Arena.fetch_eq_ok_iff.mpr hrow, if_true] at hrun ⊢
      refine ih (Nat.le_of_succ_le_succ hfuel) happrox₁ (fun m hm => ?_) hrun
      rcases UniqueStack.mem_items_pushAll.mp hm with hm | hm
      · exact hrest m hm
      · exact ((h.first.preds n _ hrow m).mp hm).1

/-- The same variables are marked. -/
theorem solve_eq {marked : BitSet} (hmarked : p.solve = .ok marked) : p'.solve = .ok marked := by
  obtain ⟨S, hspills⟩ := h.spills
  obtain ⟨live, hlive, hmarked⟩ := bind_eq_ok_iff.mp hmarked
  obtain ⟨s, hrun, hmarked⟩ := bind_eq_ok_iff.mp hmarked
  have hgraph : p'.routine.flowGraph = p.routine.flowGraph := by
    rw [Routine.flowGraph, Routine.flowGraph, hspills.size, hspills.flowSuccs_eq]
  refine bind_eq_ok_iff.mpr ⟨live, by rw [hgraph, hspills.entry]; exact hlive,
    bind_eq_ok_iff.mpr ⟨s, ?_, hmarked⟩⟩
  obtain ⟨live', hlive', -, -, hmem⟩ :=
    h.first.routine.flow_closedOn.reachable_eq p.routine.entry (by simp)
  simp only [h.first.routine.reached_iff] at hmem
  obtain rfl := Except.ok.inj (hlive.symm.trans hlive')
  have hfuel : p.iterationFuel ≤ p'.iterationFuel := by
    rw [iterationFuel, iterationFuel, hspills.size, h.preds]
    exact Nat.add_le_add_left (Nat.mul_le_mul_right _ hspills.grows) _
  rw [hspills.size]
  exact h.iterate_eq hfuel (p.approximates_start exit t)
    (fun n hn =>
    h.first.routine.mem_of_reached ((hmem n).mp (UniqueStack.mem_items_ofList.mp hn))) hrun

end Repeats

end Collector.Problem

namespace Collector

variable {r r' : Routine} {exit : NodeId} {t : Strand} {T : NodeId → Prop} {types : Registry}
    {p p' : Problem} {w : Work}

/-- Once destinations have been given to sub-expressions only, the equations are as before. -/
theorem Problem.repeats (hstows : r.Stows r' exit t T) (h : r.WellStructured exit t)
    (hT : ∀ m, T m → m ∈ (r.live exit t).flatMap r.below) (hp : Problem.ofRoutine types r = .ok p)
    (hp' : Problem.ofRoutine types r' = .ok p') : p.Repeats p' exit t := by
  obtain ⟨S, hspills⟩ := hstows.spills
  obtain ⟨hroutine, -, hposes, htracks, -⟩ := poses_of_ofRoutine h hp
  obtain ⟨hroutine', -, hposes', htracks', -⟩ := poses_of_ofRoutine hstows.well hp'
  obtain ⟨tracked, htracked, hp⟩ := bind_eq_ok_iff.mp hp
  obtain ⟨results, hresults, hp⟩ := bind_eq_ok_iff.mp hp
  obtain ⟨preds, hpreds, hp⟩ := bind_eq_ok_iff.mp hp
  obtain ⟨tracked', htracked', hp'⟩ := bind_eq_ok_iff.mp hp'
  obtain ⟨results', hresults', hp'⟩ := bind_eq_ok_iff.mp hp'
  obtain ⟨preds', hpreds', hp'⟩ := bind_eq_ok_iff.mp hp'
  obtain rfl := Except.ok.inj hp
  obtain rfl := Except.ok.inj hp'
  have hcontains : ∀ v, v < r.vars.size → tracked'.contains v = tracked.contains v := fun v hv => by
    rw [Bool.eq_iff_iff, contains_of_trackedVars htracked', contains_of_trackedVars htracked,
      hspills.traces_iff hv]
  refine ⟨hposes, hposes', ⟨S, hspills⟩, hcontains, ?_, ?_⟩
  · obtain ⟨live, hlive, hperm⟩ := h.liveNodes_eq
    rw [trackedResults_eq h hlive] at hresults
    rw [trackedResults_eq hstows.well (hspills.liveNodes_eq.trans hlive)] at hresults'
    obtain rfl := Except.ok.inj hresults
    obtain rfl := Except.ok.inj hresults'
    have hsame : live.filterMap r'.result? = live.filterMap r.result? :=
      filterMap_congr fun n hn => hstows.result?_eq h (hperm.mem_iff.mp hn) hT
    refine (congrArg _ hsame).trans (filter_congr fun v hv => ?_)
    obtain ⟨n, hn, hv⟩ := mem_filterMap.mp hv
    exact hcontains v (h.lt_of_result (hperm.mem_iff.mp hn) hv)
  · rw [Routine.flowPreds, hspills.liveNodes_eq, hspills.flowSuccs_eq, hspills.size] at hpreds'
    exact Except.ok.inj (hpreds'.symm.trans hpreds)

theorem foldl_eq_self {α : Type} {f : Routine → α → Routine} {l : List α} (h : ∀ a ∈ l, f r a = r) :
    l.foldl f r = r := by
  induction l with
  | nil => rfl
  | cons a l ih =>
    rw [forall_mem_cons] at h
    rw [foldl_cons, h.1]
    exact ih h.2

/-- If each sub-expression stands in one place and none that has to get a destination is a
declaration, which holds of what the builder delivers and is kept when trees are built, then making
pointers visible succeeds, leaves edges, kinds and operands alone, and the result passes the check.
Every sub-expression whose pointer waits has a destination the collector sees. No other one gets a
destination, and each new one is counted to be written and read once. A second time changes nothing.
-/
theorem discoverPointers_spills (h : w.routine.WellStructured exit t)
    (htypes : w.routine.TypedIn types)
    (howned : ((w.routine.entry :: exit :: t.nodes).flatMap w.routine.below).Nodup)
    (hplain : ∀ m, w.routine.Awaits types exit t m → w.routine.destOf m = none →
      (w.routine.kindOf m).any NodeKind.isDeclaration = false) :
    Yields (discoverPointers types) w fun _ w' =>
      w'.routine.WellStructured exit t ∧ w.routine.SameStream w'.routine ∧
      (∀ m, (w'.routine.label m).map Node.undirected = (w.routine.label m).map Node.undirected) ∧
      (∀ m, w.routine.Awaits types exit t m → ∃ v, w'.routine.destOf m = some v ∧
        w'.routine.Discoverable v) ∧
      (∀ m, w'.routine.destOf m ≠ w.routine.destOf m → w.routine.Awaits types exit t m ∧
        w.routine.destOf m = none ∧ ∃ v x, w'.routine.destOf m = some v ∧
        w.routine.vars[v]? = none ∧ w'.routine.vars[v]? = some x ∧ x.reads = 1 ∧ x.writes = 1) ∧
      Yields (discoverPointers types) w' fun _ w'' => w''.routine = w'.routine := by
  obtain ⟨r, journal⟩ := w
  obtain ⟨p, hp⟩ := Problem.exists_ofRoutine h htypes
  obtain ⟨rfl, rfl, hposes, -⟩ := Problem.poses_of_ofRoutine h hp
  obtain ⟨marked, hmarked, -, hsound⟩ := hposes.solve_eq
  obtain ⟨waiting, hwaiting, hdelivers, hwaits⟩ := hposes.waitingPointers_eq htypes
  refine (yields_discoverPointers hp hmarked rfl hwaiting hdelivers).mono fun _ w' hw' => ?_
  have hspills := Routine.Spills.all p.routine (marked.members p.routine.vars.size) waiting
  have hstows := (Routine.Stows.exposeAll h (marked.members p.routine.vars.size)).spillAll h
      fun m (hm : m ∈ waiting) => by
    have hm' := (hwaits m).mp hm
    obtain ⟨-, -, -, d, -, hd, -⟩ := id hm'
    exact ⟨by rw [hd]; rfl, hplain m hm',
      count_eq_one_of_mem howned (Routine.Awaits.mem_below hm' h)⟩
  simp only [false_or] at hstows
  rw [← hw'] at hspills hstows
  have hshown : ∀ m ∈ waiting, ∃ v, w'.routine.destOf m = some v ∧ w'.routine.Discoverable v := by
    intro m hm
    obtain ⟨v, hv⟩ := Option.isSome_iff_exists.mp (hstows.given m hm)
    refine ⟨v, hv, ?_⟩
    rcases hspills.dest m with hsame | ⟨-, u, hu, hle, hlt⟩
    · obtain ⟨d, hd, hlt⟩ := hdelivers m hm
      rw [hv] at hsame
      exact (hspills.shown v (hlt v ((Routine.destOf_eq hd).symm.trans hsame.symm))).mpr
        (Or.inr (Or.inr ⟨m, hm, hsame.symm⟩))
    · obtain rfl := Option.some.inj (hv.symm.trans hu)
      obtain ⟨x, hx, hshown, -⟩ := hspills.spare v hle hlt
      exact ⟨x, hx, hshown⟩
  refine ⟨hstows.well, hspills.toSameStream, hspills.labels,
    fun m hm => hshown m ((hwaits m).mpr hm), fun m hne => ?_, ?_⟩
  · obtain ⟨hnone, v, hv, hle, hlt⟩ := (hspills.dest m).resolve_left hne
    obtain ⟨x, hx, -, hcounts, -⟩ := hspills.spare v hle hlt
    exact ⟨(hwaits m).mp (hstows.gained m hne), hnone, v, x, hv,
      Array.getElem?_eq_none hle, hx, hcounts⟩
  -- the second time
  have htypes' := hspills.typedIn htypes
  obtain ⟨p', hp'⟩ := Problem.exists_ofRoutine hstows.well htypes'
  have hrepeats :=
    Problem.repeats hstows h (fun m hm => Routine.Awaits.mem_below ((hwaits m).mp hm) h) hp hp'
  obtain ⟨hroutine, htypes₁, hposes', -⟩ := Problem.poses_of_ofRoutine hstows.well hp'
  obtain ⟨waiting', hwaiting', hdelivers', hwaits'⟩ :=
    hposes'.waitingPointers_eq (by rwa [hroutine, htypes₁])
  refine (yields_discoverPointers hp' (hrepeats.solve_eq hmarked) hroutine hwaiting'
    (hroutine ▸ hdelivers')).mono fun _ w'' hw'' => hw''.trans ?_
  have hmarks :
      (marked.members p'.routine.vars.size).foldl Routine.expose w'.routine = w'.routine := by
    refine foldl_eq_self fun v hv => Routine.expose_eq_self ?_
    have hv := (BitSet.mem_members.mp hv).2
    have hlt := hposes.tracked v (hsound v hv).1
    exact (hspills.shown v hlt).mpr (Or.inr (Or.inl (BitSet.mem_members.mpr ⟨hlt, hv⟩)))
  rw [hmarks]
  refine foldl_eq_self fun m hm => ?_
  obtain ⟨n, hn, hm⟩ := (hwaits' m).mp hm
  rw [hroutine, Routine.live, hspills.entry] at hn
  rw [hroutine, htypes₁, hspills.waitsAt_iff h hstows.well hn] at hm
  obtain ⟨v, hv, hseen⟩ := hshown m ((hwaits m).mpr ⟨n, hn, hm⟩)
  exact Routine.spill_eq_self hv hseen

/-- An address is computed and then waits for the result of a call. -/
theorem discoverPointers_spills_address :
    let callee : Signature := ⟨[], some (.scalar .i32), .default⟩
    let taker : Signature := ⟨[.scalar .ptr, .scalar .i32], none, .default⟩
    let calls : List Instruction := [.declare .param (.scalar .ptr) "p" false,
      .tmp (some (.scalar .ptr)), .tmp (some (.scalar .i32)), .call (some 3) callee [],
      .assign (some 2) .add (.scalar .ptr) [.var 1, .lit (.int 8)],
      .call none taker [.var 2, .var 3]]
    ∃ r b', Build.finish (Build.play default calls (Build.define "main" default)).1 = .ok r b' ∧
      Yields Tree.buildTrees ⟨r, #[]⟩ fun _ w =>
        ∃ t, w.routine.WellStructured 1 t ∧ w.routine.TypedIn default ∧
        ((w.routine.entry :: 1 :: t.nodes).flatMap w.routine.below).Nodup ∧
        w.routine.Awaits default 1 t 4 ∧ w.routine.destOf 4 = none ∧
        Yields (discoverPointers default) w fun _ w' => w'.routine.WellStructured 1 t ∧
          (∃ v, w'.routine.destOf 4 = some v ∧ w'.routine.Discoverable v) ∧
          Yields (discoverPointers default) w' fun _ w'' => w''.routine = w'.routine := by
  intro callee taker calls
  obtain ⟨r, b', t, hfinish, hbuilt, ht, hseen⟩ :=
    Build.exists_main calls (by decide)
    (fun r => Tree.buildTrees.Yields ⟨r, #[]⟩ fun _ w => w.routine.TypedIn default ∧
    w.routine.liveNodes = .ok [0, 2, 5, 1] ∧
      [0, 2, 5, 1].flatMap w.routine.below = [4, 3] ∧
      w.routine.operandNodes 5 = some [4, 3] ∧ (w.routine.kindOf 3).any mayCollect = true ∧
      (w.routine.label 4).bind Node.ty = some (.scalar .ptr) ∧
      w.routine.destOf 4 = none) (by decide +kernel)
  refine ⟨r, b', hfinish,
    ((Tree.yields_buildTrees (w := ⟨r, #[]⟩) ht).and hseen).mono fun _ w hboth => ?_⟩
  obtain ⟨⟨t', hrun⟩, htyped, hlive, hbelow, hargs, hcollect, hty, hnone⟩ := hboth
  have hwell : w.routine.WellStructured 1 t' := hrun.wellStructured ht
  obtain ⟨live, hlive', hperm⟩ := hwell.liveNodes_eq
  obtain rfl := Except.ok.inj (hlive'.symm.trans hlive)
  have hflat := hperm.flatMap_right w.routine.below
  rw [hbelow] at hflat
  have howned : ((w.routine.entry :: 1 :: t'.nodes).flatMap w.routine.below).Nodup :=
    hflat.nodup_iff.mp (by decide)
  have hawaits : w.routine.Awaits default 1 t' 4 := by
    obtain ⟨d, hd, hargs⟩ := Option.map_eq_some_iff.mp hargs
    obtain ⟨front, a, after, hsplit, -, ha, hafter⟩ := filterMap_eq_cons_iff.mp hargs
    obtain rfl : a = .node 4 := by cases a <;> simp_all [Operand.node?]
    have hlast : .node 3 ∈ after := Routine.mem_operandNodes.mp (hafter ▸ mem_singleton_self 3)
    obtain ⟨e, he, hty⟩ := Option.bind_eq_some_iff.mp hty
    exact ⟨5, hperm.mem_iff.mp (by decide), ⟨5, mem_cons_self .., d, after, 3, hd,
      hsplit ▸ suffix_append .., hlast, 3, mem_cons_self .., hcollect⟩, e, _, he, hty, .scalar⟩
  refine ⟨t', hwell, htyped, howned, hawaits, hnone, ?_⟩
  have hplain := hrun.undeclared ht (hbuilt.undeclared ht)
  have hspills := discoverPointers_spills hwell htyped howned fun m hm _ => by
    obtain ⟨n, hn, hm⟩ := mem_flatMap.mp (hm.mem_below hwell)
    exact hplain n hn m hm
  exact hspills.mono fun _ w' h => ⟨h.1, h.2.2.2.1 4 hawaits, h.2.2.2.2.2⟩

end Collector

end CoroutineIR
