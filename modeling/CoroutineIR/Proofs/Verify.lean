import CoroutineIR.Proofs.Access
import CoroutineIR.Proofs.Structure

/-!
# What the check of a routine establishes

The check is a sequence of questions, and it succeeds exactly when each of them is answered. On a
structured stream the questions about edges, partners and cycles are always answered, so what is
left are the branches, the operands of conditions, the destinations of jumps, the sub-expressions
and the counts.
-/

namespace CoroutineIR

open List Option Attempt Strand

namespace Routine

variable {d : Node} {kind : NodeKind} {live : BitSet} {stream ns : List NodeId}
    {tally tally' : Tally}

/-- The tally of accesses, as functions of the variable. -/
structure Tally.Holds (t : Tally) (size : Nat) (reads writes : VarId → Nat) : Prop where
  reads_eq : Arena.Holds t.reads size reads
  writes_eq : Arena.Holds t.writes size writes

namespace Tally

variable {t t' : Tally} {size : Nat} {reads writes : VarId → Nat}

variable (h : t.Holds size reads writes)
include h

theorem Holds.congr {reads' writes' : VarId → Nat}
    (hreads : ∀ v < size, reads v = reads' v) (hwrites : ∀ v < size, writes v = writes' v) :
    t.Holds size reads' writes' :=
  ⟨h.reads_eq.congr hreads, h.writes_eq.congr hwrites⟩

/-- Adding an access counts it, provided its variable exists. -/
theorem add_eq (a : VarId × Access) : (a.1 < size → ∃ t', t.add a = .ok t') ∧ ∀ t', t.add a =
      .ok t' → a.1 < size ∧ t'.Holds size (fun v => reads v + [a].count (v, .read)) fun v =>
      writes v + [a].count (v, .write) := by
  obtain ⟨v, access⟩ := a
  cases access with
  | read =>
    by_cases hv : v < size
    · obtain ⟨rows, hupdate, hrows⟩ := h.reads_eq.updated (ε := IrError) hv (· + 1)
      have hadd : t.add (v, .read) = .ok { t with reads := rows } := by
        simp only [add, hupdate, ok_bind, pure_eq_ok]
      refine ⟨fun _ => ⟨_, hadd⟩, fun t' ht' => ⟨hv, ?_⟩⟩
      rw [hadd] at ht'
      cases ht'
      refine ⟨hrows.congr fun u _ => ?_, h.writes_eq.congr fun u _ => ?_⟩
      · by_cases huv : u = v <;> simp [count_access, huv]
      · simp
    · refine ⟨fun hlt => absurd hlt hv, fun t' ht' => ?_⟩
      simp [add, Arena.update, h.reads_eq.size_eq, hv, Attempt.abort] at ht'
  | write =>
    by_cases hv : v < size
    · obtain ⟨rows, hupdate, hrows⟩ := h.writes_eq.updated (ε := IrError) hv (· + 1)
      have hadd : t.add (v, .write) = .ok { t with writes := rows } := by
        simp only [add, hupdate, ok_bind, pure_eq_ok]
      refine ⟨fun _ => ⟨_, hadd⟩, fun t' ht' => ⟨hv, ?_⟩⟩
      rw [hadd] at ht'
      cases ht'
      refine ⟨h.reads_eq.congr fun u _ => ?_, hrows.congr fun u _ => ?_⟩
      · simp
      · by_cases huv : u = v <;> simp [count_access, huv]
    · refine ⟨fun hlt => absurd hlt hv, fun t' ht' => ?_⟩
      simp [add, Arena.update, h.writes_eq.size_eq, hv, Attempt.abort] at ht'

/-- Adding a list of accesses counts all of them. -/
theorem addAll_eq (l : List (VarId × Access)) : ((∀ a ∈ l, a.1 < size) →
        ∃ t', l.foldlM add t = .ok t') ∧ ∀ t', l.foldlM add t = .ok t' → (∀ a ∈ l, a.1 < size) ∧
        t'.Holds size (fun v => reads v + l.count (v, .read)) fun v =>
        writes v + l.count (v, .write) := by
  induction l generalizing t reads writes with
  | nil =>
    refine ⟨fun _ => ⟨t, rfl⟩, fun t' ht' => ⟨by simp, ?_⟩⟩
    cases ht'
    simpa using h
  | cons a l ih =>
    obtain ⟨hok, hholds⟩ := add_eq h a
    constructor
    · intro hlt
      obtain ⟨t₁, ht₁⟩ := hok (hlt a (by simp))
      obtain ⟨t₂, ht₂⟩ := (ih (hholds t₁ ht₁).2).1 fun b hb => hlt b (by simp [hb])
      exact ⟨t₂, by rw [foldlM_cons, ht₁]; exact ht₂⟩
    · intro t' ht'
      rw [foldlM_cons, bind_eq_ok_iff] at ht'
      obtain ⟨t₁, ht₁, ht'⟩ := ht'
      obtain ⟨ha, h₁⟩ := hholds t₁ ht₁
      obtain ⟨hl, h₂⟩ := (ih h₁).2 t' ht'
      have hcount : ∀ b, (a :: l).count b = [a].count b + l.count b := fun b => by
        rw [← singleton_append, count_append]
      refine ⟨forall_mem_cons.mpr ⟨ha, hl⟩, h₂.congr (fun v _ => ?_) fun v _ => ?_⟩
      · rw [hcount, Nat.add_assoc]
      · rw [hcount, Nat.add_assoc]

end Tally

variable {r : Routine} {exit : NodeId} {t : Strand} {n : NodeId}

/-- The edges of a stream are kept on both sides. -/
theorem Carries.checkEdges_eq_ok (h : r.Carries exit t) (hn : n ∈ r.live exit t) :
    r.checkEdges n = .ok () := by
  have hnode := Array.getElem?_eq_getElem (h.lt_size hn)
  have hnext : ∀ m ∈ r.nextOf n, ∃ e, r.nodes[m]? = some e ∧
      (r.nextOf n).count m = e.prev.count n := by
    intro m hm
    obtain ⟨slot, hslot⟩ := mem_iff_getElem?.mp hm
    obtain ⟨j, hwire⟩ := h.exists_wire hn hslot
    have hm' := Array.getElem?_eq_getElem (h.lt_size (ends_mem hwire).2)
    exact ⟨_, hm', (h.count_eq hn (ends_mem hwire).2).trans (by rw [prevOf_eq hm'])⟩
  have hprev : ∀ m ∈ r.prevOf n, ∃ e, r.nodes[m]? = some e ∧
      (r.prevOf n).count m = e.next.count n := by
    intro m hm
    obtain ⟨slot, hslot⟩ := mem_iff_getElem?.mp hm
    obtain ⟨i, hwire⟩ := h.exists_wire_back hn hslot
    have hm' := Array.getElem?_eq_getElem (h.lt_size (ends_mem hwire).1)
    exact ⟨_, hm', (h.count_eq (ends_mem hwire).1 hn).symm.trans (by rw [nextOf_eq hm'])⟩
  simp only [nextOf_eq hnode, prevOf_eq hnode] at hnext hprev
  simp only [checkEdges, bind_eq_ok_iff, node_eq_ok_iff, hnode, exists_some_eq,
    forM_eq_ok_iff, exists_const]
  refine ⟨fun m hm => ?_, fun m hm => ?_⟩
  · obtain ⟨e, he, hcount⟩ := hnext m hm
    exact ⟨e, he, (unless_eq_ok_iff refuse_ne_ok).mpr (not_not.mpr hcount)⟩
  · obtain ⟨e, he, hcount⟩ := hprev m hm
    exact ⟨e, he, (unless_eq_ok_iff refuse_ne_ok).mpr (not_not.mpr hcount)⟩

/-- The node at which control arrives after a jump is a step of the stream. -/
def Lands (r : Routine) (stream : List NodeId) : Jump → Prop
  | .pending _ => False
  | .step m => m ∈ stream ∧ ∃ name, r.kindOf m = some (.step name)
  | .terminal => True

/-- The nodes of a stream have the successors their kinds demand. -/
theorem Streams.checkSuccessors_eq_ok (h : r.Streams exit t) (hn : n ∈ r.live exit t)
    (hd : r.nodes[n]? = some d) : r.checkSuccessors n d = .ok () := by
  have hkind := kindOf_eq hd
  have hlength : d.next.length = r.outDegree n := by rw [outDegree, nextOf_eq hd]
  unfold checkSuccessors
  simp only [mem_cons] at hn
  rcases hn with rfl | rfl | hn
  · obtain ⟨name, sig, suspends, hentry⟩ := h.entry_kind
    have hcond : d.kind.isCond = false := by
      rw [some.inj (hkind.symm.trans hentry)]
      rfl
    simp [hcond, h.exit_eq, h.entry_ne_exit, hlength, h.entry_degrees.2]
  · have hcond : d.kind.isCond = false := by
      rw [some.inj (hkind.symm.trans h.exit_kind)]
      rfl
    simp [hcond, h.exit_eq, hlength, h.exit_degrees.2]
  · have hne : n ≠ exit := fun heq => h.exit_not_mem (heq ▸ hn)
    rcases (h.shaped.degrees hn h.sized).2 with hone | ⟨htwo, region, hk⟩
    · by_cases hcond : d.kind.isCond = true
      · simp [hcond, hlength, hone]
      · simp [hcond, h.exit_eq, hne, hlength, hone]
    · have hcond : d.kind.isCond = true := by
        rw [some.inj (hkind.symm.trans hk)]
        rfl
      simp [hcond, hlength, htwo]

/-- Partners name each other. -/
theorem Streams.partners (h : r.Streams exit t) (hn : n ∈ r.live exit t)
    (hkind : r.kindOf n = some kind) : (∀ region, kind.region? = some region →
      r.kindOf region.close = some (.close n)) ∧ ∀ opener, kind = .close opener →
        ∃ kind', r.kindOf opener = some kind' ∧ kind'.partner? = some n := by
  simp only [mem_cons] at hn
  rcases hn with rfl | rfl | hn
  · obtain ⟨name, sig, suspends, hentry⟩ := h.entry_kind
    obtain rfl := some.inj (hkind.symm.trans hentry)
    refine ⟨?_, by simp⟩
    rintro region ⟨⟩
    exact h.exit_kind
  · obtain rfl := some.inj (hkind.symm.trans h.exit_kind)
    refine ⟨by simp, ?_⟩
    rintro opener ⟨⟩
    obtain ⟨name, sig, suspends, hentry⟩ := h.entry_kind
    exact ⟨_, hentry, rfl⟩
  · rcases h.shaped.place hn with ⟨kind', hk, hregion, hclose⟩ | ⟨form, c, suspends, hk, hc,
      -⟩ | ⟨o, form, suspends, hk, ho⟩
    · obtain rfl := some.inj (hkind.symm.trans hk)
      refine ⟨by simp [hregion], ?_⟩
      rintro opener rfl
      simp at hclose
    · obtain rfl := some.inj (hkind.symm.trans hk)
      refine ⟨?_, by simp⟩
      rintro region ⟨⟩
      exact hc
    · obtain rfl := some.inj (hkind.symm.trans hk)
      refine ⟨by simp, ?_⟩
      rintro opener ⟨⟩
      exact ⟨_, ho, rfl⟩

/-- What the check of a single node asks beyond the structure of the stream. -/
structure Fits (r : Routine) (stream : List NodeId) (n : NodeId) : Prop where
  target : ∀ guarded goal, r.kindOf n = some (.branch guarded goal) → goal.target ∈ stream ∧
    ∃ kind, r.kindOf goal.target = some kind ∧ kind.region?.isSome
  lands : ∀ guarded goal, r.kindOf n = some (.goto guarded goal) → r.Lands stream goal
  condition : ∀ d, r.label n = some d → d.kind.isConditional = true → d.args.length = 1

/-- What the check demands of the nodes a node refers to. -/
theorem checkReferences_eq_ok_iff (h : r.Streams exit t) (hn : n ∈ r.live exit t)
    (hlive : ∀ m, live.contains m = true ↔ m ∈ stream) (hd : r.nodes[n]? = some d) :
    r.checkReferences live n d = .ok () ↔ (∀ guarded goal, d.kind = .branch guarded goal →
      goal.target ∈ stream ∧ ∃ kind, r.kindOf goal.target = some kind ∧ kind.region?.isSome) ∧
      ∀ guarded goal, d.kind = .goto guarded goal → r.Lands stream goal := by
  have hkind := kindOf_eq hd
  have hpartner := (h.partners hn hkind).2
  unfold checkReferences
  -- a reference to a live node of a certain kind is looked up and tested
  have hlook : ∀ (m : NodeId) (p : NodeKind → Bool) (reason : IrError),
      ((do
        let target ← r.node m
        if (!live.contains m || !p target.kind) = true then refuse reason : Query Unit) = .ok ()) ↔
      m ∈ stream ∧ ∃ kind, r.kindOf m = some kind ∧ p kind = true := by
    intro m p reason
    simp only [bind_eq_ok_iff, node_eq_ok_iff, unless_eq_ok_iff refuse_ne_ok, Bool.or_eq_true,
      Bool.not_eq_true', not_or, Bool.not_eq_false, hlive]
    constructor
    · rintro ⟨e, he, hm, hp⟩
      exact ⟨hm, e.kind, kindOf_eq he, hp⟩
    · rintro ⟨hm, kind, hk, hp⟩
      obtain ⟨e, he, rfl, _⟩ := node_of_kindOf hk
      exact ⟨e, he, hm, hp⟩
  cases hcase : d.kind with
  | close opener =>
    obtain ⟨kind', hopener, hback⟩ := hpartner opener hcase
    obtain ⟨e, he, rfl, _⟩ := node_of_kindOf hopener
    simp [node_eq_ok_iff.mpr he, hback]
  | branch guarded goal =>
    have :=
      hlook goal.target (fun kind => kind.region?.isSome) (.branchTargetUnreachable goal.target)
    simp only [not_isSome] at this
    simp only [this, NodeKind.branch.injEq, reduceCtorEq, IsEmpty.forall_iff,
      implies_true, and_true]
    constructor
    · rintro hok _ _ ⟨rfl, rfl⟩
      exact hok
    · exact fun hall => hall guarded goal ⟨rfl, rfl⟩
  | goto guarded goal =>
    simp only [NodeKind.goto.injEq, reduceCtorEq, IsEmpty.forall_iff, implies_true, true_and]
    have hall : (∀ g j, guarded = g ∧ goal = j → r.Lands stream j) ↔ r.Lands stream goal :=
      ⟨fun hall => hall guarded goal ⟨rfl, rfl⟩, fun hok _ _ heq => heq.2 ▸ hok⟩
    rw [hall]
    cases goal with
    | pending origin => simp [Lands]
    | terminal => simp [Lands]
    | step m =>
      refine (hlook m NodeKind.isStep _).trans (and_congr_right fun _ => ?_)
      constructor
      · rintro ⟨kind, hk, hstep⟩
        cases kind <;> simp at hstep
        exact ⟨_, hk⟩
      · rintro ⟨name, hk⟩
        exact ⟨_, hk, rfl⟩
  | define | declare | enter | call | ret | yield | step | op => simp

/-- What the check demands of a node. -/
theorem checkShape_eq_ok_iff (h : r.Streams exit t) (hn : n ∈ r.live exit t)
    (hlive : ∀ m, live.contains m = true ↔ m ∈ stream) :
    r.checkShape live n = .ok () ↔ r.Fits stream n := by
  obtain ⟨d, hd⟩ := h.exists_node hn
  have hkind := kindOf_eq hd
  have hopener : r.checkOpener n d = .ok () := by
    unfold checkOpener
    cases hregion : d.kind.region? with
    | none => rfl
    | some region =>
      obtain ⟨e, he, hclose, _⟩ := node_of_kindOf ((h.partners hn hkind).1 region hregion)
      simp [node_eq_ok_iff.mpr he, hclose]
  simp only [checkShape, bind_eq_ok_iff, node_eq_ok_iff, hd, exists_some_eq,
    Unique.exists_iff, PUnit.default_eq_unit, h.checkSuccessors_eq_ok hn hd, hopener, true_and,
    unless_eq_ok_iff refuse_ne_ok]
  rw [checkReferences_eq_ok_iff h hn hlive hd]
  constructor
  · rintro ⟨⟨htarget, hlands⟩, hcondition⟩
    refine ⟨fun guarded goal hk => htarget guarded goal (some.inj (hkind.symm.trans hk)),
      fun guarded goal hk => hlands guarded goal (some.inj (hkind.symm.trans hk)), ?_⟩
    intro e hlabel hconditional
    obtain rfl := some.inj ((label_eq hd).symm.trans hlabel)
    simp only [Node.unlinked_kind] at hconditional
    simpa [hconditional] using hcondition
  · rintro ⟨htarget, hlands, hcondition⟩
    refine ⟨⟨fun guarded goal hk => htarget guarded goal (hk ▸ hkind),
      fun guarded goal hk => hlands guarded goal (hk ▸ hkind)⟩, ?_⟩
    intro hfail
    simp only [Bool.and_eq_true, decide_eq_true_eq] at hfail
    exact hfail.2 (hcondition d.unlinked (label_eq hd) hfail.1)

/-- Everything nested in a node is detached. -/
def NestsDetached (r : Routine) (n : NodeId) : Prop :=
  ∃ ms, r.nested n = .ok ms ∧ ∀ m ∈ ms, m ≠ n → ∃ d, r.nodes[m]? = some d ∧
    d.next = [] ∧ d.prev = []

/-- What the check demands of sub-expressions. -/
theorem checkNested_eq_ok_iff : r.checkNested n = .ok () ↔ r.NestsDetached n := by
  unfold checkNested strictlyNested NestsDetached
  simp only [bind_eq_ok_iff, pure_eq_ok, Except.ok.injEq, forM_eq_ok_iff, node_eq_ok_iff]
  constructor
  · rintro ⟨ms, ⟨all, hall, rfl⟩, hms⟩
    refine ⟨all, hall, fun m hm hne => ?_⟩
    obtain ⟨d, hd, hempty⟩ := hms m (by simp [hm, hne])
    refine ⟨d, hd, ?_⟩
    simpa using hempty
  · rintro ⟨all, hall, hms⟩
    refine ⟨_, ⟨all, hall, rfl⟩, fun m hm => ?_⟩
    simp only [ne_eq, decide_not, mem_filter, Bool.not_eq_true', decide_eq_false_iff_not] at hm
    obtain ⟨d, hd, hnext, hprev⟩ := hms m hm.1 hm.2
    exact ⟨d, hd, by simp [hnext, hprev]⟩

/-- The nodes are checked one by one while their accesses are added up. -/
theorem foldlM_checkNode_eq_ok_iff : ns.foldlM (r.checkNode live) tally = .ok tally' ↔
      (∀ n ∈ ns, r.checkEdges n = .ok () ∧ r.checkShape live n = .ok () ∧
      r.checkNested n = .ok ()) ∧
      ns.foldlM (fun tally n => do (← r.accesses n).foldlM Tally.add tally) tally = .ok tally' := by
  induction ns generalizing tally with
  | nil => simp
  | cons n ns ih =>
    simp only [foldlM_cons, bind_eq_ok_iff, checkNode, ih, forall_mem_cons]
    constructor
    · rintro ⟨t₁, ⟨_, hedges, _, hshape, _, hnested, hadd⟩, hns, hrest⟩
      exact ⟨⟨⟨hedges, hshape, hnested⟩, hns⟩, t₁, hadd, hrest⟩
    · rintro ⟨⟨⟨hedges, hshape, hnested⟩, hns⟩, t₁, hadd, hrest⟩
      exact ⟨t₁, ⟨(), hedges, (), hshape, (), hnested, hadd⟩, hns, hrest⟩

/-- The accesses of a list of nodes. -/
def Accesses (r : Routine) (ns : List NodeId) (all : List (VarId × Access)) : Prop :=
  ∃ acc : NodeId → List (VarId × Access), (∀ n ∈ ns, r.accesses n = .ok (acc n)) ∧
    all = ns.flatMap acc

theorem foldlM_accesses {all : List (VarId × Access)} (hall : r.Accesses ns all) :
    ns.foldlM (fun tally n => do (← r.accesses n).foldlM Tally.add tally) tally =
      all.foldlM Tally.add tally := by
  obtain ⟨acc, hacc, rfl⟩ := hall
  induction ns generalizing tally with
  | nil => rfl
  | cons n ns ih =>
    rw [foldlM_cons, flatMap_cons, foldlM_append, hacc n (by simp)]
    simp only [ok_bind]
    cases acc n |>.foldlM Tally.add tally with
    | error e => rfl
    | ok t₁ => exact ih fun m hm => hacc m (by simp [hm])

/-- The cached counts are those of the accesses of a list of nodes, apart from those that keep the
memory variable alive. -/
def Counted (r : Routine) (ns : List NodeId) : Prop :=
  r.mem < r.vars.size ∧ ∃ all, r.Accesses ns all ∧ (∀ a ∈ all, a.1 < r.vars.size) ∧
    ∀ v d, r.vars[v]? = some d →
      d.reads = (if v = r.mem then 2 else 0) + all.count (v, .read) ∧
        d.writes = (if v = r.mem then 2 else 0) + all.count (v, .write)

theorem Counted.perm {ns' : List NodeId} (h : r.Counted ns) (hperm : ns.Perm ns') :
    r.Counted ns' := by
  obtain ⟨hmem, _, ⟨acc, hacc, rfl⟩, hlt, hcounts⟩ := h
  have hall : (ns.flatMap acc).Perm (ns'.flatMap acc) := hperm.flatMap_right acc
  refine ⟨hmem, _, ⟨acc, fun n hn => hacc n (hperm.mem_iff.mpr hn), rfl⟩,
    fun a ha => hlt a (hall.mem_iff.mpr ha), fun v d hd => ?_⟩
  rw [← hall.count_eq, ← hall.count_eq]
  exact hcounts v d hd

theorem Tally.start_eq (hmem : r.mem < r.vars.size) : ∃ tally, Tally.start r = .ok tally ∧
    tally.Holds r.vars.size (fun v => if v = r.mem then 2 else 0) fun v =>
    if v = r.mem then 2 else 0 := by
  obtain ⟨rows, hupdate, hrows⟩ :=
    (Arena.Holds.replicate r.vars.size 0).updated (ε := IrError) hmem fun _ => 2
  exact ⟨⟨rows, rows⟩, by simp only [start, hupdate, ok_bind, pure_eq_ok],
    hrows, hrows⟩

/-- What the check demands of the depth of a branch. -/
theorem checkBranchDepth_eq_ok_iff (hkind : r.kindOf n = some kind) {actual : Option Nat} :
    r.checkBranchDepth n actual = .ok () ↔
      ∀ guarded goal, kind = .branch guarded goal → actual = some goal.depth := by
  obtain ⟨d, hd, rfl, _⟩ := node_of_kindOf hkind
  simp only [checkBranchDepth, node_eq_ok_iff.mpr hd, ok_bind]
  cases hcase : d.kind with
  | branch guarded goal =>
    simp only [NodeKind.branch.injEq]
    cases actual with
    | none => simp
    | some actual =>
      simp only [unless_eq_ok_iff refuse_ne_ok, not_not, some.injEq]
      constructor
      · rintro heq _ _ ⟨rfl, rfl⟩
        exact heq
      · exact fun hall => hall guarded goal ⟨rfl, rfl⟩
  | define | declare | enter | close | call | ret | yield | step | goto | op =>
    simp

/-- What the check demands of the counts of a variable. -/
theorem checkCounts_eq_ok_iff {reads writes : VarId → Nat}
    (h : tally.Holds r.vars.size reads writes) {v : VarId}
    {d : Variable} (hd : r.vars[v]? = some d) :
    r.checkCounts tally v = .ok () ↔ d.reads = reads v ∧ d.writes = writes v := by
  obtain ⟨hv, _⟩ := Array.getElem?_eq_some_iff.mp hd
  simp only [checkCounts, var_eq_ok_iff.mpr hd, Arena.fetch_eq_ok_iff.mpr (h.reads_eq.get v hv),
    Arena.fetch_eq_ok_iff.mpr (h.writes_eq.get v hv), ok_bind,
    unless_eq_ok_iff refuse_ne_ok, not_not, Prod.mk.injEq]

theorem exists_accesses_of_foldlM
    (h : ns.foldlM (fun tally n => do (← r.accesses n).foldlM Tally.add tally) tally = .ok tally') :
    ∃ all, r.Accesses ns all := by
  have heach : ∀ n ∈ ns, ∃ l, r.accesses n = .ok l := by
    induction ns generalizing tally with
    | nil => simp
    | cons n ns ih =>
      simp only [foldlM_cons, bind_eq_ok_iff] at h
      obtain ⟨t₁, ⟨l, hl, _⟩, hrest⟩ := h
      exact forall_mem_cons.mpr ⟨⟨l, hl⟩, ih hrest⟩
  choose! acc hacc using heach
  exact ⟨_, acc, hacc, rfl⟩

/-- The counts are exact when adding up the accesses succeeds and gives the cached counts. -/
theorem counted_iff : r.Counted ns ↔ ∃ start tally, Tally.start r = .ok start ∧
    ns.foldlM (fun tally n => do (← r.accesses n).foldlM Tally.add tally) start = .ok tally ∧
    ∀ v ∈ Arena.ids r.vars, r.checkCounts tally v = .ok () := by
  constructor
  · rintro ⟨hmem, all, hall, hlt, hcounts⟩
    obtain ⟨start, hstart, hholds⟩ := Tally.start_eq hmem
    obtain ⟨tally, htally⟩ := (Tally.addAll_eq hholds all).1 hlt
    refine ⟨start, tally, hstart, (foldlM_accesses hall).trans htally, fun v hv => ?_⟩
    have hd := Array.getElem?_eq_getElem (mem_range.mp hv)
    rw [checkCounts_eq_ok_iff ((Tally.addAll_eq hholds all).2 tally htally).2 hd]
    exact hcounts v _ hd
  · rintro ⟨start, tally, hstart, hfold, hcounts⟩
    have hmem : r.mem < r.vars.size := by
      by_contra hge
      simp [Tally.start, Arena.update, hge, Attempt.abort] at hstart
    obtain ⟨start', hstart', hholds⟩ := Tally.start_eq hmem
    obtain rfl : start = start' := Except.ok.inj (hstart.symm.trans hstart')
    obtain ⟨all, hall⟩ := exists_accesses_of_foldlM hfold
    obtain ⟨hlt, hend⟩ :=
      (Tally.addAll_eq hholds all).2 tally ((foldlM_accesses hall).symm.trans hfold)
    refine ⟨hmem, all, hall, hlt, fun v d hd => ?_⟩
    obtain ⟨hv, _⟩ := Array.getElem?_eq_some_iff.mp hd
    exact (checkCounts_eq_ok_iff hend hd).mp (hcounts v (mem_range.mpr hv))

/-- On a structured stream the check succeeds exactly when every branch carries its depth, every
node fits, sub-expressions are detached and the counts are exact. -/
theorem Streams.verify_eq_ok_iff (h : r.Streams exit t) :
    r.verify = .ok () ↔ t.BranchesFit r.kindOf [r.entry] ∧
      (∀ n ∈ r.live exit t, r.Fits (r.live exit t) n ∧ r.NestsDetached n) ∧
      r.Counted (r.live exit t) := by
  obtain ⟨live, hlive, hperm⟩ := h.liveNodes_eq
  have hmem : ∀ m, (BitSet.ofList live).contains m = true ↔ m ∈ r.live exit t := fun m => by
    simp [hperm.mem_iff]
  have hacyclic : r.checkAcyclic live = .ok () := by
    refine checkAcyclic_eq_ok (fun n hn => ?_) (hperm.nodup_iff.mpr h.nodup)
      (fun n => (r.entry :: t.nodes ++ [exit]).idxOf n) fun n hn m hm =>
        h.idxOf_lt (hperm.mem_iff.mp hn) hm
    have hn' := hperm.mem_iff.mp hn
    exact ⟨h.lt_size hn', fun m hm => h.lt_size (h.next_mem hn' hm)⟩
  have hdepths : (∀ p ∈ t.depths r.kindOf [r.entry], r.checkBranchDepth p.1 p.2 = .ok ()) ↔
      t.BranchesFit r.kindOf [r.entry] := by
    rw [branchesFit_iff]
    refine forall₂_congr fun p hp => ?_
    obtain ⟨_, guarded, goal, hkind⟩ := mem_depths hp
    rw [checkBranchDepth_eq_ok_iff hkind]
    simp [hkind]
  have hnodes : (∀ n ∈ live, r.checkEdges n = .ok () ∧ r.checkShape (.ofList live) n = .ok () ∧
      r.checkNested n = .ok ()) ↔ ∀ n ∈ r.live exit t,
        r.Fits (r.live exit t) n ∧ r.NestsDetached n := by
    refine forall_congr' fun n => ?_
    rw [hperm.mem_iff]
    refine forall_congr' fun hn => ?_
    rw [h.checkEdges_eq_ok hn, checkShape_eq_ok_iff h hn hmem, checkNested_eq_ok_iff]
    simp
  simp only [verify, hlive, bind_eq_ok_iff, Except.ok.injEq, exists_eq_left', hacyclic,
    Unique.exists_iff, PUnit.default_eq_unit, true_and, h.branchDepths_eq, forM_eq_ok_iff,
    foldlM_checkNode_eq_ok_iff, hnodes, hdepths]
  have hcounted : r.Counted (r.live exit t) ↔ r.Counted live :=
    ⟨fun hc => hc.perm hperm.symm, fun hc => hc.perm hperm⟩
  rw [hcounted, counted_iff]
  constructor
  · rintro ⟨start, hstart, tally, ⟨hfits, hfold⟩, hbranches, hcounts⟩
    exact ⟨hbranches, hfits, start, tally, hstart, hfold, hcounts⟩
  · rintro ⟨hbranches, hfits, start, tally, hstart, hfold, hcounts⟩
    exact ⟨start, hstart, tally, ⟨hfits, hfold⟩, hbranches, hcounts⟩

end Routine

end CoroutineIR
