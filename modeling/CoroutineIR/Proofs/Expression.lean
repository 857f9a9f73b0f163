import CoroutineIR.Proofs.WellStructured

/-!
# Expressions of a well-structured routine

The node of the stream and the sub-expressions below it. A node of the stream stands below no other
one, and the counts of a variable are those of its accesses in all expressions, so that a variable
that is read once is read in one place.
-/

namespace CoroutineIR

open List Attempt Operand

namespace Routine

variable {r r' : Routine} {exit n m : NodeId} {t t' : Strand} {ms : List NodeId} {d e : Node}
  {v : VarId} {args : List Operand} {access : Access}

/-- The sub-expressions of a node, if there is an answer. -/
def below (r : Routine) (n : NodeId) : List NodeId := ((r.nested n).toOption.getD []).tail

theorem nested_eq_below (h : r.nested n = .ok ms) : r.nested n = .ok (n :: r.below n) := by
  obtain ⟨inner, rfl⟩ := exists_nested h
  rw [h, below, h]
  rfl

theorem below_of_nested (h : r.nested n = .ok (n :: ms)) : r.below n = ms := by
  rw [below, h]
  rfl

/-- The sub-expressions among operands, with what is nested in them. -/
def exprs (r : Routine) (args : List Operand) : List NodeId :=
  (args.filterMap Operand.node?).flatMap fun m => m :: r.below m

@[simp] theorem exprs_append (args args' : List Operand) :
    r.exprs (args ++ args') = r.exprs args ++ r.exprs args' := by
  rw [exprs, filterMap_append, flatMap_append, exprs, exprs]

@[simp] theorem exprs_lit (x : Literal) (args : List Operand) :
    r.exprs (.lit x :: args) = r.exprs args := rfl

@[simp] theorem exprs_var (v : VarId) (args : List Operand) :
    r.exprs (.var v :: args) = r.exprs args := rfl

@[simp] theorem exprs_node (m : NodeId) (args : List Operand) :
    r.exprs (.node m :: args) = m :: r.below m ++ r.exprs args := rfl

@[simp] theorem exprs_nil : r.exprs [] = [] := rfl

theorem mem_operandNodes : m ∈ args.filterMap node? ↔ .node m ∈ args := by
  rw [mem_filterMap]
  constructor
  · rintro ⟨arg, harg, hm⟩
    cases arg <;> simp_all
  · exact fun hm => ⟨_, hm, rfl⟩

theorem exists_mem_exprs {P : NodeId → Prop} :
    (∃ n ∈ r.exprs args, P n) ↔ ∃ m, .node m ∈ args ∧ ∃ n ∈ m :: r.below m, P n := by
  simp only [exprs, mem_flatMap, mem_operandNodes]
  constructor
  · rintro ⟨n, ⟨m, hm, hn⟩, h⟩
    exact ⟨m, hm, n, hn, h⟩
  · rintro ⟨m, hm, n, hn, h⟩
    exact ⟨n, ⟨m, hm, hn⟩, h⟩

/-- The sub-expressions of a node are those of its operands. -/
theorem nested_eq_ok_iff (hd : r.label n = some d) : r.nested n = .ok ms ↔
    (∀ m, .node m ∈ d.args → ∃ l, r.nested m = .ok l) ∧ ms = n :: r.exprs d.args := by
  simp only [← mem_operandNodes, exprs]
  constructor
  · intro h
    obtain ⟨e, inner, he, hinner, rfl⟩ := nestedWithin_succ_eq_ok_iff.mp h
    obtain rfl := Option.some.inj ((label_eq he).symm.trans hd)
    rw [Node.unlinked_args]
    generalize e.args.filterMap node? = operands at hinner
    have hnested : Forall₂ (fun m ms => r.nested m = .ok ms) operands inner :=
      hinner.imp fun m ms hm => nested_of_nestedWithin hm
    clear hinner h
    induction hnested with
    | nil => simp
    | @cons m ms _ _ hm _ ih =>
      obtain rfl : m :: r.below m = ms := Except.ok.inj ((nested_eq_below hm).symm.trans hm)
      exact ⟨forall_mem_cons.mpr ⟨⟨_, hm⟩, ih.1⟩, by simpa using ih.2⟩
  · rintro ⟨hoperands, rfl⟩
    have hinner : Forall₂ (fun m ms => r.nestedWithin r.nestFuel m = .ok ms) (d.args.filterMap
        node?) ((d.args.filterMap node?).map fun m => m :: r.below m) := by
      refine forall₂_map_right_iff.mpr (forall₂_same.mpr fun m hm => ?_)
      obtain ⟨l, hl⟩ := hoperands m hm
      exact nested_eq_below hl
    have hwithin : r.nestedWithin (r.nestFuel + 1) n =
        .ok (n :: (d.args.filterMap node?).flatMap fun m => m :: r.below m) :=
      nestedWithin_succ_eq_ok_iff.mpr ⟨_, _, node_of_label hd, hinner, by rw [flatMap_def]⟩
    exact nested_of_nestedWithin hwithin

theorem below_eq (hd : r.label n = some d) (h : r.nested n = .ok ms) :
    r.below n = r.exprs d.args := by
  have heq := ((nested_eq_ok_iff hd).mp (nested_eq_below h)).2
  exact (List.cons.inj heq).2

theorem exprs_congr (h : ∀ m, .node m ∈ args → r'.below m = r.below m) :
    r'.exprs args = r.exprs args := by
  induction args with
  | nil => rfl
  | cons arg args ih =>
    have hrest := ih fun m hm => h m (mem_cons_of_mem _ hm)
    cases arg with
    | node m => rw [exprs_node, exprs_node, hrest, h m (mem_cons_self ..)]
    | lit | var => simpa using hrest

theorem mem_exprs (h : .node m ∈ args) : m :: r.below m ⊆ r.exprs args := fun _ hx =>
  mem_flatMap.mpr ⟨m, mem_operandNodes.mpr h, hx⟩

/-- The accesses of a node of the stream. -/
def accessesOf (r : Routine) (n : NodeId) : List (VarId × Access) :=
    (n :: r.below n).flatMap (r.accessesAt n)

theorem accessesAt_self (hd : r.label n = some d) : r.accessesAt n n = d.accesses := by
  simp [accessesAt, hd]

theorem mem_accessesOf (hd : r.label n = some d) {a : VarId × Access} (ha : a ∈ d.accesses) :
    a ∈ r.accessesOf n :=
  mem_flatMap.mpr ⟨n, mem_cons_self, by rwa [accessesAt_self hd]⟩

theorem nested_flat (hd : r.label n = some d) (hflat : d.Flat) : r.nested n = .ok [n] :=
  nested_eq (node_of_label hd) hflat

theorem accessesOf_flat (hd : r.label n = some d) (hflat : d.Flat) :
    r.accessesOf n = d.accesses := by
  rw [accessesOf, below_of_nested (nested_flat hd hflat), flatMap_cons, flatMap_nil, append_nil,
    accessesAt_self hd]

theorem not_mem_below_self (r : Routine) (n : NodeId) : n ∉ r.below n := by
  cases h : r.nested n with
  | error => simp [below, h, Except.toOption]
  | ok ms => exact not_mem_nested (nested_eq_below h)

/-- The accesses of a sub-expression by itself, with the one the enclosing node makes to its
destination. -/
def innerAccesses (r : Routine) (m : NodeId) : List (VarId × Access) :=
  (r.label m).elim [] fun d => d.accesses ++ d.dest.toList.map (·, .read)

theorem accessesOf_eq (r : Routine) (n : NodeId) :
    r.accessesOf n = r.accessesAt n n ++ (r.below n).flatMap r.innerAccesses := by
  rw [accessesOf, flatMap_cons]
  refine congrArg _ (flatMap_congr fun m hm => ?_)
  have hne : m ≠ n := fun heq => r.not_mem_below_self n (heq ▸ hm)
  simp only [accessesAt, innerAccesses, hne, if_false]

/-- All accesses are those of the nodes by themselves and those of all sub-expressions. -/
theorem flatMap_accessesOf_perm (r : Routine) (ns : List NodeId) : (ns.flatMap r.accessesOf).Perm
    (ns.flatMap (fun n => r.accessesAt n n) ++ (ns.flatMap r.below).flatMap r.innerAccesses) := by
  rw [flatMap_assoc, flatMap_congr fun n _ => r.accessesOf_eq n]
  exact (flatMap_append_perm ns _ _).symm

theorem flatMap_innerAccesses_congr {ns : List NodeId}
    (h : ∀ n ∈ ns, ∀ m ∈ r.below n, r'.label m = r.label m) : (ns.flatMap r.below).flatMap
    r'.innerAccesses = (ns.flatMap r.below).flatMap r.innerAccesses := by
  refine flatMap_congr fun m hm => ?_
  obtain ⟨n, hn, hm⟩ := mem_flatMap.mp hm
  rw [innerAccesses, h n hn m hm, innerAccesses]

/-- The accesses of an expression stay if its labels do. -/
theorem accessesOf_congr (h : r.nested n = .ok (n :: r.below n))
    (hlabel : ∀ m ∈ n :: r.below n, r'.label m = r.label m) : r'.nested n = .ok (n :: r.below n) ∧
    r'.below n = r.below n ∧ r'.accessesOf n = r.accessesOf n := by
  have hnested : r'.nested n = .ok (n :: r.below n) :=
    nested_congr h fun m hm => by rw [operandNodes, hlabel m hm, operandNodes]
  have hbelow := below_of_nested hnested
  refine ⟨hnested, hbelow, ?_⟩
  rw [accessesOf, accessesOf, hbelow]
  refine flatMap_congr fun m hm => ?_
  rw [accessesAt, accessesAt, hlabel m hm]

/-- Everything nested in a node is detached, said of its sub-expressions. -/
theorem nestsDetached_of_below (h : r.nested n = .ok (n :: r.below n))
    (hdetached : ∀ m ∈ r.below n, r.Detached m) : r.NestsDetached n := by
  refine ⟨_, h, fun m hm hne => ?_⟩
  obtain ⟨d, hd⟩ := exists_label_of_nested h hm
  have hmem := (mem_cons.mp hm).resolve_left hne
  exact ⟨_, node_of_label hd, hdetached m hmem⟩

/-- A node of the stream has edges. -/
theorem Carries.not_detached (h : r.Carries exit t) (hn : n ∈ r.live exit t) : ¬r.Detached n := by
  rintro ⟨hnext, hprev⟩
  have hin : r.inDegree n = 0 := by rw [inDegree, hprev, length_nil]
  have hout : r.outDegree n = 0 := by rw [outDegree, hnext, length_nil]
  rcases mem_cons.mp hn with rfl | hn
  · have := h.entry_degrees.2
    omega
  rcases mem_cons.mp hn with rfl | hn
  · have := h.exit_degrees.1
    omega
  · have := h.sized.pos hn
    omega

/-- A stream whose sub-expressions are detached and whose counts are those of its accesses. -/
structure Accounted (r : Routine) (exit : NodeId) (t : Strand) : Prop extends r.Carries exit t where
  nests : ∀ n ∈ r.entry :: exit :: t.nodes, r.NestsDetached n
  counted : r.Counted (r.entry :: exit :: t.nodes)

namespace Accounted

variable (h : r.Accounted exit t) (hn : n ∈ r.live exit t)
include h hn

theorem nested_eq : r.nested n = .ok (n :: r.below n) := by
  obtain ⟨ms, hms, -⟩ := h.nests n hn
  exact nested_eq_below hms

/-- Sub-expressions lie beside the stream. -/
theorem below_detached (hm : m ∈ r.below n) : m ≠ n ∧ r.Detached m := by
  obtain ⟨ms, hms, hdetached⟩ := h.nests n hn
  have hnested := h.nested_eq hn
  obtain rfl := Except.ok.inj (hnested.symm.trans hms)
  have hne : m ≠ n := fun heq => not_mem_nested hnested (heq ▸ hm)
  obtain ⟨e, he, hnext, hprev⟩ := hdetached m (mem_cons_of_mem _ hm) hne
  exact ⟨hne, by rw [Detached, nextOf_eq he, prevOf_eq he]; exact ⟨hnext, hprev⟩⟩

/-- A node of the stream stands below no other one. -/
theorem not_mem_below (hm : m ∈ r.live exit t) : m ∉ r.below n := fun hmem =>
  h.not_detached hm (h.below_detached hn hmem).2

theorem exists_label_below (hm : m ∈ r.below n) : ∃ d, r.label m = some d :=
  exists_label_of_nested (h.nested_eq hn) (mem_cons_of_mem _ hm)

omit h hn

variable (h : r.Accounted exit t)
include h

/-- What the stream accesses is a variable of the routine. -/
theorem lt_of_access {a : VarId × Access} (ha : a ∈ (r.live exit t).flatMap r.accessesOf) :
    a.1 < r.vars.size := by
  obtain ⟨-, _, ⟨acc, hacc, rfl⟩, hlt, -⟩ := h.counted
  obtain ⟨n, hn, ha⟩ := mem_flatMap.mp ha
  refine hlt a (mem_flatMap.mpr ⟨n, hn, ?_⟩)
  rwa [Except.ok.inj ((hacc n hn).symm.trans (accesses_of_nested (h.nested_eq hn)))]

/-- The counts are those of the accesses in the stream. -/
theorem tally_eq (v : VarId) (access : Access) : r.tally v access =
    (if v = r.mem then 2 else 0) + ((r.live exit t).flatMap r.accessesOf).count (v, access) := by
  obtain ⟨hmem, _, ⟨acc, hacc, rfl⟩, -, hcounts⟩ := h.counted
  have heq : (r.live exit t).flatMap acc = (r.live exit t).flatMap r.accessesOf := by
    refine flatMap_congr fun n hn => ?_
    exact Except.ok.inj ((hacc n hn).symm.trans (accesses_of_nested (h.nested_eq hn)))
  cases hx : r.vars[v]? with
  | none =>
    -- neither memory nor an accessed variable
    have hv := Nat.not_lt.mpr (Array.getElem?_eq_none_iff.mp hx)
    have hne : v ≠ r.mem := fun heq => hv (heq ▸ hmem)
    rw [if_neg hne, count_eq_zero.mpr fun ha => hv (h.lt_of_access ha)]
    by_contra htally
    obtain ⟨x, hx'⟩ := exists_var_of_tally (Nat.pos_of_ne_zero htally)
    rw [hx] at hx'
    cases hx'
  | some x =>
    obtain ⟨hreads, hwrites⟩ := hcounts v x hx
    rw [heq] at hreads hwrites
    cases access with
    | read => rw [tally, readsOf_eq hx, hreads]
    | write => rw [tally, writesOf_eq hx, hwrites]

/-- The accesses of a node of the stream are counted. -/
theorem count_le (hn : n ∈ r.live exit t) (v : VarId) (access : Access) :
    (r.accessesOf n).count (v, access) ≤ r.tally v access := by
  rw [h.tally_eq, ((perm_cons_erase hn).flatMap_right r.accessesOf).count_eq,
    flatMap_cons, count_append]
  omega

/-- The counts are exact if they have changed as the accesses have. -/
theorem counted_of_balance {ns : List NodeId} (hmem : r'.mem = r.mem)
    (hvars : r.vars.size ≤ r'.vars.size) (hnests : ∀ n ∈ ns, r'.NestsDetached n)
    (htally : ∀ v access, r'.tally v access +
      ((r.live exit t).flatMap r.accessesOf).count (v, access) =
      r.tally v access + (ns.flatMap r'.accessesOf).count (v, access)) : r'.Counted ns := by
  have hcount : ∀ v access, r'.tally v access =
      (if v = r'.mem then 2 else 0) + (ns.flatMap r'.accessesOf).count (v, access) := by
    intro v access
    have hold := h.tally_eq v access
    have hnew := htally v access
    rw [hmem]
    omega
  refine ⟨hmem ▸ Nat.lt_of_lt_of_le h.counted.1 hvars, _,
    ⟨r'.accessesOf, fun n hn => ?_, rfl⟩, ?_, ?_⟩
  · obtain ⟨ms, hms, -⟩ := hnests n hn
    exact accesses_of_nested (nested_eq_below hms)
  · rintro ⟨v, access⟩ ha
    have hpos := count_pos_iff.mpr ha
    obtain ⟨x, hx⟩ : ∃ x, r'.vars[v]? = some x :=
      exists_var_of_tally (by rw [hcount v access]; omega)
    exact (Array.getElem?_eq_some_iff.mp hx).1
  · intro v x hx
    have hreads := hcount v .read
    have hwrites := hcount v .write
    rw [tally, readsOf_eq hx] at hreads
    rw [tally, writesOf_eq hx] at hwrites
    exact ⟨hreads, hwrites⟩

/-- Without some of the nodes of a stream the counts are exact if the accesses of these nodes are
not counted any more. -/
theorem without (gone : List NodeId) (hcarries : r'.Carries exit t') (hentry : r'.entry = r.entry)
    (hmem : r'.mem = r.mem) (hvars : r'.vars.size = r.vars.size)
    (hlabels : ∀ m, r'.label m = r.label m)
    (hstays : ∀ m, r.Detached m → r'.Detached m) (hperm : t.nodes.Perm (gone ++ t'.nodes))
    (htally : ∀ v access, r.tally v access = r'.tally v access +
      (gone.flatMap r.accessesOf).count (v, access)) : r'.Accounted exit t' := by
  have hsame : ∀ n ∈ r.live exit t', r'.nested n = .ok (n :: r.below n) ∧ r'.below n = r.below n ∧
      r'.accessesOf n = r.accessesOf n ∧ ∀ m ∈ r.below n, r.Detached m := by
    intro n hn
    have hn : n ∈ r.live exit t := by
      simp only [mem_cons, hperm.mem_iff, mem_append] at hn ⊢
      tauto
    obtain ⟨hnested, hbelow, haccesses⟩ := accessesOf_congr (h.nested_eq hn) fun m _ => hlabels m
    exact ⟨hnested, hbelow, haccesses, fun m hm => (h.below_detached hn hm).2⟩
  have hnests : ∀ n ∈ r'.live exit t', r'.NestsDetached n := by
    intro n hn
    obtain ⟨hnested, hbelow, -, hdetached⟩ := hsame n (live_congr hentry .. ▸ hn)
    exact nestsDetached_of_below (hbelow.symm ▸ hnested) fun m hm =>
      hstays m (hdetached m (hbelow ▸ hm))
  refine ⟨hcarries, hnests,
    h.counted_of_balance hmem (Nat.le_of_eq hvars.symm) hnests fun v access => ?_⟩
  rw [hentry, flatMap_congr fun n hn => (hsame n hn).2.2.1, htally]
  simp only [flatMap_cons, count_append, (hperm.flatMap_right r.accessesOf).count_eq,
    flatMap_append]
  omega

end Accounted

namespace WellStructured

theorem accounted (h : r.WellStructured exit t) : r.Accounted exit t :=
  ⟨h.toCarries, fun _ hn => h.nestsDetached hn, h.counted⟩

variable (h : r.WellStructured exit t) (hn : n ∈ r.live exit t)
include h hn

theorem nested_eq : r.nested n = .ok (n :: r.below n) := h.accounted.nested_eq hn

theorem below_detached (hm : m ∈ r.below n) : m ≠ n ∧ r.Detached m :=
    h.accounted.below_detached hn hm

theorem not_mem_below (hm : m ∈ r.live exit t) : m ∉ r.below n := h.accounted.not_mem_below hn hm

theorem not_mem_of_ne (hm : m ∈ r.live exit t) (hne : n ≠ m) : m ∉ n :: r.below n := fun hmem =>
  (mem_cons.mp hmem).elim hne.symm (h.not_mem_below hn hm)

theorem exists_label_below (hm : m ∈ r.below n) : ∃ d, r.label m = some d :=
    h.accounted.exists_label_below hn hm

omit hn in
theorem tally_eq (v : VarId) (access : Access) : r.tally v access =
    (if v = r.mem then 2 else 0) + ((r.live exit t).flatMap r.accessesOf).count (v, access) :=
  h.accounted.tally_eq v access

omit hn in
theorem lt_of_access {a : VarId × Access}
    (ha : a ∈ (r.live exit t).flatMap r.accessesOf) : a.1 < r.vars.size :=
    h.accounted.lt_of_access ha

/-- The accesses of a node by itself are counted. -/
theorem count_le (hd : r.label n = some d) (v : VarId) (access : Access) :
    d.accesses.count (v, access) ≤ r.tally v access := by
  refine Nat.le_trans ?_ (h.accounted.count_le hn v access)
  rw [accessesOf, flatMap_cons, accessesAt_self hd, count_append]
  exact Nat.le_add_right _ _

omit hn in
/-- Memory counts as read and written twice from the start. -/
theorem two_le_tally_mem (access : Access) : 2 ≤ r.tally r.mem access := by
  rw [h.tally_eq, if_pos rfl]
  exact Nat.le_add_right _ _

/-- A variable accessed once is accessed by one node of the stream. -/
theorem eq_of_once (hd : r.label n = some d)
    (hm : m ∈ r.live exit t) (he : r.label m = some e) (hv : (v, access) ∈ d.accesses)
    (hv' : (v, access) ∈ e.accesses) (honce : r.tally v access = 1) : m = n := by
  by_contra hne
  have hmem := mem_accessesOf hd hv
  have htally := h.tally_eq v access
  rw [((perm_cons_erase hn).flatMap_right r.accessesOf).count_eq, flatMap_cons, count_append, honce]
    at htally
  have hpos := count_pos_iff.mpr hmem
  have hpos' : 0 < (((r.live exit t).erase n).flatMap r.accessesOf).count (v, access) :=
    count_pos_iff.mpr (mem_flatMap.mpr ⟨m, (mem_erase_of_ne hne).mpr hm, mem_accessesOf he hv'⟩)
  omega

/-- A variable that is read once is read in one place. -/
theorem sole_reader (hd : r.label n = some d)
    {before after : List Operand} (hargs : d.args = before ++ .var v :: after)
    (honce : r.readsOf v = 1) :
    v ≠ r.mem ∧ (.var v ∉ before ∧ .var v ∉ after) ∧
    (∀ m ∈ r.below n, (v, .read) ∉ r.accessesAt n m) ∧
      ∀ m ∈ r.live exit t, m ≠ n → (v, .read) ∉ r.accessesOf m := by
  have hperm := perm_cons_erase hn
  set rest := (r.live exit t).erase n
  have htally := h.tally_eq v .read
  rw [tally, honce, (hperm.flatMap_right _).count_eq, flatMap_cons, count_append, accessesOf,
    flatMap_cons, count_append, accessesAt_self hd, Node.accesses, count_append, hargs,
    filterMap_append, map_append, count_append, filterMap_cons_some
    (show var? (.var v) = some v from rfl), map_cons, count_cons_self] at htally
  have hzero : ∀ l : List (VarId × Access), l.count (v, .read) = 0 → (v, .read) ∉ l :=
    fun l => count_eq_zero.mp
  have hread : ∀ l : List Operand, ((l.filterMap var?).map fun w => (w, Access.read)).count
      (v, .read) = 0 → .var v ∉ l := fun l hl hv =>
    hzero _ hl (List.mem_map.mpr ⟨v, mem_filterMap.mpr ⟨_, hv, rfl⟩, rfl⟩)
  refine ⟨fun heq => ?_, ⟨hread before (by omega), hread after (by omega)⟩,
    fun m hm hv => ?_, fun m hm hne hv => ?_⟩
  · rw [if_pos heq] at htally
    omega
  · exact hzero _ (by omega) (mem_flatMap.mpr ⟨m, hm, hv⟩)
  · have hrest : m ∈ rest := (mem_erase_of_ne hne).mpr hm
    exact hzero (rest.flatMap r.accessesOf) (by omega) (mem_flatMap.mpr ⟨m, hrest, hv⟩)

end WellStructured

end Routine

end CoroutineIR
