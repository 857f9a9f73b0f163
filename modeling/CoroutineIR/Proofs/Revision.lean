import CoroutineIR.Proofs.Inlining

/-!
# Revising a routine without sub-expressions

Two kinds of change are enough for the passes that work on the stream before trees are built: a node
gets another label, or a node that control just passes through is taken out. Either way the counts
move along, so that the routine is well structured again, and control flows as before.
-/

namespace CoroutineIR

open List Option CoroutineIR.Action Attempt NodeKind Operand

/-- The same kind, or another operation in the place of an operation. -/
def NodeKind.Alike (kind kind' : NodeKind) : Prop :=
  kind' = kind ∨ ∃ code code', kind = .op code ∧ kind' = .op code'

theorem NodeKind.Alike.refl (kind : NodeKind) : kind.Alike kind := Or.inl rfl

/-- What an operation can never be. -/
theorem NodeKind.Alike.eq_of_not_op {kind kind' : NodeKind} (h : kind.Alike kind')
    (hop : ∀ code, kind' ≠ .op code) : kind' = kind :=
  h.resolve_right fun ⟨_, code, _, h⟩ => hop code h

/-- What all operations answer in the same way. -/
theorem NodeKind.Alike.apply_eq {β : Type} {kind kind' : NodeKind} (h : kind.Alike kind')
    (f : NodeKind → β) (hop : ∀ code code', f (.op code') = f (.op code)) : f kind' = f kind := by
  obtain rfl | ⟨code, code', rfl, rfl⟩ := h
  · rfl
  · exact hop code code'

namespace Routine

variable {r r' : Routine} {exit n m d p s : NodeId} {t t' : Strand} {e e' : Node} {v : VarId}
  {access : Access} {f : Variable → Variable}

/-- Whether the address of a variable is taken. -/
def addressableAt (r : Routine) (v : VarId) : Bool := (r.traits v).any Variable.addressable

section Flat

/-- A well-structured routine without sub-expressions. -/
structure Flat (r : Routine) (exit : NodeId) (t : Strand) :
    Prop extends r.WellStructured exit t where
  flat : ∀ n ∈ r.entry :: exit :: t.nodes, ∀ e, r.label n = some e → e.Flat

theorem Flat.exists_label (h : r.Flat exit t) (hn : n ∈ r.live exit t) :
    ∃ e, r.label n = some e ∧ e.Flat := by
  obtain ⟨d, hd⟩ := h.exists_node hn
  exact ⟨_, label_eq hd, h.flat n hn _ (label_eq hd)⟩

end Flat

/-- The routine `r'` is `r` with the label of the node `n` changed from `e` to `e'`. -/
structure Amends (r r' : Routine) (n : NodeId) (e e' : Node) : Prop where
  size : r'.nodes.size = r.nodes.size
  entry : r'.entry = r.entry
  mem : r'.mem = r.mem
  next : ∀ m, r'.nextOf m = r.nextOf m
  prev : ∀ m, r'.prevOf m = r.prevOf m
  label : r.label n = some e
  labels : ∀ m, r'.label m = if m = n then some e' else r.label m
  vars : r'.vars.size = r.vars.size
  traits : ∀ v, r'.traits v = r.traits v
  tally : ∀ v access, r'.tally v access + e.accesses.count (v, access) =
    r.tally v access + e'.accesses.count (v, access)

/-- The same with a label of the same shape. -/
structure Relabels (r r' : Routine) (n : NodeId) (e e' : Node) :
    Prop extends r.Amends r' n e e' where
  kind : e.kind.Alike e'.kind
  length : e.kind.isConditional = true → e'.args.length = e.args.length

/-- The routine `r'` is `r` with the node `d`, labelled `e`, taken out of the stream. -/
structure Drops (r r' : Routine) (exit : NodeId) (t t' : Strand) (d : NodeId) (e : Node)
    (p s : NodeId) : Prop where
  bypasses : r.Bypasses r' exit t t' d p s
  label : r.label d = some e
  plain : e.kind.isPlain = true
  labels : ∀ m, r'.label m = r.label m
  mem_eq : r'.mem = r.mem
  vars : r'.vars.size = r.vars.size
  tally : ∀ v access, r.tally v access = r'.tally v access + e.accesses.count (v, access)

namespace Amends

theorem label_of_ne (h : r.Amends r' n e e') (hm : m ≠ n) : r'.label m = r.label m := by
    rw [h.labels, if_neg hm]

theorem label_self (h : r.Amends r' n e e') : r'.label n = some e' := by rw [h.labels, if_pos rfl]

/-- What the new kind answers like the old one is answered alike everywhere. -/
theorem kindOf_apply {β : Type} (h : r.Amends r' n e e') (g : Option NodeKind → β)
    (hg : g (some e'.kind) = g (some e.kind)) (m : NodeId) : g (r'.kindOf m) = g (r.kindOf m) := by
  rw [kindOf, h.labels]
  split
  · next heq =>
    rw [heq, kindOf, h.label]
    exact hg
  · rfl

theorem kindOf_eq {β : Type} (h : r.Amends r' n e e') (f : NodeKind → β) (hf : f e'.kind = f e.kind)
    (m : NodeId) : (r'.kindOf m).map f = (r.kindOf m).map f :=
  h.kindOf_apply (·.map f) (congrArg some hf) m

/-- Marks are asked for as before if the new kind asks for them and gives them like the old one. -/
theorem roused (h : r.Amends r' n e e') (hr : t.Roused r.kindOf r.entry)
    (hrouses : e'.kind.rouses = e.kind.rouses)
    (hopens : e'.kind.opensSuspending = e.kind.opensSuspending) : t.Roused r'.kindOf r'.entry := by
  refine h.entry ▸ hr.weaken (fun m _ => ?_) (fun m _ => ?_) ?_
  · rw [h.kindOf_apply (·.any rouses) hrouses]
    exact id
  · rw [h.kindOf_apply (·.any opensSuspending) hopens]
    exact id
  · rw [h.kindOf_apply (·.any opensSuspending) hopens]
    exact id

end Amends

/-- Changing the label of a node leaves the counts exact if they move along. -/
theorem Accounted.amend (h : r.Accounted exit t) (ha : r.Amends r' n e e') (hn : n ∈ r.live exit t)
    (hargs : e'.args.filterMap node? = e.args.filterMap node?) :
    r'.Accounted exit t := by
  have hnested : ∀ m ∈ r.live exit t, r'.nested m = .ok (m :: r.below m) := fun m hm =>
    nested_congr (h.nested_eq hm) fun x _ => by
      rw [operandNodes, operandNodes, ha.labels]
      split
      · rename_i heq
        rw [heq, ha.label, map_some, map_some, hargs]
      · rfl
  have hbelow : ∀ m ∈ r.live exit t, r'.below m = r.below m :=
    fun m hm => below_of_nested (hnested m hm)
  have hnests : ∀ m ∈ r'.live exit t, r'.NestsDetached m := by
    intro m hm
    rw [live, ha.entry] at hm
    refine nestsDetached_of_below (hbelow m hm ▸ hnested m hm) fun x hx => ?_
    rw [Detached, ha.next, ha.prev]
    exact (h.below_detached hm (hbelow m hm ▸ hx)).2
  refine ⟨h.toCarries.congr ha.entry fun m _ => ⟨ha.next m, ha.prev m⟩, hnests, ?_⟩
  refine h.counted_of_balance ha.mem (Nat.le_of_eq ha.vars.symm) hnests fun v access => ?_
  -- sub-expressions keep their accesses, and so do the other nodes
  have hinner := flatMap_innerAccesses_congr fun m hm x hx =>
    ha.label_of_ne fun heq => h.not_mem_below hm hn (heq ▸ hx)
  have hperm := perm_cons_erase hn
  have hothers : ((r.live exit t).erase n).flatMap (fun m => r'.accessesAt m m) =
      ((r.live exit t).erase n).flatMap fun m => r.accessesAt m m := by
    refine flatMap_congr fun m hm => ?_
    have hne : m ≠ n := fun heq => (nodup_cons.mp (hperm.nodup_iff.mp h.nodup)).1 (heq ▸ hm)
    rw [accessesAt, ha.label_of_ne hne, accessesAt]
  have hown : ∀ x : Routine, ((r.live exit t).flatMap fun m => x.accessesAt m m).count (v, access) =
      (x.accessesAt n n).count (v, access) +
        (((r.live exit t).erase n).flatMap fun m => x.accessesAt m m).count (v, access) :=
        fun x => by
    rw [(hperm.flatMap_right _).count_eq, flatMap_cons, count_append]
  have htally := ha.tally v access
  rw [ha.entry, (r.flatMap_accessesOf_perm _).count_eq, (r'.flatMap_accessesOf_perm _).count_eq,
    flatMap_congr hbelow, hinner, count_append, count_append, hown r, hown r', hothers,
    accessesAt_self ha.label, accessesAt_self ha.label_self]
  omega

namespace Relabels

variable {kind : NodeKind}

variable (h : r.Relabels r' n e e')
include h

/-- An operation at most becomes another one. -/
theorem kindOf_alike (hkind : r.kindOf m = some kind) :
    ∃ kind', r'.kindOf m = some kind' ∧ kind.Alike kind' := by
  by_cases hm : m = n
  · subst hm
    rw [kindOf, h.label, map_some, some.injEq] at hkind
    exact ⟨e'.kind, kindOf_of_label h.label_self rfl, hkind ▸ h.kind⟩
  · exact ⟨kind, by rw [kindOf, h.label_of_ne hm]; exact hkind, .refl kind⟩

theorem kindOf_back (hkind : r'.kindOf m = some kind) :
    ∃ kind₀, r.kindOf m = some kind₀ ∧ kind₀.Alike kind := by
  by_cases hm : m = n
  · subst hm
    rw [kindOf, h.label_self, map_some, some.injEq] at hkind
    exact ⟨e.kind, kindOf_of_label h.label rfl, hkind ▸ h.kind⟩
  · exact ⟨kind, by rw [kindOf, ← h.label_of_ne hm]; exact hkind, .refl kind⟩

theorem kindOf_none (hkind : r.kindOf m = none) : r'.kindOf m = none := by
  refine eq_none_iff_forall_ne_some.mpr fun kind' hkind' => ?_
  obtain ⟨_, hsome, -⟩ := h.kindOf_back hkind'
  rw [hkind] at hsome
  cases hsome

/-- Kinds other than operations stay. -/
theorem kindOf_iff (hop : ∀ code, kind ≠ .op code) :
    r'.kindOf m = some kind ↔ r.kindOf m = some kind := by
  constructor
  · intro hkind
    obtain ⟨kind₀, hkind₀, hsame⟩ := h.kindOf_back hkind
    rwa [hsame.eq_of_not_op hop]
  · intro hkind
    obtain ⟨kind', hkind', rfl | ⟨code, _, heq, -⟩⟩ := h.kindOf_alike hkind
    · exact hkind'
    · exact absurd heq (hop code)

/-- Another label leaves the stream alone. -/
theorem streams (hr : r.Streams exit t) : r'.Streams exit t where
  toCarries := hr.toCarries.congr h.entry fun m _ => ⟨h.next m, h.prev m⟩
  shaped := hr.shaped.congr fun m _ => h.kindOf_eq _ (h.kind.apply_eq _ fun _ _ => rfl) m
  entry_kind := by
    obtain ⟨name, sig, suspends, hkind⟩ := hr.entry_kind
    exact ⟨name, sig, suspends, by rw [h.entry]; exact (h.kindOf_iff (by simp)).mpr hkind⟩
  exit_kind := by
    rw [h.entry]
    exact (h.kindOf_iff (by simp)).mpr hr.exit_kind

/-- Control flows as before. -/
theorem follow_eq (m : NodeId) (holds : Bool) : r'.follow m holds = r.follow m holds := by
  have harrival : ∀ goal, (r'.branchArrival goal).toOption = (r.branchArrival goal).toOption := by
    intro goal
    rw [branchArrival_toOption, branchArrival_toOption,
      h.kindOf_eq _ (h.kind.apply_eq _ fun _ _ => rfl)]
  cases hkind : r.kindOf m with
  | none => simp only [follow, hkind, h.kindOf_none hkind]
  | some kind =>
    obtain ⟨kind', hkind', rfl | ⟨code, code', rfl, rfl⟩⟩ := h.kindOf_alike hkind
    · simp only [follow, hkind, hkind', h.next, harrival]
    · simp only [follow, hkind, hkind', h.next]

/-- The check passes again if the sub-expressions stay. -/
theorem wellStructured (hr : r.WellStructured exit t) (hn : n ∈ r.live exit t)
    (hargs : e'.args.filterMap node? = e.args.filterMap node?) :
    r'.WellStructured exit t := by
  have haccounted := hr.accounted.amend h.toAmends hn hargs
  have hbranches : t.BranchesFit r'.kindOf [r'.entry] := by
    rw [h.entry]
    exact hr.branchesFit.mono fun m _ guarded goal hk => (h.kindOf_iff (by simp)).mp hk
  refine ⟨h.streams hr.toStreams, (h.streams hr.toStreams).verify_eq_ok_iff.mpr
    ⟨hbranches, fun m hm => ⟨?_, haccounted.nests m hm⟩, haccounted.counted⟩⟩
  rw [live, h.entry] at hm ⊢
  have hstays : ∀ k kind, kind.isPlain = false →
      (r'.kindOf k = some kind ↔ r.kindOf k = some kind) := fun k kind hplain =>
    h.kindOf_iff fun code heq => by simp [heq, NodeKind.isPlain] at hplain
  refine (hr.fits hm).congr (fun kind hplain => (hstays m kind hplain).mp)
    (fun k hk kind hplain hkind => ⟨hk, (hstays k kind hplain).mpr hkind⟩) fun em hem hcond => ?_
  by_cases hmn : m = n
  · subst hmn
    obtain rfl := some.inj (h.label_self.symm.trans hem)
    have hkind : e'.kind = e.kind := h.kind.eq_of_not_op fun code heq => by simp [heq] at hcond
    rw [hkind] at hcond
    exact ⟨e, h.label, hcond, h.length hcond⟩
  · rw [h.label_of_ne hmn] at hem
    exact ⟨em, hem, hcond, rfl⟩

theorem flat (hr : r.Flat exit t) (hn : n ∈ r.live exit t) (hflat : e'.Flat) : r'.Flat exit t := by
  refine ⟨h.wellStructured hr.toWellStructured hn ?_, fun m hm em hem => ?_⟩
  · rw [hflat.no_nodes, (hr.flat n hn e h.label).no_nodes]
  · rw [h.entry] at hm
    rw [h.labels] at hem
    split at hem
    · rwa [← some.inj hem]
    · exact hr.flat m hm em hem

end Relabels

namespace Drops

variable (h : r.Drops r' exit t t' d e p s)
include h

theorem kindOf_def : r.kindOf d = some e.kind := kindOf_of_label h.label rfl

theorem def_mem : d ∈ r.live exit t := h.bypasses.def_mem

/-- A routine without a plain node is still well structured. -/
theorem wellStructured (hr : r.WellStructured exit t) (hflat : e.Flat) :
    r'.WellStructured exit t' := by
  have haccounted : r'.Accounted exit t' :=
    hr.accounted.without [d] h.bypasses.streams.toCarries h.bypasses.entry h.mem_eq h.vars h.labels
      h.bypasses.stays h.bypasses.nodes fun v access => by
        rw [h.tally, flatMap_singleton, accessesOf_flat h.label hflat]
  exact h.bypasses.wellStructured hr h.kindOf_def h.plain (fun m => by rw [h.labels])
    haccounted.nests haccounted.counted

theorem flat (hr : r.Flat exit t) : r'.Flat exit t' := by
  refine ⟨h.wellStructured hr.toWellStructured (hr.flat d h.def_mem e h.label),
    fun m hm em hem => ?_⟩
  rw [h.labels] at hem
  exact hr.flat m (h.bypasses.mem_old hm) em hem

end Drops

end Routine

/-- How often a node writes depends on its kind and on its destination. -/
theorem Node.count_write_eq {e e' : Node} (hkind : e.kind.Alike e'.kind) (hdest : e'.dest = e.dest)
    (v : VarId) : e'.accesses.count (v, .write) = e.accesses.count (v, .write) := by
  have hreads : ∀ args : List Operand,
      ((args.filterMap var?).map fun u => (u, Access.read)).count (v, .write) = 0 :=
    fun args => count_eq_zero.mpr (by simp)
  rcases hkind with hkind | ⟨code, code', hkind, hkind'⟩
  · simp [Node.accesses, hkind, hdest, hreads]
  · simp only [Node.accesses, hkind, hkind', hdest, count_append, hreads]
    cases e.dest <;> rfl

theorem Node.write_mem_iff {e e' : Node} (hkind : e.kind.Alike e'.kind) (hdest : e'.dest = e.dest)
    (v : VarId) : (v, .write) ∈ e'.accesses ↔ (v, .write) ∈ e.accesses := by
  rw [← count_pos_iff, Node.count_write_eq hkind hdest, count_pos_iff]

namespace Edit

open Routine

variable {r r₁ r' : Routine} {exit n : NodeId} {t : Strand} {e e' : Node} {v : VarId} {i : Nat}
  {post : PUnit → Routine → Prop} {access : Access} {f : Node → Node} {lost : List (VarId × Access)}

/-- Taking a node out of the stream once its accesses have been released. -/
theorem yields_drop (hr : r.WellStructured exit t) (hn : n ∈ r.live exit t)
    (he : r.label n = some e) (hplain : e.kind.isPlain = true) (h₁ : r₁.Adds r e.accesses)
    (hpost : ∀ r' t' p s, r.Drops r' exit t t' n e p s → (∀ u, r'.traits u = r₁.traits u) →
      post () r') : Yields (Edit.removeNode n) r₁ post := by
  have hsame : r.SameStream r₁ := .of_nodes h₁.nodes.symm h₁.entry.symm
  obtain ⟨t', p, s, hbypass, hyields⟩ := hsame.exists_bypass hr hn (kindOf_of_label he rfl) hplain
  refine (hyields post).mpr (hpost _ t' p s ?_ fun u => rfl)
  exact {
    bypasses := hbypass
    label := he
    plain := hplain
    labels := fun m => by rw [label_bypassed, h₁.label_eq]
    mem_eq := h₁.mem.symm
    vars := h₁.size.symm
    tally := h₁.tally_eq }

/-- Changing the label of a node while accesses are released and counted. -/
theorem amends_of_moves {gained : List (VarId × Access)} (he : r.label n = some e)
    (hnext : ∀ d, (f d).next = d.next) (hprev : ∀ d, (f d).prev = d.prev) (hlabel : f e = e')
    (hf : ∀ d, (f d).unlinked = (f d.unlinked).unlinked)
    (h : (r.alter n f).Releases r₁ lost) (h' : r'.Releases r₁ gained)
    (hcount : ∀ a, e.accesses.count a + gained.count a = e'.accesses.count a + lost.count a) :
    r.Amends r' n e e' := by
  have hadds := h.adds
  have hadds' := h'.adds
  have hself : (f e).unlinked = e' := by
    obtain ⟨d, -, rfl⟩ := map_eq_some_iff.mp he
    have hempty : (f d.unlinked).next = [] ∧ (f d.unlinked).prev = [] := ⟨hnext _, hprev _⟩
    rw [hlabel] at hempty ⊢
    obtain ⟨kind, ty, dest, args, next, prev⟩ := e'
    obtain ⟨rfl, rfl⟩ := hempty
    rfl
  refine ⟨?_, hadds'.entry.trans hadds.entry.symm, hadds'.mem.trans hadds.mem.symm,
    fun m => ?_, fun m => ?_, he, fun m => ?_,
    hadds'.size.trans hadds.size.symm, fun v =>
    (h'.traits v).symm.trans (h.traits v), fun v access => ?_⟩
  · rw [hadds'.nodes, ← hadds.nodes, size_alter]
  · rw [hadds'.nextOf_eq, ← hadds.nextOf_eq, nextOf_alter_of_eq hnext]
  · rw [hadds'.prevOf_eq, ← hadds.prevOf_eq, prevOf_alter_of_eq hprev]
  · rw [hadds'.label_eq, ← hadds.label_eq, label_alter (g := fun d => (f d).unlinked) hf]
    split
    · rename_i hm
      rw [hm, he, map_some, hself]
    · rfl
  · have htally : (r.alter n f).tally v access = r₁.tally v access + _ := hadds.tally_eq v access
    have htally' : r'.tally v access = r₁.tally v access + _ := hadds'.tally_eq v access
    have hsame : (r.alter n f).tally v access = r.tally v access := rfl
    have hcounts := hcount (v, access)
    omega

/-- Changing the label of a node and then releasing what it does not access any more. -/
theorem amends_of_releases (he : r.label n = some e) (hnext : ∀ d, (f d).next = d.next)
    (hprev : ∀ d, (f d).prev = d.prev) (hlabel : f e = e')
    (hf : ∀ d, (f d).unlinked = (f d.unlinked).unlinked) (h : (r.alter n f).Releases r' lost)
    (hcount : ∀ a, e.accesses.count a = e'.accesses.count a + lost.count a) : r.Amends r' n e e' :=
  amends_of_moves he hnext hprev hlabel hf h (.refl r') fun a => by rw [count_nil,
    Nat.add_zero, hcount]

/-- Putting a literal in the place of a variable. -/
theorem yields_fillLit {x : Literal} {post : Operand → Routine → Prop}
    (hr : r.WellStructured exit t) (hn : n ∈ r.live exit t)
    (he : r.label n = some e) (harg : e.args[i]? = some (.var v))
    (hpost : ∀ r', r.Relabels r' n e { e with args := e.args.set i (.lit x) } → post (.var v) r') :
    Yields (Edit.replaceArg n i (.lit x)) r post := by
  have hcount : ∀ a, e.accesses.count a = ({ e with args := e.args.set i (.lit x) } :
      Node).accesses.count a + [(v, Access.read)].count a := by
    intro a
    rw [← (Node.accesses_set_perm harg (show (Operand.lit x).var? = none from rfl)).count_eq,
      ← singleton_append, count_append, Nat.add_comm]
  have hpos : 0 < (r.alter n fun d => { d with args := d.args.set i (.lit x) }).tally v .read := by
    have hle := hr.count_le hn he v .read
    rw [hcount, count_singleton_self] at hle
    exact Nat.lt_of_lt_of_le (Nat.succ_pos _) hle
  simp only [Edit.replaceArg, yields_bind, yields_pure, yields_node, node_of_label he,
    exists_some_eq, harg, yields_changeNode]
  refine ⟨lt_of_label he, yields_release hpos fun r' h => hpost r' ?_⟩
  exact ⟨amends_of_releases (f := fun d => { d with args := d.args.set i (.lit x) }) he
    (fun _ => rfl) (fun _ => rfl) rfl (fun _ => rfl) h hcount, .refl _, fun _ => length_set⟩

end Edit

end CoroutineIR
