import CoroutineIR.Proofs.Elimination
import CoroutineIR.Proofs.Propagation
import CoroutineIR.Proofs.Renaming

/-!
# Runs of a routine that has been swept

The sweep against the direction of control takes out what nobody needs and lets the destination of a
copy take over the definition of its source. Runs do not notice it where a variable that is read
holds the value of those it was copied from, and where a copy stands behind the definition of its
source. In a routine without loops this is always so, since control only goes forwards. A loop can
bring control back to a copy whose source is defined further down, or to a read in front of a copy.
-/

namespace CoroutineIR

open List Option CoroutineIR.Action Attempt

variable {V : Type}

/-- An interpretation under which nodes that may go do nothing but deliver a value, and variables
only change where they are written. Copies and definitions of literals deliver their operand. -/
structure Meaning.Sober (M : Meaning V) (r : Routine) : Prop where
  const : ∀ past n ty x, M.result past n (.op .const) ty [x] = x
  copy : ∀ past n ty x, M.result past n (.op .copy) ty [x] = x
  heeds : ∀ n e, r.label n = some e → e.Dispensable r.mem → M.heeds n = false
  disturb : ∀ past v, M.disturb past v = none

/-- A node that has taken the place of a similar one delivers the same. -/
theorem Node.Resembles.result_eq {M : Meaning V} {r : Routine} {mem : VarId} {e e₀ : Node}
    (h : e.Resembles mem e₀) (hM : M.Sober r) (past : List (Executed V)) (n : NodeId)
    (store : VarId → V) : M.result past n e.kind e.ty (e₀.args.map (M.value store)) =
    M.result past n e₀.kind e₀.ty (e₀.args.map (M.value store)) := by
  rw [h.ty]
  rcases h.kind with hkind | ⟨hcopy, hconst, value, hargs⟩
  · rw [hkind]
  · rw [hcopy, hconst, hargs, map_singleton, hM.const, hM.copy]

/-- A branch goes to a region around the strand, or to one that is closed behind it. -/
theorem Strand.Aims.closer_behind {kinds : NodeId → Option NodeKind} {enclosing : List NodeId}
    {t : Strand} {n : NodeId} {guarded : Bool} {goal : Branch} (h : t.Aims kinds enclosing)
    (hshaped : t.Shaped kinds) (hn : n ∈ t.nodes) (hkind : kinds n = some (.branch guarded goal)) :
    goal.target ∈ enclosing ∨ ∃ form region, kinds goal.target = some (.enter form region) ∧
    [n, region.close].Sublist t.nodes := by
  obtain ⟨C, rest, rfl⟩ := hshaped.exists_leaf hn hkind rfl rfl
  have haim := ((C.branching_plug _ kinds enclosing _).mp h).2.1 guarded goal hkind
  refine (C.mem_regions hshaped haim).imp_right ?_
  rintro ⟨form, c, suspends, hopen, -, hbehind⟩
  exact ⟨form, _, hopen, hbehind n (by simp)⟩

namespace Routine

variable {r r₀ : Routine} {M : Meaning V} {store : VarId → V} {exit n m c d : NodeId}
  {t t₀ : Strand} {e : Node} {u v x y : VarId} {i j k : ℕ}

/-- No node of the stream opens a loop. -/
def Loopless (r : Routine) (t : Strand) : Prop :=
    ∀ n ∈ t.nodes, ∀ kind, r.kindOf n = some kind → kind.isLoop = false

/-- Without loops and jumps control only goes forwards. -/
theorem WellStructured.follow_forwards (h : r.WellStructured exit t) (hloopless : r.Loopless t)
    (hplain : ∀ n ∈ t.nodes, ∀ kind, r.kindOf n = some kind → kind.isLowered = false) {holds : Bool}
    (hn : n ∈ r.live exit t) (hm : r.follow n holds = some m) :
    (r.entry :: t.nodes ++ [exit]).idxOf n < (r.entry :: t.nodes ++ [exit]).idxOf m := by
  have hsub : ∀ {a b : NodeId}, [a, b].Sublist t.nodes →
      (r.entry :: t.nodes ++ [exit]).idxOf a < (r.entry :: t.nodes ++ [exit]).idxOf b :=
      fun hpair =>
    idxOf_lt_of_sublist h.nodup_layout
      (hpair.trans ((sublist_cons_self ..).trans (sublist_append_left ..)))
  obtain ⟨name, sig, suspends, hentry⟩ := h.entry_kind
  rcases follow_elim hm with hm | ⟨region, hkind, rfl⟩ | ⟨guarded, goal, hkind,
    hm⟩ | ⟨guarded, hkind⟩
  · exact h.idxOf_lt hn hm
  · exact hsub (h.shaped.closer_behind (h.mem_of_kindOf hn hkind (by simp)) hkind rfl)
  · have hmem := h.mem_of_kindOf hn hkind (by simp)
    rw [branchArrival_toOption] at hm
    rcases h.branchesFit.aims.closer_behind h.shaped hmem hkind with hin | ⟨form, region,
      hregion, hbehind⟩
    · rw [mem_singleton.mp hin, hentry] at hm
      obtain rfl := some.inj hm
      refine idxOf_lt_of_sublist h.nodup_layout ?_
      exact ((singleton_sublist.mpr hmem).append (.refl [exit])).cons _
    · have hnoloop : (NodeKind.enter form region).isLoop = false := by
        obtain ⟨htarget, -⟩ := (h.fits hn).target guarded goal hkind
        exact hloopless _ (h.mem_of_kindOf htarget hregion (by simp)) _ hregion
      rw [hregion, map_some, hnoloop] at hm
      obtain rfl := some.inj hm
      exact hsub hbehind
  · cases hplain n (h.mem_of_kindOf hn hkind (by simp)) _ hkind

/-- In the run no variable but memory is read before it has been written. -/
def WritesFirst (r : Routine) (M : Meaning V) (store : VarId → V) : Prop :=
  ∀ k n, (r.runFor M store k).point = some n → ∀ e, r.label n = some e →
    ∀ v ≠ r.mem, .var v ∈ e.args →
    ∃ j < k, ∃ m, (r.runFor M store j).point = some m ∧ ∃ e', r.label m = some e' ∧
    (v, .write) ∈ e'.accesses

/-- In the run a copy stands behind the definition of its source, and a variable that is read holds
the values of those it comes from. -/
structure Settled (r : Routine) (t : Strand) (M : Meaning V) (store : VarId → V) : Prop where
  behind : ∀ {k d c x y}, (r.runFor M store k).point = some c → r.Copies t d c x y →
    [d, c].Sublist t.nodes
  current : ∀ {k n e x u}, (r.runFor M store k).point = some n → r.label n = some e →
    .var u ∈ e.args → r.Descends t x u → (r.runFor M store k).store u = (r.runFor M store k).store x

theorem Descends.source (h : r.Descends t x u) : x ≠ r.mem ∧ ∃ d, ∀ m, r.Writes t m x ↔ m = d := by
  induction h using Relation.TransGen.head_induction_on with
  | single hcopies | head hcopies =>
    obtain ⟨d, c, hcopies⟩ := hcopies
    exact ⟨hcopies.locals.1, d, hcopies.source⟩

/-- A routine that does nothing when it is entered and left. -/
def Quiet (r : Routine) (exit : NodeId) : Prop :=
    ∀ m, m = r.entry ∨ m = exit → ∀ e, r.label m = some e → e.accesses = []

/-- In a quiet routine only nodes between entry and exit write. -/
theorem Quiet.writes (h : r.Quiet exit) (hm : m ∈ r.live exit t) (he : r.label m = some e)
    (hwrite : (v, .write) ∈ e.accesses) : r.Writes t m v := by
  have hmem : m ∈ t.nodes := by
    by_contra hout
    rw [mem_cons, mem_cons] at hm
    rw [h m (by tauto) e he] at hwrite
    cases hwrite
  exact (writes_iff hmem he).mpr hwrite

/-- A variable keeps its value until it is written. -/
theorem runFor_store_eq (hr : r.Flat exit t) (hquiet : r.Quiet exit) (hM : M.Sober r)
    (honly : ∀ m, r.Writes t m v → m = d) (hle : i ≤ k)
    (hnever : ∀ j, i ≤ j → j < k → (r.runFor M store j).point ≠ some d) :
    (r.runFor M store k).store v = (r.runFor M store i).store v := by
  induction k, hle using Nat.le_induction with
  | base => rfl
  | succ k hle ih =>
    rw [← ih fun j hj hjk => hnever j hj (Nat.lt_succ_of_lt hjk), runFor_succ]
    cases hpoint : (r.runFor M store k).point with
    | none => rw [advanceRun, hpoint, elim_none]
    | some m =>
      have hm := (hr.runFor_mem M store k).1 m hpoint
      obtain ⟨e, he, -⟩ := hr.exists_label hm
      rw [advanceRun, hpoint, elim_some]
      refine storeAfter_of_not_written he (Or.inr fun past => hM.disturb past v)
        (fun hwrite => ?_) _ _
      exact hnever k hle (Nat.lt_succ_self k) (honly m (hquiet.writes hm he hwrite) ▸ hpoint)

/-- What a copy leaves in its destination. -/
theorem Copies.store_eq (h : r.Copies t d c x y) (hr : r.Flat exit t) (hM : M.Sober r)
    (hpoint : (r.runFor M store k).point = some c) :
    (r.runFor M store (k + 1)).store y = (r.runFor M store k).store x := by
  obtain ⟨-, e, he, hdest, -⟩ := (h.only c).mpr rfl
  obtain ⟨e', he', hkind, hargs⟩ := h.label
  obtain rfl := some.inj (he.symm.trans he')
  have hflat := hr.flat c ((hr.runFor_mem M store k).1 c hpoint) e he
  rw [runFor_succ, advanceRun, hpoint, elim_some, visit]
  simp only
  rw [storeAfter_apply he, if_pos ⟨by rw [hkind]; rfl, hdest⟩,
    argValues_flat he hflat, hargs, hkind]
  exact hM.copy _ _ _ _

section Reads

variable (hr : r.Flat exit t) (hquiet : r.Quiet exit) (hfirst : r.WritesFirst M store)

include hr hquiet hfirst

variable (hpoint : (r.runFor M store k).point = some n) (he : r.label n = some e)
include hpoint he

/-- What is read and written at one place only has been written there. -/
theorem WritesFirst.exists_writer (hread : .var v ∈ e.args) (hmem : v ≠ r.mem)
    (honly : ∀ m, r.Writes t m v ↔ m = d) : ∃ j < k, (r.runFor M store j).point = some d := by
  obtain ⟨j, hj, m, hm, e', he', hwrite⟩ := hfirst k n hpoint e he v hmem hread
  exact ⟨j, hj, (honly m).mp (hquiet.writes ((hr.runFor_mem M store j).1 m hm) he' hwrite) ▸ hm⟩

/-- When a variable is read, the copy that writes it has been executed. -/
theorem WritesFirst.exists_copy (hread : .var y ∈ e.args) (hcopies : r.Copies t d c x y) :
    ∃ j < k, (r.runFor M store j).point = some c ∧ ∃ ec, r.label c = some ec ∧
    .var x ∈ ec.args := by
  obtain ⟨j, hj, hc⟩ := hfirst.exists_writer hr hquiet hpoint he hread hcopies.locals.2 hcopies.only
  obtain ⟨ec, hec, -, hargs⟩ := hcopies.label
  exact ⟨j, hj, hc, ec, hec, by simp [hargs]⟩

/-- When a variable is read, those it comes from have been written. -/
theorem WritesFirst.exists_root (hread : .var u ∈ e.args) (hmem : x ≠ r.mem)
    (hstems : r.Stems t x u) (honly : ∀ m, r.Writes t m x ↔ m = d) :
    ∃ j < k, (r.runFor M store j).point = some d := by
  induction hstems generalizing k n e with
  | refl => exact hfirst.exists_writer hr hquiet hpoint he hread hmem honly
  | tail _ hcopies ih =>
    obtain ⟨_, c, hcopies⟩ := hcopies
    obtain ⟨j, hj, hc, ec, hec, hsource⟩ := hfirst.exists_copy hr hquiet hpoint he hread hcopies
    obtain ⟨i, hi, hd⟩ := ih hc hec hsource
    exact ⟨i, hi.trans hj, hd⟩

omit hpoint he

/-- The nodes executed in a run in which copies stand behind the definitions of their sources. -/
theorem WritesFirst.traceable (hbehind : ∀ {k d c x y}, (r.runFor M store k).point = some c →
      r.Copies t d c x y → [d, c].Sublist t.nodes) :
    r.Traceable t fun n => ∃ k, (r.runFor M store k).point = some n where
  written hmem honly hseen he hread := by
    obtain ⟨k, hpoint⟩ := hseen
    obtain ⟨j, -, hc⟩ := hfirst.exists_writer hr hquiet hpoint he hread hmem honly
    exact ⟨j, hc⟩
  ordered hseen hcopies := hbehind hseen.choose_spec hcopies

end Reads

/-- Without loops the nodes executed follow each other in the layout. -/
theorem WellStructured.idxOf_lt_of_lt (h : r.WellStructured exit t) (hloopless : r.Loopless t)
    (hplain : ∀ n ∈ t.nodes, ∀ kind, r.kindOf n = some kind → kind.isLowered = false) (hij : i < j)
    (hi : (r.runFor M store i).point = some n) (hj : (r.runFor M store j).point = some m) :
    (r.entry :: t.nodes ++ [exit]).idxOf n < (r.entry :: t.nodes ++ [exit]).idxOf m := by
  induction j, hij using Nat.le_induction generalizing m with
  | base =>
    rw [runFor_succ, advanceRun, hi, elim_some] at hj
    exact h.follow_forwards hloopless hplain ((h.runFor_mem M store i).1 n hi) hj
  | succ j hij ih =>
    cases hpoint : (r.runFor M store j).point with
    | none =>
      rw [runFor_of_halts hpoint (Nat.le_succ j)] at hj
      cases hj
    | some l =>
      rw [runFor_succ, advanceRun, hpoint, elim_some] at hj
      exact (ih hpoint).trans
        (h.follow_forwards hloopless hplain ((h.runFor_mem M store j).1 l hpoint) hj)

theorem pair_sublist_of_idxOf_lt {l : List NodeId} {a b : NodeId} (hb : b ∈ l)
    (h : l.idxOf a < l.idxOf b) : [a, b].Sublist l := by
  induction l with
  | nil => cases hb
  | cons x l ih =>
    by_cases hax : x = a
    · subst hax
      have hbx : b ≠ x := fun heq => by simp [heq] at h
      exact (singleton_sublist.mpr ((mem_cons.mp hb).resolve_left hbx)).cons_cons x
    · have hbx : x ≠ b := fun heq => by simp [heq] at h
      rw [idxOf_cons_ne l hax, idxOf_cons_ne l hbx] at h
      exact (ih ((mem_cons.mp hb).resolve_left (Ne.symm hbx)) (by omega)).cons x

/-- Without loops a variable that is read always holds the values of those it comes from. -/
theorem Loopless.settled (hloopless : r.Loopless t) (hr : r.Flat exit t) (hquiet : r.Quiet exit)
    (hplain : ∀ n ∈ t.nodes, ∀ kind, r.kindOf n = some kind → kind.isLowered = false)
    (hM : M.Sober r) (hfirst : r.WritesFirst M store) : r.Settled t M store := by
  have hlt : ∀ {i j n m}, i < j → (r.runFor M store i).point = some n → (r.runFor M store j).point =
      some m → (r.entry :: t.nodes ++ [exit]).idxOf n < (r.entry :: t.nodes ++ [exit]).idxOf m :=
    hr.idxOf_lt_of_lt hloopless hplain
  -- a node is executed once, so that a variable written there keeps its value
  have hkeeps : ∀ {i j k v d}, (∀ m, r.Writes t m v ↔ m = d) →
      (r.runFor M store i).point = some d → i < j → j ≤ k →
      (r.runFor M store k).store v = (r.runFor M store j).store v := fun honly hi hij hjk =>
    runFor_store_eq hr hquiet hM (fun m => (honly m).mp) hjk fun l hl _ hpoint =>
      Nat.lt_irrefl _ (hlt (Nat.lt_of_lt_of_le hij hl) hi hpoint)
  refine ⟨fun {k d c x y} hpoint hcopies => ?_, fun {k n e x u} hpoint he hread hdescends => ?_⟩
  · obtain ⟨ec, hec, -, hargs⟩ := hcopies.label
    obtain ⟨j, hj, hd⟩ := hfirst.exists_writer hr hquiet hpoint hec (v := x) (by simp [hargs])
      hcopies.locals.1 hcopies.source
    have hdc := hlt hj hd hpoint
    have hdm := ((hcopies.source d).mpr rfl).1
    have hcm := ((hcopies.only c).mpr rfl).1
    have hne : ∀ {l}, l ∈ t.nodes → r.entry ≠ l := fun hl heq => hr.entry_not_mem (heq ▸ hl)
    rw [cons_append, idxOf_cons_ne _ (hne hdm), idxOf_cons_ne _ (hne hcm), idxOf_append_of_mem hdm,
      idxOf_append_of_mem hcm] at hdc
    exact pair_sublist_of_idxOf_lt hcm (Nat.lt_of_succ_lt_succ hdc)
  · obtain ⟨hmem, d, honly⟩ := hdescends.source
    replace hdescends := hdescends.to_reflTransGen
    induction hdescends generalizing k n e with
    | refl => rfl
    | tail hstems hcopies ih =>
      obtain ⟨_, c, hcopies⟩ := hcopies
      obtain ⟨j, hj, hc, ec, hec, hsource⟩ := hfirst.exists_copy hr hquiet hpoint he hread hcopies
      obtain ⟨i, hi, hd⟩ := hfirst.exists_root hr hquiet hc hec hsource hmem hstems honly
      -- the value goes from the source to the variable when the copy is executed
      rw [hkeeps hcopies.only hc (Nat.lt_succ_self j) hj, hcopies.store_eq hr hM hc,
        ih hc hec hsource]
      exact (hkeeps honly hd hi hj.le).symm

/-- The run has come past what has been executed. -/
theorem exists_mem_trace (hjk : j < k) (hj : (r.runFor M store j).point = some n) :
    ∃ z ∈ (r.runFor M store k).trace, z.node = n := by
  induction k, hjk using Nat.le_induction with
  | base =>
    rw [runFor_succ, advanceRun, hj, elim_some, visit]
    exact ⟨_, mem_append_right _ (mem_singleton_self _), rfl⟩
  | succ k _ ih =>
    obtain ⟨z, hz, hnode⟩ := ih
    rw [runFor_succ, advanceRun]
    cases (r.runFor M store k).point with
    | none => exact ⟨z, hz, hnode⟩
    | some m => exact ⟨z, mem_append_left _ hz, hnode⟩

/-- A node that writes a variable and declares nothing leaves its result there. -/
theorem storeAfter_of_writes (hwrites : r.Writes t m u) (he : r.label m = some e)
    (hdeclares : e.kind.isDeclaration = false) (trace : List (Executed V)) (args : List V) :
    r.storeAfter M trace store m args u = M.result (M.past trace) m e.kind e.ty args := by
  obtain ⟨-, e', he', hdest, -⟩ := hwrites
  obtain rfl := some.inj (he.symm.trans he')
  rw [storeAfter_apply he, if_pos ⟨hdeclares, hdest⟩]

/-- Any other node leaves a variable as it is. -/
theorem storeAfter_of_not_writes (hquiet : r.Quiet exit)
    (hdisturb : ∀ past v, M.disturb past v = none) (hm : m ∈ r.live exit t)
    (he : r.label m = some e) (hnot : e.kind.isDeclaration = true ∨ ¬r.Writes t m u)
    (trace : List (Executed V)) (args : List V) :
    r.storeAfter M trace store m args u = store u := by
  rw [storeAfter_apply he, hdisturb, getD_none, ite_self, if_neg]
  rintro ⟨hdeclares, hdest⟩
  rcases hnot with hdecl | hnot
  · exact Bool.false_ne_true (hdeclares.symm.trans hdecl)
  · exact hnot (hquiet.writes hm he (Node.mem_accesses_of_dest hdeclares hdest))

/-- The values of the variables in a run of `r₀` and in one of what a sweep has made of it. -/
structure Agree (r₀ : Routine) (t₀ : Strand) (r : Routine) (t : Strand) (trace : List (Executed V))
    (store store' : VarId → V) : Prop where
  same : ∀ u, (∀ m, r.Writes t m u ↔ r₀.Writes t₀ m u) → store' u = store u
  taken : ∀ u x d, r₀.Descends t₀ x u → (∀ m, r₀.Writes t₀ m x ↔ m = d) →
    (∀ m, r.Writes t m u ↔ m = d) → (∃ z ∈ trace, z.node = d) → store' u = store x

namespace Tidied

variable {store' : VarId → V} {e₀ : Node}
  (h : Tidied r₀ exit t₀ (fun n => ∃ k, (r₀.runFor M store k).point = some n) [] r t)
  (h₀ : r₀.Flat exit t₀) (hquiet : r₀.Quiet exit) (hM : M.Sober r₀)
  (hfirst : r₀.WritesFirst M store) (hsettled : r₀.Settled t₀ M store)
  (hagree : Agree r₀ t₀ r t (r₀.runFor M store k).trace (r₀.runFor M store k).store store')
  (hpoint : (r₀.runFor M store k).point = some m) {seen : NodeId → Prop} {todo : List NodeId}

omit h in
theorem quiet (h : Tidied r₀ exit t₀ seen todo r t) : r.Quiet exit :=
  fun m hm e he => (h.silent m hm e he).2

omit h in
/-- A node of the stream and what it has been before. -/
theorem exists_old (h : Tidied r₀ exit t₀ seen todo r t) (hm : m ∈ r.live exit t) :
    ∃ e e₀, r.label m = some e ∧ r₀.label m = some e₀ ∧ e.Flat ∧ e.Resembles r₀.mem e₀ := by
  obtain ⟨e, he, hflat⟩ := h.exists_label hm
  by_cases hmem : m ∈ t.nodes
  · obtain ⟨e₀, he₀, hresembles⟩ := h.resembles m hmem e he
    exact ⟨e, e₀, he, he₀, hflat, hresembles⟩
  · rw [mem_cons, mem_cons] at hm
    obtain ⟨he₀, -⟩ := h.silent m (by tauto) e he
    exact ⟨e, e, he, he₀, hflat, rfl, rfl, Or.inl rfl, fun _ => rfl⟩

include h h₀ hquiet hfirst hsettled hagree hpoint in
/-- What a node reads has the same value in both runs. -/
theorem value_eq (hm : m ∈ r.live exit t) (he : r.label m = some e) (he₀ : r₀.label m = some e₀)
    (hargs : e.args = e₀.args) (hread : .var u ∈ e.args) :
    store' u = (r₀.runFor M store k).store u := by
  have hreads : 0 < r.readsOf u := h.tally_pos hm he (Node.mem_accesses_of_arg hread)
  have hread₀ : .var u ∈ e₀.args := hargs ▸ hread
  cases h.origin u hreads with
  | same hheads => exact hagree.same u fun m => (heads_iff_writes not_mem_nil).symm.trans (hheads m)
  | taken hdescends honly hheads =>
    obtain ⟨j, hj, hd⟩ := hfirst.exists_root h₀ hquiet hpoint he₀ hread₀ hdescends.source.1
      hdescends.to_reflTransGen honly
    rw [hsettled.current hpoint he₀ hread₀ hdescends]
    exact hagree.taken u _ _ hdescends honly (fun m =>
      (heads_iff_writes not_mem_nil).symm.trans (hheads m)) (exists_mem_trace hj hd)
  | unread hnone => exact absurd hread₀ (hnone m e₀ ⟨k, hpoint⟩ he₀)

include h h₀ hquiet hM hagree hpoint in
/-- Both runs execute a node for the same values. -/
theorem agree_visit (hm : m ∈ r.live exit t) (he : r.label m = some e) (he₀ : r₀.label m = some e₀)
    (hresembles : e.Resembles r₀.mem e₀) {args : List V}
    (hargs : args = e₀.args.map (M.value (r₀.runFor M store k).store)) :
    Agree r₀ t₀ r t ((r₀.runFor M store k).trace ++ [⟨m, args⟩])
    (r₀.storeAfter M (r₀.runFor M store k).trace (r₀.runFor M store k).store m args)
    (r.storeAfter M (r₀.runFor M store k).trace store' m args) := by
  have hm₀ := (h₀.runFor_mem M store k).1 m hpoint
  have hdeclares : e.kind.isDeclaration = e₀.kind.isDeclaration := by
    rcases hresembles.kind with hkind | ⟨hcopy, hconst, -⟩
    · rw [hkind]
    · rw [hcopy, hconst]
      rfl
  have hresult : ∀ past, M.result past m e.kind e.ty args = M.result past m e₀.kind e₀.ty args :=
    fun past => hargs ▸ hresembles.result_eq hM past m _
  refine ⟨fun u hsame => ?_, fun u x d hdescends honly htaken hseen => ?_⟩
  · by_cases hwrites : e₀.kind.isDeclaration = false ∧ r₀.Writes t₀ m u
    · rw [storeAfter_of_writes hwrites.2 he₀ hwrites.1, ← hresult]
      exact storeAfter_of_writes ((hsame m).mpr hwrites.2) he (hdeclares.trans hwrites.1) _ _
    · rw [not_and_or, Bool.not_eq_false] at hwrites
      rw [storeAfter_of_not_writes hquiet hM.disturb hm₀ he₀ hwrites, ← hagree.same u hsame]
      exact storeAfter_of_not_writes h.quiet hM.disturb hm he
        (hwrites.imp hdeclares.trans fun hnot => hnot ∘ (hsame m).mp) _ _
  · by_cases hmd : m = d
    · subst hmd
      have hnodecl : e₀.kind.isDeclaration = false := by
        -- a declaration keeps its variable, and a variable that comes from another one is written
        -- by a copy
        by_contra hdecl
        rw [Bool.not_eq_false] at hdecl
        have hdest := hresembles.dest (Or.inr (Or.inr hdecl))
        obtain ⟨-, e', he', hu, -⟩ := (htaken m).mpr rfl
        obtain ⟨-, e₀', he₀', hx, -⟩ := (honly m).mpr rfl
        obtain rfl := some.inj (he.symm.trans he')
        obtain rfl := some.inj (he₀.symm.trans he₀')
        obtain rfl : u = x := some.inj (hu.symm.trans (hdest.trans hx))
        cases hdescends with
        | single hcopies | tail _ hcopies =>
          obtain ⟨_, c, hcopies⟩ := hcopies
          obtain ⟨ec, hec, hcopy, -⟩ := hcopies.label
          obtain rfl := (hcopies.only m).mp ((honly m).mpr rfl)
          obtain rfl := some.inj (he₀.symm.trans hec)
          rw [hcopy] at hdecl
          cases hdecl
      rw [storeAfter_of_writes ((honly m).mpr rfl) he₀ hnodecl, ← hresult]
      exact storeAfter_of_writes ((htaken m).mpr rfl) he (hdeclares.trans hnodecl) _ _
    · rw [storeAfter_of_not_writes h.quiet hM.disturb hm he
        (Or.inr fun hwrites => hmd ((htaken m).mp hwrites)),
        storeAfter_of_not_writes hquiet hM.disturb hm₀ he₀
        (Or.inr fun hwrites => hmd ((honly m).mp hwrites))]
      obtain ⟨z, hz, hnode⟩ := hseen
      refine hagree.taken u x d hdescends honly htaken ⟨z, ?_, hnode⟩
      refine (mem_append.mp hz).resolve_right fun hlast => hmd ?_
      rw [← hnode, mem_singleton.mp hlast]

include h₀ hquiet hM hagree hpoint in
/-- A node that has been taken out leaves nothing behind that is looked at. -/
theorem agree_skip (hm : m ∉ t.nodes) (args : List V) :
    Agree r₀ t₀ r t ((r₀.runFor M store k).trace ++ [⟨m, args⟩])
      (r₀.storeAfter M (r₀.runFor M store k).trace (r₀.runFor M store k).store m args) store' := by
  have hm₀ := (h₀.runFor_mem M store k).1 m hpoint
  obtain ⟨e₀, he₀, -⟩ := h₀.exists_label hm₀
  refine ⟨fun u hsame => ?_, fun u x d hdescends honly htaken hseen => ?_⟩
  · rw [hagree.same u hsame]
    exact (storeAfter_of_not_writes hquiet hM.disturb hm₀ he₀
      (Or.inr fun hwrites => hm ((hsame m).mpr hwrites).1) _ _).symm
  · have hmd : m ≠ d := fun heq => hm ((htaken m).mpr heq).1
    obtain ⟨z, hz, hnode⟩ := hseen
    rw [storeAfter_of_not_writes hquiet hM.disturb hm₀ he₀
      (Or.inr fun hwrites => hmd ((honly m).mp hwrites))]
    refine hagree.taken u x d hdescends honly htaken
      ⟨z, (mem_append.mp hz).resolve_right fun hlast => hmd ?_, hnode⟩
    rw [← hnode, mem_singleton.mp hlast]

include h h₀ hquiet hM hfirst hsettled in
/-- The run of a routine that has been swept echoes the one before. -/
theorem echoes : r₀.Echoes r (r.live exit t) (fun _ => False) M store store := by
  refine h.shadows.echoes (fun s => Agree r₀ t₀ r t s.trace s.store)
    (fun k m store' hpoint hm hagree => ?_) (fun k m store' hpoint hm hagree => ?_)
    ⟨fun _ _ => rfl, fun u x d _ _ _ hseen => ?_⟩
  · obtain ⟨e, e₀, he, he₀, hflat, hresembles⟩ := h.exists_old hm
    have hflat₀ : e₀.Flat := by rwa [Node.Flat, ← hresembles.args]
    have hvalues₀ : r₀.argValues M (M.past (r₀.runFor M store k).trace) (r₀.runFor M store k).store
        m = e₀.args.map (M.value (r₀.runFor M store k).store) := argValues_flat he₀ hflat₀ _ _
    have hvalues : r.argValues M (M.past (r₀.runFor M store k).trace) store' m =
        r₀.argValues M (M.past (r₀.runFor M store k).trace) (r₀.runFor M store k).store m := by
      rw [hvalues₀, argValues_flat he hflat, ← hresembles.args]
      refine map_congr_left fun arg harg => ?_
      cases arg with
      | lit | node => rfl
      | var u =>
        exact value_eq h h₀ hquiet hfirst hsettled hagree hpoint hm he he₀ hresembles.args harg
    refine ⟨Or.inl hvalues, ?_⟩
    rw [hvalues]
    exact agree_visit h h₀ hquiet hM hagree hpoint hm he he₀ hresembles hvalues₀
  · have hm₀ := (h₀.runFor_mem M store k).1 m hpoint
    rw [mem_cons, mem_cons, not_or, not_or] at hm
    have hmem : m ∈ t₀.nodes := by
      rw [mem_cons, mem_cons, ← h.shadows.entry] at hm₀
      tauto
    obtain ⟨e₀, he₀, hdispensable⟩ := h.gone m hmem hm.2.2
    exact ⟨hM.heeds m e₀ he₀ hdispensable, agree_skip h₀ hquiet hM hagree hpoint hm.2.2 _⟩
  · obtain ⟨z, hz, -⟩ := hseen
    cases hz

end Tidied

/-- Runs that echo each other only depend on which nodes are in the stream. -/
theorem Echoes.congr_stream {r' : Routine} {stream stream' : List NodeId} {changed : NodeId → Prop}
    {store' : VarId → V} (h : r.Echoes r' stream changed M store store')
    (hmem : ∀ n, n ∈ stream' ↔ n ∈ stream) : r.Echoes r' stream' changed M store store' := by
  simpa only [Echoes, hmem] using h

/-- The entry and the exit of a routine that the builder delivers access nothing. -/
theorem Built.quiet (h : r.Built) (hr : r.WellStructured 1 t) : r.Quiet 1 := by
  intro m hm e he
  obtain ⟨hargs, hdest⟩ := h.mute hr hm he
  simp [Node.accesses, hargs, hdest]

/-- What the node in front of which control is after some steps reads has been written at an earlier
one. -/
def writtenBefore (r : Routine) (M : Meaning V) (store : VarId → V) (k : ℕ) : Bool :=
  (r.runFor M store k).point.all fun n => (r.label n).all fun e =>
      (e.args.filterMap Operand.var?).all fun v =>
    v == r.mem || (List.range k).any fun j => (r.runFor M store j).point.any fun m =>
        (r.label m).any fun e' =>
      e'.accesses.contains (v, .write)

/-- In a run that halts it is enough to look at every step. -/
theorem WritesFirst.of_halts (hend : (r.runFor M store k).point = none)
    (h : ∀ i < k, r.writtenBefore M store i = true) : r.WritesFirst M store := by
  intro i n hpoint e he v hmem hv
  have hat := h i (lt_of_halts hend hpoint)
  simp only [writtenBefore, hpoint, all_some, he, List.all_eq_true] at hat
  have hone := hat v (mem_filterMap.mpr ⟨_, hv, rfl⟩)
  simp only [beq_eq_false_iff_ne.mpr hmem, Bool.false_or, List.any_eq_true, Option.any_eq_true,
    mem_range, contains_iff_mem] at hone
  obtain ⟨j, hj, m, hm, e', he', hw⟩ := hone
  exact ⟨j, hj, m, hm, e', he', hw⟩

end Routine

namespace DeadCode

open Routine

variable {w : Work}

/-- The sweep goes through on every routine that the builder delivers and whose copies of variables
go somewhere. What it takes out are operations on values and declarations of storage, and what is
left keeps its operands and what it does. Runs in which nothing is read before it is written do not
notice, if the routine has no loops, or if copies are executed behind the definitions of their
sources and what is read holds the values it was copied from: they execute the nodes that are left
in the same order for the same values. -/
theorem backward_echoes (hbuilt : w.routine.Built)
    (hcopy : ∀ n e v, w.routine.label n = some e → e.kind = .op .copy → e.args = [.var v] →
      e.dest.isSome = true) :
    ∃ t swept w' live, w.routine.WellStructured 1 t ∧ backward w = .ok swept w' ∧
      w'.routine.liveNodes = .ok live ∧ live ⊆ w.routine.entry :: 1 :: t.nodes ∧
      (∀ n ∈ t.nodes, n ∉ live → ∃ e, w.routine.label n = some e ∧ e.Dispensable w.routine.mem) ∧
      (∀ n ∈ live, ∃ e e', w.routine.label n = some e ∧ w'.routine.label n = some e' ∧
        e'.Resembles w.routine.mem e) ∧
      ∀ (V : Type) (M : Meaning V) (store : VarId → V), M.Sober w.routine →
        w.routine.WritesFirst M store → (w.routine.Loopless t ∨ w.routine.Settled t M store) →
        w.routine.Echoes w'.routine live (fun _ => False) M store store := by
  obtain ⟨t, hwell, hregular⟩ := hbuilt.regular hcopy
  obtain ⟨-, -, -, hfresh⟩ := hbuilt.wellStructured
  have hquiet := hbuilt.quiet hwell
  have hflat : w.routine.Flat 1 t := ⟨hwell, fun n _ e he => hbuilt.flat he⟩
  have hunfolded : ∀ v, w.routine.foldedOf v = none := fun v =>
    (hbuilt.untouched v).2
  have hyields : ∀ m e, w.routine.label m = some e → e.kind = .yield → e.dest = none :=
    fun m e he hkind => ((hfresh m e he).mute (by rw [hkind]; rfl)).2
  have hsweep : ∀ seen : NodeId → Prop, w.routine.Traceable t seen →
      Yields backward w fun _ w' => ∃ t', Tidied w.routine 1 t seen [] w'.routine t' :=
    fun _ htraceable => yields_backward_tidied hflat hregular hquiet hunfolded htraceable hyields
  -- what the sweep does to the stream does not depend on the run
  obtain ⟨swept, w', hok, t', htidied⟩ := yields_iff_exists.mp
    (hsweep (fun _ => False) ⟨fun _ _ hseen => hseen.elim, fun hseen => hseen.elim⟩)
  obtain ⟨live, hlive, hperm⟩ := htidied.toWellStructured.toStreams.liveNodes_eq
  have hentry : w'.routine.entry = w.routine.entry := htidied.shadows.entry
  refine ⟨t, swept, w', live, hwell, hok, hlive,
    fun n hn => ?_, fun n hn hgone => ?_, fun n hn => ?_, fun V M store hM hfirst hruns => ?_⟩
  · have hmem := hperm.mem_iff.mp hn
    rw [Routine.live, hentry, mem_cons, mem_cons] at hmem
    rw [mem_cons, mem_cons]
    exact hmem.imp id (Or.imp id fun hn => htidied.sub.subset hn)
  · refine htidied.gone n hn fun hmem => hgone (hperm.mem_iff.mpr ?_)
    exact mem_live hmem
  · obtain ⟨e', e, he', he, -, hresembles⟩ := htidied.exists_old (hperm.mem_iff.mp hn)
    exact ⟨e, e', he, he', hresembles⟩
  · have hsettled : w.routine.Settled t M store := hruns.elim
      (fun hloopless => hloopless.settled hflat hquiet
        (fun n _ kind hkind => by
          obtain ⟨e, he, rfl⟩ := map_eq_some_iff.mp hkind
          exact (hfresh n e he).plain) hM hfirst) id
    obtain ⟨_, w₁, hok₁, t₁, htidied₁⟩ :=
      yields_iff_exists.mp (hsweep _ (hfirst.traceable hflat hquiet hsettled.behind))
    obtain rfl : w' = w₁ := by
      rw [hok] at hok₁
      injection hok₁
    obtain ⟨live₁, hlive₁, hperm₁⟩ := htidied₁.toWellStructured.toStreams.liveNodes_eq
    obtain rfl : live = live₁ := Except.ok.inj (hlive.symm.trans hlive₁)
    exact (htidied₁.echoes hflat hquiet hM hfirst hsettled).congr_stream fun n => hperm₁.mem_iff

/-- Calls deliver how many calls came before them, and operations their first operand. -/
def counting (r : Routine) (truth : ℕ → Bool) : Meaning ℕ where
  lit _ := 0
  heeds n := (r.kindOf n).any NodeKind.isPlainCall
  result past _ kind _ args := if kind.isPlainCall then past.length else args.headD 0
  truth _ args := truth (args.headD 0)
  disturb _ _ := none

/-- The interpretation that counts is sober. -/
theorem counting_sober (r : Routine) (truth : ℕ → Bool) : (counting r truth).Sober r where
  const _ _ _ _ := rfl
  copy _ _ _ _ := rfl
  heeds n e he hdispensable := by
    have hkind : r.kindOf n = some e.kind := kindOf_of_label he rfl
    rcases hdispensable with hstorage | ⟨code, v, hop, -⟩
    · simp [counting, hkind, hstorage, NodeKind.isPlainCall]
    · simp [counting, hkind, hop, NodeKind.isPlainCall]
  disturb _ _ := rfl

/-- A result that is copied and handed to a call in one arm of a conditional, a sum that nobody
needs and storage that nobody uses. The copy, the sum and the declaration go, and the first call
delivers where the copy did. -/
theorem backward_echoes_conditional :
    let callee : Signature := ⟨[.scalar .i32], none, .default⟩
    let calls : List Instruction :=
      [.declare .param (.scalar .i32) "p" false, .declare .storage (.scalar .i32) "s" false,
      .tmp none, .tmp none, .tmp none, .call (some 3) ⟨[], some (.scalar .i32), .default⟩ [],
      .assign (some 5) .add (.scalar .i32) [.var 1, .lit (.int 1)], .cond (.var 1),
      .assign (some 4) .copy (.scalar .i32) [.var 3], .call none callee [.var 4],
      .close, .ret [.var 1]]
    ∃ r b', Build.finish (Build.play default calls (Build.define "main" default)).1 = .ok r b' ∧
      r.Built ∧ r.WritesFirst (counting r fun _ => true) (fun _ => 0) ∧
      ∃ t swept w', r.WellStructured 1 t ∧ r.Loopless t ∧ backward ⟨r, #[]⟩ = .ok swept w' ∧
        w'.routine.liveNodes.toOption = some [0, 2, 4, 6, 9, 7, 10, 1] ∧
        r.Echoes w'.routine [0, 2, 4, 6, 9, 7, 10,
        1] (fun _ => False) (counting r fun _ => true) (fun _ => 0) (fun _ => 0) := by
  intro callee calls
  obtain ⟨r, b', -, hfinish, hbuilt, -, hcopies, hloops, hend, hwritten, hswept⟩ :=
    Build.exists_main calls (by decide) (fun r => (∀ n e, r.label n = some e → e.kind = .op .copy →
    e.dest.isSome = true) ∧ (∀ n e, r.label n = some e → e.kind.isLoop = false) ∧
    (r.runFor (counting r fun _ => true) (fun _ => 0) 12).point = none ∧ (∀ i < (12 : ℕ),
    r.writtenBefore (counting r fun _ => true) (fun _ => 0) i = true) ∧ backward.Yields ⟨r, #[]⟩
    fun _ w' => w'.routine.liveNodes.toOption = some [0, 2, 4, 6, 9, 7, 10, 1]) (by decide +kernel)
  have hfirst : r.WritesFirst (counting r fun _ => true) fun _ => 0 := .of_halts hend hwritten
  refine ⟨r, b', hfinish, hbuilt, hfirst, ?_⟩
  obtain ⟨t, swept, w', live, hwell, hok, hlive, -, -, -, hechoes⟩ :=
    backward_echoes (w := ⟨r, #[]⟩) hbuilt fun n e _ he hkind _ => hcopies n e he hkind
  have hloopless : r.Loopless t := fun n _ kind hkind => by
    obtain ⟨e, he, rfl⟩ := map_eq_some_iff.mp hkind
    exact hloops n e he
  have hresult := hswept.of_ok hok
  obtain rfl : live = [0, 2, 4, 6, 9, 7, 10, 1] := by
    rw [hlive] at hresult
    exact some.inj hresult
  exact ⟨t, swept, w', hwell, hloopless, hok, hresult,
    hechoes ℕ _ _ (counting_sober r _) hfirst (Or.inl hloopless)⟩

/-- A loop that hands the result of the round before to a call. The variable that keeps it is only
written by a copy at the end of the round. The sweep lets it take over the call at the beginning of
the round, so that the result of the same round is handed over. -/
theorem backward_moves_copy_across_read :
    let callee : Signature := ⟨[.scalar .i32], none, .default⟩
    let source : Signature := ⟨[], some (.scalar .i32), .default⟩
    let calls : List Instruction :=
      [.tmp none, .tmp none, .tmp none, .tmp none, .loop, .call (some 1) source [],
      .call (some 3) source [], .cond (.var 3), .call none callee [.var 2], .close,
      .assign (some 2) .copy (.scalar .i32) [.var 1], .call (some 4) source [],
      .branchIf (.var 4) 2, .close]
    let handedOver : Routine → Meaning ℕ → List (List ℕ) := fun r M =>
      ((r.runFor M (fun _ => 0) 22).trace.filter fun x => x.node == 8).map Executed.args
    ∃ r b', Build.finish (Build.play default calls (Build.define "main" default)).1 = .ok r b' ∧
      r.Built ∧
      ∃ M : Meaning ℕ, M.Sober r ∧ r.WritesFirst M (fun _ => 0) ∧
      (r.runFor M (fun _ => 0) 22).point = none ∧
        handedOver r M = [[0]] ∧ ∃ swept w', backward ⟨r, #[]⟩ = .ok swept w' ∧
          (w'.routine.runFor M (fun _ => 0) 22).point = none ∧ handedOver w'.routine M = [[3]] := by
  intro callee source calls handedOver
  let truth : ℕ → Bool := fun x => x == 2 || x == 4
  obtain ⟨r, b', -, hfinish, hbuilt, -, hend, hwritten, hbefore, hswept⟩ :=
    Build.exists_main calls (by decide) (fun r => (r.runFor (counting r truth) (fun _ => 0)
      22).point = none ∧ (∀ i < (22 : ℕ), r.writtenBefore (counting r truth) (fun _ => 0) i =
      true) ∧ handedOver r (counting r truth) = [[0]] ∧ backward.Yields ⟨r, #[]⟩ fun _ w' =>
      (w'.routine.runFor (counting r truth) (fun _ => 0) 22).point = none ∧
        handedOver w'.routine (counting r truth) = [[3]]) (by decide +kernel)
  obtain ⟨swept, w', hok, hafter⟩ := yields_iff_exists.mp hswept
  exact ⟨r, b', hfinish, hbuilt, counting r truth, counting_sober r truth, .of_halts hend hwritten,
    hend, hbefore, swept, w', hok, hafter⟩

end DeadCode

end CoroutineIR
