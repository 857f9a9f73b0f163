import CoroutineIR.Folding.Constants
import CoroutineIR.Proofs.Echoing

/-!
# Known constants

A variable that is written once, with a literal, and whose address is never taken holds that literal
whenever it is read, if nothing is read before it is written. So its definition can be taken out of
the stream once the literal is known to be its value, a literal can take the place of the variable,
and the value of an operation on literals that of the operation. Each of these changes is echoed by
the runs of the routine in which known variables hold their literals from the start.
-/

namespace CoroutineIR

open List Option Folding Operand

variable {V : Type} {e : Node} {c : Literal}

/-- An operation whose nodes may be taken away or replaced. -/
def Folding.Evaluable (target : Target) (code : Opcode) : Prop :=
  code = .const ∨ code = .copy ∨ ∃ ty values x,
    (evaluate target ty code values : Query (Option Literal)) = .ok (some x)

/-- An interpretation that computes with literals as the propagation does. The nodes it remembers
are none of those that may be taken away, and they change no variable but those whose address is
taken. -/
structure Meaning.Computes (M : Meaning V) (target : Target) (r : Routine) : Prop where
  const : ∀ past n ty x, M.result past n (.op .const) ty [x] = x
  copy : ∀ past n ty x, M.result past n (.op .copy) ty [x] = x
  evaluates : ∀ past n code ty values x, (evaluate target (ty.bind Ty.scalar?) code values : Query
    (Option Literal)) = .ok (some x) → M.result past n (.op code) ty (values.map M.lit) = M.lit x
  heeds : ∀ n, M.heeds n = true → ∀ code, r.kindOf n = some (.op code) → ¬Evaluable target code
  disturb : ∀ past v, r.addressableAt v = false → M.disturb past v = none

theorem Folding.evaluate_const (target : Target) (ty : Option Scalar) (values : List Literal) :
    (evaluate target ty .const values : Query (Option Literal)) = .ok none := by
  unfold evaluate
  split <;> rfl

theorem Folding.evaluate_copy (target : Target) (ty : Option Scalar) (values : List Literal) :
    (evaluate target ty .copy values : Query (Option Literal)) = .ok none := by
  unfold evaluate
  split <;> rfl

/-- The literal a node delivers is its only operand. -/
theorem Folding.literal?_eq_some (h : literal? e = some c) :
    e.args = [.lit c] ∧ (e.kind = .op .const ∨ e.kind = .op .copy) := by
  unfold literal? at h
  split at h
  · rename_i hkind hargs
    obtain rfl := some.inj h
    exact ⟨hargs, Or.inl hkind⟩
  · rename_i hkind hargs
    split at h
    · obtain rfl := some.inj h
      exact ⟨hargs, Or.inr hkind⟩
    · cases h
  · cases h

/-- A node that delivers a literal accesses nothing but its destination. -/
theorem Folding.accesses_of_literal {v : VarId} (h : literal? e = some c)
    (hdest : e.dest = some v) : e.accesses = [(v, .write)] := by
  obtain ⟨hargs, hkind⟩ := literal?_eq_some h
  rcases hkind with hkind | hkind <;> simp [Node.accesses, hkind, hdest, hargs, var?]

/-- Filling in a literal makes no sub-expressions. -/
theorem Node.Flat.set (h : e.Flat) {i : ℕ} :
    ({ e with args := e.args.set i (.lit c) } : Node).Flat := fun arg harg => by
  rcases mem_or_eq_of_mem_set harg with hmem | rfl
  · exact h arg hmem
  · rfl

namespace Routine

variable {r r' : Routine} {M : Meaning V} {exit n m d p s : NodeId} {t t' : Strand} {e' : Node}
  {v u : VarId} {store store' : VarId → V} {target : Target} {a b : Routine × Strand}
  {changed : NodeId → Prop}

/-- A routine without sub-expressions in which the variables with known values are not written any
more. -/
structure Foldable (r : Routine) (exit : NodeId) (t : Strand) : Prop extends r.Flat exit t where
  settled : ∀ v c, r.constantOf v = some c → r.writesOf v = 0 ∧ r.addressableAt v = false

theorem Foldable.constantOf_eq_none (hr : r.Foldable exit t) (hv : 0 < r.writesOf v) :
    r.constantOf v = none :=
  eq_none_iff_forall_ne_some.mpr fun c hc => by
    have hzero := (hr.settled v c hc).1
    omega

/-- A store in which the variables with known values hold them. -/
def preset (r : Routine) (M : Meaning V) (store : VarId → V) (v : VarId) : V :=
    (r.constantOf v).elim (store v) M.lit

/-- In the run no variable is read before it has been written. Variables with known values need not
be written, memory has been written from the start, and a variable whose address is taken may have
been written in another way. -/
def Initialized (r : Routine) (M : Meaning V) (store : VarId → V) : Prop :=
  ∀ k n, (r.runFor M store k).point = some n → ∀ e, r.label n = some e →
    ∀ v ≠ r.mem, .var v ∈ e.args →
    r.constantOf v = none → r.addressableAt v = false →
    ∃ x ∈ (r.runFor M store k).trace, ∃ e', r.label x.node = some e' ∧ (v, .write) ∈ e'.accesses

/-- One change. -/
inductive Refines (target : Target) (exit : NodeId) : Routine × Strand → Routine × Strand → Prop
  /-- A definition is taken out, and its variable has a known value. -/
  | drop {r r' : Routine} {t t' : Strand} {d p s : NodeId} {e : Node} {v : VarId} {c : Literal}
    (h : r.Drops r' exit t t' d e p s) (hlit : literal? e = some c) (hdest : e.dest = some v)
    (honce : r.writesOf v = 1)
    (hquiet : r.addressableAt v = false) (hconstants : ∀ u, r'.constantOf u = if u = v then some c
    else r.constantOf u) (haddressable : ∀ u, r'.addressableAt u = r.addressableAt u)
    (hfolded : ∀ u, r'.foldedOf u = r.foldedOf u) : Refines target exit (r, t) (r', t')
  /-- A literal takes the place of a variable. -/
  | fill {r r' : Routine} {t : Strand} {n : NodeId} {e : Node} {i : ℕ} {v : VarId} {c : Literal}
    (h : r.Relabels r' n e { e with args := e.args.set i (.lit c) })
    (hn : n ∈ r.entry :: exit :: t.nodes)
    (harg : e.args[i]? = some (.var v)) (hc : r.constantOf v = some c) :
    Refines target exit (r, t) (r', t)
  /-- An operation is replaced by its value. -/
  | evaluate {r r' : Routine} {t : Strand} {n : NodeId} {e : Node} {code : Opcode} {values : List
    Literal} {x : Literal} (h : r.Relabels r' n e { e with kind := .op .const, args := [.lit x] })
    (hn : n ∈ r.entry :: exit :: t.nodes) (hkind : e.kind = .op code) (hargs : e.args = values.map
    .lit) (hvalue : (evaluate target (e.ty.bind Ty.scalar?) code values : Query (Option Literal)) =
    .ok (some x)) : Refines target exit (r, t) (r', t)

/-- The node has been replaced by its value. -/
def Reduced (r r' : Routine) (n : NodeId) : Prop :=
    r'.kindOf n = some (.op .const) ∧ r.kindOf n ≠ some (.op .const)

theorem constantOf_eq (h : r'.traits v = r.traits v) : r'.constantOf v = r.constantOf v := by
    rw [constantOf, h, constantOf]

theorem addressableAt_eq (h : r'.traits v = r.traits v) :
    r'.addressableAt v = r.addressableAt v := by
  rw [addressableAt, h, addressableAt]

/-- Variables with known values hold them all the time. -/
theorem Foldable.runFor_preset (hr : r.Foldable exit t)
    (hM : M.Computes target r) (hc : r.constantOf v = some c) (k : ℕ) :
    (r.runFor M (r.preset M store) k).store v = M.lit c := by
  induction k with
  | zero =>
    show r.preset M store v = M.lit c
    rw [preset, hc, elim_some]
  | succ k ih =>
    rw [runFor_succ]
    cases hpoint : (r.runFor M (r.preset M store) k).point with
    | none => rwa [advanceRun, hpoint, elim_none]
    | some n =>
      rw [advanceRun, hpoint, elim_some]
      obtain ⟨hwrites, haddressable⟩ := hr.settled v c hc
      have hn := (hr.runFor_mem M (r.preset M store) k).1 n hpoint
      obtain ⟨e, he, -⟩ := hr.exists_label hn
      rw [← ih]
      refine storeAfter_of_not_written he (Or.inr fun past => hM.disturb past v haddressable)
        (fun hw => ?_) _ _
      have hle := hr.count_le hn he v .write
      have hpos := count_pos_iff.mpr hw
      rw [tally, hwrites] at hle
      omega

theorem Relabels.preset_eq (h : r.Relabels r' n e e') : r'.preset M store = r.preset M store :=
  funext fun u => by rw [preset, constantOf_eq (h.traits u), preset]

/-- A new label with the old destination writes as often as the old one. -/
theorem Relabels.writesOf_eq (h : r.Relabels r' n e e') (hdest : e'.dest = e.dest) (v : VarId) :
    r'.writesOf v = r.writesOf v := by
  have htally : r'.writesOf v + e.accesses.count (v, .write) =
    r.writesOf v + e'.accesses.count (v, .write) := h.tally v .write
  rw [Node.count_write_eq h.kind hdest] at htally
  omega

namespace Refines

variable (h : Refines target exit a b)
include h

/-- The literal that fills in for a variable is no sub-expression, nor is one that an operation is
replaced by. -/
theorem wellStructured (ha : a.1.WellStructured exit a.2) : b.1.WellStructured exit b.2 := by
  cases h with
  | drop h hlit => exact h.wellStructured ha (by simp [Node.Flat, (literal?_eq_some hlit).1])
  | @fill r r' t n e i v c h hn harg hc =>
    refine h.wellStructured ha hn ?_
    obtain ⟨hlt, harg⟩ := List.getElem?_eq_some_iff.mp harg
    show (e.args.set i (.lit c)).filterMap node? = e.args.filterMap node?
    rw [set_eq_take_append_cons_drop, if_pos hlt]
    conv_rhs => rw [← take_append_drop i e.args, drop_eq_getElem_cons hlt, harg]
    rw [filterMap_append, filterMap_append, filterMap_cons_none rfl, filterMap_cons_none rfl]
  | @evaluate r r' t n e code values x h hn hkind hargs hvalue =>
    refine h.wellStructured ha hn ?_
    rw [hargs, filterMap_map]
    exact (filterMap_eq_nil_iff.mpr fun _ _ => rfl).symm

/-- A variable is written as often as before, unless its value becomes known, where its only
definition goes. -/
theorem var_cases (v : VarId) : b.1.constantOf v = a.1.constantOf v ∧
    b.1.writesOf v = a.1.writesOf v ∨ (∃ c, b.1.constantOf v = some c) ∧ a.1.writesOf v = 1 ∧
    b.1.writesOf v = 0 ∧ a.1.addressableAt v = false := by
  cases h with
  | @drop r r' t t' d p s e u c h hlit hdest honce hquiet hconstants _ _ =>
    have htally : r.writesOf v = r'.writesOf v + e.accesses.count (v, .write) := h.tally v .write
    rw [accesses_of_literal hlit hdest] at htally
    by_cases hv : v = u
    · subst hv
      rw [count_singleton_self, honce] at htally
      exact Or.inr ⟨⟨c, (hconstants v).trans (if_pos rfl)⟩, honce,
        Nat.add_eq_right.mp htally.symm, hquiet⟩
    · rw [count_eq_zero.mpr (by simpa using hv)] at htally
      exact Or.inl ⟨(hconstants v).trans (if_neg hv), htally.symm⟩
  | fill h | evaluate h => exact Or.inl ⟨constantOf_eq (h.traits v), h.writesOf_eq rfl v⟩

theorem addressableAt_eq (v : VarId) : b.1.addressableAt v = a.1.addressableAt v := by
  cases h with
  | drop _ _ _ _ _ _ haddressable => exact haddressable v
  | fill h | evaluate h => exact Routine.addressableAt_eq (h.traits v)

/-- A change leaves a routine of the same kind. -/
theorem foldable (ha : a.1.Foldable exit a.2) : b.1.Foldable exit b.2 := by
  have hflat : ∀ n ∈ b.1.live exit b.2, ∀ e, b.1.label n = some e → e.Flat := by
    cases h with
    | drop h => exact (h.flat ha.toFlat).flat
    | @fill r r' t n e i v c h hn harg hc =>
      exact (h.flat ha.toFlat hn (ha.flat n hn e h.label).set).flat
    | evaluate h hn => exact (h.flat ha.toFlat hn (by simp [Node.Flat])).flat
  refine ⟨⟨h.wellStructured ha.toWellStructured, hflat⟩, fun v c hc => ?_⟩
  rw [h.addressableAt_eq]
  rcases h.var_cases v with ⟨hsame, hwrites⟩ | ⟨-, -, hzero, hquiet⟩
  · rw [hwrites]
    exact ha.settled v c (hsame ▸ hc)
  · exact ⟨hzero, hquiet⟩

/-- A node does what it did, or delivers what it did. -/
theorem kindOf_cases (n : NodeId) : b.1.kindOf n = a.1.kindOf n ∨
    ∃ code, a.1.kindOf n = some (.op code) ∧ Evaluable target code ∧
    b.1.kindOf n = some (.op .const) := by
  cases h with
  | drop h => exact Or.inl (h.bypasses.kinds n)
  | @fill r r' t m e i v c h hm harg hc =>
    refine Or.inl ?_
    simp only [kindOf, h.labels]
    split
    · rename_i heq
      rw [heq, h.label]
      rfl
    · rfl
  | @evaluate r r' t m e code values x h hm hkind hargs hvalue =>
    by_cases heq : n = m
    · subst heq
      exact Or.inr ⟨code, kindOf_of_label h.label hkind, Or.inr (Or.inr ⟨_, _, _, hvalue⟩),
        kindOf_of_label h.label_self rfl⟩
    · exact Or.inl (by rw [kindOf, h.label_of_ne heq, kindOf])

/-- A definition of a literal stays one. -/
theorem kindOf_const (hk : a.1.kindOf n = some (.op .const)) :
    b.1.kindOf n = some (.op .const) := by
  rcases h.kindOf_cases n with hsame | ⟨-, -, -, hconst⟩
  · exact hsame.trans hk
  · exact hconst

theorem computes (hM : M.Computes target a.1) : M.Computes target b.1 := by
  refine ⟨hM.const, hM.copy, hM.evaluates, fun n hn code hk => ?_, fun past v hv => ?_⟩
  · rcases h.kindOf_cases n with hsame | ⟨code', hk', hcode', -⟩
    · exact hM.heeds n hn code (hsame.symm.trans hk)
    · exact absurd hcode' (hM.heeds n hn code' hk')
  · exact hM.disturb past v ((h.addressableAt_eq v).symm.trans hv)

end Refines

section Echo

variable (hr : r.Foldable exit t) (hM : M.Computes target r)
    (hinit : r.Initialized M (r.preset M store))

include hr hM hinit

/-- Taking out a definition. The other run has executed it by the time its variable is read. -/
theorem Drops.echoes_constant (h : r.Drops r' exit t t' d e p s) (hlit : literal? e = some c)
    (hdest : e.dest = some v) (honce : r.writesOf v = 1) (hquiet : r.addressableAt v = false)
    (hconstants : ∀ u, r'.constantOf u = if u = v then some c else r.constantOf u) :
    r.Echoes r' (r'.live exit t') (r.Reduced r') M (r.preset M store) (r'.preset M store) := by
  obtain ⟨hargs, hkind⟩ := literal?_eq_some hlit
  have hdeclaration : e.kind.isDeclaration = false := by
    rcases hkind with hkind | hkind <;> rw [hkind] <;> rfl
  have hwrites : (v, .write) ∈ e.accesses := by simp [accesses_of_literal hlit hdest]
  have hmem : v ≠ r.mem := by
    rintro rfl
    have htwo : 2 ≤ r.writesOf r.mem := hr.two_le_tally_mem .write
    omega
  have hunknown : r.constantOf v = none := hr.constantOf_eq_none (by omega)
  have hheeds : M.heeds d = false := by
    rw [Bool.eq_false_iff]
    intro hheeds
    rcases hkind with hkind | hkind
    · exact hM.heeds d hheeds .const (by rw [h.kindOf_def, hkind]) (Or.inl rfl)
    · exact hM.heeds d hheeds .copy (by rw [h.kindOf_def, hkind]) (Or.inr (Or.inl rfl))
  -- no other node writes the variable
  have hsole : ∀ m ∈ r.live exit t, ∀ em, r.label m = some em → (v, .write) ∈ em.accesses → m = d :=
    fun m hm em hem hw => hr.eq_of_once h.def_mem h.label hm hem hwrites hw honce
  let agree : Run V → (VarId → V) → Prop := fun x store' =>
    (∀ u ≠ v, store' u = x.store u) ∧ store' v = M.lit c ∧
      ((∃ y ∈ x.trace, y.node = d) → x.store v = M.lit c)
  refine (h.bypasses.shadows hr.toWellStructured h.kindOf_def h.plain).echoes agree
    (fun k m store' hpoint hm hagree => ?_) (fun k m store' hpoint hm hagree => ?_) ?_
  · obtain ⟨hothers, hnew, hold⟩ := hagree
    have hm' := h.bypasses.mem_old hm
    have hmd := h.bypasses.ne_of_mem hr.toWellStructured hm
    obtain ⟨em, hem, hflat⟩ := hr.exists_label hm'
    have hem' : r'.label m = some em := (h.labels m).trans hem
    have hvalues : r'.argValues M (M.past (r.runFor M (r.preset M store) k).trace) store' m =
        r.argValues M (M.past (r.runFor M (r.preset M store) k).trace)
        (r.runFor M (r.preset M store) k).store m := by
      rw [argValues_flat hem hflat, argValues_flat hem' hflat]
      refine map_congr_left fun arg harg => ?_
      cases arg with
      | lit | node => rfl
      | var u =>
        by_cases huv : u = v
        · subst huv
          obtain ⟨y, hy, ey, hey, hw⟩ := hinit k m hpoint em hem u hmem harg hunknown hquiet
          have hyd := hsole y.node ((hr.runFor_mem M _ k).2 y hy) ey hey hw
          exact hnew.trans (hold ⟨y, hy, hyd⟩).symm
        · exact hothers u huv
    have hnot : (v, Access.write) ∉ em.accesses := fun hw => hmd (hsole m hm' em hem hw)
    refine ⟨Or.inl hvalues, ?_⟩
    rw [hvalues]
    refine ⟨fun u hu => storeAfter_congr_at hem hem' rfl rfl rfl (hothers u hu) _ _, ?_,
      fun ⟨y, hy, hyd⟩ => ?_⟩
    · exact (storeAfter_of_not_written hem' (Or.inr fun past => hM.disturb past v hquiet)
        hnot _ _).trans hnew
    · refine (storeAfter_of_not_written hem (Or.inr fun past => hM.disturb past v hquiet) hnot _
        _).trans (hold ⟨y, ?_, hyd⟩)
      rcases mem_append.mp hy with hy | hy
      · exact hy
      · rw [mem_singleton.mp hy] at hyd
        exact absurd hyd hmd
  · obtain ⟨hothers, hnew, -⟩ := hagree
    have hm' := (hr.runFor_mem M _ k).1 m hpoint
    obtain rfl : m = d := by
      by_contra hne
      exact hm (h.bypasses.mem_new hm' hne)
    refine ⟨hheeds, fun u hu => ?_, hnew, fun _ => ?_⟩
    · have hnot : (u, Access.write) ∉ e.accesses := by
        intro hw
        rw [accesses_of_literal hlit hdest, mem_singleton] at hw
        exact hu (Prod.mk.inj hw).1
      exact (hothers u hu).trans (storeAfter_of_not_written h.label (Or.inl hheeds) hnot _ _).symm
    · have hflat := hr.flat m hm' e h.label
      simp only [visit]
      rw [storeAfter_apply h.label, if_pos ⟨hdeclaration, hdest⟩, argValues_flat h.label hflat,
        hargs, map_cons, map_nil]
      rcases hkind with hkind | hkind
      · rw [hkind, hM.const]
        rfl
      · rw [hkind, hM.copy]
        rfl
  · refine ⟨fun u hu => ?_, ?_, by simp⟩
    · rw [preset, hconstants, if_neg hu]
      rfl
    · rw [preset, hconstants, if_pos rfl, elim_some]

omit hinit

/-- Putting a known value in the place of its variable. -/
theorem Relabels.echoes_fill {i : ℕ}
    (h : r.Relabels r' n e { e with args := e.args.set i (.lit c) }) (hn : n ∈ r.live exit t)
    (harg : e.args[i]? = some (.var v)) (hc : r.constantOf v = some c) :
    r.Echoes r' (r.live exit t) (r.Reduced r') M (r.preset M store) (r'.preset M store) := by
  have hflat := hr.flat n hn e h.label
  have hflat' : ({ e with args := e.args.set i (.lit c) } : Node).Flat := hflat.set
  rw [h.preset_eq]
  refine h.echoes hr.toFlat fun k _ => ?_
  have hvalues : r'.argValues M (M.past (r.runFor M (r.preset M store) k).trace)
      (r.runFor M (r.preset M store) k).store n =
      r.argValues M (M.past (r.runFor M (r.preset M store) k).trace)
      (r.runFor M (r.preset M store) k).store n := by
    rw [argValues_flat h.label hflat, argValues_flat h.label_self hflat', map_set]
    refine ext_getElem? fun j => ?_
    rw [getElem?_set]
    split
    · rename_i hij
      subst hij
      obtain ⟨hi, -⟩ := List.getElem?_eq_some_iff.mp harg
      rw [length_map, if_pos hi, getElem?_map, harg, map_some]
      exact congrArg some (hr.runFor_preset hM hc k).symm
    · rfl
  refine ⟨Or.inl hvalues, ?_⟩
  rw [hvalues]
  exact funext fun u => storeAfter_congr_at h.label h.label_self rfl rfl rfl rfl _ _

/-- Replacing an operation by its value. -/
theorem Relabels.echoes_evaluate {code : Opcode} {values : List Literal} {x : Literal}
    (h : r.Relabels r' n e { e with kind := .op .const, args := [.lit x] }) (hn : n ∈ r.live exit t)
    (hkind : e.kind = .op code) (hargs : e.args = values.map .lit)
    (hvalue : (evaluate target (e.ty.bind Ty.scalar?) code values : Query (Option Literal)) =
      .ok (some x)) :
    r.Echoes r' (r.live exit t) (r.Reduced r') M (r.preset M store) (r'.preset M store) := by
  have hkindOf : r.kindOf n = some (.op code) := kindOf_of_label h.label hkind
  have hheeds : M.heeds n = false := by
    rw [Bool.eq_false_iff]
    exact fun hheeds => hM.heeds n hheeds code hkindOf (Or.inr (Or.inr ⟨_, _, _, hvalue⟩))
  have hreduced : r.Reduced r' n := by
    refine ⟨kindOf_of_label h.label_self rfl, ?_⟩
    rw [hkindOf]
    rintro ⟨⟩
    rw [evaluate_const] at hvalue
    cases hvalue
  have hflat' : ({ e with kind := .op .const, args := [.lit x] } : Node).Flat := fun arg harg => by
    rw [mem_singleton.mp harg]
    rfl
  rw [h.preset_eq]
  refine h.echoes hr.toFlat fun k _ =>
    ⟨Or.inr ⟨hreduced, hheeds, fun holds holds' => ?_⟩, funext fun u => ?_⟩
  · rw [follow_plain hkindOf rfl, follow_plain hkindOf rfl]
  · have hold :
        e.args.map (M.value (r.runFor M (r.preset M store) k).store) = values.map M.lit := by
      rw [hargs, List.map_map]
      rfl
    have hnew :
      [Operand.lit x].map (M.value (r.runFor M (r.preset M store) k).store) = [M.lit x] := rfl
    simp only [visit]
    rw [storeAfter_apply h.label, storeAfter_apply h.label_self,
      argValues_flat h.label (hr.flat n hn e h.label),
      argValues_flat h.label_self hflat', hold, hkind, hM.evaluates _ _ _ _ _ _ hvalue,
      hheeds, hnew, hM.const]
    rfl

end Echo

/-- What is written before it is read stays so. -/
theorem Initialized.echo {stream : List NodeId} (hinit : r.Initialized M store)
    (hr : r.WellStructured exit t) (h : r.Echoes r' stream changed M store store')
    (hmem : r'.mem = r.mem) (hargs : ∀ n e', r'.label n = some e' → ∃ e, r.label n = some e ∧
      ∀ v, .var v ∈ e'.args → .var v ∈ e.args)
    (hknown : ∀ v, r'.constantOf v = none → r.constantOf v = none)
    (haddressable : ∀ v, r'.addressableAt v = r.addressableAt v) (hwrites : ∀ n ∈ r.live exit t,
      ∀ e v, r.label n = some e → (v, .write) ∈ e.accesses → r'.constantOf v = none → n ∈ stream ∧
      ∃ e', r'.label n = some e' ∧ (v, .write) ∈ e'.accesses) : r'.Initialized M store' := by
  obtain ⟨φ, -, -, hφ⟩ := h
  intro k n hpoint e' he' v hne hv hunknown hquiet
  obtain ⟨hsame, htrace⟩ := hφ k
  obtain ⟨e, he, hvars⟩ := hargs n e' he'
  obtain ⟨x, hx, ex, hex, hw⟩ := hinit (φ k) n (hsame.symm.trans hpoint) e he v (hmem ▸ hne)
    (hvars v hv) (hknown v hunknown) ((haddressable v).symm.trans hquiet)
  obtain ⟨hin, e₁, he₁, hw₁⟩ := hwrites x.node ((hr.runFor_mem M _ _).2 x hx) ex v hex hw hunknown
  have hkept : x ∈ (r.runFor M store (φ k)).trace.filter fun x => x.node ∈ stream :=
    mem_filter.mpr ⟨hx, decide_eq_true hin⟩
  obtain ⟨y, hy, hxy⟩ : ∃ y ∈ (r'.runFor M store' k).trace, y.node = x.node := by
    obtain ⟨i, hi, hget⟩ := mem_iff_getElem.mp hkept
    have hi' := htrace.length_eq ▸ hi
    exact ⟨_, getElem_mem hi', by rw [← hget]; exact (htrace.get hi hi').1⟩
  exact ⟨y, hy, e₁, hxy ▸ he₁, hw₁⟩

/-- A node with another label still reads what has been written. -/
theorem Relabels.initialized (h : r.Relabels r' n e e') (hr : r.WellStructured exit t)
    (hinit : r.Initialized M store) (hechoes : r.Echoes r' (r.live exit t) changed M store store')
    (hdest : e'.dest = e.dest) (hvars : ∀ v, .var v ∈ e'.args → .var v ∈ e.args) :
    r'.Initialized M store' := by
  refine hinit.echo hr hechoes h.mem (fun m em hem => ?_)
    (fun u hu => (constantOf_eq (h.traits u)).symm.trans hu)
    (fun u => addressableAt_eq (h.traits u)) fun m hm em u hem hw _ => ⟨hm, ?_⟩
  · by_cases hmn : m = n
    · subst hmn
      obtain rfl := some.inj (h.label_self.symm.trans hem)
      exact ⟨e, h.label, hvars⟩
    · exact ⟨em, (h.label_of_ne hmn).symm.trans hem, fun _ hv => hv⟩
  · by_cases hmn : m = n
    · subst hmn
      obtain rfl := some.inj (h.label.symm.trans hem)
      exact ⟨e', h.label_self, (Node.write_mem_iff h.kind hdest u).mpr hw⟩
    · exact ⟨em, (h.label_of_ne hmn).trans hem, hw⟩

theorem Refines.mem_old (h : Refines target exit a b) (hn : n ∈ b.1.live exit b.2) :
    n ∈ a.1.live exit a.2 := by
  cases h with
  | drop h => exact h.bypasses.mem_old hn
  | fill h | evaluate h => exact live_congr h.entry .. ▸ hn

/-- Every change is echoed, and what is written before it is read stays so. -/
theorem Refines.echoes (h : Refines target exit a b) (ha : a.1.Foldable exit a.2)
    (hM : M.Computes target a.1) (hinit : a.1.Initialized M (a.1.preset M store)) :
    a.1.Echoes b.1 (b.1.live exit b.2) (a.1.Reduced b.1) M (a.1.preset M store)
    (b.1.preset M store) ∧ b.1.Initialized M (b.1.preset M store) := by
  cases h with
  | @drop r r' t t' d p s e v c h hlit hdest honce hquiet hconstants haddressable _ =>
    have hechoes := h.echoes_constant ha hM hinit hlit hdest honce hquiet hconstants
    refine ⟨hechoes, hinit.echo ha.toWellStructured hechoes h.mem_eq
      (fun n e' he' => ⟨e', (h.labels n).symm.trans he', fun _ hv => hv⟩)
      (fun u hu => ?_) haddressable fun n hn en u hen hw hu => ?_⟩
    · rw [hconstants] at hu
      split at hu
      · cases hu
      · exact hu
    · refine ⟨h.bypasses.mem_new hn ?_, en, (h.labels n).trans hen, hw⟩
      rintro rfl
      obtain rfl := some.inj (hen.symm.trans h.label)
      rw [accesses_of_literal hlit hdest, mem_singleton] at hw
      rw [hconstants, if_pos (Prod.mk.inj hw).1] at hu
      cases hu
  | @fill r r' t n e i v c h hn harg hc =>
    have hechoes :
        r.Echoes r' (r.live exit t) (r.Reduced r') M (r.preset M store) (r'.preset M store) :=
      h.echoes_fill ha hM hn harg hc
    have hvars : ∀ u, .var u ∈ e.args.set i (.lit c) → .var u ∈ e.args := fun u hu =>
      (mem_or_eq_of_mem_set hu).resolve_right (by simp)
    exact ⟨(live_congr h.entry ..).symm ▸ hechoes,
      h.initialized ha.toWellStructured hinit hechoes rfl hvars⟩
  | @evaluate r r' t n e code values x h hn hkind hargs hvalue =>
    have hechoes :
        r.Echoes r' (r.live exit t) (r.Reduced r') M (r.preset M store) (r'.preset M store) :=
      h.echoes_evaluate ha hM hn hkind hargs hvalue
    exact ⟨(live_congr h.entry ..).symm ▸ hechoes,
      h.initialized ha.toWellStructured hinit hechoes rfl (by simp)⟩

/-- Changes one after another. -/
def Refinements (target : Target) (exit : NodeId) : Routine × Strand → Routine × Strand → Prop :=
  Relation.ReflTransGen (Refines target exit)

/-- A series of changes is echoed. -/
theorem Refinements.echoes (h : Refinements target exit a b) (ha : a.1.Foldable exit a.2)
    (hM : M.Computes target a.1) (hinit : a.1.Initialized M (a.1.preset M store)) :
    (b.1.Foldable exit b.2 ∧ M.Computes target b.1 ∧ ∀ n, a.1.kindOf n = some (.op .const) →
      b.1.kindOf n = some (.op .const)) ∧ a.1.Echoes b.1 (b.1.live exit b.2) (a.1.Reduced b.1) M
    (a.1.preset M store) (b.1.preset M store) ∧ b.1.Initialized M (b.1.preset M store) := by
  induction h with
  | refl => exact ⟨⟨ha, hM, fun _ hn => hn⟩, ha.toWellStructured.echoes M _, hinit⟩
  | @tail b c _ hstep ih =>
    obtain ⟨⟨hb, hMb, hconst⟩, hechoes, hinitb⟩ := ih
    obtain ⟨hechoes', hinitc⟩ := hstep.echoes hb hMb hinitb
    refine ⟨⟨hstep.foldable hb, hstep.computes hMb, fun n hn => hstep.kindOf_const (hconst n hn)⟩,
      ?_, hinitc⟩
    refine (hechoes.trans hechoes' fun n hn => hstep.mem_old hn).mono fun n hn => ?_
    rcases hn with ⟨hnew, hold⟩ | ⟨hnew, hold⟩
    · exact ⟨hstep.kindOf_const hnew, hold⟩
    · exact ⟨hnew, fun heq => hold (hconst n heq)⟩

end Routine

end CoroutineIR
