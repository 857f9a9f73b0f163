import CoroutineIR.Proofs.Echoing
import CoroutineIR.Proofs.TreeBuilding

/-!
# Trees compute the same values

A definition that is moved is evaluated later, in front of its reader. In between nothing writes
what it reads, so that the reader gets the value it got before. The run of the routine with trees is
that of the routine without, with the nodes moved skipped.
-/

namespace CoroutineIR

open List Option Node

variable {V : Type}

/-- What a node delivers depends on nothing but the values of its operands, a constant is its
operand, and nothing changes but the variables that take results. -/
structure Meaning.Pure (M : Meaning V) : Prop where
  result : ∀ past past' n kind ty args, M.result past n kind ty args = M.result past' n kind ty args
  undisturbed : ∀ past v, M.disturb past v = none
  const : ∀ past n ty x, M.result past n (.op .const) ty [x] = x

/-- The same with nothing remembered. -/
def Meaning.calm (M : Meaning V) : Meaning V := { M with heeds := fun _ => false }

@[simp] theorem Meaning.past_calm (M : Meaning V) (trace : List (Executed V)) :
    M.calm.past trace = [] :=
  filter_false trace

namespace Routine

variable {r r' : Routine} {exit n m d p s : NodeId} {t t' : Strand} {ms : List NodeId} {v : VarId}
  {i : Nat} {reader e : Node} {assigned : List VarId} {M : Meaning V} {store store' : VarId → V}

/-- Without effects the past plays no role. -/
theorem operandValue_calm (hM : M.Pure) (past past' : List (Executed V)) (k : Nat) (arg : Operand) :
    r.operandValue M.calm past' store k arg = r.operandValue M past store k arg := by
  induction k generalizing arg with
  | zero => cases arg <;> simp only [operandValue, Meaning.calm]
  | succ k ih =>
    cases arg with
    | lit | var => simp only [operandValue, Meaning.calm]
    | node m =>
      have hsame : r.operandValue M.calm past' store k = r.operandValue M past store k := funext ih
      simp only [operandValue, hsame, ← hM.result past' past]
      rfl

/-- Nothing depends on what is remembered. -/
theorem runFor_calm (hM : M.Pure) (store : VarId → V) (k : Nat) :
    r.runFor M.calm store k = r.runFor M store k := by
  have hargs (trace : List (Executed V)) (store : VarId → V) (n : NodeId) :
      r.argValues M.calm (M.calm.past trace) store n = r.argValues M (M.past trace) store n := by
    simp only [argValues,
      funext (operandValue_calm hM (M.past trace) (M.calm.past trace) r.nestFuel)]
  have hstore (trace : List (Executed V)) (store : VarId → V) (n : NodeId) (args : List V) :
      r.storeAfter M.calm trace store n args = r.storeAfter M trace store n args := by
    simp only [storeAfter, hM.undisturbed, getD_none, ite_self, hM.result (M.past trace) []]
    simp [Meaning.calm, hM.result _ []]
  have hadvance : r.advanceRun M.calm = r.advanceRun M := by
    funext x
    cases hpoint : x.point with
    | none => simp only [advanceRun, hpoint, elim_none]
    | some n =>
      rw [advanceRun_eq_visit hpoint, advanceRun_eq_visit hpoint, visit, hargs, hstore]
      rfl
  rw [runFor, hadvance, runFor]

/-- What a node delivers. -/
def delivered (r : Routine) (M : Meaning V) (store : VarId → V) (n : NodeId) : V :=
  (r.label n).elim (M.lit default) fun e => M.result [] n e.kind e.ty (r.argValues M [] store n)

/-- The value of a sub-expression is what it delivers. -/
theorem operandValue_node (h : r.nested n = .ok ms) :
    r.operandValue M [] store r.nestFuel (.node n) = r.delivered M store n := by
  obtain ⟨e, he⟩ := exists_label_of_nested h (mem_nestedWithin h)
  simp only [delivered, argValues, nestFuel, operandValue, he, elim_some,
    map_operandValue_succ h he]

/-- What a node delivers depends on what is nested in it and on the variables read there. -/
theorem delivered_congr (h : r.nested n = .ok ms) (hsize : r'.nodes.size = r.nodes.size)
    (hterm : ∀ x ∈ ms, (r'.label x).map term = (r.label x).map term)
    (hstore : ∀ x ∈ ms, ∀ d, r.label x = some d → ∀ v, .var v ∈ d.args → store' v = store v) :
    r'.delivered M store' n = r.delivered M store n := by
  have hargs : r'.argValues M [] store' n = r.argValues M [] store n :=
    argValues_congr h hsize hterm hstore
  obtain ⟨e, he⟩ := exists_label_of_nested h (mem_nestedWithin h)
  have hsame := hterm n (mem_nestedWithin h)
  rw [he] at hsame
  obtain ⟨e', he', hsame⟩ := map_eq_some_iff.mp hsame
  obtain ⟨hkind, hty, -⟩ : e'.kind = e.kind ∧ e'.ty = e.ty ∧ e'.args = e.args := by
    simpa [term] using hsame
  simp only [delivered, he, he', elim_some, hkind, hty, hargs]

namespace Inlines

variable (h : r.Inlines r' exit t t' n i v d reader e assigned p s)
include h

/-- Apart from the reader, no node computes anything else than before. -/
theorem term_of_ne (hne : m ≠ n) : (r'.label m).map term = (r.label m).map term := by
  by_cases hmd : m = d
  · rw [hmd, h.label_def, h.defines.label]
    rfl
  · rw [h.label_of_ne hmd hne]

/-- A variable that is read somewhere else than in the operand replaced is another one. -/
theorem ne_of_read (hr : r.WellStructured exit t)
    (hm : m ∈ r.live exit t) {x : NodeId} (hx : x ∈ m :: r.below m) (hxn : x ≠ n) {ex : Node}
    (hex : r.label x = some ex) {u : VarId} (hu : .var u ∈ ex.args) : u ≠ v := by
  rintro rfl
  obtain ⟨before, after, hargs, -⟩ := h.exists_args
  obtain ⟨-, -, hbelow, hother⟩ := hr.sole_reader h.mem h.label hargs h.once
  have hread : ∀ k, (u, Access.read) ∈ r.accessesAt k x := by
    intro k
    simp only [accessesAt, hex, elim_some]
    exact mem_append_left _ (mem_accesses_of_arg hu)
  by_cases hmn : m = n
  · subst hmn
    exact hbelow x ((mem_cons.mp hx).resolve_left hxn) (hread m)
  · exact hother m hm hmn (mem_flatMap.mpr ⟨x, hx, hread m⟩)

/-- The definition does not read the variable it defines. -/
theorem not_mem_inputs (hr : r.WellStructured exit t) : v ∉ r.inputs d := by
  intro hv
  obtain ⟨x, hx, hv⟩ := mem_flatMap.mp hv
  obtain ⟨ex, hex⟩ := exists_label_of_nested (hr.nested_eq h.def_mem) hx
  rw [hex, elim_some, mem_filterMap] at hv
  obtain ⟨arg, harg, hv⟩ := hv
  cases arg with
  | var u =>
    obtain rfl := some.inj hv
    have hxn : x ≠ n := fun heq => hr.not_mem_of_ne h.def_mem h.mem h.ne (heq ▸ hx)
    exact h.ne_of_read hr h.def_mem hx hxn hex harg rfl
  | lit | node => simp [Operand.var?] at hv

omit h

section Values

variable (h : r.Inlines r' exit t t' n i v d reader e assigned p s) (hr : r.WellStructured exit t)
  (hstore : ∀ u ≠ v, store' u = store u)

include h hr hstore

theorem argValues_other (hm : m ∈ r.live exit t) (hmn : m ≠ n) :
    r'.argValues M [] store' m = r.argValues M [] store m := by
  have hxn : ∀ x ∈ m :: r.below m, x ≠ n := fun x hx heq => hr.not_mem_of_ne hm h.mem hmn (heq ▸ hx)
  exact argValues_congr (hr.nested_eq hm) h.bypasses.size (fun x hx => h.term_of_ne (hxn x hx))
    fun x hx ex hex u hu => hstore u (h.ne_of_read hr hm hx (hxn x hx) hex hu)

/-- The value of the definition is the same, whether it is nested or not. -/
theorem delivered_def : r'.delivered M store' d = r.delivered M store d := by
  have hxn : ∀ x ∈ d :: r.below d, x ≠ n := fun x hx heq =>
    hr.not_mem_of_ne h.def_mem h.mem h.ne (heq ▸ hx)
  exact delivered_congr (hr.nested_eq h.def_mem) h.bypasses.size
    (fun x hx => h.term_of_ne (hxn x hx))
    fun x hx ex hex u hu => hstore u (h.ne_of_read hr h.def_mem hx (hxn x hx) hex hu)

variable (hconst : ∀ n ty x, M.result [] n (.op .const) ty [x] = x)
include hconst

/-- What takes the place of the variable has the value of the definition. -/
theorem operandValue_replacement :
    r'.operandValue M [] store' r'.nestFuel (Tree.replacement d e) = r.delivered M store d := by
  rw [← h.delivered_def hr hstore]
  rcases replacement_cases d e with hrep | ⟨x, hrep, hkind, hargs⟩
  · rw [hrep, operandValue_node (h.nested_other hr h.def_mem h.ne)]
  · simp only [hrep, operandValue, delivered, h.label_def, elim_some, hkind, argValues, hargs,
      map_cons, map_nil, hconst]

/-- The reader gets the values it got before, if the variable holds what the definition delivers. -/
theorem argValues_reader (hvalue : store v = r.delivered M store d) :
    r'.argValues M [] store' n = r.argValues M [] store n := by
  obtain ⟨before, after, hargs, hset⟩ := h.exists_args
  obtain ⟨-, ⟨hbefore, hafter⟩, -⟩ := hr.sole_reader h.mem h.label hargs h.once
  have hbelow := below_eq h.label (hr.nested_eq h.mem)
  have hsame : ∀ arg ∈ reader.args, arg ≠ .var v →
      r'.operandValue M [] store' r'.nestFuel arg = r.operandValue M [] store r.nestFuel arg := by
    intro arg harg hne
    cases arg with
    | lit x => simp [operandValue]
    | var u => simpa [operandValue] using hstore u fun heq => hne (heq ▸ rfl)
    | node k =>
      obtain ⟨ms, hms⟩ := ((nested_eq_ok_iff h.label).mp (hr.nested_eq h.mem)).1 k harg
      have hk := nested_eq_below hms
      have hsub : k :: r.below k ⊆ r.below n := by
        rw [hbelow]
        exact mem_exprs harg
      have hxn : ∀ x ∈ k :: r.below k, x ≠ n := fun x hx => (hr.below_detached h.mem (hsub hx)).1
      have hnot : n ∉ k :: r.below k := fun hn => hxn n hn rfl
      rw [operandValue_node hk, operandValue_node (h.nested_of_not_mem hk hnot)]
      exact delivered_congr hk h.bypasses.size (fun x hx => h.term_of_ne (hxn x hx))
          fun x hx ex hex u hu =>
        hstore u (h.ne_of_read hr h.mem (mem_cons_of_mem _ (hsub hx)) (hxn x hx) hex hu)
  have hpart : ∀ l : List Operand, l ⊆ reader.args → .var v ∉ l →
      l.map (r'.operandValue M [] store' r'.nestFuel) =
      l.map (r.operandValue M [] store r.nestFuel) := by
    intro l hl hnot
    refine map_congr_left fun arg harg => hsame arg (hl harg) ?_
    rintro rfl
    exact hnot harg
  have hvar : r.operandValue M [] store r.nestFuel (.var v) = store v := by simp [operandValue]
  simp only [argValues, h.label, h.label_reader, elim_some]
  rw [hset, hargs, map_append, map_append, map_cons, map_cons,
    hpart before (by simp [hargs]) hbefore,
    hpart after (by simp [hargs]) hafter, h.operandValue_replacement hr hstore hconst, hvar, hvalue]

end Values

/-- What the definition delivers does not depend on variables it does not read. -/
theorem delivered_of_inputs (hr : r.WellStructured exit t) (hm : m ∈ r.live exit t)
    (hstore : ∀ u ∈ r.inputs m, store' u = store u) :
    r.delivered M store' m = r.delivered M store m :=
  delivered_congr (hr.nested_eq hm) rfl (fun _ _ => rfl) fun x hx ex hex u hu => hstore u <| by
    refine mem_flatMap.mpr ⟨x, hx, ?_⟩
    rw [hex, elim_some]
    exact mem_filterMap.mpr ⟨_, hu, rfl⟩

/-- With the definition moved the variables hold what they held, but for the one defined. While
control is between the definition and its reader, that one holds what the definition delivers. -/
def Agrees (r : Routine) (v : VarId) (d : NodeId) (assigned : List VarId) (M : Meaning V)
    (x : Run V) (store' : VarId → V) : Prop :=
  (∀ u ≠ v, store' u = x.store u) ∧ ∀ m, x.point = some m → r.ComesFrom v assigned d m →
    x.store v = r.delivered M x.store d

section Step

variable (hr : r.WellStructured exit t) {x : Run V}
include hr

/-- Both runs start in front of the entry, where no definition is under way. -/
theorem agrees_start : Agrees r v d assigned M ⟨some r.entry, store, []⟩ store := by
  refine ⟨fun _ _ => rfl, ?_⟩
  rintro m ⟨⟩ hleads
  obtain ⟨b, -, hprev, -⟩ := Relation.TransGen.tail'_iff.mp hleads
  have hnone := hr.entry_degrees.1
  rw [inDegree, hprev] at hnone
  cases hnone

/-- A node that does not write a variable leaves it alone. -/
theorem visit_of_ne (hm : m ∈ r.live exit t) {u : VarId} (hu : r.destOf m ≠ some u) :
    (r.visit M.calm x m).store u = x.store u := by
  obtain ⟨em, hem⟩ := hr.exists_node hm
  simp only [visit, storeAfter_apply (label_eq hem)]
  rw [if_neg fun hw => hu ((destOf_eq (label_eq hem)).trans hw.2)]
  rfl

variable (h : r.Inlines r' exit t t' n i v d reader e assigned p s)
include h

/-- A node that stays is executed for the same values. -/
theorem agrees_visit (hlanding : r.isLandingAt n = false) (hM : M.Pure) (hm : m ∈ r'.live exit t')
    (hpoint : x.point = some m) (hagrees : Agrees r v d assigned M.calm x store') :
    r'.argValues M.calm [] store' m = r.argValues M.calm [] x.store m ∧
    Agrees r v d assigned M.calm (r.visit M.calm x m)
      (r'.storeAfter M.calm x.trace store' m (r'.argValues M.calm [] store' m)) := by
  obtain ⟨hstore, hpending⟩ := hagrees
  have hm' := h.bypasses.mem_old hm
  have hmd := h.bypasses.ne_of_mem hr hm
  obtain ⟨em, hem⟩ := hr.exists_node hm'
  have hargs : r'.argValues M.calm [] store' m = r.argValues M.calm [] x.store m := by
    by_cases hmn : m = n
    · subst hmn
      exact h.argValues_reader hr hstore (fun _ _ _ => hM.const ..)
        (hpending m hpoint (h.leads hlanding))
    · exact h.argValues_other hr hstore hm' hmn
  refine ⟨hargs, fun u hu => ?_, fun k hnext hleads => ?_⟩
  · rw [hargs, visit, Meaning.past_calm]
    by_cases hmn : m = n
    · subst hmn
      exact storeAfter_congr_at h.label h.label_reader rfl rfl rfl (hstore u hu) _ _
    · have hem' := (h.label_of_ne hmd hmn).trans (label_eq hem)
      exact storeAfter_congr_at (label_eq hem) hem' rfl rfl rfl (hstore u hu) _ _
  · -- control has come from a node that the definition may pass
    obtain ⟨b, hrest, hstep⟩ := Relation.TransGen.tail'_iff.mp hleads
    obtain rfl := hstep.eq_of_follow hr hm' hnext
    have hpasses := hstep.2.2.resolve_left hmd
    have hleads' := (Relation.reflTransGen_iff_eq_or_transGen.mp hrest).resolve_left hmd
    rw [visit_of_ne hr hm' hpasses.dest_ne, hpending m hpoint hleads']
    refine delivered_of_inputs hr h.def_mem fun u hu => (visit_of_ne hr hm' fun heq => ?_).symm
    exact h.defines.inputs u hu (hpasses.assigned u heq)

/-- The definition is executed by the routine without the move alone. -/
theorem agrees_def (hagrees : Agrees r v d assigned M.calm x store') :
    Agrees r v d assigned M.calm (r.visit M.calm x d) store' := by
  have hkeep : ∀ u ≠ v, (r.visit M.calm x d).store u = x.store u := fun u hu =>
    visit_of_ne hr h.def_mem fun heq =>
      hu (some.inj (heq.symm.trans ((destOf_eq h.defines.label).trans h.defines.dest)))
  refine ⟨fun u hu => (hagrees.1 u hu).trans (hkeep u hu).symm, fun _ _ _ => ?_⟩
  have hvalue : (r.visit M.calm x d).store v = r.delivered M.calm x.store d := by
    simp only [visit, storeAfter_apply h.defines.label, h.defines.not_declaration, h.defines.dest,
      and_self, if_true, delivered, h.defines.label, elim_some, Meaning.past_calm]
  rw [hvalue]
  refine delivered_of_inputs hr h.def_mem fun u hu => (hkeep u ?_).symm
  rintro rfl
  exact h.not_mem_inputs hr hu

end Step

end Inlines

/-- Runs of `r'` are those of `r` with the nodes that are no longer in the stream skipped. Control
is at the same node, nodes of the stream are executed for the same values, and the variables that
are still read hold the same values. -/
def Mirrors (r r' : Routine) (exit : NodeId) (t' : Strand) (M : Meaning V) : Prop :=
  ∀ store, ∃ φ : ℕ → ℕ, φ 0 = 0 ∧ StrictMono φ ∧ ∀ k,
    (r'.runFor M store k).point = (r.runFor M store (φ k)).point ∧
    (r'.runFor M store k).trace =
      (r.runFor M store (φ k)).trace.filter (fun e => e.node ∈ r'.entry :: exit :: t'.nodes) ∧
    ∀ v, 0 < r'.readsOf v → (r'.runFor M store k).store v = (r.runFor M store (φ k)).store v

/-- Moving one definition. -/
theorem Inlines.mirrors (h : r.Inlines r' exit t t' n i v d reader e assigned p s)
    (hr : r.WellStructured exit t) (hlanding : r.isLandingAt n = false) (hM : M.Pure) :
    r.Mirrors r' exit t' M := by
  intro store
  have hkind : r.kindOf d = some e.kind := kindOf_of_label h.defines.label rfl
  have hshadows := h.bypasses.shadows hr hkind h.defines.plain
  obtain ⟨φ, hzero, hmono, hφ⟩ : ∃ φ : ℕ → ℕ, φ 0 = 0 ∧ StrictMono φ ∧
      ∀ k, r.Echoing (r'.live exit t') (fun _ => False) M.calm
      store (Agrees r v d assigned M.calm) (r.runFor M.calm store (φ k))
      (r'.runFor M.calm store k) := by
    refine hshadows.exists_schedule _ (fun k m store' hpoint hm hagrees => ?_)
      (fun k m store' hpoint hm hagrees => ?_) (agrees_start hr)
    · simp only [SameOperands, Meaning.past_calm]
      exact (h.agrees_visit hr hlanding hM hm hpoint hagrees).imp_left Or.inl
    · obtain rfl : m = d := by
        by_contra hne
        exact hm (h.bypasses.mem_new ((hr.runFor_mem _ store k).1 m hpoint) hne)
      exact ⟨rfl, h.agrees_def hr hagrees⟩
  simp only [runFor_calm hM] at hφ
  refine ⟨φ, hzero, hmono, fun k => ⟨(hφ k).point, ?_, fun u hu => (hφ k).agrees.1 u ?_⟩⟩
  · refine (forall₂_eq_eq_eq ▸ (hφ k).trace.imp fun x y hxy => ?_ : _ = _).symm
    cases x
    cases y
    obtain ⟨rfl, rfl | hfalse⟩ := hxy
    · rfl
    · exact hfalse.elim
  -- the variable moved is not read any more
  rintro rfl
  have htally : r.readsOf u = r'.readsOf u + _ := h.tally u .read
  rw [h.once, count_cons_of_ne (by simp), count_cons_self] at htally
  omega

/-- Moving definitions one after another. -/
theorem mirrors_of_inlinings {a b : Routine × Strand} (h : Inlinings exit a b)
    (ha : a.1.Treelike exit a.2) (hM : M.Pure) : a.1.Mirrors b.1 exit b.2 M := by
  induction h with
  | refl =>
    refine fun store => ⟨id, rfl, strictMono_id, fun k => ⟨rfl, ?_, fun _ _ => rfl⟩⟩
    rw [filter_eq_self.mpr]
    · rfl
    · intro e he
      exact decide_eq_true ((ha.runFor_mem M store _).2 e he)
  | @tail b c hrun hstep ih =>
    obtain ⟨n, i, v, d, reader, e, assigned, p, s, hinlines⟩ := hstep
    intro store
    obtain ⟨φ, hφ₀, hφ, hab⟩ := ih store
    have hb : b.1.Treelike exit b.2 := Inlinings.treelike hrun ha
    obtain ⟨ψ, hψ₀, hψ, hbc⟩ :=
      hinlines.mirrors hb.toWellStructured (hinlines.not_landing hb) hM store
    refine ⟨φ ∘ ψ, by rw [Function.comp_apply, hψ₀, hφ₀], hφ.comp hψ, fun k => ?_⟩
    obtain ⟨hpoint, htrace, hstore⟩ := hab (ψ k)
    obtain ⟨hpoint', htrace', hstore'⟩ := hbc k
    refine ⟨hpoint'.trans hpoint, ?_, fun u hu => (hstore' u hu).trans (hstore u ?_)⟩
    · rw [htrace', htrace, List.filter_filter]
      refine filter_congr fun x _ => ?_
      rw [Bool.and_eq_left_iff_imp, decide_eq_true_eq, decide_eq_true_eq]
      exact hinlines.bypasses.mem_old
    · have htally : b.1.readsOf u = c.1.readsOf u + _ := hinlines.tally u .read
      omega

end Routine

namespace Tree

open Routine CoroutineIR.Action

/-- Trees compute the same values: building them succeeds, and the runs of what is left are those of
the routine before, with the nodes moved skipped. -/
theorem buildTrees_mirrors {w : Work} {exit : NodeId} {t : Strand}
    (hr : w.routine.WellStructured exit t)
    (hlandings : ∀ n ∈ w.routine.entry :: exit :: t.nodes, ∀ e, w.routine.label n = some e →
      e.kind.isLanding = true → e.args = [])
    (hsilent : ∀ n ∈ w.routine.entry :: exit :: t.nodes, ∀ ms, w.routine.nested n = .ok ms →
      ∀ m ∈ ms, m ≠ n → ∀ e, w.routine.label m = some e → e.dest = none) :
    Yields buildTrees w fun _ w' => ∃ t', w'.routine.WellStructured exit t' ∧
      t'.nodes.Sublist t.nodes ∧
      ∀ (V : Type) (M : Meaning V), M.Pure → w.routine.Mirrors w'.routine exit t' M := by
  have htree : w.routine.Treelike exit t := by
    refine ⟨hr, hlandings, fun n hn m hm => ?_⟩
    obtain ⟨e, he⟩ := hr.exists_label_below hn hm
    rw [destOf_eq he]
    exact hsilent n hn _ (hr.nested_eq hn) m (mem_cons_of_mem _ hm) (hr.below_detached hn hm).1 e he
  refine (yields_buildTrees hr).mono fun _ w' hbuilt => ?_
  obtain ⟨t', hrun⟩ := hbuilt
  exact ⟨t', hrun.wellStructured hr, hrun.sublist, fun V M hM => mirrors_of_inlinings hrun htree hM⟩

/-- A loop whose condition compares the result of a call: the call ends up inside the comparison,
and the comparison inside the branch. -/
theorem buildTrees_mirrors_loop :
    let callee : Signature := ⟨[], some (.scalar .i32), .default⟩
    let calls : List Instruction :=
      [.tmp (some (.scalar .i32)), .tmp (some (.scalar .i32)), .loop, .call (some 1) callee [],
      .assign (some 2) .eq (.scalar .i32) [.var 1, .lit (.int 7)], .branchIf (.var 2) 2,
      .close, .ret []]
    ∃ r b' t, Build.finish (Build.play default calls (Build.define "main" default)).1 = .ok r b' ∧
      r.WellStructured 1 t ∧
      (∀ n ∈ r.entry :: 1 :: t.nodes, ∀ e, r.label n = some e → e.kind.isLanding = true →
      e.args = []) ∧ (∀ n ∈ r.entry :: 1 :: t.nodes, ∀ ms, r.nested n = .ok ms → ∀ m ∈ ms, m ≠ n →
        ∀ e, r.label m = some e → e.dest = none) ∧
      Yields buildTrees ⟨r, #[]⟩ fun _ w' => (w'.routine.Detached 4 ∧ w'.routine.Detached 5) ∧
        ∃ t', w'.routine.WellStructured 1 t' ∧ ∀ (V : Type) (M : Meaning V), M.Pure →
        r.Mirrors w'.routine 1 t' M := by
  intro callee calls
  obtain ⟨r, b', t, hfinish, -, ht, hbare, hflat, hmoved⟩ := Build.exists_main calls (by decide)
    (fun r => (∀ n e, r.label n = some e → e.kind.isLanding = true → e.args.isEmpty = true) ∧
      (∀ d ∈ r.nodes, ∀ a ∈ d.args, a.node? = none) ∧
      buildTrees.Yields ⟨r, #[]⟩ fun _ w' => w'.routine.Detached 4 ∧ w'.routine.Detached 5)
    (by decide +kernel)
  have hlandings : ∀ n ∈ r.entry :: 1 :: t.nodes, ∀ e, r.label n = some e →
      e.kind.isLanding = true → e.args = [] :=
    fun n _ e he hlanding => List.isEmpty_iff.mp (hbare n e he hlanding)
  have hsilent : ∀ n ∈ r.entry :: 1 :: t.nodes, ∀ ms, r.nested n = .ok ms → ∀ m ∈ ms, m ≠ n →
      ∀ e, r.label m = some e → e.dest = none := by
    intro n hn ms hms m hm hne
    obtain ⟨d, hd⟩ := ht.exists_node hn
    rw [Routine.nested_eq hd fun a ha => hflat d (Array.mem_of_getElem? hd) a ha, Except.ok.injEq]
      at hms
    rw [← hms, mem_singleton] at hm
    exact absurd hm hne
  refine ⟨r, b', t, hfinish, ht, hlandings, hsilent, ?_⟩
  refine ((buildTrees_mirrors (w := ⟨r, #[]⟩) ht hlandings hsilent).and hmoved).mono
    fun _ w' hboth => ?_
  obtain ⟨⟨t', hwell, -, hmirrors⟩, hmoved⟩ := hboth
  exact ⟨hmoved, t', hwell, hmirrors⟩

end Tree

end CoroutineIR
