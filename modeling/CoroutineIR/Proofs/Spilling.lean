import CoroutineIR.Collector.Discovery
import CoroutineIR.Proofs.Events
import CoroutineIR.Proofs.Inlining

/-!
# Marking and spilling

What making pointers visible does to a routine: variables are marked, and sub-expressions get new
variables as destinations. Control goes the same ways, and apart from writes to the new variables
evaluating a node brings about the same events.
-/

namespace CoroutineIR

open List Attempt CoroutineIR.Action Edit Routine

/-- A node with its destination left out. -/
def Node.undirected (d : Node) : Node := { d with dest := none }

/-- A variable with its mark left out. -/
def Variable.unmarked (x : Variable) : Variable := { x with discoverable := false }

namespace Routine

variable {r r' : Routine} {n m : NodeId} {v u : VarId} {S S' : VarId → Prop} {ty : Option Ty}

/-- The collector has to see the variable. -/
def Discoverable (r : Routine) (v : VarId) : Prop :=
    ∃ x, r.vars[v]? = some x ∧ x.discoverable = true

/-- Mark a variable. -/
def expose (r : Routine) (v : VarId) : Routine := r.alterVar v ({ · with discoverable := true })

/-- Give a node a new variable as destination that the collector sees, and count that it is written
and read. -/
def stow (r : Routine) (n : NodeId) (ty : Option Ty) : Routine :=
  ({ r with
    vars :=
      r.vars.push { name := s!"%{r.nextTmp}", ty, discoverable := true, reads := 1, writes := 1 }
    nextTmp := r.nextTmp + 1 } : Routine).alter n ({ · with dest := some r.vars.size })

/-- Show the result of a sub-expression to the collector. -/
def spill (r : Routine) (n : NodeId) : Routine :=
  match r.label n with
  | some d => d.dest.elim (r.stow n d.ty) r.expose
  | none => r

@[simp] theorem size_expose (v : VarId) : (r.expose v).vars.size = r.vars.size := size_alterVar ..

@[simp] theorem size_stow (n : NodeId) (ty : Option Ty) :
    (r.stow n ty).vars.size = r.vars.size + 1 := Array.size_push ..

theorem sameStream_stow (r : Routine) (n : NodeId) (ty : Option Ty) :
    r.SameStream (r.stow n ty) := by
  refine .trans ?_ (.alter n (fun _ => rfl) (fun _ => rfl) fun _ => rfl)
  exact .of_nodes rfl rfl

theorem discoverable_expose (hv : v < r.vars.size) :
    (r.expose u).Discoverable v ↔ r.Discoverable v ∨ v = u := by
  have hx := Array.getElem?_eq_getElem hv
  rw [Discoverable, Discoverable, expose, getElem?_alterVar, hx]
  split
  · rename_i heq
    simp [heq]
  · rename_i hne
    simp [hne]

theorem getElem?_stow (n : NodeId) (ty : Option Ty) (v : VarId) :
    (r.stow n ty).vars[v]? = if v = r.vars.size then
    some { name := s!"%{r.nextTmp}", ty, discoverable := true, reads := 1, writes := 1 }
        else r.vars[v]? :=
  Array.getElem?_push

theorem label_stow : (r.stow n ty).label m = if m = n then (r.label m).map
    ({ · with dest := some r.vars.size }) else r.label m :=
  label_alter (g := ({ · with dest := some r.vars.size })) fun _ => rfl

theorem destOf_stow : (r.stow n ty).destOf m =
    if m = n then (r.label m).map fun _ => r.vars.size else r.destOf m := by
  rw [destOf, label_stow]
  split
  · cases r.label m <;> rfl
  · rfl

/-- What making pointers visible changes: sub-expressions may get new variables as destinations, and
variables of the routine are marked. -/
structure Spills (r r' : Routine) (S : VarId → Prop) : Prop extends r.SameStream r' where
  mem : r'.mem = r.mem
  labels : ∀ m, (r'.label m).map Node.undirected = (r.label m).map Node.undirected
  dest : ∀ m, r'.destOf m = r.destOf m ∨
    r.destOf m = none ∧ ∃ v, r'.destOf m = some v ∧ r.vars.size ≤ v ∧ v < r'.vars.size
  grows : r.vars.size ≤ r'.vars.size
  vars :
    ∀ v, v < r.vars.size → (r'.vars[v]?).map Variable.unmarked = (r.vars[v]?).map Variable.unmarked
  shown : ∀ v, v < r.vars.size → (r'.Discoverable v ↔ r.Discoverable v ∨ S v)
  spare : ∀ v, r.vars.size ≤ v → v < r'.vars.size →
    ∃ x, r'.vars[v]? = some x ∧ x.discoverable = true ∧ (x.reads = 1 ∧ x.writes = 1) ∧
    ∃ m d, r.label m = some d ∧ d.ty = x.ty

namespace Spills

theorem refl (r : Routine) : r.Spills r fun _ => False :=
  ⟨.refl r, rfl, fun _ => rfl, fun _ => Or.inl rfl, Nat.le_refl _, fun _ _ => rfl, by simp,
    fun _ hle hlt => absurd hlt (Nat.not_lt.mpr hle)⟩

variable (h : r.Spills r' S)
include h

theorem congr (hS : ∀ v, v < r.vars.size → (S v ↔ S' v)) : r.Spills r' S' :=
  { h with shown := fun v hv => by rw [h.shown v hv, hS v hv] }

/-- Making a variable visible. -/
theorem expose (u : VarId) : r.Spills (r'.expose u) fun v => S v ∨ v = u where
  toSameStream := h.toSameStream.trans (.alterVar u _)
  mem := h.mem
  labels := h.labels
  dest m := by
    rw [size_expose]
    exact h.dest m
  grows := by simpa using h.grows
  vars v hv := by
    rw [← h.vars v hv, Routine.expose, getElem?_alterVar]
    split
    · rw [Option.map_map]
      rfl
    · rfl
  shown v hv := by rw [discoverable_expose (Nat.lt_of_lt_of_le hv h.grows), h.shown v hv, or_assoc]
  spare v hle hlt := by
    obtain ⟨x, hx, hshown, hcounts⟩ := h.spare v hle (by simpa using hlt)
    rw [Routine.expose, getElem?_alterVar, hx]
    split
    · exact ⟨_, rfl, rfl, hcounts⟩
    · exact ⟨x, rfl, hshown, hcounts⟩

/-- Giving a sub-expression a variable of its own. -/
theorem stow {d : Node} (hd : r'.label n = some d) (hnone : d.dest = none) :
    r.Spills (r'.stow n d.ty) S where
  toSameStream := h.toSameStream.trans (r'.sameStream_stow n d.ty)
  mem := h.mem
  labels m := by
    rw [← h.labels m, label_stow]
    split
    · rw [Option.map_map]
      rfl
    · rfl
  dest m := by
    have hold := h.dest m
    rw [destOf_stow, size_stow]
    split
    · rename_i heq
      have hnew : r.destOf m = none := by
        rcases hold with hsame | ⟨hnew, -⟩
        · rw [← hsame, heq, destOf_eq hd, hnone]
        · exact hnew
      cases r'.label m with
      | none => exact Or.inl hnew.symm
      | some d => exact Or.inr ⟨hnew, _, rfl, h.grows, Nat.lt_succ_self _⟩
    · refine hold.imp_right (And.imp_right fun hv => ?_)
      obtain ⟨v, hv, hle, hlt⟩ := hv
      exact ⟨v, hv, hle, Nat.lt_succ_of_lt hlt⟩
  grows := by
    rw [size_stow]
    exact Nat.le_succ_of_le h.grows
  vars v hv := by
    rw [← h.vars v hv, getElem?_stow, if_neg (Nat.ne_of_lt (Nat.lt_of_lt_of_le hv h.grows))]
  shown v hv := by
    rw [← h.shown v hv, Discoverable, Discoverable, getElem?_stow,
      if_neg (Nat.ne_of_lt (Nat.lt_of_lt_of_le hv h.grows))]
  spare v hle hlt := by
    rw [size_stow] at hlt
    rw [getElem?_stow]
    split
    · have hlabels := h.labels n
      rw [hd] at hlabels
      obtain ⟨d', hd', hsame⟩ := Option.map_eq_some_iff.mp hlabels.symm
      have hty : d'.undirected.ty = d.undirected.ty := by rw [hsame]
      exact ⟨_, rfl, rfl, ⟨rfl, rfl⟩, n, d', hd', hty⟩
    · rename_i hne
      exact h.spare v hle (Nat.lt_of_le_of_ne (Nat.le_of_lt_succ hlt) hne)

/-- Making visible what a sub-expression delivers. -/
theorem spill (n : NodeId) : r.Spills (r'.spill n) fun v => S v ∨ r.destOf n = some v := by
  have hdest := h.dest n
  unfold Routine.spill
  cases hd : r'.label n with
  | none =>
    rw [destOf, hd] at hdest
    refine h.congr fun v _ => (or_iff_left ?_).symm
    rcases hdest with heq | ⟨-, _, heq, -⟩
    · rw [← heq]
      simp
    · cases heq
  | some d =>
    rw [destOf_eq hd] at hdest
    simp only
    cases hd' : d.dest with
    | none =>
      rw [hd'] at hdest
      refine (h.stow hd hd').congr fun v _ => (or_iff_left ?_).symm
      rcases hdest with heq | ⟨-, _, heq, -⟩
      · rw [← heq]
        simp
      · cases heq
    | some u =>
      refine (h.expose u).congr fun v hv => or_congr_right ?_
      rw [hd'] at hdest
      rcases hdest with heq | ⟨hnone, w, hw, hle, -⟩
      · rw [← heq, Option.some.injEq, eq_comm]
      · obtain rfl := Option.some.inj hw
        simp only [hnone, reduceCtorEq, iff_false]
        exact fun heq => absurd hv (Nat.not_lt.mpr (heq ▸ hle))

theorem exposeAll (vs : List VarId) : r.Spills (vs.foldl Routine.expose r') fun v =>
    S v ∨ v ∈ vs := by
  induction vs generalizing r' S with
  | nil => exact h.congr (by simp)
  | cons u vs ih => exact (ih (h.expose u)).congr fun v _ => by rw [mem_cons, or_assoc]

theorem spillAll (ns : List NodeId) : r.Spills (ns.foldl Routine.spill r') fun v =>
    S v ∨ ∃ n ∈ ns, r.destOf n = some v := by
  induction ns generalizing r' S with
  | nil => exact h.congr (by simp)
  | cons n ns ih => exact (ih (h.spill n)).congr fun v _ => by simp [or_assoc]

omit h in
/-- Marking variables and then showing sub-expressions. -/
theorem all (r : Routine) (vs : List VarId) (ns : List NodeId) :
    r.Spills (ns.foldl Routine.spill (vs.foldl Routine.expose r)) fun v =>
    v ∈ vs ∨ ∃ n ∈ ns, r.destOf n = some v :=
  (((refl r).exposeAll vs).spillAll ns).congr fun v _ => by rw [false_or]

theorem exists_label {d : Node} (hd : r.label m = some d) :
    ∃ d', r'.label m = some d' ∧ d'.undirected = d.undirected := by
  have hlabels := h.labels m
  rw [hd] at hlabels
  exact Option.map_eq_some_iff.mp hlabels

theorem delivers (hm : r.Delivers m) : r'.Delivers m := by
  obtain ⟨d, hd, hlt⟩ := hm
  obtain ⟨d', hd', -⟩ := h.exists_label hd
  refine ⟨d', hd', fun v hv => ?_⟩
  have hdest := h.dest m
  rw [destOf_eq hd, destOf_eq hd', hv] at hdest
  rcases hdest with heq | ⟨-, u, hu, -, hlt'⟩
  · exact Nat.lt_of_lt_of_le (hlt v heq.symm) h.grows
  · rwa [Option.some.inj hu]

end Spills

/-! ### Flow and events -/

section SameStream

variable (h : r.SameStream r')
include h

/-- A node is there in both routines or in neither. -/
theorem SameStream.node_cases (n : NodeId) : r.node n = .abort .missing ∧
      r'.node n = .abort .missing ∨ ∃ d d', r.node n = .ok d ∧ r'.node n = .ok d' ∧
      d'.kind = d.kind ∧ d'.next = d.next := by
  cases hd : r.nodes[n]? with
  | none =>
    have hd' : r'.nodes[n]? = none := by
      rw [Array.getElem?_eq_none_iff] at hd ⊢
      rwa [h.size]
    exact Or.inl
      ⟨by simp [node, Arena.fetch, hd, present], by simp [node, Arena.fetch, hd', present]⟩
  | some d =>
    have hkind := h.kinds n
    rw [kindOf_eq hd] at hkind
    obtain ⟨d', hd', hk, hnext, -⟩ := node_of_kindOf hkind
    exact Or.inr ⟨d, d', node_eq_ok_iff.mpr hd, node_eq_ok_iff.mpr hd',
      hk, by rw [hnext, h.nextOf n, nextOf_eq hd]⟩

theorem SameStream.branchArrival_eq (b : Branch) : r'.branchArrival b = r.branchArrival b := by
  unfold branchArrival
  rcases h.node_cases b.target with ⟨hd, hd'⟩ | ⟨d, d', hd, hd', hkind, -⟩
  · rw [hd, hd']
  · rw [hd, hd']
    simp only [ok_bind, hkind]

/-- Control goes the same ways. -/
theorem SameStream.follows_iff : r'.Follows n m ↔ r.Follows n m := by
  simp only [Follows, follow, h.kinds, h.nextOf, h.branchArrival_eq]

/-- The passes take control to go the same ways. -/
theorem SameStream.flowSuccs_eq : r'.flowSuccs = r.flowSuccs := by
  funext n
  unfold flowSuccs
  rcases h.node_cases n with ⟨hd, hd'⟩ | ⟨d, d', hd, hd', hkind, hnext⟩
  · rw [hd, hd']
    rfl
  · rw [hd, hd']
    simp only [ok_bind, hkind, hnext, Node.firstNext, jumpArrival, h.branchArrival_eq]

theorem SameStream.reached (hn : r'.Reached n) : r.Reached n := by
  unfold Reached at hn ⊢
  rw [h.entry] at hn
  exact Relation.ReflTransGen.mono (fun a b => h.follows_iff.mp) _ _ hn

theorem SameStream.endsAt_iff (n : NodeId) : r'.endsAt n ↔ r.endsAt n := by
  have hexit : r'.exit = r.exit := by
    unfold exit definition
    rw [h.entry]
    rcases h.node_cases r.entry with ⟨hd, hd'⟩ | ⟨d, d', hd, hd', hkind, -⟩
    · rw [hd, hd']
    · rw [hd, hd']
      simp only [ok_bind, hkind]
  rw [endsAt, endsAt, h.kinds, hexit]

end SameStream

namespace Spills

variable {stack : List Waiting} {es : List Event} {exit : NodeId} {t : Strand}

/-- An event that is no write to a variable added by spilling. -/
def keeps (r : Routine) : Event → Bool
  | .write v => v < r.vars.size
  | _ => true

/-- Only events of new variables are added. -/
theorem filter_ownEvents (h : r.Spills r' S) {d d' : Node} (hd : r.label n = some d)
    (hd' : r'.label n = some d') (stack : List Waiting) :
    (d'.ownEvents stack).filter (keeps r) = (d.ownEvents stack).filter (keeps r) := by
  have hkind : d'.kind = d.kind := by
    have := h.kinds n
    rw [kindOf, kindOf, hd, hd'] at this
    exact Option.some.inj this
  have hdest := h.dest n
  rw [destOf_eq hd, destOf_eq hd'] at hdest
  rw [Node.ownEvents, Node.ownEvents, hkind]
  rcases hdest with heq | ⟨hnone, v, hv, hle, -⟩
  · rw [heq]
  · rw [hnone, hv, filter_append, filter_append]
    congr 1
    split
    · rfl
    · simp [keeps, hle]

/-- The same for the operands of a node. -/
theorem exists_operandEvents {eval eval' : NodeId → List Waiting → Query (List Event)}
    {f : Event → Bool} {args : List Operand} (heval : ∀ n stack es, eval n stack = .ok es →
      ∃ es', eval' n stack = .ok es' ∧ es'.filter f = es.filter f)
    (hes : operandEvents eval args stack = .ok es) :
    ∃ es', operandEvents eval' args stack = .ok es' ∧ es'.filter f = es.filter f := by
  induction args generalizing stack es with
  | nil => exact ⟨es, hes, rfl⟩
  | cons arg args ih =>
    cases arg with
    | lit value => exact ih hes
    | var v =>
      obtain ⟨rest, hrest, hes⟩ := bind_eq_ok_iff.mp hes
      obtain rfl := Except.ok.inj hes
      obtain ⟨rest', hrest', hsame⟩ := ih hrest
      exact ⟨.read v :: rest',
        bind_eq_ok_iff.mpr ⟨rest', hrest', rfl⟩, by rw [filter_cons, filter_cons, hsame]⟩
    | node n =>
      obtain ⟨inner, hinner, hes⟩ := bind_eq_ok_iff.mp hes
      obtain ⟨rest, hrest, hes⟩ := bind_eq_ok_iff.mp hes
      obtain rfl := Except.ok.inj hes
      obtain ⟨inner', hinner', hsame⟩ := heval n _ _ hinner
      obtain ⟨rest', hrest', hsame'⟩ := ih hrest
      exact ⟨inner' ++ rest', bind_eq_ok_iff.mpr ⟨inner', hinner', bind_eq_ok_iff.mpr
        ⟨rest', hrest', rfl⟩⟩, by rw [filter_append, filter_append, hsame, hsame']⟩

/-- Apart from writes to added variables, evaluating a node brings about the same events. -/
theorem exists_evaluationWithin (h : r.Spills r' S) {fuel : Nat}
    (hes : r.evaluationWithin fuel n stack = .ok es) : ∃ es',
    r'.evaluationWithin fuel n stack = .ok es' ∧ es'.filter (keeps r) = es.filter (keeps r) := by
  induction fuel generalizing n stack es with
  | zero => cases hes
  | succ fuel ih =>
    obtain ⟨d, hd, hes⟩ := bind_eq_ok_iff.mp hes
    obtain ⟨operands, hoperands, hes⟩ := bind_eq_ok_iff.mp hes
    obtain rfl := Except.ok.inj hes
    have hlabel := label_eq (node_eq_ok_iff.mp hd)
    obtain ⟨d', hd', hsame'⟩ := h.exists_label hlabel
    obtain ⟨operands', hoperands', hsame⟩ :=
      exists_operandEvents (fun m stack es hm => ih hm) hoperands
    obtain ⟨e, he, rfl⟩ := Option.map_eq_some_iff.mp hd'
    have hargs : e.unlinked.undirected.args = d.unlinked.undirected.args :=
      congrArg Node.args hsame'
    change e.args = d.args at hargs
    refine ⟨operands' ++ e.ownEvents stack, ?_, ?_⟩
    · rw [← hargs] at hoperands'
      exact bind_eq_ok_iff.mpr ⟨e, node_eq_ok_iff.mpr he,
        bind_eq_ok_iff.mpr ⟨operands', hoperands', rfl⟩⟩
    · rw [filter_append, filter_append, hsame]
      congr 1
      exact h.filter_ownEvents hlabel hd' stack

/-- Only events of new variables are added to those of a node. -/
theorem filter_events (h : r.Spills r' S) (hr : r.WellStructured exit t) (hn : n ∈ r.live exit t) :
    (r'.ownEvents n).filter (keeps r) = (r.ownEvents n).filter (keeps r) := by
  have hevents := (hr.events_eq hn []).1
  obtain ⟨es, hes, -⟩ := bind_eq_ok_iff.mp hevents
  have hfuel : r'.nestFuel = r.nestFuel := by rw [nestFuel, nestFuel, h.size]
  obtain ⟨es', hes', hsame⟩ := h.exists_evaluationWithin hes
  rw [ownEvents, ownEvents, hes, evaluation, hfuel, hes']
  exact hsame

end Spills

end Routine

/-! ### Actions -/

namespace Collector

variable {r : Routine} {n m : NodeId} {v : VarId} {w w' : Work} {post : PUnit → Routine → Prop}

/-- Changing a variable that has just been added. -/
theorem alterVar_push (r : Routine) (x : Variable) (count : Nat) (f : Variable → Variable) :
    ({ r with vars := r.vars.push x, nextTmp := count } : Routine).alterVar r.vars.size f =
      { r with vars := r.vars.push (f x), nextTmp := count } := by
  unfold Routine.alterVar
  congr 1
  refine Array.ext_getElem? fun i => ?_
  rw [Array.getElem?_modify, Array.getElem?_push, Array.getElem?_push]
  by_cases hi : i = r.vars.size
  · simp [hi]
  · simp [hi, Ne.symm hi]

theorem alterVar_alter (r : Routine) (n : NodeId) (g : Node → Node) (v : VarId)
    (f : Variable → Variable) : (r.alter n g).alterVar v f = (r.alterVar v f).alter n g := rfl

theorem yields_expose : Yields (expose v) r post ↔ v < r.vars.size ∧ post () (r.expose v) :=
    yields_changeVar

/-- A sub-expression is spilled if it delivers something. -/
theorem yields_spill : Yields (spill m) r post ↔ r.Delivers m ∧ post () (r.spill m) := by
  cases hd : r.nodes[m]? with
  | none => simp [spill, Delivers, Routine.label, hd]
  | some d =>
    have hlabel := Routine.label_eq hd
    have hm : m < r.nodes.size := lt_of_label hlabel
    simp only [spill, yields_bind, yields_node, hd, exists_some_eq, Delivers, hlabel, Routine.spill]
    cases hdest : d.dest with
    | some v => simp [yields_expose, Node.unlinked, hdest]
    | none =>
      simp only [addTmp, expose, setDest, Edit.count, yields_bind, yields_get,
        yields_modify, yields_addVar,
        yields_changeVar, yields_node, hd, exists_some_eq, hdest, yields_changeNode,
        alterVar_push, Array.size_push, alter_vars, hm, Nat.lt_succ_self, true_and]
      simp only [Node.unlinked, hdest, reduceCtorEq, false_implies, implies_true, true_and,
        Option.elim_none, alterVar_alter, alterVar_push]
      exact Iff.rfl

/-- A pass over a list that changes the routine in a known way. -/
theorem routine_of_forM {α : Type} {f : α → Pass Unit} {g : Routine → α → Routine} {l : List α}
    (hf : ∀ a w w', f a w = .ok () w' → w'.routine = g w.routine a) (hok : l.forM f w = .ok () w') :
    w'.routine = l.foldl g w.routine := by
  induction l generalizing w with
  | nil =>
    obtain rfl : w = w' := by injection hok
    rfl
  | cons a l ih =>
    have hyields : Yields ((a :: l).forM f) w fun _ s => s = w' := by rw [Yields, hok]
    rw [List.forM_eq_forM, forM_cons, yields_bind, ← List.forM_eq_forM] at hyields
    obtain ⟨_, w₁, hok₁, hyields⟩ := yields_iff_exists.mp hyields
    obtain ⟨_, w₂, hok₂, rfl⟩ := yields_iff_exists.mp hyields
    rw [foldl_cons, ← hf a w w₁ hok₁]
    exact ih hok₂

/-- It goes through if every change leaves what the others need. -/
theorem exists_forM {α : Type} {f : α → Pass Unit} {l : List α} (inv : Routine → Prop)
    (hf : ∀ a ∈ l, ∀ w : Work, inv w.routine → Yields (f a) w fun _ w' => inv w'.routine)
    (hw : inv w.routine) : ∃ w', l.forM f w = .ok () w' := by
  suffices hyields : Yields (l.forM f) w fun _ _ => True by
    obtain ⟨_, w', hok, -⟩ := yields_iff_exists.mp hyields
    exact ⟨w', hok⟩
  induction l generalizing w with
  | nil => trivial
  | cons a l ih =>
    rw [List.forM_eq_forM, forM_cons, yields_bind, ← List.forM_eq_forM]
    exact (hf a (mem_cons_self ..) w hw).mono fun _ w₁ hw₁ =>
      ih (fun b hb => hf b (mem_cons_of_mem _ hb)) hw₁

theorem routine_of_discover (hok : discover v w = .ok () w') : w'.routine = w.routine.expose v := by
  have hyields : Yields (discover v) w fun _ s => s = w' := by rw [Yields, hok]
  rw [discover, yields_bind, Pass.yields_note, Pass.yields_lift, yields_expose] at hyields
  rw [← hyields.2]

theorem routine_of_spill (hok : (spill m : Pass Unit) w = .ok () w') :
    w'.routine = w.routine.spill m := by
  have hyields : Yields (spill m : Pass Unit) w fun _ s => s = w' := by rw [Yields, hok]
  rw [Pass.yields_lift, yields_spill] at hyields
  rw [← hyields.2]

/-- What the pass does: it marks the variables found, and shows the sub-expressions found to wait.
-/
theorem exists_of_discoverPointers {types : Registry} (hok : discoverPointers types w = .ok () w') :
    ∃ p marked waiting, Problem.ofRoutine types w.routine = .ok p ∧ p.solve = .ok marked ∧
    p.waitingPointers = .ok waiting ∧
      w'.routine = waiting.foldl Routine.spill
      ((marked.members p.routine.vars.size).foldl Routine.expose w.routine) := by
  have hyields : Yields (discoverPointers types) w fun _ s => s = w' := by rw [Yields, hok]
  simp only [discoverPointers, yields_bind, Pass.yields_ask] at hyields
  obtain ⟨p, hp, hyields⟩ := hyields
  obtain ⟨marked, hmarked, hyields⟩ := yields_toAction.mp hyields
  obtain ⟨waiting, hwaiting, hyields⟩ := yields_toAction.mp hyields
  obtain ⟨_, w₁, hok₁, hyields⟩ := yields_iff_exists.mp hyields
  obtain ⟨_, w₂, hok₂, hend⟩ := yields_iff_exists.mp hyields
  simp only [Pass.summarize, Pass.yields_note] at hend
  refine ⟨p, marked, waiting, hp, hmarked, hwaiting, ?_⟩
  have hlast : w₂.routine = _ := routine_of_forM (fun _ _ _ => routine_of_spill) hok₂
  rw [← routine_of_forM (fun _ _ _ => routine_of_discover) hok₁, ← hlast, ← hend]

/-- It goes through if there is an answer to each question, and the variables and sub-expressions
are there. -/
theorem yields_discoverPointers {types : Registry} {p : Problem} {marked : BitSet}
    {waiting : List NodeId} (hp : Problem.ofRoutine types w.routine = .ok p)
    (hmarked : p.solve = .ok marked) (hroutine : p.routine = w.routine)
    (hwaiting : p.waitingPointers = .ok waiting) (hdelivers : ∀ m ∈ waiting, w.routine.Delivers m) :
    Yields (discoverPointers types) w fun _ w' =>
      w'.routine = waiting.foldl Routine.spill
          ((marked.members p.routine.vars.size).foldl Routine.expose w.routine) := by
  simp only [discoverPointers, yields_bind, Pass.yields_ask, hp, Except.ok.injEq, exists_eq_left']
  refine yields_toAction.mpr ⟨marked, hmarked, yields_toAction.mpr ⟨waiting, hwaiting, ?_⟩⟩
  obtain ⟨w₁, hok₁⟩ : ∃ w₁, (marked.members p.routine.vars.size).forM discover w = .ok () w₁ := by
    refine exists_forM (fun r => r.vars.size = w.routine.vars.size) (fun v hv w₁ hw₁ => ?_) rfl
    rw [discover, yields_bind, Pass.yields_note, Pass.yields_lift, yields_expose, hw₁, ← hroutine]
    exact ⟨(BitSet.mem_members.mp hv).1, by rw [size_expose, hw₁, hroutine]⟩
  have hmarks := routine_of_forM (fun _ _ _ => routine_of_discover) hok₁
  have hspills := (Routine.Spills.refl w.routine).exposeAll (marked.members p.routine.vars.size)
  rw [← hmarks] at hspills
  obtain ⟨w₂, hok₂⟩ : ∃ w₂, (waiting.forM fun m => (spill m : Pass Unit)) w₁ = .ok () w₂ := by
    refine exists_forM (fun r => ∃ S, w.routine.Spills r S) (fun m hm w₂ hw₂ => ?_) ⟨_, hspills⟩
    obtain ⟨S, hS⟩ := hw₂
    rw [Pass.yields_lift, yields_spill]
    exact ⟨hS.delivers (hdelivers m hm), _, hS.spill m⟩
  refine yields_iff_exists.mpr ⟨_, w₁, hok₁, yields_iff_exists.mpr ⟨_, w₂, hok₂, ?_⟩⟩
  simp only [Pass.summarize, Pass.yields_note]
  rw [← hmarks]
  exact routine_of_forM (fun _ _ _ => routine_of_spill) hok₂

/-- The stream stays as it is. -/
theorem sameStream_of_discoverPointers {types : Registry}
    (hok : discoverPointers types w = .ok () w') : w.routine.SameStream w'.routine := by
  obtain ⟨p, marked, waiting, -, -, -, hroutine⟩ := exists_of_discoverPointers hok
  rw [hroutine]
  exact (Routine.Spills.all ..).toSameStream

end Collector

end CoroutineIR
