import CoroutineIR.Proofs.Outline
import CoroutineIR.Proofs.Verify

/-!
# What the builder builds

The builder follows the outline of the calls made so far: its nodes are those of the outline, its
edges are the wires of the outline in the order in which they are laid, and its counts are those of
the nodes. A call either takes the builder to the next outline or is refused and leaves the builder
as it was. When only the body is left open, the wires are those of a strand, so the finished routine
is structured and passes the check.
-/

namespace CoroutineIR

variable {dest : Option VarId} {w : Wire}

open List Option CoroutineIR.Action Strand Node Edit Build Scope Outline

namespace Action

variable {ε σ α β : Type} {x : Action ε σ α} {s : σ} {post : α → σ → Prop} {f : α → Action ε σ β}

/-- The action delivers, and `post` holds of the value and of the state reached, or it is refused
and leaves the state as it was. -/
def Atomic (x : Action ε σ α) (s : σ) (post : α → σ → Prop) : Prop :=
  match x s with
  | .ok a s' => post a s'
  | .error _ s' => s' = s

theorem Yields.atomic (h : x.Yields s post) : x.Atomic s post := by
  obtain ⟨a, s', hx, hpost⟩ := yields_iff_exists.mp h
  simp only [Atomic, hx]
  exact hpost

theorem Atomic.mono {post' : α → σ → Prop} (h : x.Atomic s post)
    (himp : ∀ a s', post a s' → post' a s') : x.Atomic s post' := by
  unfold Atomic at h ⊢
  split at h
  · exact himp _ _ h
  · exact h

theorem atomic_throw {e : Fault ε} : Atomic (throw e : Action ε σ α) s post := rfl

/-- What may be refused comes first. -/
theorem Atomic.bind {post : β → σ → Prop} (h : x.Atomic s fun a s' => (f a).Yields s' post) :
    (x >>= f).Atomic s post := by
  simp only [Atomic, Bind.bind, EStateM.bind] at h ⊢
  cases hx : x s with
  | ok a s' =>
    rw [hx] at h
    obtain ⟨b, t, hf, hpost⟩ := yields_iff_exists.mp h
    simp only [hf]
    exact hpost
  | error e s' =>
    rw [hx] at h
    exact h

/-- A look at the state comes first. -/
theorem Atomic.bind_same {post : β → σ → Prop}
    (h : x.Yields s fun a s' => s' = s ∧ (f a).Atomic s post) : (x >>= f).Atomic s post := by
  obtain ⟨a, s', hx, rfl, hf⟩ := yields_iff_exists.mp h
  simp only [Atomic, Bind.bind, EStateM.bind, hx]
  exact hf

end Action

namespace Edit

open Routine

theorem yields_link {r : Routine} {a b : NodeId} {post : PUnit → Routine → Prop}
    (ha : a < r.nodes.size) (hb : b < r.nodes.size) :
    Yields (link a b) r post ↔ post () (r.joinedBy a b) := by
  simp [link, Routine.joinedBy, ha, hb]

end Edit

namespace Routine

/-- The routine has the given nodes and edges. -/
structure Draws (r : Routine) (contents : List Node) (ws : List Wire) : Prop where
  labels : ∀ n, r.label n = contents[n]?
  linked : r.Linked ws

namespace Draws

variable {r : Routine} {contents : List Node} {ws : List Wire}

variable (h : r.Draws contents ws)
include h

theorem size_eq : r.nodes.size = contents.length := by
  have hiff : ∀ n, n < r.nodes.size ↔ n < contents.length := fun n => by
    rw [← label_isSome, h.labels]
    simp
  have h₁ := hiff contents.length
  have h₂ := hiff r.nodes.size
  omega

theorem of_nodes_eq {r' : Routine} (hnodes : r'.nodes = r.nodes) : r'.Draws contents ws := by
  refine ⟨fun n => ?_, fun n => ?_⟩
  · rw [← h.labels n]
    simp only [label, hnodes]
  · simpa only [Lists, nextOf, prevOf, hnodes] using h.linked n

/-- A node without edges behind the others. -/
theorem withNew {d : Node} (hd : d.unlinked = d) : (r.withNew d).Draws (contents ++ [d]) ws := by
  have hnext : d.next = [] := by rw [← hd]; rfl
  have hprev : d.prev = [] := by rw [← hd]; rfl
  refine ⟨fun n => ?_, fun n => ?_⟩
  · rw [label_withNew, h.labels, hd, h.size_eq]
    rcases Nat.lt_trichotomy n contents.length with hn | rfl | hn
    · rw [if_neg hn.ne, getElem?_append_left hn]
    · simp
    · rw [if_neg hn.ne', getElem?_eq_none hn.le,
        getElem?_eq_none (by simpa using Nat.succ_le_of_lt hn)]
  · rw [Lists, nextOf_withNew, prevOf_withNew, ← (h.linked n).1, ← (h.linked n).2, hnext, hprev]
    by_cases hn : n = r.nodes.size
    · simp [hn, nextOf, prevOf]
    · simp [hn]

theorem joinedBy (hs : w.1.1 < contents.length)
    (ht : w.2.1 < contents.length) : (r.joinedBy w.1.1 w.2.1).Draws contents (ws ++ [w]) := by
  rw [← h.size_eq] at hs ht
  exact ⟨fun n => by rw [label_joinedBy, h.labels], h.linked.joinedBy hs ht⟩

end Draws

/-- The routine has the given nodes and edges and the given number of variables, its counts are
those of the nodes, and no pass has found out anything about a variable. -/
structure Tracks (r : Routine) (contents : List Node) (ws : List Wire) (vars : Nat) : Prop
    extends r.Draws contents ws where
  entry : r.entry = 0
  mem : r.mem = 0
  vars : r.vars.size = vars
  tally : ∀ v access,
    r.tally v access = (if v = 0 then 2 else 0) + (contents.flatMap Node.accesses).count (v, access)
  untouched : r.Untouched

namespace Tracks

variable {r : Routine} {contents : List Node} {ws : List Wire} {vars : Nat}

variable (h : r.Tracks contents ws vars)
include h

/-- A change of variables that leaves the counts alone. -/
theorem of_records {r' : Routine} (hadds : r.Records r' []) : r'.Tracks contents ws vars where
  toDraws := h.toDraws.of_nodes_eq hadds.nodes
  entry := hadds.entry.trans h.entry
  mem := hadds.mem.trans h.mem
  vars := hadds.size.trans h.vars
  tally v access := (hadds.tally_eq v access).trans (h.tally v access)
  untouched := hadds.untouched h.untouched

/-- A variable that no node mentions yet. -/
theorem withVar {x : Variable} (hreads : x.reads = 0) (hwrites : x.writes = 0)
    (hnew : x.constant = none ∧ x.foldedInto = none) (count : Nat) :
    Tracks { r with vars := r.vars.push x, nextTmp := count } contents ws (vars + 1) where
  toDraws := h.toDraws.of_nodes_eq rfl
  entry := h.entry
  mem := h.mem
  vars := by simp [h.vars]
  tally v access := by
    rw [← h.tally v access]
    cases access with
    | read | write =>
      simp only [Routine.tally, readsOf, writesOf, Array.getElem?_push]
      split
      · simp_all
      · rfl
  untouched v := by
    have hv := h.untouched v
    simp only [constantOf, foldedOf, traits, Array.getElem?_push] at hv ⊢
    split
    · exact hnew
    · exact hv

/-- An edge laid. -/
theorem joinedBy (hs : w.1.1 < contents.length)
    (ht : w.2.1 < contents.length) : (r.joinedBy w.1.1 w.2.1).Tracks contents (ws ++ [w]) vars where
  toDraws := h.toDraws.joinedBy hs ht
  entry := h.entry
  mem := h.mem
  vars := h.vars
  tally := h.tally
  untouched := h.untouched

/-- A node that accesses nothing and lies beside the stream. -/
theorem withNew {d : Node} (hd : d.unlinked = d) (haccesses : d.accesses = []) :
    (r.withNew d).Tracks (contents ++ [d]) ws vars where
  toDraws := h.toDraws.withNew hd
  entry := h.entry
  mem := h.mem
  vars := h.vars
  tally v access := by
    rw [flatMap_append, flatMap_singleton, haccesses, append_nil]
    exact h.tally v access
  untouched := h.untouched

/-- An opening node marked. -/
theorem marked (n : NodeId) :
    (r.alter n Node.marked).Tracks (contents.modify n Node.marked) ws vars := by
  have haccesses :
      (contents.modify n Node.marked).flatMap Node.accesses = contents.flatMap Node.accesses := by
    simp only [flatMap_def]
    congr 1
    refine ext_getElem? fun m => ?_
    rw [getElem?_map, getElem?_map, List.getElem?_modify]
    cases contents[m]? with
    | none => rfl
    | some d => by_cases hm : n = m <;> simp [hm, accesses_marked]
  refine ⟨⟨fun m => ?_, fun m => ?_⟩, h.entry, h.mem, h.vars, haccesses ▸ h.tally, h.untouched⟩
  · rw [label_alter (g := Node.marked) (by intro d; rfl), h.labels, List.getElem?_modify]
    by_cases hm : n = m
    · simp [hm]
    · simp [hm, Ne.symm hm]
  · rw [Lists, nextOf_alter_of_eq (by intro d; rfl), prevOf_alter_of_eq (by intro d; rfl)]
    exact h.linked m

end Tracks

end Routine

/-- The builder has followed an outline. -/
structure Builder.Represents (b : Builder) (o : Outline) : Prop where
  coherent : o.Coherent
  tracks : b.routine.Tracks o.contents o.wires o.vars
  opened : b.opened = o.opened
  current : b.current = o.inner.port.1

namespace Build

variable {b : Builder} {contents : List Node} {ws : List Wire} {vars : Nat}

/-- Appending a node lays a wire from the current node to it. -/
theorem yields_append (h : b.routine.Tracks contents ws vars) {p : Port}
    (hcurrent : b.current = p.1) (hp : p.1 < contents.length) {d : Node} (hd : d.unlinked = d)
    (hplain : d.Plain vars) {post : NodeId → Builder → Prop}
    (hpost : ∀ r', r'.Tracks (contents ++ [d]) (ws ++ [(p, (contents.length, 0))]) vars →
      post contents.length ⟨r', b.opened, contents.length⟩) :
    Yields (append d) b post := by
  have hplt : p.1 < (contents ++ [d]).length := by simpa using Nat.lt_succ_of_lt hp
  have hdraws : ((b.routine.withNew d).joinedBy p.1 contents.length).Draws (contents ++ [d])
      (ws ++ [(p, (contents.length, 0))]) :=
    (h.toDraws.withNew hd).joinedBy (w := (p, (contents.length, 0))) hplt (by simp)
  obtain ⟨e, he, hlabel⟩ :
      ∃ e, ((b.routine.withNew d).joinedBy p.1 contents.length).nodes[contents.length]? =
      some e ∧ e.unlinked = d := by
    have hlast := hdraws.labels contents.length
    rw [getElem?_append_right (Nat.le_refl _)] at hlast
    simpa [Routine.label] using hlast
  have haccesses : e.accesses = d.accesses := by rw [← hlabel, accesses_unlinked]
  have hflat : e.Flat := by rw [← flat_unlinked, hlabel]; exact hplain.flat
  have hsize := (h.toDraws.withNew hd).size_eq
  unfold append
  simp only [yields_bind, Build.yields_lift, yields_addNode, yields_get, yields_modify,
    yields_pure, hcurrent, h.size_eq]
  rw [Edit.yields_link (by rwa [hsize]) (by simp [hsize])]
  refine yields_countNode he hflat (fun a ha => ?_) fun r' hadds => ?_
  · rw [haccesses] at ha
    simp only [Routine.joinedBy_vars, Routine.withNew_vars, h.vars]
    exact hplain.accesses_lt a ha
  refine hpost r' ⟨hdraws.of_nodes_eq hadds.nodes, hadds.entry.trans h.entry, hadds.mem.trans h.mem,
    hadds.size.trans h.vars, fun v access => ?_, hadds.untouched h.untouched⟩
  rw [hadds.tally_eq, haccesses, flatMap_append, flatMap_singleton, count_append, ← Nat.add_assoc,
    ← h.tally v access]
  rfl

/-- Marking nodes one after the other. -/
theorem yields_mark_all (h : b.routine.Tracks contents ws vars) {l : List NodeId}
    (hl : ∀ n ∈ l, n < contents.length) {post : PUnit → Builder → Prop}
    (hpost : ∀ r', r'.Tracks (l.foldl (fun c n => c.modify n Node.marked) contents) ws vars →
      post () { b with routine := r' }) :
    Yields (l.forM fun n => (liftM (changeNode n Node.marked) : Build Unit)) b post := by
  induction l generalizing b contents with
  | nil => exact hpost b.routine h
  | cons n l ih =>
    obtain ⟨hn, hl⟩ := forall_mem_cons.mp hl
    simp only [List.forM, yields_bind, yields_lift, yields_changeNode, h.size_eq]
    exact ⟨hn, ih (h.marked n) (by simpa using hl) hpost⟩

theorem foldl_modify_marked (l : List NodeId) :
    l.foldl (fun c n => c.modify n Node.marked) contents =
      contents.mapIdx fun n d => if n ∈ l then d.marked else d := by
  induction l generalizing contents with
  | nil => exact (ext_getElem? fun m => by simp).symm
  | cons n l ih =>
    rw [foldl_cons, ih]
    refine ext_getElem? fun m => ?_
    simp only [getElem?_mapIdx, List.getElem?_modify, mem_cons]
    cases contents[m]? with
    | none => rfl
    | some d =>
      by_cases hm : n = m <;> by_cases hl : m ∈ l <;> simp [hm, hl, marked_marked, eq_comm]

end Build

namespace Builder.Represents

variable {b : Builder} {o : Outline} {n : NodeId}

variable (h : b.Represents o)
include h

/-- The next node is appended to a node of the outline. -/
theorem port_lt : o.inner.port.1 < o.contents.length := by
  refine h.coherent.lt_length (mem_append_left _ ?_)
  rcases o.inner.sofar.exitPort_cases o.inner.source with ⟨n, hn, hport⟩ | ⟨_, hport⟩
  · simp [port, hport, Scope.ids, hn]
  · rw [port, hport]
    simp [Scope.ids, Scope.source]

theorem opener_lt (hn : n ∈ o.opened) : n < o.contents.length := by
  obtain ⟨l, hl, rfl⟩ := List.mem_map.mp hn
  exact h.coherent.lt_length (mem_flatMap.mpr ⟨l, hl, by simp [Scope.ids]⟩)

/-- Appending a node. -/
theorem yields_append {d : Node} (hd : d.unlinked = d) (hcoherent : (o.add d).Coherent) :
    Yields (Build.append d) b fun _ b' => b'.Represents (o.add d) := by
  have hplain : d.Plain o.vars := hcoherent.plain d (by simp [Outline.add])
  refine Build.yields_append h.tracks h.current h.port_lt hd hplain fun r' htracks => ?_
  refine ⟨hcoherent, ?_, h.opened, ?_⟩
  · rw [wires_add]
    exact htracks
  · simp [Outline.add, port, exitPort_append, exitPort]

/-- Marking the open regions. -/
theorem yields_markSuspending : Yields Build.markSuspending b fun _ b' => b'.Represents o.mark := by
  unfold Build.markSuspending
  simp only [yields_bind, yields_get]
  refine yields_mark_all h.tracks (fun n hn => h.opener_lt (h.opened ▸ hn)) fun r' htracks =>
    ?_
  rw [foldl_modify_marked, h.opened] at htracks
  exact ⟨h.coherent.mark, htracks, h.opened, h.current⟩

/-- A variable that no node mentions yet. -/
theorem withVar {x : Variable} (hreads : x.reads = 0) (hwrites : x.writes = 0)
    (hnew : x.constant = none ∧ x.foldedInto = none) (count : Nat) : Represents
    { b with routine := { b.routine with vars := b.routine.vars.push x, nextTmp := count } }
      { o with vars := o.vars + 1 } where
  coherent :=
    { h.coherent with
      plain := fun d hd =>
        { h.coherent.plain d hd with
          accesses_lt :=
            fun a ha => Nat.lt_succ_of_lt ((h.coherent.plain d hd).accesses_lt a ha) } }
  tracks := h.tracks.withVar hreads hwrites hnew count
  opened := h.opened
  current := h.current

/-- A change of variables that leaves the counts alone. -/
theorem of_records {r' : Routine} (hadds : b.routine.Records r' []) :
    Represents { b with routine := r' } o where
  coherent := h.coherent
  tracks := h.tracks.of_records hadds
  opened := h.opened
  current := h.current

/-- The kind of a node of the outline. -/
theorem exists_node {kind : NodeKind} (hkind : o.kinds n = some kind) :
    ∃ d, b.routine.nodes[n]? = some d ∧ d.kind = kind := by
  rw [Outline.kinds, ← h.tracks.labels] at hkind
  obtain ⟨d, hd, hk, _⟩ := Routine.node_of_kindOf hkind
  exact ⟨d, hd, hk⟩

end Builder.Represents

/-! ### One call -/

/-- A node whose operands and destination are in scope. -/
theorem Node.plain_detached {kind : NodeKind} {ty : Option Ty} {args : List Operand} {vars : Nat}
    (hargs : ∀ a ∈ args, a.node? = none ∧ ∀ v, a = .var v → v < vars) (hdest : ∀ v ∈ dest, v < vars)
    (hcond : kind.isConditional = true → args.length = 1) (hjump : ∀ guarded goal,
      kind ≠ .goto guarded goal) : (Node.detached kind dest ty args).Plain vars where
  flat a ha := (hargs a ha).1
  accesses_lt a ha := by
    rcases mem_append.mp ha with ha | ha
    · cases dest with
      | none => simp [Node.detached] at ha
      | some v =>
        have hv := hdest v rfl
        have hav : a.1 = v := by
          simp only [Node.detached] at ha
          split at ha <;> simp at ha <;> grind
        rwa [hav]
    · obtain ⟨v, hv, rfl⟩ := List.mem_map.mp ha
      obtain ⟨x, hx, hxv⟩ := mem_filterMap.mp hv
      cases x with
      | var u =>
        obtain rfl := some.inj hxv
        exact (hargs _ hx).2 _ rfl
      | lit | node => simp [Operand.var?] at hxv
  condition := hcond
  no_jump := hjump

/-- A destination gets a type at most. -/
theorem Build.bindResult_atomic (types : Registry) (sig : Signature) {b : Builder}
    (hdest : ∀ v ∈ dest, v < b.routine.vars.size) :
    (bindResult types dest sig).Atomic b fun _ b' =>
      ∃ r', b.routine.Records r' [] ∧ b' = { b with routine := r' } := by
  unfold bindResult
  cases dest with
  | none => exact ⟨_, Routine.Records.refl _, rfl⟩
  | some v =>
    have hv := hdest v rfl
    refine Atomic.bind_same ?_
    simp only [Build.yields_lift, yields_var]
    refine ⟨b.routine.vars[v], Array.getElem?_eq_getElem hv, trivial, ?_⟩
    split
    · refine Yields.atomic ?_
      simp only [Build.yields_lift, yields_changeVar]
      exact ⟨hv, _, .alterVar (f := ({ · with ty := sig.result })) hv (fun _ => rfl)
        fun _ => ⟨rfl, rfl⟩, rfl⟩
    · exact atomic_throw
    · rename_i declared result _ _
      cases hsame : types.sameType (ε := IrError) declared result with
      | error e => rfl
      | ok same =>
        refine Atomic.bind_same ?_
        simp only [yields_toAction, Except.ok.injEq, exists_eq_left', true_and]
        cases same with
        | true => exact ⟨_, Routine.Records.refl _, rfl⟩
        | false => exact atomic_throw

namespace Builder.Represents

variable {b : Builder} {o : Outline} {args : List Operand}

variable (h : b.Represents o)
include h

/-- A node that neither opens nor closes a region nor branches. -/
theorem yields_plain {kind : NodeKind} (ty : Option Ty)
    (hargs : ∀ a ∈ args, a.node? = none ∧ ∀ v, a = .var v → v < o.vars)
    (hdest : ∀ v ∈ dest, v < o.vars) (hregion : kind.region? = none) (hclose : kind.isClose = false)
    (hbranch : ∀ guarded goal, kind ≠ .branch guarded goal)
    (hjump : ∀ guarded goal, kind ≠ .goto guarded goal) :
    Yields (Build.append (.detached kind dest ty args)) b fun _ b' =>
    b'.Represents (o.add (.detached kind dest ty args)) := by
  refine h.yields_append rfl (h.coherent.add (plain_detached hargs hdest (fun hcond => ?_)
    hjump) hregion hclose fun guarded goal hkind => absurd hkind (hbranch guarded goal))
  cases kind with
  | branch guarded goal => exact absurd rfl (hbranch guarded goal)
  | goto guarded goal => exact absurd rfl (hjump guarded goal)
  | enter form region => simp at hregion
  | define | declare | close | call | ret | yield | step | op => simp at hcond

/-- A call binds its result first and changes nothing if that fails. -/
theorem call_atomic (types : Registry) (form : CallForm) (sig : Signature)
    (hargs : ∀ a ∈ args, a.node? = none ∧ ∀ v, a = .var v →
      v < o.vars) (hdest : ∀ v ∈ dest, v < o.vars) :
    (Build.call types form dest sig args).Atomic b fun _ b' =>
    b'.Represents (o.addCall form dest sig args) := by
  unfold Build.call
  refine Atomic.bind ?_
  have hbind := bindResult_atomic types sig (b := b) (by rwa [h.tracks.vars])
  unfold Atomic at hbind ⊢
  split at hbind
  · obtain ⟨r', hadds, rfl⟩ := hbind
    simp only [yields_bind]
    refine ((h.of_records hadds).yields_plain sig.result hargs hdest rfl rfl (by simp)
      (by simp)).mono fun _ b' hb' => ?_
    unfold Outline.addCall
    by_cases hsuspends : ((NodeKind.call form sig).isPlainCall && sig.suspends) = true
    · simp only [hsuspends, if_true, yields_bind, yields_pure]
      exact hb'.yields_markSuspending
    · simp only [hsuspends, Bool.false_eq_true, if_false, yields_pure]
      exact hb'
  · exact hbind

/-- Opening a region. -/
theorem yields_enter (form : Form) (hargs : ∀ a ∈ args, a.node? = none ∧ ∀ v, a = .var v →
      v < o.vars) (hcond : form = .cond → args.length = 1) :
    Yields (Build.enter form args) b fun _ b' => b'.Represents (o.enter form args) := by
  have hplain :
      (Node.detached (.enter form ⟨o.contents.length + 1, false⟩) none none args).Plain o.vars := by
    refine plain_detached hargs (by simp) (fun hkind => hcond ?_) (by simp)
    cases form with
    | cond => rfl
    | block | loop => simp at hkind
  unfold Build.enter
  simp only [yields_bind, yields_get, h.tracks.size_eq]
  refine Build.yields_append h.tracks h.current h.port_lt rfl hplain fun r' htracks => ?_
  simp only [Build.yields_lift, yields_addNode, yields_modify, yields_pure]
  refine ⟨h.coherent.enter hplain, ?_, by simp [Outline.opened, Outline.enter, h.opened], ?_⟩
  · simpa [Outline.enter, Outline.wires, approach, Scope.wires, openWires] using
      htracks.withNew (d := .bare (.close o.contents.length)) rfl rfl
  · rfl

/-- A branch is refused unless its target is open. -/
theorem branchTo_atomic (target : NodeId) {post : Branch → Builder → Prop}
    (hpost : o.opened.idxOf? target = some (o.branchTo target).depth → post (o.branchTo target) b) :
    (Build.branchTo target).Atomic b post := by
  unfold Build.branchTo
  refine Atomic.bind_same ?_
  simp only [yields_get, true_and, h.opened]
  cases hidx : o.opened.idxOf? target with
  | none => exact atomic_throw
  | some depth =>
    have hdepth : o.branchTo target = ⟨target, depth⟩ := by
      simp [Outline.branchTo, idxOf_eq_getD_idxOf?, hidx]
    rw [hdepth] at hpost
    exact hpost hidx

/-- A branch to an open region. -/
theorem yields_branch {guarded : Bool} {goal : Branch}
    (hgoal : o.opened.idxOf? goal.target = some goal.depth)
    (hargs : ∀ a ∈ args, a.node? = none ∧ ∀ v, a = .var v → v < o.vars)
    (hcond : guarded = true → args.length = 1) :
    Yields (Build.append (.detached (.branch guarded goal) none none args)) b fun _ b' =>
      b'.Represents (o.add (.detached (.branch guarded goal) none none args)) := by
  refine h.yields_append rfl
    (h.coherent.add (plain_detached hargs (by simp) hcond (by simp)) rfl rfl ?_)
  rintro _ _ ⟨rfl, rfl⟩
  exact hgoal

end Builder.Represents

/-! A region under construction has an edge to its closing node once its second arm has been
started. -/

theorem Strand.target_of_openWires {src : Port} {t : Strand} (hw : w ∈ t.openWires src) :
    w.2.1 ∈ t.nodes := by
  have hmem : w ∈ t.wires src (w.2.1 + 1, 0) := by
    rw [wires_eq]
    exact mem_append_left _ hw
  rcases target_of_mem hmem with heq | hmem
  · have := congrArg Prod.fst heq
    simp at this
  · exact hmem

/-- The wires that lead to open regions end at their nodes. -/
theorem target_of_approach {opener : NodeId} {outer : List Scope} (hw : w ∈ approach opener outer) :
    w.2.1 = opener ∨ w.2.1 ∈ outer.flatMap Scope.ids := by
  induction outer generalizing opener with
  | nil => simp [approach] at hw
  | cons l outer ih =>
    simp only [approach, mem_append, mem_singleton] at hw
    rcases hw with (hw | hw) | rfl
    · rcases ih hw with heq | hmem
      · simp [heq, Scope.ids]
      · exact Or.inr (by simp [flatMap_cons, hmem])
    · right
      rw [flatMap_cons]
      refine mem_append_left _ ?_
      rcases mem_append.mp hw with hw | hw
      · cases hfirst : l.first with
        | none => simp [hfirst] at hw
        | some a =>
          simp only [hfirst, elim_some] at hw
          rcases target_of_mem hw with heq | hmem
          · simp [heq, Scope.ids]
          · simp [Scope.ids, hfirst, hmem]
      · simp [Scope.ids, target_of_openWires hw]
    · exact Or.inl rfl

/-- The closing node of the innermost region has no edges until the second arm is started. -/
theorem Outline.Coherent.closer_target_iff {o : Outline} (h : o.Coherent) :
    (∀ w ∈ o.wires, w.2.1 ≠ o.inner.closer) ↔ o.inner.first = none := by
  constructor
  · intro hnone
    cases hfirst : o.inner.first with
    | none => rfl
    | some a =>
      refine absurd rfl (hnone (a.exitPort (o.inner.opener, 0), (o.inner.closer, 0)) ?_)
      refine mem_append_right _ (mem_append_left _ ?_)
      rw [hfirst]
      exact exit_mem_wires _ a _
  · intro hfirst w hw heq
    have hnodup := h.nodup_ids
    simp only [flatMap_cons, Scope.ids, hfirst, elim_none, nil_append, cons_append,
      nodup_cons, mem_cons, mem_append, not_or] at hnodup
    rcases mem_append.mp hw with hw | hw
    · rcases target_of_approach hw with hopen | hmem
      · exact hnodup.1.1 (hopen.symm.trans heq)
      · exact hnodup.2.1.2 (heq ▸ hmem)
    · simp only [Scope.wires, hfirst, elim_none, nil_append] at hw
      exact hnodup.2.1.1 (heq ▸ target_of_openWires hw)

namespace Builder.Represents

variable {b : Builder} {o : Outline} {i : Instruction}

variable (h : b.Represents o)
include h

theorem prevOf_closer_eq_nil_iff : b.routine.prevOf o.inner.closer = [] ↔ o.inner.first = none := by
  rw [← h.coherent.closer_target_iff, (h.tracks.linked _).2, Strand.tails, map_eq_nil_iff,
    wiresTo, filter_eq_nil_iff]
  simp

theorem closer_lt : o.inner.closer < o.contents.length :=
  h.coherent.lt_length (mem_append_left _ (by simp [Scope.ids]))

/-- A wire from the current node to a node of the outline. -/
theorem yields_link {q : Port} (hq : q.1 < o.contents.length) {c : Builder}
    (hc : c.routine = b.routine) {post : PUnit → Builder → Prop}
    (hpost : ∀ r', r'.Tracks o.contents (o.wires ++ [(o.inner.port, q)]) o.vars →
      post () { c with routine := r' }) :
    Yields (liftM (link o.inner.port.1 q.1) : Build PUnit) c post := by
  have hsize := h.tracks.size_eq
  rw [← hc] at hsize
  have htracks := h.tracks
  rw [← hc] at htracks
  rw [Build.yields_lift, Edit.yields_link (by rw [hsize]; exact h.port_lt) (by rwa [hsize])]
  exact hpost _ (htracks.joinedBy (w := (o.inner.port, q)) h.port_lt hq)

/-- A second arm is refused outside of a conditional and after another one. -/
theorem otherwise_atomic : Build.otherwise.Atomic b fun _ b' => b'.Represents o.otherwise := by
  have hopened : b.opened = o.inner.opener :: o.outer.map Scope.opener := h.opened
  obtain ⟨name, sig, suspends, hentry⟩ := h.coherent.entry_kind
  have hnested := h.coherent.nested
  unfold Build.otherwise
  refine Atomic.bind_same ?_
  simp only [yields_get, true_and, hopened]
  refine Atomic.bind_same ?_
  simp only [Build.yields_lift, yields_kind]
  cases houter : o.outer with
  | nil =>
    rw [houter] at hnested
    obtain ⟨d, hd, hkind⟩ := h.exists_node hentry
    refine ⟨d, by rw [hnested.2.1]; exact hd, trivial, ?_⟩
    simp only [hkind]
    exact atomic_throw
  | cons l outer =>
    rw [houter] at hnested
    obtain ⟨_, ⟨form, suspends, hopen, hcond⟩, _⟩ := hnested
    obtain ⟨d, hd, hkind⟩ := h.exists_node hopen
    refine ⟨d, hd, trivial, ?_⟩
    simp only [hkind]
    cases form with
    | block | loop => exact atomic_throw
    | cond =>
      obtain ⟨e, he, _⟩ := h.exists_node h.coherent.nested.fits.closer_kind
      have hempty : e.prev.isEmpty = true ↔ o.inner.first = none := by
        rw [List.isEmpty_iff, ← Routine.prevOf_eq he, h.prevOf_closer_eq_nil_iff]
      refine Atomic.bind_same ?_
      simp only [Build.yields_lift, yields_node]
      refine ⟨e, he, trivial, ?_⟩
      by_cases hfirst : o.inner.first = none
      · have hprev := hempty.mpr hfirst
        refine Yields.atomic ?_
        simp only [hprev, Bool.not_true, Bool.false_eq_true, if_false, yields_bind, yields_get,
          yields_modify, h.current]
        refine h.yields_link (q := (o.inner.closer, 0)) h.closer_lt rfl fun r' htracks => ?_
        refine ⟨h.coherent.otherwise hfirst hopen, ?_, h.opened, ?_⟩
        · rw [wires_otherwise _ hfirst]
          exact htracks
        · rfl
      · have hprev : e.prev.isEmpty = false := by
          rw [← Bool.not_eq_true, hempty]
          exact hfirst
        simp only [hprev, Bool.not_false, if_true]
        exact atomic_throw

/-- Closing is refused once only the body is open. -/
theorem close_atomic : Build.close.Atomic b fun _ b' => b'.Represents o.close ∧ o.outer ≠ [] := by
  have hopened : b.opened = o.inner.opener :: o.outer.map Scope.opener := h.opened
  have hnested := h.coherent.nested
  unfold Build.close
  refine Atomic.bind_same ?_
  simp only [yields_get, true_and, hopened]
  cases houter : o.outer with
  | nil => exact atomic_throw
  | cons l outer =>
    rw [houter] at hnested
    obtain ⟨_, ⟨form, suspends, hopen, _⟩, _⟩ := hnested
    obtain ⟨d, hd, hkind⟩ := h.exists_node hopen
    refine Yields.atomic ?_
    simp only [map_cons, yields_bind, yields_modify, Build.yields_lift, yields_kind]
    refine ⟨d, hd, ?_⟩
    simp only [hkind, NodeKind.partner?, NodeKind.region?, map_some, yields_bind, yields_get,
      yields_modify, h.current]
    refine h.yields_link (q := o.inner.target) h.closer_lt ?_ fun r' htracks => ?_
    · rfl
    refine ⟨⟨h.coherent.close, ?_, ?_, ?_⟩, by simp⟩
    · rw [wires_close _ houter]
      simpa [Outline.close, houter] using htracks
    · simp [Outline.opened, Outline.close, houter]
    · rw [port_close _ houter]

/-- A call that creates a variable never fails. -/
theorem yields_run (types : Registry) (hcreates : i.creates ≠ 0) :
    Yields (i.run types) b fun _ b' => b'.Represents (o.follow i) := by
  cases i with
  | declare role ty name refCounted =>
    simp only [Instruction.run, Build.declare, yields_bind, Build.yields_lift, yields_addVar,
      h.tracks.vars, yields_pure]
    exact (h.withVar rfl rfl ⟨rfl, rfl⟩ b.routine.nextTmp).yields_plain (some ty) (by simp)
      (by simp) rfl rfl (by simp) (by simp)
  | tmp ty =>
    simp only [Instruction.run, Build.tmp, addTmp, yields_bind, Build.yields_lift,
      yields_addVar, yields_get, yields_modify, yields_pure]
    exact h.withVar rfl rfl ⟨rfl, rfl⟩ _
  | assign | call | callIndirect | spawn | spawnIndirect | yieldNow | ret | block | loop | cond
  | otherwise | close | branch | branchIf => exact absurd rfl hcreates

/-- A call that opens a region or stays in one. -/
theorem follow_atomic (types : Registry) (hscoped : i.ScopedIn o.vars) (hopen : i.closes = false) :
    (i.run types).Atomic b fun _ b' => b'.Represents (o.follow i) := by
  obtain ⟨hargs, hdest⟩ := hscoped
  cases i with
  | declare | tmp =>
    refine Yields.atomic (h.yields_run types ?_)
    simp [Instruction.creates]
  | assign dest code ty args =>
    refine Yields.atomic ?_
    simp only [Instruction.run, Build.assign, yields_bind, yields_pure]
    have happend : ∀ r', b.routine.Records r' [] →
        Yields (Build.append (.detached (.op code) dest (some ty) args))
        { b with routine := r' } fun _ b' => b'.Represents (o.follow (.assign dest code ty args)) :=
      fun r' hadds =>
        (h.of_records hadds).yields_plain (some ty) hargs hdest rfl rfl (by simp) (by simp)
    cases dest with
    | none =>
      simp only [yields_bind, yields_pure]
      exact happend b.routine (Routine.Records.refl _)
    | some v =>
      have hv : v < b.routine.vars.size := by
        rw [h.tracks.vars]
        exact hdest v rfl
      simp only [yields_bind, yields_pure, Build.yields_lift, yields_changeVar]
      exact ⟨hv, happend _ (.alterVar hv (fun _ => rfl) fun _ => ⟨rfl, rfl⟩)⟩
  | call dest sig args | callIndirect dest sig args | spawn sig args
  | spawnIndirect dest sig args =>
    exact Atomic.bind (h.call_atomic types _ sig hargs hdest)
  | yieldNow =>
    refine Yields.atomic ?_
    simp only [Instruction.run, Build.yieldNow, yields_bind]
    refine (h.yields_plain none (by simp) (by simp) rfl rfl (by simp) (by simp)).mono
      fun _ b' hb' => ?_
    exact hb'.yields_markSuspending
  | ret args =>
    refine Yields.atomic ?_
    simp only [Instruction.run, Build.ret, yields_bind, yields_pure]
    exact h.yields_plain none hargs (by simp) rfl rfl (by simp) (by simp)
  | block | loop =>
    refine Yields.atomic ?_
    simp only [Instruction.run, yields_bind, yields_pure]
    exact h.yields_enter _ (by simp) (by simp)
  | cond condition =>
    refine Yields.atomic ?_
    simp only [Instruction.run, yields_bind, yields_pure]
    exact h.yields_enter .cond hargs fun _ => rfl
  | otherwise => exact h.otherwise_atomic
  | close => cases hopen
  | branch target =>
    refine Atomic.bind (h.branchTo_atomic target fun hgoal => ?_)
    simp only [yields_bind, yields_pure]
    exact h.yields_branch hgoal (by simp) (by simp)
  | branchIf condition target =>
    refine Atomic.bind (h.branchTo_atomic target fun hgoal => ?_)
    simp only [yields_bind, yields_pure]
    exact h.yields_branch hgoal hargs fun _ => rfl

/-- A call that succeeds leads to the next outline, and a call that fails changes nothing. -/
theorem run_atomic (types : Registry) (hscoped : i.ScopedIn o.vars) :
    (i.run types).Atomic b fun _ b' =>
    b'.Represents (o.follow i) ∧ (i.closes = true → o.outer ≠ []) := by
  cases hcloses : i.closes with
  | false => exact (h.follow_atomic types hscoped hcloses).mono fun _ b' hb' => ⟨hb', nofun⟩
  | true =>
    cases i with
    | close => exact h.close_atomic.mono fun _ b' hb' => ⟨hb'.1, fun _ => hb'.2⟩
    | _ => cases hcloses

end Builder.Represents

end CoroutineIR
