import CoroutineIR.Proofs.Outcome

/-!
# What edits change

A routine is seen through three views: the successors of a node, its predecessors, and its label,
which is everything else about it. Each primitive edit is a function on routines, and changes one
view at one node.
-/

namespace CoroutineIR

open Edit

/-- A node without its edges. -/
def Node.unlinked (d : Node) : Node := { d with next := [], prev := [] }

@[simp] theorem Node.unlinked_kind (d : Node) : d.unlinked.kind = d.kind := rfl

@[simp] theorem Node.unlinked_ty (d : Node) : d.unlinked.ty = d.ty := rfl

@[simp] theorem Node.unlinked_dest (d : Node) : d.unlinked.dest = d.dest := rfl

@[simp] theorem Node.unlinked_args (d : Node) : d.unlinked.args = d.args := rfl

namespace Routine

variable {r : Routine} {n : NodeId} {d : Node}

/-- The successors of a node. A node outside the arena has none. -/
def nextOf (r : Routine) (n : NodeId) : List NodeId := r.nodes[n]?.elim [] Node.next

/-- The predecessors of a node. A node outside the arena has none. -/
def prevOf (r : Routine) (n : NodeId) : List NodeId := r.nodes[n]?.elim [] Node.prev

/-- Everything about a node but its edges. -/
def label (r : Routine) (n : NodeId) : Option Node := r.nodes[n]?.map Node.unlinked

/-- The routine with one node replaced by its image. -/
def alter (r : Routine) (n : NodeId) (f : Node → Node) : Routine :=
  { r with nodes := r.nodes.modify n f }

/-- The routine with one variable replaced by its image. -/
def alterVar (r : Routine) (v : VarId) (f : Variable → Variable) : Routine :=
  { r with vars := r.vars.modify v f }

/-- The routine with one more node. -/
def withNew (r : Routine) (d : Node) : Routine := { r with nodes := r.nodes.push d }

theorem nextOf_eq (h : r.nodes[n]? = some d) : r.nextOf n = d.next := by
  simp [nextOf, h]

theorem prevOf_eq (h : r.nodes[n]? = some d) : r.prevOf n = d.prev := by
  simp [prevOf, h]

theorem label_eq (h : r.nodes[n]? = some d) : r.label n = some d.unlinked := by
  simp [label, h]

/-- A node with a label is in the arena, with the edges the other views show. -/
theorem node_of_label (h : r.label n = some d) :
    r.nodes[n]? = some { d with next := r.nextOf n, prev := r.prevOf n } := by
  obtain ⟨e, he, rfl⟩ := Option.map_eq_some_iff.mp h
  simp [nextOf, prevOf, he, Node.unlinked]

theorem lt_of_label (h : r.label n = some d) : n < r.nodes.size := by
  obtain ⟨hlt, _⟩ := Array.getElem?_eq_some_iff.mp (node_of_label h)
  exact hlt

/-- What is asked of all labels is found out by looking at the arena. -/
instance decidableLabels {P : NodeId → Node → Prop} [∀ n e, Decidable (P n e)] :
    Decidable (∀ n e, r.label n = some e → P n e) :=
  decidable_of_iff (∀ n < r.nodes.size, ∀ e ∈ r.label n, P n e)
    ⟨fun h n e he => h n (lt_of_label he) e he, fun h n _ e he => h n e he⟩

theorem label_isSome : (r.label n).isSome ↔ n < r.nodes.size := by
  simp [label]

section Views

variable (r : Routine) (n m : NodeId) (f : Node → Node) (v : VarId) (g : Variable → Variable)

@[simp] theorem alter_vars : (r.alter n f).vars = r.vars := rfl

@[simp] theorem size_alter : (r.alter n f).nodes.size = r.nodes.size := by
  simp [alter]

theorem getElem?_alter :
    (r.alter n f).nodes[m]? = if m = n then r.nodes[m]?.map f else r.nodes[m]? := by
  simp [alter, Array.getElem?_modify, eq_comm]

@[simp] theorem size_alterVar : (r.alterVar v g).vars.size = r.vars.size := by
  simp [alterVar]

theorem getElem?_alterVar (u : VarId) :
    (r.alterVar v g).vars[u]? = if u = v then r.vars[u]?.map g else r.vars[u]? := by
  simp [alterVar, Array.getElem?_modify, eq_comm]

@[simp] theorem withNew_vars (d : Node) : (r.withNew d).vars = r.vars := rfl

@[simp] theorem size_withNew (d : Node) : (r.withNew d).nodes.size = r.nodes.size + 1 := by
  simp [withNew]

theorem getElem?_withNew (d : Node) :
    (r.withNew d).nodes[m]? = if m = r.nodes.size then some d else r.nodes[m]? := by
  simp [withNew, Array.getElem?_push]

theorem nextOf_withNew (d : Node) :
    (r.withNew d).nextOf m = if m = r.nodes.size then d.next else r.nextOf m := by
  simp only [nextOf, getElem?_withNew]
  split <;> rfl

theorem prevOf_withNew (d : Node) :
    (r.withNew d).prevOf m = if m = r.nodes.size then d.prev else r.prevOf m := by
  simp only [prevOf, getElem?_withNew]
  split <;> rfl

theorem label_withNew (d : Node) :
    (r.withNew d).label m = if m = r.nodes.size then some d.unlinked else r.label m := by
  simp only [label, getElem?_withNew]
  split <;> rfl

variable {r n m f}

theorem nextOf_alter {g : List NodeId → List NodeId} (hf : ∀ d, (f d).next = g d.next)
    (hn : n < r.nodes.size) :
    (r.alter n f).nextOf m = if m = n then g (r.nextOf m) else r.nextOf m := by
  simp only [nextOf, getElem?_alter]
  split
  · subst m
    simp [hn, hf]
  · rfl

theorem prevOf_alter {g : List NodeId → List NodeId} (hf : ∀ d, (f d).prev = g d.prev)
    (hn : n < r.nodes.size) :
    (r.alter n f).prevOf m = if m = n then g (r.prevOf m) else r.prevOf m := by
  simp only [prevOf, getElem?_alter]
  split
  · subst m
    simp [hn, hf]
  · rfl

theorem label_alter {g : Node → Node} (hf : ∀ d, (f d).unlinked = g d.unlinked) :
    (r.alter n f).label m = if m = n then (r.label m).map g else r.label m := by
  simp only [label, getElem?_alter]
  split
  · simp only [Option.map_map]
    congr 1
    exact funext hf
  · rfl

/-- An edit that leaves the successors of nodes alone. -/
theorem nextOf_alter_of_eq (hf : ∀ d, (f d).next = d.next) :
    (r.alter n f).nextOf m = r.nextOf m := by
  simp only [nextOf, getElem?_alter]
  split
  · cases r.nodes[m]? <;> simp [hf]
  · rfl

/-- An edit that leaves the predecessors of nodes alone. -/
theorem prevOf_alter_of_eq (hf : ∀ d, (f d).prev = d.prev) :
    (r.alter n f).prevOf m = r.prevOf m := by
  simp only [prevOf, getElem?_alter]
  split
  · cases r.nodes[m]? <;> simp [hf]
  · rfl

/-- An edit that leaves the labels of nodes alone. -/
theorem label_alter_of_eq (hf : ∀ d, (f d).unlinked = d.unlinked) :
    (r.alter n f).label m = r.label m := by
  simp only [label, getElem?_alter]
  split
  · cases r.nodes[m]? <;> simp [hf]
  · rfl

theorem alter_alter (r : Routine) (n : NodeId) (f g : Node → Node) :
    (r.alter n f).alter n g = r.alter n (g ∘ f) := by
  simp only [alter]
  congr 1
  refine Array.ext_getElem? fun i => ?_
  simp only [Array.getElem?_modify]
  split
  · rw [Option.map_map]
  · rfl

/-- A node without edges, or one outside the arena. -/
def Detached (r : Routine) (n : NodeId) : Prop := r.nextOf n = [] ∧ r.prevOf n = []

instance : Decidable (r.Detached n) := inferInstanceAs (Decidable (_ ∧ _))

/-- An edit that adds no edges to a node that has none. -/
theorem Detached.alter (h : r.Detached m)
    (hf : ∀ d : Node, m = n → d.next = [] → d.prev = [] → (f d).next = [] ∧ (f d).prev = []) :
    (r.alter n f).Detached m := by
  unfold Detached nextOf prevOf at *
  rw [getElem?_alter]
  split
  · cases hd : r.nodes[m]? with
    | none => exact ⟨rfl, rfl⟩
    | some d =>
      rw [hd] at h
      exact hf d (by assumption) h.1 h.2
  · exact h

/-- An edit that changes no edges. -/
theorem Detached.alter_of_eq (h : r.Detached m)
    (hf : ∀ d : Node, (f d).next = d.next ∧ (f d).prev = d.prev) : (r.alter n f).Detached m :=
  h.alter fun d _ hnext hprev => ⟨(hf d).1.trans hnext, (hf d).2.trans hprev⟩

theorem Detached.withNew (h : r.Detached m) (hm : m < r.nodes.size) (d : Node) :
    (r.withNew d).Detached m := by
  unfold Detached
  rw [nextOf_withNew, prevOf_withNew, if_neg (Nat.ne_of_lt hm), if_neg (Nat.ne_of_lt hm)]
  exact h

end Views

theorem node_eq_ok_iff : r.node n = .ok d ↔ r.nodes[n]? = some d := Arena.fetch_eq_ok_iff

theorem var_eq_ok_iff {v : VarId} {d : Variable} : r.var v = .ok d ↔ r.vars[v]? = some d :=
    Arena.fetch_eq_ok_iff

theorem withNode_eq (r : Routine) (n : NodeId) (f : Node → Node) :
    r.withNode n f = if n < r.nodes.size then .ok (r.alter n f) else .abort .missing := by
  unfold withNode Arena.update
  split <;> rfl

theorem withVar_eq (r : Routine) (v : VarId) (f : Variable → Variable) :
    r.withVar v f = if v < r.vars.size then .ok (r.alterVar v f) else .abort .missing := by
  unfold withVar Arena.update
  split <;> rfl

end Routine

namespace Edit

open CoroutineIR.Action Routine

variable {r : Routine} {n : NodeId} {v : VarId} {f : Node → Node} {post : PUnit → Routine → Prop}
    {inv : Routine → Prop}

@[simp] theorem yields_node {post : Node → Routine → Prop} :
    Yields (Edit.node n) r post ↔ ∃ d, r.nodes[n]? = some d ∧ post d r := by
  simp [Edit.node, node_eq_ok_iff]

@[simp] theorem yields_var {post : Variable → Routine → Prop} :
    Yields (Edit.var v) r post ↔ ∃ d, r.vars[v]? = some d ∧ post d r := by
  simp [Edit.var, var_eq_ok_iff]

@[simp] theorem yields_kind {post : NodeKind → Routine → Prop} :
    Yields (Edit.kind n) r post ↔ ∃ d, r.nodes[n]? = some d ∧ post d.kind r := by
  simp [Edit.kind]

@[simp] theorem yields_firstNext {post : Option NodeId → Routine → Prop} :
    Yields (Edit.firstNext n) r post ↔ ∃ d, r.nodes[n]? = some d ∧ post d.firstNext r := by
  simp [Edit.firstNext]

@[simp] theorem yields_changeNode : Yields (Edit.changeNode n f) r post ↔ n < r.nodes.size ∧ post ()
    (r.alter n f) := by
  by_cases h : n < r.nodes.size
  · simp [Edit.changeNode, withNode_eq, h]
  · simp [Edit.changeNode, withNode_eq, h, Attempt.abort]

@[simp] theorem yields_setKind {kind : NodeKind} : Yields (setKind n kind) r post ↔
      n < r.nodes.size ∧ post () (r.alter n ({ · with kind })) := by
  simp [setKind]

@[simp] theorem yields_changeVar {f : Variable → Variable} :
    Yields (Edit.changeVar v f) r post ↔ v < r.vars.size ∧ post () (r.alterVar v f) := by
  by_cases h : v < r.vars.size
  · simp [Edit.changeVar, withVar_eq, h]
  · simp [Edit.changeVar, withVar_eq, h, Attempt.abort]

@[simp] theorem yields_addNode {d : Node} {post : NodeId → Routine → Prop} :
    Yields (addNode d) r post ↔ post r.nodes.size (r.withNew d) := by
  simp [addNode, withNew]

@[simp] theorem yields_addVar {d : Variable} {post : VarId → Routine → Prop} :
    Yields (addVar d) r post ↔ post r.vars.size { r with vars := r.vars.push d } := by
  simp [addVar]

end Edit

end CoroutineIR
