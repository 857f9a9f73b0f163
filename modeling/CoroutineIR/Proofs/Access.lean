import CoroutineIR.Proofs.Edit

/-!
# Counting accesses

The counts of a routine are seen as two functions of the variable. Counting a node without
sub-expressions adds its accesses to them and changes nothing else but which variables are
addressable.
-/

namespace CoroutineIR

variable {d : Node} {v : VarId}

open List Option CoroutineIR.Action Edit Operand

/-- A node none of whose operands is a sub-expression. -/
def Node.Flat (d : Node) : Prop := ∀ a ∈ d.args, a.node? = none

@[simp] theorem Node.accesses_unlinked (d : Node) : d.unlinked.accesses = d.accesses := rfl

@[simp] theorem Node.flat_unlinked (d : Node) : d.unlinked.Flat ↔ d.Flat := Iff.rfl

theorem Node.Flat.no_nodes (h : d.Flat) : d.args.filterMap node? = [] :=
  filterMap_eq_nil_iff.mpr h

/-- A node writes its destination unless it declares storage. -/
theorem Node.write_mem_accesses_iff : (v, Access.write) ∈ d.accesses ↔
    d.dest = some v ∧ d.kind ≠ .declare .storage := by
  unfold Node.accesses
  cases hdest : d.dest with
  | none => simp
  | some u =>
    cases hkind : d.kind with
    | declare role => cases role <;> simp [eq_comm]
    | define | enter | close | branch | call | ret | yield | step | goto | op => simp [eq_comm]

/-- A variable among the operands is read. -/
theorem Node.mem_accesses_of_arg (h : Operand.var v ∈ d.args) : (v, Access.read) ∈ d.accesses := by
  unfold Node.accesses
  refine mem_append_right _ (List.mem_map.mpr ⟨v, ?_, rfl⟩)
  exact mem_filterMap.mpr ⟨_, h, rfl⟩

/-- A variable among the operands is read once less if something that is no variable takes its
place. -/
theorem Node.accesses_set_perm {i : Nat} {op : Operand}
    (harg : d.args[i]? = some (.var v)) (hop : op.var? = none) :
    ((v, Access.read) :: ({ d with args := d.args.set i op } : Node).accesses).Perm d.accesses := by
  obtain ⟨hi, hget⟩ := List.getElem?_eq_some_iff.mp harg
  have hargs : d.args.take i ++ .var v :: d.args.drop (i + 1) = d.args := by
    rw [← hget, getElem_cons_drop, take_append_drop]
  have hreads :
      (v :: (d.args.set i op).filterMap var?).Perm (d.args.filterMap var?) := by
    rw [set_eq_take_append_cons_drop, if_pos hi, ← congrArg (List.filterMap var?) hargs,
      filterMap_append, filterMap_append, filterMap_cons_none hop]
    exact perm_middle.symm
  exact perm_middle.symm.trans ((hreads.map fun u => (u, Access.read)).append_left _)

theorem count_access (v u : VarId) (a b : Access) :
    [(v, a)].count (u, b) = if u = v ∧ b = a then 1 else 0 := by
  by_cases h : u = v ∧ b = a
  · obtain ⟨rfl, rfl⟩ := h
    simp
  · have hne : ((v, a) == (u, b)) = false := by
      rw [beq_eq_false_iff_ne]
      rintro ⟨⟩
      exact h ⟨rfl, rfl⟩
    rw [if_neg h, count_singleton, hne]
    rfl

/-- How often a variable counts as read or as written. -/
def Variable.tally (x : Variable) : Access → Nat
  | .read => x.reads
  | .write => x.writes

/-- A variable without its counts. -/
def Variable.untallied (x : Variable) : Variable := { x with reads := 0, writes := 0 }

namespace Routine

variable {r : Routine} {n : NodeId} {u : VarId} {x : Variable}
    {f : Variable → Variable}

/-- How often a variable counts as read. -/
def readsOf (r : Routine) (v : VarId) : Nat := r.vars[v]?.elim 0 Variable.reads

/-- How often a variable counts as written. -/
def writesOf (r : Routine) (v : VarId) : Nat := r.vars[v]?.elim 0 Variable.writes

theorem readsOf_eq (h : r.vars[v]? = some x) : r.readsOf v = x.reads := by
  simp [readsOf, h]

theorem writesOf_eq (h : r.vars[v]? = some x) : r.writesOf v = x.writes := by
  simp [writesOf, h]

/-- How often a variable counts as read or as written. -/
def tally (r : Routine) (v : VarId) : Access → Nat
  | .read => r.readsOf v
  | .write => r.writesOf v

theorem tally_eq_of_var (h : r.vars[v]? = some x) (access : Access) :
    r.tally v access = x.tally access := by
  cases access with
  | read => exact readsOf_eq h
  | write => exact writesOf_eq h

theorem tally_congr {r' : Routine} (h : r'.vars = r.vars) (v : VarId) (access : Access) :
    r'.tally v access = r.tally v access := by
  cases access <;> simp only [tally, readsOf, writesOf, h]

theorem exists_var_of_tally {access : Access} (h : 0 < r.tally v access) :
    ∃ x, r.vars[v]? = some x := by
  cases hx : r.vars[v]? with
  | none => cases access <;> simp [tally, readsOf, writesOf, hx] at h
  | some x => exact ⟨x, rfl⟩

theorem tally_alterVar (hx : r.vars[v]? = some x) (u : VarId) (access : Access) :
    (r.alterVar v f).tally u access = if u = v then (f x).tally access else r.tally u access := by
  split
  · next hu =>
      exact tally_eq_of_var (by rw [hu, getElem?_alterVar, if_pos rfl, hx, map_some]) access
  · next hu => cases access <;> simp only [tally, readsOf, writesOf, getElem?_alterVar, if_neg hu]

/-- What is known about a variable beyond its counts. -/
def traits (r : Routine) (v : VarId) : Option Variable := r.vars[v]?.map Variable.untallied

theorem traits_alterVar {g : Variable → Variable} (hf : ∀ x, (f x).untallied = g x.untallied) :
    (r.alterVar v f).traits u = if u = v then (r.traits u).map g else r.traits u := by
  simp only [traits, getElem?_alterVar]
  split
  · simp only [Option.map_map]
    congr 1
    exact funext hf
  · rfl

/-- A change of the counts of a variable. -/
theorem traits_alterVar_of_eq (hf : ∀ x, (f x).untallied = x.untallied) (u : VarId) :
    (r.alterVar v f).traits u = r.traits u := by
  rw [traits_alterVar (g := id) hf]
  split <;> simp

/-- The literal a variable is known to hold. -/
def constantOf (r : Routine) (v : VarId) : Option Literal := (r.traits v).bind Variable.constant

/-- The variable another one is folded into. -/
def foldedOf (r : Routine) (v : VarId) : Option VarId := (r.traits v).bind Variable.foldedInto

/-- No pass has found out anything about a variable. -/
def Untouched (r : Routine) : Prop := ∀ v, r.constantOf v = none ∧ r.foldedOf v = none

/-- A change of variables that leaves everything else alone and adds to the counts. -/
structure Adds (r r' : Routine) (all : List (VarId × Access)) : Prop where
  others : { r' with vars := r.vars } = r
  size : r'.vars.size = r.vars.size
  tally_eq : ∀ v access, r'.tally v access = r.tally v access + all.count (v, access)

/-- The routine `r'` is `r` with accesses released. -/
structure Releases (r r' : Routine) (lost : List (VarId × Access)) : Prop where
  adds : r'.Adds r lost
  traits : ∀ v, r'.traits v = r.traits v

theorem Releases.refl (r : Routine) : r.Releases r [] := ⟨⟨rfl, rfl, by simp⟩, fun _ => rfl⟩

namespace Adds

variable {r' r'' : Routine} {all all' : List (VarId × Access)}

theorem refl (r : Routine) : r.Adds r [] := (Releases.refl r).adds

theorem trans (h : r.Adds r' all) (h' : r'.Adds r'' all') : r.Adds r'' (all ++ all') where
  others := (congrArg (fun x : Routine => { x with vars := r.vars }) h'.others).trans h.others
  size := h'.size.trans h.size
  tally_eq v access := by rw [h'.tally_eq, h.tally_eq, count_append, Nat.add_assoc]

theorem symm (h : r.Adds r' []) : r'.Adds r [] where
  others := congrArg (fun x : Routine => { x with vars := r'.vars }) h.others.symm
  size := h.size.symm
  tally_eq v access := (h.tally_eq v access).symm

/-- A change of a variable that leaves its counts alone. -/
theorem alterVar (hv : v < r.vars.size) (hf : ∀ x, (f x).tally = x.tally) :
    r.Adds (r.alterVar v f) [] where
  others := rfl
  size := size_alterVar r v f
  tally_eq u access := by
    have hx := Array.getElem?_eq_getElem hv
    rw [tally_alterVar hx]
    split
    · next hu => rw [hf, hu, tally_eq_of_var hx, count_nil, Nat.add_zero]
    · rfl

variable (h : r.Adds r' all)
include h

theorem nodes : r'.nodes = r.nodes := by rw [← h.others]

theorem entry : r'.entry = r.entry := by rw [← h.others]

theorem mem : r'.mem = r.mem := by rw [← h.others]

theorem nextOf_eq (n : NodeId) : r'.nextOf n = r.nextOf n := by
  rw [nextOf, h.nodes, nextOf]

theorem prevOf_eq (n : NodeId) : r'.prevOf n = r.prevOf n := by
  rw [prevOf, h.nodes, prevOf]

theorem label_eq (n : NodeId) : r'.label n = r.label n := by
  rw [label, h.nodes, label]

end Adds

/-- A change of variables that adds to the counts and finds nothing out. -/
structure Records (r r' : Routine) (all : List (VarId × Access)) : Prop extends r.Adds r' all where
  untouched : r.Untouched → r'.Untouched

theorem Records.refl (r : Routine) : r.Records r [] := ⟨.refl r, id⟩

/-- A change of a variable that leaves its counts and what has been found out about it alone. -/
theorem Records.alterVar (hv : v < r.vars.size) (hf : ∀ x, (f x).tally = x.tally)
    (hsame : ∀ x, (f x).constant = x.constant ∧ (f x).foldedInto = x.foldedInto) :
    r.Records (r.alterVar v f) [] where
  toAdds := .alterVar hv hf
  untouched h u := by
    have hu := h u
    simp only [constantOf, foldedOf, traits, getElem?_alterVar] at hu ⊢
    cases hx : r.vars[u]? with
    | none => simp
    | some x =>
      rw [hx] at hu
      split <;> simpa [Variable.untallied, hsame] using hu

variable (hd : r.nodes[n]? = some d) (hflat : d.Flat)
include hd hflat

/-- What is nested in a node without sub-expressions is the node itself. -/
theorem nested_eq : r.nested n = .ok [n] := by
  simp only [nested, nestFuel, nestedWithin, node_eq_ok_iff.mpr hd, Attempt.ok_bind,
    hflat.no_nodes, mapM_nil, Attempt.pure_eq_ok, flatten_nil]

theorem accesses_eq : r.accesses n = .ok d.accesses := by
  simp [accesses, nested_eq hd hflat, node_eq_ok_iff.mpr hd]

/-- The variables whose address a flat node takes are among its operands. -/
theorem addressed_eq : ∃ vs, r.addressed n = .ok vs ∧ ∀ v ∈ vs, Operand.var v ∈ d.args := by
  by_cases hkind : d.kind = .op .addrOf
  · refine ⟨(d.args.head?.bind var?).toList, ?_, fun v hv => ?_⟩
    · simp [addressed, nested_eq hd hflat, node_eq_ok_iff.mpr hd, hkind]
    simp only [mem_toList] at hv
    obtain ⟨a, ha, hav⟩ := bind_eq_some_iff.mp hv
    cases a with
    | var u =>
      obtain rfl := some.inj hav
      exact mem_of_head? ha
    | lit | node => simp [var?] at hav
  · refine ⟨[], ?_, by simp⟩
    simp [addressed, nested_eq hd hflat, node_eq_ok_iff.mpr hd, hkind]

end Routine

namespace Edit

open Routine

variable {r : Routine} {n : NodeId} {post : PUnit → Routine → Prop}
    {access : Access}

/-- Counting an access is the reverse of releasing it. -/
theorem yields_count (hv : v < r.vars.size) (hpost : ∀ r', r'.Releases r [(v, access)] →
      post () r') : Yields (Edit.count v access) r post := by
  have hx := Array.getElem?_eq_getElem hv
  cases access with
  | read | write =>
    refine yields_changeVar.mpr
      ⟨hv, hpost _ ⟨⟨rfl, size_alterVar r v _, fun u b => ?_⟩, fun u => ?_⟩⟩
    · rw [tally_alterVar hx, count_access]
      by_cases hu : u = v
      · rw [hu, tally_eq_of_var hx]
        cases b <;> simp [Variable.tally]
      · simp [hu]
    · refine (traits_alterVar_of_eq ?_ u).symm
      exact fun _ => rfl

/-- Releasing an access that counts. -/
theorem yields_release (hpos : 0 < r.tally v access)
    (hpost : ∀ r', r.Releases r' [(v, access)] → post () r') :
    Yields (release v access) r post := by
  obtain ⟨x, hx⟩ := exists_var_of_tally hpos
  have hv : v < r.vars.size := (Array.getElem?_eq_some_iff.mp hx).1
  rw [tally_eq_of_var hx] at hpos
  cases access with
  | read | write =>
    simp only [Variable.tally] at hpos
    simp only [release, yields_bind, yields_var, hx, exists_some_eq, Nat.ne_of_gt hpos,
      if_false, yields_changeVar]
    refine ⟨hv, hpost _ ⟨⟨rfl, (size_alterVar r v _).symm, fun u b => ?_⟩,
      traits_alterVar_of_eq fun _ => rfl⟩⟩
    rw [tally_alterVar hx, count_access]
    by_cases hu : u = v
    · rw [hu, tally_eq_of_var hx]
      cases b <;> simp [Variable.tally]
      omega
    · simp [hu]

/-- Dropping the result of a node releases its write. -/
theorem yields_dropDest (hd : r.nodes[n]? = some d)
    (hwritten : ∀ v, d.dest = some v → 0 < r.writesOf v)
    (hpost : ∀ r' : Routine, r'.Adds r (d.dest.toList.map (·, .write)) →
      post () (r'.alter n ({ · with dest := none }))) : Yields (setDest n none) r post := by
  have hn : n < r.nodes.size := (Array.getElem?_eq_some_iff.mp hd).1
  simp only [setDest, yields_bind, yields_node, hd, exists_some_eq]
  cases hdest : d.dest with
  | none =>
    rw [hdest] at hpost
    exact yields_changeNode.mpr ⟨hn, hpost r (.refl r)⟩
  | some v =>
    rw [hdest] at hpost
    have hpos : 0 < r.tally v .write := hwritten v hdest
    rw [yields_bind]
    refine yields_release hpos fun r' hr' => yields_changeNode.mpr ⟨?_, hpost r' hr'.adds⟩
    rwa [← hr'.adds.nodes]

/-- Counting accesses one after the other. -/
theorem yields_countAll {all : List (VarId × Access)} (hall : ∀ a ∈ all, a.1 < r.vars.size)
    (hpost : ∀ r', r.Records r' all → post () r') :
    Yields (all.forM fun (v, access) => Edit.count v access) r post := by
  induction all generalizing r with
  | nil => exact hpost r (.refl r)
  | cons a all ih =>
    rw [List.forM_eq_forM, forM_cons, yields_bind]
    refine yields_count (hall a (by simp)) fun r₁ h₁ => ?_
    rw [← List.forM_eq_forM]
    refine ih (fun b hb => h₁.adds.size ▸ hall b (by simp [hb])) fun r₂ h₂ => ?_
    refine hpost r₂ ⟨by simpa using h₁.adds.trans h₂.toAdds, fun h => h₂.untouched fun u => ?_⟩
    simpa only [constantOf, foldedOf, h₁.traits] using h u

/-- Counting a node adds its accesses. -/
theorem yields_countNode (hd : r.nodes[n]? = some d) (hflat : d.Flat)
    (hvars : ∀ a ∈ d.accesses, a.1 < r.vars.size) (hpost : ∀ r', r.Records r' d.accesses →
      post () r') : Yields (countNode n) r post := by
  obtain ⟨vs, haddressed, hvs⟩ := addressed_eq hd hflat
  unfold countNode
  simp only [yields_bind, yields_ask]
  refine ⟨vs, haddressed, d.accesses, accesses_eq hd hflat, yields_countAll hvars fun r₁ h₁ => ?_⟩
  have hlt : ∀ v ∈ vs, v < r₁.vars.size := fun v hv =>
    h₁.size ▸ hvars _ (Node.mem_accesses_of_arg (hvs v hv))
  clear haddressed hvs
  suffices hmark : ∀ (vs : List VarId) (r₁ : Routine), (∀ v ∈ vs, v < r₁.vars.size) →
      r.Records r₁ d.accesses →
      Yields (vs.forM fun v => changeVar v ({ · with addressable := true })) r₁ post from
    hmark vs r₁ hlt h₁
  intro vs
  induction vs with
  | nil => exact fun r₁ _ h₁ => hpost r₁ h₁
  | cons v vs ih =>
    intro r₁ hlt h₁
    have hv : v < r₁.vars.size := hlt v (by simp)
    rw [List.forM_eq_forM, forM_cons, yields_bind, yields_changeVar, ← List.forM_eq_forM]
    refine ⟨hv, ih _ (fun u hu => ?_) ?_⟩
    · rw [size_alterVar]
      exact hlt u (by simp [hu])
    · have hflag : r₁.Records _ [] :=
        .alterVar (f := ({ · with addressable := true })) hv (fun _ => rfl) fun _ => ⟨rfl, rfl⟩
      exact ⟨by simpa using h₁.toAdds.trans hflag.toAdds, hflag.untouched ∘ h₁.untouched⟩

end Edit

end CoroutineIR
