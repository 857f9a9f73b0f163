import CoroutineIR.Proofs.Constants

/-!
# Folding a node

What the propagation of constants does at a node: a definition is taken out, and its variable has a
known value; any other node gets the numbers its operands are known to hold, and is replaced by its
value if it can be evaluated. It may only break off where an operation has no value because the
width of its type is no size.
-/

namespace CoroutineIR

open List Option CoroutineIR.Action Folding Edit Operand

namespace Routine

variable {exit n : NodeId} {target : Target} {a b : Routine × Strand}

namespace Refines

variable (h : Refines target exit a b)
include h

theorem entry_eq : b.1.entry = a.1.entry := by
  cases h with
  | drop h => exact h.bypasses.entry
  | fill h => exact h.entry
  | evaluate h => exact h.entry

theorem sublist : b.2.nodes.Sublist a.2.nodes := by
  cases h with
  | drop h => exact h.bypasses.sub
  | fill | evaluate => exact Sublist.refl _

/-- Only definitions leave the stream. -/
theorem mem_new (hn : n ∈ a.1.live exit a.2) :
    n ∈ b.1.live exit b.2 ∨ ∃ code, a.1.kindOf n = some (.op code) ∧ Evaluable target code := by
  cases h with
  | @drop r r' t t' d p s e v c h hlit =>
    by_cases heq : n = d
    · subst heq
      refine Or.inr ?_
      rcases (literal?_eq_some hlit).2 with hkind | hkind
      · exact ⟨.const, by rw [h.kindOf_def, hkind], Or.inl rfl⟩
      · exact ⟨.copy, by rw [h.kindOf_def, hkind], Or.inr (Or.inl rfl)⟩
    · exact Or.inl (h.bypasses.mem_new hn heq)
  | fill h | evaluate h =>
    refine Or.inl ?_
    rw [live, h.entry]
    exact hn

end Refines

namespace Refinements

variable (h : Refinements target exit a b)
include h

theorem wellStructured (ha : a.1.WellStructured exit a.2) : b.1.WellStructured exit b.2 := by
  induction h with
  | refl => exact ha
  | tail _ hstep ih => exact hstep.wellStructured ih

/-- A variable whose value has become known is not written any more. -/
theorem writesOf_eq_zero (_ : a.1.WellStructured exit a.2) {v : VarId}
    (hv : b.1.constantOf v ≠ a.1.constantOf v) : b.1.writesOf v = 0 := by
  induction h with
  | refl => exact absurd rfl hv
  | tail _ hstep ih =>
    rcases hstep.var_cases v with ⟨hsame, hwrites⟩ | ⟨-, -, hzero, -⟩
    · exact hwrites.trans (ih (hsame ▸ hv))
    · exact hzero

theorem foldable (ha : a.1.Foldable exit a.2) : b.1.Foldable exit b.2 := by
  induction h with
  | refl => exact ha
  | tail _ hstep ih => exact hstep.foldable ih

theorem entry_eq : b.1.entry = a.1.entry := by
  induction h with
  | refl => rfl
  | tail _ hstep ih => exact hstep.entry_eq.trans ih

theorem sublist : b.2.nodes.Sublist a.2.nodes := by
  induction h with
  | refl => exact Sublist.refl _
  | tail _ hstep ih => exact hstep.sublist.trans ih

/-- What can be evaluated could be evaluated before. -/
theorem evaluable {code : Opcode} (hkind : b.1.kindOf n = some (.op code))
    (hcode : Evaluable target code) : ∃ code, a.1.kindOf n = some (.op code) ∧
    Evaluable target code := by
  induction h generalizing code with
  | refl => exact ⟨code, hkind, hcode⟩
  | tail _ hstep ih =>
    rcases hstep.kindOf_cases n with hsame | ⟨code', hkind', hcode', -⟩
    · exact ih (hsame.symm.trans hkind) hcode
    · exact ih hkind' hcode'

/-- A node does what it did, or delivers what it did. -/
theorem kindOf_cases (n : NodeId) : b.1.kindOf n = a.1.kindOf n ∨
    a.1.Reduced b.1 n ∧ ∃ code, a.1.kindOf n = some (.op code) ∧ Evaluable target code := by
  by_cases hsame : b.1.kindOf n = a.1.kindOf n
  · exact Or.inl hsame
  refine Or.inr ?_
  have hchanged : b.1.kindOf n = some (.op .const) := by
    induction h with
    | refl => exact absurd rfl hsame
    | tail _ hstep ih =>
      rcases hstep.kindOf_cases n with heq | ⟨-, -, -, hconst⟩
      · exact heq.trans (ih fun h => hsame (heq.trans h))
      · exact hconst
  exact ⟨⟨hchanged, fun hconst => hsame (hchanged.trans hconst.symm)⟩,
    h.evaluable hchanged (Or.inl rfl)⟩

/-- Only operations that can be evaluated leave the stream. -/
theorem mem_new (hn : n ∈ a.1.live exit a.2) :
    n ∈ b.1.live exit b.2 ∨ ∃ code, a.1.kindOf n = some (.op code) ∧ Evaluable target code := by
  induction h with
  | refl => exact Or.inl hn
  | tail hrun hstep ih =>
    rcases ih with hmem | hgone
    · rcases hstep.mem_new hmem with hmem | ⟨code, hkind, hcode⟩
      · exact Or.inl hmem
      · exact Or.inr (evaluable hrun hkind hcode)
    · exact Or.inr hgone

end Refinements

end Routine

/-- The types whose size depends on the target have a width. -/
def Target.Sized (target : Target) : Prop :=
  (0 < target.intSize ∧ target.intSize * 8 < Size.limit) ∧ 0 < target.ptrSize ∧
    target.ptrSize * 8 < Size.limit

theorem Target.Sized.size {target : Target} (h : target.Sized) (s : Scalar) :
    0 < s.size target ∧ s.size target * 8 < Size.limit := by
  obtain ⟨hint, hptr⟩ := h
  cases s <;> simp only [Scalar.size] <;> first | exact hint | exact hptr | decide

namespace Routine

variable {r r₁ r₂ r' : Routine} {exit n : NodeId} {t t' : Strand} {e e₁ e₂ : Node} {v : VarId}
    {c : Literal}

namespace Relabels

theorem refl (he : r.label n = some e) : r.Relabels r n e e where
  size := rfl
  entry := rfl
  mem := rfl
  next _ := rfl
  prev _ := rfl
  label := he
  labels m := by
    split
    · rename_i hm
      rw [hm, he]
    · rfl
  vars := rfl
  traits _ := rfl
  tally _ _ := rfl
  kind := .refl _
  length _ := rfl

/-- A node that gets another label twice. -/
theorem trans (h : r.Relabels r₁ n e e₁) (h' : r₁.Relabels r₂ n e₁ e₂) : r.Relabels r₂ n e e₂ where
  size := h'.size.trans h.size
  entry := h'.entry.trans h.entry
  mem := h'.mem.trans h.mem
  next m := (h'.next m).trans (h.next m)
  prev m := (h'.prev m).trans (h.prev m)
  label := h.label
  labels m := by
    rw [h'.labels, h.labels]
    split <;> rfl
  vars := h'.vars.trans h.vars
  traits u := (h'.traits u).trans (h.traits u)
  tally u access := by
    have htally := h.tally u access
    have htally' := h'.tally u access
    omega
  kind := by
    rcases h.kind with heq | ⟨code, code', hcode, hcode'⟩
    · rw [← heq]
      exact h'.kind
    · rcases h'.kind with heq | ⟨-, code₂, -, hcode₂⟩
      · exact Or.inr ⟨code, code', hcode, heq.trans hcode'⟩
      · exact Or.inr ⟨code, code₂, hcode, hcode₂⟩
  length hcond := by
    have hkind : e₁.kind = e.kind := by
      rcases h.kind with heq | ⟨code, -, hcode, -⟩
      · exact heq
      · simp [hcode] at hcond
    exact (h'.length (by rwa [hkind])).trans (h.length hcond)

end Relabels

/-- A node labelled `e` is a definition that can be folded away. -/
structure Determines (r : Routine) (e : Node) (v : VarId) (c : Literal) : Prop where
  dest : e.dest = some v
  literal : literal? e = some c
  once : r.writesOf v = 1
  quiet : r.addressableAt v = false

/-- The definition `n`, labelled `e`, is taken out, and the value of its variable is known. -/
structure Folds (r r' : Routine) (exit : NodeId) (t t' : Strand) (n : NodeId) (e : Node) (v : VarId)
    (c : Literal) : Prop extends r.Determines e v c where
  drops : ∃ p s, r.Drops r' exit t t' n e p s
  constants : ∀ u, r'.constantOf u = if u = v then some c else r.constantOf u
  addressable : ∀ u, r'.addressableAt u = r.addressableAt u
  folded : ∀ u, r'.foldedOf u = r.foldedOf u

end Routine

namespace Folding

open Routine

variable {exit n : NodeId} {t : Strand} {w : Work} {e : Node} {target : Target}
    {options : Options} {r : Routine}

/-- An operand, with the number its variable is known to hold in the place of the variable. -/
def fillIn (known : VarId → Option Literal) : Operand → Operand
  | .var v => ((known v).filter Literal.isNumeric).elim (.var v) .lit
  | arg => arg

/-- A node with known numbers for operands. -/
def filled (known : VarId → Option Literal) (e : Node) : Node :=
    { e with args := e.args.map (fillIn known) }

/-- The definition of its value that an operation becomes. -/
def reduced (e : Node) (x : Literal) : Node := { e with kind := .op .const, args := [.lit x] }

variable (hr : r.WellStructured exit t) (hn : n ∈ r.live exit t) (he : r.label n = some e)
include hr hn he

/-- Looking for a definition. -/
theorem definition?_eq : ∃ found, definition? r n = .ok found ∧ ∀ v c, found = some (v, c) ↔
    r.Determines e v c := by
  have hnode := node_eq_ok_iff.mpr (node_of_label he)
  have hliteral : literal? { e with next := r.nextOf n, prev := r.prevOf n } = literal? e := rfl
  simp only [definition?, hnode, Attempt.ok_bind, hliteral]
  cases hdest : e.dest with
  | none =>
    exact ⟨none, rfl, fun v c => ⟨fun h => (by cases h), fun h => (by simp [h.dest] at hdest)⟩⟩
  | some v =>
    cases hlit : literal? e with
    | none =>
      exact ⟨none, rfl, fun v c => ⟨fun h => (by cases h), fun h => (by simp [h.literal] at hlit)⟩⟩
    | some c =>
      have hone := hr.count_le hn he v .write
      rw [accesses_of_literal hlit hdest, count_singleton_self] at hone
      obtain ⟨x, hx⟩ := exists_var_of_tally hone
      have hwrites : r.writesOf v = x.writes := writesOf_eq hx
      have haddressable : r.addressableAt v = x.addressable := by
        rw [addressableAt, traits, hx]
        rfl
      simp only [var_eq_ok_iff.mpr hx, Attempt.ok_bind]
      refine ⟨_, rfl, fun v' c' => ?_⟩
      constructor
      · intro h
        split at h
        · rename_i hfolds
          obtain ⟨rfl, rfl⟩ := Prod.mk.inj (some.inj h)
          simp only [Bool.and_eq_true, decide_eq_true_eq, Bool.not_eq_true'] at hfolds
          exact ⟨hdest, hlit, hwrites.trans hfolds.1, haddressable.trans hfolds.2⟩
        · cases h
      · intro h
        obtain rfl : v = v' := some.inj (hdest.symm.trans h.dest)
        obtain rfl : c = c' := some.inj (hlit.symm.trans h.literal)
        rw [if_pos]
        simp [← hwrites, ← haddressable, h.once, h.quiet]

omit hr hn he in
/-- Folding a definition away. -/
theorem yields_foldDefinition (hr : w.routine.WellStructured exit t)
    (hn : n ∈ w.routine.live exit t) (he : w.routine.label n = some e) :
    Yields (foldDefinition n) w fun folded w' =>
      if folded then ∃ t' v c, w.routine.Folds w'.routine exit t t' n e v c
      else w' = w ∧ ∀ v c, ¬w.routine.Determines e v c := by
  obtain ⟨found, hfound, hspec⟩ := definition?_eq hr hn he
  simp only [foldDefinition, yields_bind, Pass.yields_ask]
  refine ⟨found, hfound, ?_⟩
  cases found with
  | none => exact yields_pure.mpr ⟨rfl, fun v c h => by cases (hspec v c).mpr h⟩
  | some found =>
    obtain ⟨v, c⟩ := found
    obtain ⟨hdest, hlit, honce, hquiet⟩ := (hspec v c).mp rfl
    have hpos : 0 < w.routine.tally v .write := by
      show 0 < w.routine.writesOf v
      omega
    obtain ⟨x, hx⟩ := exists_var_of_tally hpos
    have hv : v < w.routine.vars.size := (Array.getElem?_eq_some_iff.mp hx).1
    let known : Variable → Variable := fun x => { x with constant := some c }
    have hknown : w.routine.Adds (w.routine.alterVar v known) [] := .alterVar hv fun _ => rfl
    have hpos' : 0 < (w.routine.alterVar v known).tally v .write := by
      rw [hknown.tally_eq]
      exact Nat.lt_of_lt_of_le hpos (Nat.le_add_right _ _)
    simp only [yields_bind, Pass.yields_note, Pass.yields_lift, yields_changeVar, yields_pure]
    refine ⟨hv, yields_release hpos' fun r₁ hreleases => ?_⟩
    have hadds : r₁.Adds w.routine e.accesses := by
      rw [accesses_of_literal hlit hdest]
      exact hreleases.adds.trans hknown.symm
    have hplain : e.kind.isPlain = true := by
      rcases (literal?_eq_some hlit).2 with hkind | hkind <;> rw [hkind] <;> rfl
    refine yields_drop hr hn he hplain hadds fun r' t' p s hdrops htraits => ?_
    have htraits' : ∀ u, r'.traits u = if u = v then (w.routine.traits u).map known
        else w.routine.traits u := fun u =>
      (htraits u).trans ((hreleases.traits u).trans (traits_alterVar fun _ => rfl))
    simp only [if_true]
    refine ⟨t', v, c, ⟨hdest, hlit, honce, hquiet⟩, ⟨p, s, hdrops⟩,
      fun u => ?_, fun u => ?_, fun u => ?_⟩
    · rw [constantOf, htraits']
      split
      · rename_i huv
        rw [huv, traits, hx]
        rfl
      · rfl
    · rw [addressableAt, htraits']
      split
      · rw [Option.any_map]
        rfl
      · rfl
    · rw [foldedOf, htraits']
      split
      · rw [bind_map]
        rfl
      · rfl

/-- Filling in one operand. -/
theorem yields_propagateInto (index : ℕ) : Yields (propagateInto n index) r fun _ r' =>
      Refinements target exit (r, t) (r', t) ∧
      r.Relabels r' n e { e with args := e.args.modify index (fillIn r.constantOf) } ∧
      (filled r.constantOf e = e → r' = r) := by
  -- where nothing is known the operand stays
  have hsame : (∀ arg, e.args[index]? = some arg → fillIn r.constantOf arg = arg) →
      Refinements target exit (r, t) (r, t) ∧
        r.Relabels r n e { e with args := e.args.modify index (fillIn r.constantOf) } ∧
        (filled r.constantOf e = e → r = r) := fun hfix => by
    have hargs : e.args.modify index (fillIn r.constantOf) = e.args := by
      refine ext_getElem? fun k => ?_
      rw [List.getElem?_modify]
      cases harg : e.args[k]? with
      | none => rfl
      | some arg =>
        by_cases hk : index = k
        · subst hk
          simp [hfix arg harg]
        · simp [hk]
    rw [hargs]
    exact ⟨.refl, .refl he, fun _ => rfl⟩
  simp only [propagateInto, yields_bind, yields_node, node_of_label he, exists_some_eq]
  split
  · rename_i v harg
    obtain ⟨x, hx⟩ : ∃ x, r.vars[v]? = some x := by
      have hread : (v, Access.read) ∈ e.accesses := Node.mem_accesses_of_arg (mem_of_getElem? harg)
      exact exists_var_of_tally
        (Nat.lt_of_lt_of_le (count_pos_iff.mpr hread) (hr.count_le hn he v .read))
    have hconstantOf : r.constantOf v = x.constant := by
      rw [constantOf, traits, hx]
      rfl
    simp only [yields_bind, yields_var, hx, exists_some_eq]
    cases hconstant : x.constant with
    | none =>
      refine yields_pure.mpr (hsame fun arg harg' => ?_)
      obtain rfl : .var v = arg := some.inj (harg.symm.trans harg')
      simp [fillIn, hconstantOf, hconstant]
    | some c =>
      simp only
      split
      · rename_i hnumeric
        have hfill : fillIn r.constantOf (.var v) = .lit c := by
          simp [fillIn, hconstantOf, hconstant, Option.filter, hnumeric]
        have hargs : e.args.modify index (fillIn r.constantOf) = e.args.set index (.lit c) := by
          rw [modify_eq_set_getElem?, harg, ← hfill]
          rfl
        simp only [yields_bind, yields_pure]
        refine yields_fillLit hr hn he harg fun r' h => ?_
        rw [hargs]
        refine ⟨.single (.fill h hn harg (hconstantOf.trans hconstant)), h, fun hfilled => ?_⟩
        -- a known number would have been there already
        have hargs : e.args.map (fillIn r.constantOf) = e.args := congrArg Node.args hfilled
        have hat := congrArg (·[index]?) hargs
        simp only [getElem?_map, harg, map_some, hfill, some.injEq, reduceCtorEq] at hat
      · rename_i hnumeric
        refine yields_pure.mpr (hsame fun arg harg' => ?_)
        obtain rfl : .var v = arg := some.inj (harg.symm.trans harg')
        simp [fillIn, hconstantOf, hconstant, Option.filter, hnumeric]
  · rename_i hnone
    refine yields_pure.mpr (hsame fun arg harg => ?_)
    cases arg with
    | var v => exact absurd harg (hnone v)
    | _ => rfl

omit hr hn he in
/-- Changing the entry behind those that have been changed. -/
theorem modify_take_drop {α : Type} (l : List α) (f : α → α) (k : ℕ) :
    ((l.take k).map f ++ l.drop k).modify k f = (l.take (k + 1)).map f ++ l.drop (k + 1) := by
  induction l generalizing k with
  | nil => simp
  | cons a l ih =>
    cases k with
    | zero => simp
    | succ k => simpa using ih k

/-- Filling in the operands of a node. -/
theorem yields_propagate : Yields (propagate n) r fun _ r' =>
      Refinements target exit (r, t) (r', t) ∧ r.Relabels r' n e (filled r.constantOf e) ∧
      (filled r.constantOf e = e → r' = r) := by
  -- the operands in front of the one that is looked at have been filled in
  let upTo : ℕ → Node :=
    fun k => { e with args := (e.args.take k).map (fillIn r.constantOf) ++ e.args.drop k }
  have hstart : upTo 0 = e := by simp [upTo]
  have hend : upTo e.args.length = filled r.constantOf e := by
    simp only [upTo, filled, take_length, drop_length, append_nil]
  have hnext : ∀ k, ({ upTo k with args := (upTo k).args.modify k (fillIn r.constantOf) } : Node) =
      upTo (k + 1) := fun k => by
    simp only [upTo, modify_take_drop]
  simp only [propagate, yields_bind, yields_node, node_of_label he, exists_some_eq]
  rw [← hend]
  refine yields_forM_range (fun k r' => Refinements target exit (r, t) (r', t) ∧
    r.Relabels r' n e (upTo k) ∧
    (upTo e.args.length = e → r' = r)) (fun k _ r₁ hrun => ?_) ⟨.refl,
    hstart.symm ▸ .refl he, fun _ => rfl⟩
  obtain ⟨hrun, hlabel, hsame⟩ := hrun
  have hn₁ : n ∈ r₁.live exit t := by rwa [live_congr hrun.entry_eq]
  have hconstants : r₁.constantOf = r.constantOf := funext fun u => constantOf_eq (hlabel.traits u)
  have hinto : Yields (propagateInto n k) r₁ fun _ r' => Refinements target exit (r₁, t) (r', t) ∧
      r₁.Relabels r' n (upTo k) (upTo (k + 1)) ∧
      (filled r.constantOf (upTo k) = upTo k → r' = r₁) := by
    rw [← hnext, ← hconstants]
    exact yields_propagateInto (hrun.wellStructured hr) hn₁ hlabel.label_self k
  refine hinto.mono fun _ r' h => ?_
  obtain ⟨hrun', hlabel', hsame'⟩ := h
  refine ⟨hrun.trans hrun', hlabel.trans hlabel', fun hfixed => ?_⟩
  obtain rfl := hsame hfixed
  obtain heq : upTo k = e := some.inj (hlabel.label_self.symm.trans he)
  rw [heq, ← hend] at hsame'
  exact hsame' hfixed

omit hr hn he

/-- A word can be cut down to the width of a type. -/
theorem wrap_eq_ok (h : target.Sized) (ty : Option Scalar) (x : Int64) :
    ∃ y, (wrap target ty x : Query Int64) = .ok y := by
  unfold wrap
  split
  · exact ⟨x, rfl⟩
  · rename_i s
    obtain ⟨hpos, hlt⟩ := h.size s
    split
    · exact ⟨x, rfl⟩
    · rw [Size.mul_eq_ok_iff.mpr ⟨rfl, hlt⟩, Attempt.ok_bind]
      split
      · exact ⟨x, rfl⟩
      · rw [if_neg (by omega)]
        exact ⟨_, rfl⟩

/-- Numbers are literals. -/
theorem numbers?_eq_some {args : List Operand} {values : List Literal}
    (h : numbers? args = some values) : args = values.map .lit := by
  induction args generalizing values with
  | nil =>
    obtain rfl : [] = values := by simpa [numbers?] using h
    rfl
  | cons arg args ih =>
    simp only [numbers?, mapM_cons, Option.pure_def, bind_eq_bind, bind_eq_some_iff] at h
    obtain ⟨x, hx, rest, hrest, heq⟩ := h
    obtain rfl := some.inj heq
    obtain ⟨hlit, -⟩ := filter_eq_some_iff.mp hx
    obtain rfl : arg = .lit x := by
      cases arg <;> simp_all [lit?]
    rw [map_cons, ih hrest]

/-- What can be evaluated has a value if all integer types have a width. -/
theorem evaluate_eq_ok (h : target.Sized) (ty : Option Scalar)
    (code : Opcode) (values : List Literal) :
    ∃ x, (evaluate target ty code values : Query (Option Literal)) = .ok x := by
  have hwrapped : ∀ x, ∃ y, (wrapped target ty x : Query (Option Literal)) = .ok y := fun x => by
    cases x with
    | none => exact ⟨none, rfl⟩
    | some x =>
      obtain ⟨y, hy⟩ := wrap_eq_ok h ty x
      exact ⟨some (.int y), by rw [wrapped, hy]; rfl⟩
  unfold evaluate
  split
  · split
    · exact ⟨_, rfl⟩
    · exact hwrapped _
    · exact ⟨_, rfl⟩
  · exact ⟨_, rfl⟩
  · split
    · exact ⟨_, rfl⟩
    · exact hwrapped _
  · split
    · exact ⟨_, rfl⟩
    · exact ⟨_, rfl⟩
  · exact ⟨_, rfl⟩

/-- Replacing an operation by its value. -/
theorem ends_evaluateNode (hn : n ∈ w.routine.live exit t)
    (he : w.routine.label n = some e) : Ends (evaluateNode target n) w
      (fun evaluated w' =>
        if evaluated then ∃ x, value? target e = .ok (some x) ∧ Refinements target exit (w.routine,
          t) (w'.routine, t) ∧ w.routine.Relabels w'.routine n e (reduced e x)
        else w' = w ∧ value? target e = .ok none)
      fun fault => value? target e = .error fault := by
  have hnode : ∀ {post : Node → Work → Prop},
      post { e with next := w.routine.nextOf n, prev := w.routine.prevOf n } w →
      Yields (liftM (Edit.node n) : Pass Node) w post := fun h => by
    simp only [Pass.yields_lift, yields_node, node_of_label he, exists_some_eq]
    exact h
  refine ends_bind.mpr (Yields.ends (hnode ?_))
  refine ends_bind.mpr
    (ends_toAction (fun found hfound => Yields.ends ?_) fun fault hfault => hfault)
  cases found with
  | none => exact yields_pure.mpr ⟨rfl, hfound⟩
  | some x =>
    obtain ⟨code, values, hkind, hvalues, hvalue⟩ :
        ∃ code values, e.kind = .op code ∧ e.args = values.map .lit ∧
        (evaluate target (e.ty.bind Ty.scalar?) code values : Query (Option Literal)) =
        .ok (some x) := by
      unfold value? at hfound
      split at hfound
      · rename_i code v values hkind hdest hnumbers
        exact ⟨code, values, hkind, numbers?_eq_some hnumbers, hfound⟩
      · cases hfound
    have hnone : e.args.filterMap var? = [] := by
      rw [hvalues, filterMap_map]
      exact filterMap_eq_nil_iff.mpr fun _ _ => rfl
    have hsize := lt_of_label he
    let f : Node → Node := fun d => { d with kind := .op .const, args := [.lit x] }
    simp only [yields_bind, Pass.yields_note, Pass.yields_lift, yields_setKind, setArgs,
      filterMap_cons, filterMap_nil, var?, yields_pure]
    refine ⟨hsize, yields_pure.mpr ?_⟩
    simp only [yields_node, getElem?_alter, if_pos, node_of_label he, map_some, exists_some_eq,
      yields_changeNode, size_alter, hnone]
    refine ⟨hsize, yields_pure.mpr ?_⟩
    rw [alter_alter]
    have hreleases : (w.routine.alter n f).Releases (w.routine.alter n f) [] :=
      ⟨.refl _, fun _ => rfl⟩
    have hrelabels : w.routine.Relabels (w.routine.alter n f) n e (reduced e x) := by
      refine ⟨amends_of_releases (f := f) he (fun _ => rfl) (fun _ => rfl) rfl (fun _ => rfl)
        hreleases fun a => ?_, Or.inr ⟨code, .const, hkind, rfl⟩, fun hcond => ?_⟩
      · simp only [Node.accesses, reduced, hkind, hnone]
        cases e.dest <;> simp [show List.filterMap var? [Operand.lit x] = [] from rfl]
      · simp [hkind] at hcond
    exact ⟨x, hfound, .single (.evaluate hrelabels hn hkind hvalues hvalue), hrelabels⟩

/-- An operation can only not be evaluated where the width of its type is no size. -/
theorem not_sized_of_value? {fault : Fault IrError} (h : value? target e = .error fault) :
    ¬target.Sized := fun hsized => by
  unfold value? at h
  split at h
  · rename_i code v values _ _ _
    obtain ⟨x, hx⟩ := evaluate_eq_ok hsized (e.ty.bind Ty.scalar?) code values
    exact absurd (hx.symm.trans h) (by simp)
  · cases h

/-- What becomes of the node `n` when the walk comes to it. -/
inductive Visit (options : Options) (exit n : NodeId) : Routine × Strand → Routine × Strand → Prop
  /-- The node is a definition, or becomes one when it is evaluated, and leaves. -/
  | leave {r r₁ r' : Routine} {t t' : Strand} {e e₁ : Node} {v : VarId} {c : Literal}
    (hrun : Refinements options.target exit (r, t) (r₁, t)) (hlabel : r.Relabels r₁ n e e₁)
    (hreduced : e₁ = e ∨ ∃ x, options.arithmetic = true ∧
    value? options.target (filled r.constantOf e) = .ok (some x) ∧
      e₁ = reduced e x) (hfolds : r₁.Folds r' exit t t' n e₁ v c) :
      Visit options exit n (r, t) (r', t')
  /-- Its operands are filled in, and it cannot be evaluated. -/
  | fill {r r' : Routine} {t : Strand} {e : Node} (hrun : Refinements options.target exit (r, t)
    (r', t)) (hlabel : r.Relabels r' n e (filled r.constantOf e)) (hsame : filled r.constantOf e =
    e → r' = r) (hnot : ∀ v c, ¬r.Determines e v c) (hvalue : options.arithmetic = true →
    value? options.target (filled r.constantOf e) = .ok none) : Visit options exit n (r, t) (r', t)
  /-- It is evaluated, and its variable has no known value for all that. -/
  | reduce {r r' : Routine} {t : Strand} {e : Node} {x : Literal}
    (hrun : Refinements options.target exit (r, t) (r', t))
    (hlabel : r.Relabels r' n e (reduced e x)) (hnot : ∀ v c, ¬r'.Determines (reduced e x) v c)
    (harithmetic : options.arithmetic = true) (hvalue : value? options.target
    (filled r.constantOf e) = .ok (some x)) : Visit options exit n (r, t) (r', t)

/-- Folding the definitions in a node. -/
theorem ends_foldNode (hr : w.routine.WellStructured exit t) (hn : n ∈ w.routine.live exit t)
    (he : w.routine.label n = some e) :
    Ends (foldNode options n) w
    (fun _ w' => ∃ t', Visit options exit n (w.routine, t) (w'.routine, t'))
      fun fault => options.arithmetic = true ∧
      value? options.target (filled w.routine.constantOf e) = .error fault := by
  refine ends_bind.mpr
    (Yields.ends ((yields_foldDefinition hr hn he).mono fun folded w₁ hfolded => ?_))
  cases folded with
  | true =>
    obtain ⟨t', v, c, hfolds⟩ := hfolded
    exact Yields.ends (yields_pure.mpr ⟨t', .leave .refl (.refl he) (Or.inl rfl) hfolds⟩)
  | false =>
    obtain ⟨rfl, hnot⟩ := hfolded
    have hpropagate : Yields (liftM (propagate n) : Pass Unit) w₁ fun _ w₂ =>
        Refinements options.target exit (w₁.routine, t) (w₂.routine, t) ∧
        w₁.routine.Relabels w₂.routine n e (filled w₁.routine.constantOf e) ∧
        (filled w₁.routine.constantOf e = e → w₂.routine = w₁.routine) := by
      rw [Pass.yields_lift]
      exact yields_propagate hr hn he
    refine ends_bind.mpr (Yields.ends (hpropagate.mono fun _ w₂ h => ?_))
    obtain ⟨hrun, hlabel, hsame⟩ := h
    have hentry : w₂.routine.entry = w₁.routine.entry := hrun.entry_eq
    split
    · rename_i harithmetic
      refine ends_bind.mpr
        (((ends_evaluateNode ((live_congr hentry ..).symm ▸ hn) hlabel.label_self).imp
        fun fault hfault => ⟨harithmetic, hfault⟩).mono fun evaluated w₃ h => ?_)
      cases evaluated with
      | false =>
        obtain ⟨rfl, hvalue⟩ := h
        exact Yields.ends (yields_pure.mpr ⟨t, .fill hrun hlabel hsame hnot fun _ => hvalue⟩)
      | true =>
        obtain ⟨x, hvalue, hrun', hlabel'⟩ := h
        have hlabel₃ : w₁.routine.Relabels w₃.routine n e (reduced e x) := hlabel.trans hlabel'
        have hrun₃ : Refinements options.target exit (w₁.routine, t) (w₃.routine, t) :=
          hrun.trans hrun'
        have hentry₃ : w₃.routine.entry = w₁.routine.entry := hrun₃.entry_eq
        refine Yields.ends ((yields_foldDefinition (hrun₃.wellStructured hr)
          ((live_congr hentry₃ ..).symm ▸ hn) hlabel₃.label_self).mono fun folded w' hfolded => ?_)
        cases folded with
        | true =>
          obtain ⟨t', v, c, hfolds⟩ := hfolded
          exact ⟨t', .leave hrun₃ hlabel₃ (Or.inr ⟨x, harithmetic, hvalue, rfl⟩) hfolds⟩
        | false =>
          obtain ⟨rfl, hnot'⟩ := hfolded
          exact ⟨t, .reduce hrun₃ hlabel₃ hnot' harithmetic hvalue⟩
    · rename_i harithmetic
      exact Yields.ends
        (yields_pure.mpr ⟨t, .fill hrun hlabel hsame hnot fun h => absurd h harithmetic⟩)

end Folding

end CoroutineIR
