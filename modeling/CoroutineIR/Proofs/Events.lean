import CoroutineIR.Collector.Event
import CoroutineIR.Proofs.Expression

/-!
# The events of a node

Every node of a well-structured routine can be evaluated, and its events name only variables of the
routine and sub-expressions of the node. What matters about a sequence of events is what it does
first with a variable.
-/

namespace CoroutineIR

variable {v : VarId}

open List Attempt

/-- The first thing the events do with the variable is to read it. -/
inductive ReadsFirst (v : VarId) : List Event → Prop
  | read (rest : List Event) : ReadsFirst v (.read v :: rest)
  | pass {e : Event} {rest : List Event} (he : e ≠ .write v) (h : ReadsFirst v rest) :
    ReadsFirst v (e :: rest)

theorem readsFirst_nil : ¬ReadsFirst v [] := nofun

theorem readsFirst_cons {e : Event} {rest : List Event} :
    ReadsFirst v (e :: rest) ↔ e = .read v ∨ e ≠ .write v ∧ ReadsFirst v rest := by
  constructor
  · rintro (_ | ⟨he, h⟩)
    · exact Or.inl rfl
    · exact Or.inr ⟨he, h⟩
  · rintro (rfl | ⟨he, h⟩)
    · exact .read rest
    · exact .pass he h

/-- A read counts unless a write comes before it. -/
theorem readsFirst_append {es fs : List Event} :
    ReadsFirst v (es ++ fs) ↔ ReadsFirst v es ∨ .write v ∉ es ∧ ReadsFirst v fs := by
  induction es with
  | nil => simp [readsFirst_nil]
  | cons e es ih =>
    rw [cons_append, readsFirst_cons, readsFirst_cons, ih, mem_cons, not_or]
    constructor
    · rintro (he | ⟨he, h | ⟨hw, h⟩⟩)
      · exact Or.inl (Or.inl he)
      · exact Or.inl (Or.inr ⟨he, h⟩)
      · exact Or.inr ⟨⟨Ne.symm he, hw⟩, h⟩
    · rintro ((he | ⟨he, h⟩) | ⟨⟨he, hw⟩, h⟩)
      · exact Or.inl he
      · exact Or.inr ⟨he, Or.inl h⟩
      · exact Or.inr ⟨Ne.symm he, Or.inr ⟨hw, h⟩⟩

theorem readsFirst_map_read {vs : List VarId} : ReadsFirst v (vs.map .read) ↔ v ∈ vs := by
  induction vs with
  | nil => simp [readsFirst_nil]
  | cons u vs ih =>
    rw [map_cons, readsFirst_cons, ih, mem_cons, Event.read.injEq, eq_comm]
    simp

/-- The variables and the sub-expressions an operand on the stack stands for. -/
def Waiting.Mentions (vars : VarId → Prop) (temps : NodeId → Prop) : Waiting → Prop
  | lit => True
  | var v => vars v
  | temp n => temps n

/-- The variables and the sub-expressions an event is about. -/
def Event.Mentions (vars : VarId → Prop) (temps : NodeId → Prop) : Event → Prop
  | read v | write v => vars v
  | collect waiting => ∀ x ∈ waiting, x.Mentions vars temps

/-- What an operand is on the stack. -/
def Operand.waiting : Operand → Waiting
  | lit _ => .lit
  | var v => .var v
  | node n => .temp n

/-- The collector may run while something waits on the stack. -/
def WaitsDuring (es : List Event) (w : Waiting) : Prop :=
    ∃ waiting, .collect waiting ∈ es ∧ w ∈ waiting

section WaitsDuring

variable {es fs : List Event} {w : Waiting}

@[simp] theorem waitsDuring_nil : ¬WaitsDuring [] w := by simp [WaitsDuring]

@[simp] theorem waitsDuring_append : WaitsDuring (es ++ fs) w ↔
    WaitsDuring es w ∨ WaitsDuring fs w := by
  simp [WaitsDuring, or_and_right, exists_or]

@[simp] theorem waitsDuring_read : WaitsDuring (.read v :: es) w ↔ WaitsDuring es w := by
    simp [WaitsDuring]

end WaitsDuring

section Evaluation

variable {vars : VarId → Prop} {temps : NodeId → Prop} {stack : List Waiting}

/-- Operands can be evaluated if the sub-expressions among them can. -/
theorem operandEvents_eq_ok {eval : NodeId → List Waiting → Query (List Event)}
    {args : List Operand} (hvars : ∀ v, .var v ∈ args → vars v)
    (htemps : ∀ n, .node n ∈ args → temps n) (heval : ∀ n, .node n ∈ args →
      ∀ stack : List Waiting, (∀ x ∈ stack, x.Mentions vars temps) → ∃ es, eval n stack = .ok es ∧
      ∀ e ∈ es, e.Mentions vars temps) (hstack : ∀ x ∈ stack, x.Mentions vars temps) :
    ∃ es, operandEvents eval args stack = .ok es ∧ ∀ e ∈ es, e.Mentions vars temps := by
  induction args generalizing stack with
  | nil => exact ⟨[], rfl, by simp⟩
  | cons arg args ih =>
    have hpush : ∀ x : Waiting, x.Mentions vars temps →
        ∀ y ∈ stack ++ [x], y.Mentions vars temps := by
      intro x hx
      simpa [or_imp, forall_and] using ⟨hstack, hx⟩
    obtain ⟨es, hes, hmentions⟩ : ∃ es, operandEvents eval args (stack ++ [arg.waiting]) = .ok es ∧
        ∀ e ∈ es, e.Mentions vars temps := by
      refine ih (fun v hv => hvars v (by simp [hv])) (fun n hn => htemps n (by simp [hn]))
        (fun n hn => heval n (by simp [hn])) (hpush _ ?_)
      cases arg with
      | lit value => trivial
      | var v => exact hvars v (by simp)
      | node n => exact htemps n (by simp)
    cases arg with
    | lit value => exact ⟨es, hes, hmentions⟩
    | var v =>
      refine ⟨.read v :: es, ?_, forall_mem_cons.mpr ⟨hvars v (by simp), hmentions⟩⟩
      simp only [Operand.waiting] at hes
      simp only [operandEvents, hes]
      rfl
    | node n =>
      obtain ⟨inner, hinner, hmentions'⟩ := heval n (by simp) stack hstack
      refine ⟨inner ++ es, ?_, forall_mem_append.mpr ⟨hmentions', hmentions⟩⟩
      simp only [Operand.waiting] at hes
      simp only [operandEvents, hinner, ok_bind, hes]
      rfl

/-- The events of a node mention its accesses and what waits. -/
theorem Node.ownEvents_mentions {d : Node} (haccesses : ∀ a ∈ d.accesses, vars a.1)
    (hstack : ∀ x ∈ stack, x.Mentions vars temps) :
    ∀ e ∈ d.ownEvents stack, e.Mentions vars temps := by
  simp only [ownEvents, forall_mem_append]
  constructor
  · split
    · simpa [Event.Mentions] using hstack
    · simp
  · split
    · simp
    · rename_i hkind
      simp only [List.mem_map, Option.mem_toList, forall_exists_index, and_imp]
      rintro _ v hv rfl
      have hmem : (v, Access.write) ∈ d.accesses := by
        unfold Node.accesses
        rw [hv]
        split <;> simp_all
      exact haccesses _ hmem

end Evaluation

namespace Routine

variable {r : Routine} {exit n : NodeId} {t : Strand} {vars : VarId → Prop} {temps : NodeId → Prop}

/-- A node can be evaluated if it is known what is nested in it. -/
theorem evaluationWithin_eq_ok {k : Nat} {ms : List NodeId}
    (h : r.nestedWithin k n = .ok ms) {stack : List Waiting}
    (haccesses : ∀ m ∈ ms, ∀ d, r.label m = some d → ∀ a ∈ d.accesses, vars a.1)
    (htemps : ∀ m ∈ ms.tail, temps m) (hstack : ∀ x ∈ stack, x.Mentions vars temps) :
    ∃ es, r.evaluationWithin k n stack = .ok es ∧ ∀ e ∈ es, e.Mentions vars temps := by
  induction k generalizing n ms stack with
  | zero => simp [nestedWithin] at h
  | succ k ih =>
    obtain ⟨d, inner, hd, -, rfl⟩ := nestedWithin_succ_eq_ok_iff.mp h
    have hown := haccesses n (by simp) _ (label_eq hd)
    have hreads : ∀ v, .var v ∈ d.args → vars v := by
      intro v hv
      have hread : v ∈ d.args.filterMap Operand.var? := mem_filterMap.mpr ⟨_, hv, rfl⟩
      exact hown (v, .read) (mem_append_right _ (List.mem_map.mpr ⟨v, hread, rfl⟩))
    have hbelow : ∀ m, .node m ∈ d.args → temps m ∧ ∀ stack : List Waiting,
        (∀ x ∈ stack, x.Mentions vars temps) → ∃ es, r.evaluationWithin k m stack = .ok es ∧
          ∀ e ∈ es, e.Mentions vars temps := by
      intro m hm
      obtain ⟨below, hnested, hsub⟩ := nestedWithin_arg h (label_eq hd) hm
      have hbelow : ∀ m ∈ below, temps m := fun m hm => htemps m (hsub hm)
      exact ⟨hbelow _ (mem_nestedWithin hnested), fun stack hstack => ih hnested
        (fun m hm => haccesses m (mem_of_mem_tail (hsub hm)))
        (fun m hm => hbelow m (mem_of_mem_tail hm)) hstack⟩
    obtain ⟨es, hes, hmentions⟩ :=
      operandEvents_eq_ok hreads (fun m hm => (hbelow m hm).1) (fun m hm => (hbelow m hm).2) hstack
    refine ⟨es ++ d.ownEvents stack, ?_,
      forall_mem_append.mpr ⟨hmentions, Node.ownEvents_mentions hown hstack⟩⟩
    simp only [evaluationWithin, node_eq_ok_iff.mpr hd, ok_bind, hes]
    rfl

/-- The events of a node by itself, if it can be evaluated. -/
def ownEvents (r : Routine) (n : NodeId) : List Event := (r.evaluation n).toOption.getD []

/-- Whether the routine ends at a node: it returns, or it is the end of the body. -/
def endsAt (r : Routine) (n : NodeId) : Prop := r.kindOf n = some .ret ∨ r.exit = .ok n

instance (r : Routine) (n : NodeId) : Decidable (r.endsAt n) := inferInstanceAs (Decidable (_ ∨ _))

/-- The results that the caller reads once a node has run. -/
def finalReads (r : Routine) (results : List VarId) (n : NodeId) : List Event :=
  if r.endsAt n then results.map .read else []

/-- The destination of a sub-expression, if it has one, is a variable of the routine. -/
def Delivers (r : Routine) (n : NodeId) : Prop :=
    ∃ d, r.label n = some d ∧ ∀ v, d.dest = some v → v < r.vars.size

/-- Every node of a well-structured routine has its events. -/
theorem WellStructured.events_eq (h : r.WellStructured exit t) (hn : n ∈ r.live exit t)
    (results : List VarId) : r.events results n = .ok (r.ownEvents n ++ r.finalReads results n) ∧
      ∀ e ∈ r.ownEvents n, e.Mentions (· < r.vars.size) r.Delivers := by
  obtain ⟨ms, hms, -⟩ := h.nestsDetached hn
  obtain ⟨-, _, ⟨acc, hacc, rfl⟩, hlt, -⟩ := h.counted
  have hall : ∀ m ∈ ms, ∀ a ∈ r.accessesAt n m, a.1 < r.vars.size := by
    intro m hm a ha
    refine hlt a (mem_flatMap.mpr ⟨n, hn, ?_⟩)
    rw [Except.ok.inj ((hacc n hn).symm.trans (accesses_of_nested hms))]
    exact mem_flatMap.mpr ⟨m, hm, ha⟩
  have haccesses : ∀ m ∈ ms, ∀ d, r.label m = some d → ∀ a ∈ d.accesses, a.1 < r.vars.size :=
    fun m hm d hd a ha => hall m hm a (by simp [accessesAt, hd, ha])
  obtain ⟨inner, rfl⟩ := exists_nested hms
  -- the destination of a sub-expression is read by the node around it
  have htemps : ∀ m ∈ (n :: inner).tail, r.Delivers m := by
    intro m hm
    have hm' : m ∈ n :: inner := mem_of_mem_tail hm
    have hne : m ≠ n := by
      rintro rfl
      exact not_mem_nested hms hm
    obtain ⟨d, hd⟩ := exists_label_of_nested hms hm'
    exact ⟨d, hd, fun v hv => hall m hm' (v, .read) (by simp [accessesAt, hd, hne, hv])⟩
  obtain ⟨es, hes, hmentions⟩ : ∃ es, r.evaluationWithin r.nestFuel n [] = .ok es ∧
      ∀ e ∈ es, e.Mentions (· < r.vars.size) r.Delivers :=
    evaluationWithin_eq_ok hms haccesses htemps (by simp)
  have hown : r.ownEvents n = es := by
    rw [ownEvents, evaluation, hes]
    rfl
  obtain ⟨d, hd⟩ := h.exists_node hn
  rw [hown]
  refine ⟨?_, hmentions⟩
  have hends : r.endsAt n ↔ d.kind = .ret ∨ exit = n := by
    rw [endsAt, kindOf_eq hd, h.exit_eq, Option.some.injEq, Except.ok.injEq]
  simp only [events, evaluation, hes, node_eq_ok_iff.mpr hd, h.exit_eq, ok_bind, pure_eq_ok,
    finalReads, hends]
  by_cases hret : d.kind = .ret
  · simp [hret]
  · by_cases hexit : exit = n
    · simp [hret, hexit]
    · simp [hret, hexit, Ne.symm hexit]

/-! ### Operands that wait -/

/-- The collector may run while a sub-expression is evaluated. -/
def Collects (r : Routine) (n : NodeId) : Prop :=
    ∃ m ∈ n :: r.below n, (r.kindOf m).any NodeKind.mayCollect = true

/-- The operand `a` of the node waits on the operand stack while an operand behind it may run the
collector. -/
def Outlasts (r : Routine) (n : NodeId) (a : Operand) : Prop :=
  ∃ d after s, r.label n = some d ∧ a :: after <:+ d.args ∧ .node s ∈ after ∧ r.Collects s

section Outlasts

variable {a : Operand} {stack : List Waiting} {es : List Event}

-- the operand can be told from what waits
variable (ha : ∀ b : Operand, a.waiting = b.waiting ↔ a = b)
include ha

/-- While operands are evaluated, what has been on the stack waits if one of them collects, and each
operand waits for those behind it. -/
theorem waitsDuring_operandEvents {eval : NodeId → List Waiting → Query (List Event)}
    {args : List Operand} (heval : ∀ s, .node s ∈ args → ∀ stack es, eval s stack = .ok es →
      (WaitsDuring es a.waiting ↔ a.waiting ∈ stack ∧ r.Collects s ∨
      ∃ x ∈ s :: r.below s, r.Outlasts x a))
    (hes : operandEvents eval args stack = .ok es) :
    WaitsDuring es a.waiting ↔ a.waiting ∈ stack ∧ (∃ s, .node s ∈ args ∧ r.Collects s) ∨
      (∃ after s, a :: after <:+ args ∧ .node s ∈ after ∧ r.Collects s) ∨
      ∃ s, .node s ∈ args ∧ ∃ x ∈ s :: r.below s, r.Outlasts x a := by
  induction args generalizing stack es with
  | nil =>
    obtain rfl := Except.ok.inj hes
    simp
  | cons arg args ih =>
    have hrest := fun s hs => heval s (mem_cons_of_mem _ hs)
    have hlater : ∀ es, operandEvents eval args (stack ++ [arg.waiting]) = .ok es →
        (WaitsDuring es a.waiting ↔ _) :=
      fun es hes => ih hrest hes
    simp only [mem_append, mem_singleton, ha] at hlater
    cases arg with
    | lit value =>
      rw [hlater _ hes]
      simp [suffix_cons_iff, or_and_right, exists_or, or_assoc, and_assoc]
    | var v =>
      obtain ⟨rest, hevents, hes⟩ := bind_eq_ok_iff.mp hes
      obtain rfl := Except.ok.inj hes
      rw [waitsDuring_read, hlater _ hevents]
      simp [suffix_cons_iff, or_and_right, exists_or, or_assoc, and_assoc]
    | node k =>
      obtain ⟨inner, hinner, hes⟩ := bind_eq_ok_iff.mp hes
      obtain ⟨rest, hevents, hes⟩ := bind_eq_ok_iff.mp hes
      obtain rfl := Except.ok.inj hes
      rw [waitsDuring_append, heval k (mem_cons_self ..) _ _ hinner, hlater _ hevents]
      simp only [mem_cons, suffix_cons_iff, Operand.node.injEq, List.cons.injEq, or_and_right,
        exists_or, exists_eq_left, and_assoc, exists_and_left, and_or_left]
      refine iff_of_eq ?_
      ac_rfl

/-- While a node is evaluated, what has been on the stack waits if it or a sub-expression collects,
and each operand waits for those behind it. -/
theorem waitsDuring_evaluationWithin {k : Nat} {ms : List NodeId} (h : r.nestedWithin k n = .ok ms)
    (hes : r.evaluationWithin k n stack = .ok es) :
    WaitsDuring es a.waiting ↔ a.waiting ∈ stack ∧ r.Collects n ∨
    ∃ x ∈ n :: r.below n, r.Outlasts x a := by
  induction k generalizing n ms stack es with
  | zero => cases hes
  | succ k ih =>
    obtain ⟨d, hd, hes⟩ := bind_eq_ok_iff.mp hes
    obtain ⟨operands, hoperands, hes⟩ := bind_eq_ok_iff.mp hes
    obtain rfl := Except.ok.inj hes
    have hlabel := label_eq (node_eq_ok_iff.mp hd)
    have hbelow := below_eq hlabel (nested_of_nestedWithin h)
    have hinner := waitsDuring_operandEvents (r := r) ha (fun s hs stack es hes => by
      obtain ⟨below, hnested, -⟩ := nestedWithin_arg h hlabel hs
      exact ih hnested hes) hoperands
    have hown : WaitsDuring (d.ownEvents stack) a.waiting ↔
        a.waiting ∈ stack ∧ d.kind.mayCollect = true := by
      unfold Node.ownEvents
      split <;> split <;> simp_all [WaitsDuring]
    have hself : r.Outlasts n a ↔ ∃ after s, a :: after <:+ d.args ∧ .node s ∈ after ∧
        r.Collects s := by
      simp [Outlasts, hlabel]
    have hcollects : r.Collects n ↔ (∃ s, .node s ∈ d.args ∧ r.Collects s) ∨
        d.kind.mayCollect = true := by
      have hkind : r.kindOf n = some d.kind := kindOf_eq (node_eq_ok_iff.mp hd)
      rw [Collects, exists_mem_cons_iff, hkind, hbelow, exists_mem_exprs, or_comm]
      rfl
    rw [waitsDuring_append, hinner, hown, hcollects, exists_mem_cons_iff, hself, hbelow,
      exists_mem_exprs, and_or_left]
    refine iff_of_eq ?_
    ac_rfl

end Outlasts

namespace WellStructured

variable (h : r.WellStructured exit t) (hn : n ∈ r.live exit t)
include h hn

/-- Something waits while a node is evaluated exactly if it is an operand, of the node or below it,
and an operand behind it may run the collector. -/
theorem waitsDuring_iff {a : Operand} (ha : ∀ b : Operand, a.waiting = b.waiting ↔ a = b) :
    WaitsDuring (r.ownEvents n) a.waiting ↔ ∃ x ∈ n :: r.below n, r.Outlasts x a := by
  obtain ⟨es, hes, -⟩ := bind_eq_ok_iff.mp (h.events_eq hn []).1
  have hown : r.ownEvents n = es := by
    rw [ownEvents, hes]
    rfl
  have hwaits := waitsDuring_evaluationWithin ha (h.nested_eq hn) hes
  simpa [hown] using hwaits

theorem waitsDuring_var :
    WaitsDuring (r.ownEvents n) (.var v) ↔ ∃ x ∈ n :: r.below n, r.Outlasts x (.var v) :=
  h.waitsDuring_iff hn (a := .var v) fun b => by cases b <;> simp [Operand.waiting]

theorem waitsDuring_node {m : NodeId} :
    WaitsDuring (r.ownEvents n) (.temp m) ↔ ∃ x ∈ n :: r.below n, r.Outlasts x (.node m) :=
  h.waitsDuring_iff hn (a := .node m) fun b => by cases b <;> simp [Operand.waiting]

end WellStructured

end Routine

end CoroutineIR
