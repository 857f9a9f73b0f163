import CoroutineIR.Proofs.Flow
import Mathlib.Order.Monotone.Basic

/-!
# Executing a routine

A machine for routines whose operands may be sub-expressions. A node is executed by evaluating its
operands, the sub-expressions among them first, storing what it delivers and following the flow of
control. What nodes deliver is left open: it may depend on the values of the operands and on those
of the nodes executed before that the interpretation chooses to remember, and such a node may also
change variables that it does not name. The machine keeps a trace of the nodes of the stream it has
executed, with the values of their operands.

A transformation that takes nodes out of the stream is followed by a run that skips these nodes.
-/

namespace CoroutineIR

open List Option Node

variable {V : Type}

/-- A node that has been executed, with the values of its operands. -/
structure Executed (V : Type) where
  node : NodeId
  args : List V

/-- What the machine leaves open. -/
structure Meaning (V : Type) where
  lit : Literal → V
  /-- Whether a node is remembered. -/
  heeds : NodeId → Bool
  /-- What a node delivers for the values of its operands, given the nodes remembered. -/
  result : List (Executed V) → NodeId → NodeKind → Option Ty → List V → V
  /-- Whether the condition at a node holds for the values of its operands. -/
  truth : NodeId → List V → Bool
  /-- What the last of the nodes remembered leaves in a variable it does not name, if it changes the
  variable. -/
  disturb : List (Executed V) → VarId → Option V

/-- The nodes remembered. -/
def Meaning.past (M : Meaning V) (trace : List (Executed V)) : List (Executed V) :=
    trace.filter fun e => M.heeds e.node

/-- A state of the machine: the node in front of which control is, the values of the variables and
the trace. -/
structure Run (V : Type) where
  point : Option NodeId
  store : VarId → V
  trace : List (Executed V)

/-- What a node computes, without where it stores it. -/
def Node.term (d : Node) : NodeKind × Option Ty × List Operand := (d.kind, d.ty, d.args)

namespace Routine

variable {r r' : Routine} {M : Meaning V} {n m : NodeId}

/-- The value of an operand. A sub-expression is evaluated where it stands. -/
def operandValue (r : Routine) (M : Meaning V) (past : List (Executed V)) (store : VarId → V) :
    Nat → Operand → V
  | _, .lit x => M.lit x
  | _, .var v => store v
  | 0, .node _ => M.lit default
  | fuel + 1, .node m =>
    (r.label m).elim (M.lit default) fun d =>
      M.result past m d.kind d.ty (d.args.map (operandValue r M past store fuel))

/-- The values of the operands of a node. -/
def argValues (r : Routine) (M : Meaning V) (past : List (Executed V)) (store : VarId → V)
    (n : NodeId) : List V :=
  (r.label n).elim [] fun d => d.args.map (r.operandValue M past store r.nestFuel)

/-- The values of variables after a node has been executed for the values of its operands. -/
def storeAfter (r : Routine) (M : Meaning V) (trace : List (Executed V)) (store : VarId → V)
    (n : NodeId) (args : List V) : VarId → V :=
  let disturbed : VarId → V := fun v =>
    if M.heeds n then (M.disturb (M.past (trace ++ [⟨n, args⟩])) v).getD (store v) else store v
  (r.label n).elim disturbed fun d =>
    if d.kind.isDeclaration then disturbed
    else d.dest.elim disturbed fun v =>
      Function.update disturbed v (M.result (M.past trace) n d.kind d.ty args)

/-- The machine after a node. -/
def visit (r : Routine) (M : Meaning V) (s : Run V) (n : NodeId) : Run V :=
  let args := r.argValues M (M.past s.trace) s.store n
  ⟨r.follow n (M.truth n args), r.storeAfter M s.trace s.store n args, s.trace ++ [⟨n, args⟩]⟩

/-- One step of the machine. -/
def advanceRun (r : Routine) (M : Meaning V) (s : Run V) : Run V := s.point.elim s (r.visit M s)

theorem advanceRun_eq_visit {s : Run V} (h : s.point = some n) :
    r.advanceRun M s = r.visit M s n := by
  rw [advanceRun, h, elim_some]

/-- The machine after a number of steps. -/
def runFor (r : Routine) (M : Meaning V) (store : VarId → V) (steps : Nat) : Run V :=
  (r.advanceRun M)^[steps] ⟨some r.entry, store, []⟩

theorem runFor_succ (r : Routine) (M : Meaning V) (store : VarId → V) (k : ℕ) :
    r.runFor M store (k + 1) = r.advanceRun M (r.runFor M store k) :=
  Function.iterate_succ_apply' ..

section Values

variable {past : List (Executed V)} {store store' : VarId → V} {k k' : Nat} {ms : List NodeId}

/-- The values of operands depend on what is nested in the node and on the variables read there. -/
theorem map_operandValue_congr (h : r.nestedWithin (k + 1) n = .ok ms) (hk : k ≤ k')
    (hterm : ∀ x ∈ ms.tail, (r'.label x).map term = (r.label x).map term)
    (hstore : ∀ x ∈ ms, ∀ d, r.label x = some d → ∀ v, .var v ∈ d.args →
      store' v = store v) {d : Node} (hd : r.label n = some d) :
    d.args.map (r'.operandValue M past store' k') = d.args.map (r.operandValue M past store k) := by
  induction k generalizing n ms k' d with
  | zero =>
    refine map_congr_left fun arg harg => ?_
    cases arg with
    | lit x => simp [operandValue]
    | var v => simpa [operandValue] using hstore n (mem_nestedWithin h) d hd v harg
    | node x =>
      obtain ⟨below, hbelow, -⟩ := nestedWithin_arg h hd harg
      simp [nestedWithin] at hbelow
  | succ k ih =>
    obtain ⟨k', rfl⟩ : ∃ j, k' = j + 1 := ⟨k' - 1, by omega⟩
    refine map_congr_left fun arg harg => ?_
    cases arg with
    | lit x => simp [operandValue]
    | var v => simpa [operandValue] using hstore n (mem_nestedWithin h) d hd v harg
    | node x =>
      obtain ⟨below, hbelow, hsub⟩ := nestedWithin_arg h hd harg
      obtain ⟨dx, -, hdx, -⟩ := nestedWithin_succ_eq_ok_iff.mp hbelow
      have hsame := hterm x (hsub (mem_nestedWithin hbelow))
      rw [label_eq hdx] at hsame
      obtain ⟨dx', hdx', hsame⟩ := map_eq_some_iff.mp hsame
      obtain ⟨hkind, hty, hargs⟩ : dx'.kind = dx.kind ∧ dx'.ty = dx.ty ∧ dx'.args = dx.args := by
        simpa [term] using hsame
      have hvalues :=
        ih hbelow (Nat.le_of_succ_le_succ hk) (fun y hy => hterm y (hsub (mem_of_mem_tail hy)))
        (fun y hy => hstore y (mem_of_mem_tail (hsub hy))) (label_eq hdx)
      rw [unlinked_args] at hvalues
      simp only [operandValue, hdx', label_eq hdx, elim_some, unlinked_kind, unlinked_ty,
        unlinked_args, hkind, hty, hargs, hvalues]

/-- Fuel for what is nested in a node is enough for its operands. -/
theorem map_operandValue_succ (h : r.nested n = .ok ms) {d : Node} (hd : r.label n = some d) :
    d.args.map (r.operandValue M past store (r.nodes.size + 1)) =
    d.args.map (r.operandValue M past store r.nodes.size) :=
  map_operandValue_congr h (Nat.le_succ _) (fun _ _ => rfl) (fun _ _ _ _ _ _ => rfl) hd

/-- The same for the operands of a node of the stream. -/
theorem argValues_congr (h : r.nested n = .ok ms) (hsize : r'.nodes.size = r.nodes.size)
    (hterm : ∀ x ∈ ms, (r'.label x).map term = (r.label x).map term)
    (hstore : ∀ x ∈ ms, ∀ d, r.label x = some d → ∀ v, .var v ∈ d.args → store' v = store v) :
    r'.argValues M past store' n = r.argValues M past store n := by
  obtain ⟨d, hd⟩ := exists_label_of_nested h (mem_nestedWithin h)
  have hsame := hterm n (mem_nestedWithin h)
  rw [hd] at hsame
  obtain ⟨d', hd', hsame⟩ := map_eq_some_iff.mp hsame
  obtain ⟨-, -, hargs⟩ : d'.kind = d.kind ∧ d'.ty = d.ty ∧ d'.args = d.args := by
    simpa [term] using hsame
  simp only [argValues, hd, hd', elim_some, hargs, nestFuel, hsize, map_operandValue_succ h hd]
  exact map_operandValue_congr h (Nat.le_succ _)
    (fun x hx => hterm x (mem_of_mem_tail hx)) hstore hd

end Values

end Routine

/-- A system that follows another one, skipping states of it. -/
theorem exists_schedule {σ τ : Type*} {f : σ → σ} {g : τ → τ} {R : σ → τ → Prop}
    (hstep : ∀ s t, R s t → ∃ i, R (f^[i + 1] s) (g t)) {s : σ} {t : τ} (h : R s t) :
    ∃ φ : ℕ → ℕ, φ 0 = 0 ∧ StrictMono φ ∧ ∀ k, R (f^[φ k] s) (g^[k] t) := by
  -- the states of both systems after each step, with how far the one followed has come
  have hnext :
      ∀ k (at_ : { i // R (f^[i] s) (g^[k] t) }), ∃ i, R (f^[at_.1 + (i + 1)] s) (g^[k + 1] t) := by
    rintro k ⟨at_, hat⟩
    obtain ⟨i, hi⟩ := hstep _ _ hat
    refine ⟨i, ?_⟩
    rwa [Nat.add_comm, Function.iterate_add_apply, Function.iterate_succ_apply' g]
  choose gap hgap using hnext
  let path : (k : ℕ) → { i // R (f^[i] s) (g^[k] t) } :=
    fun k => Nat.rec ⟨0, h⟩ (fun k at_ => ⟨_, hgap k at_⟩) k
  refine ⟨fun k => (path k).1, rfl, strictMono_nat_of_lt_succ fun k => ?_, fun k => (path k).2⟩
  show (path k).1 < (path k).1 + (gap k (path k) + 1)
  omega

end CoroutineIR
