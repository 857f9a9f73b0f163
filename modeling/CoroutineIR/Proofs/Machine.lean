import CoroutineIR.Collector.Flow
import Mathlib.Logic.Function.Iterate

/-!
# Running a routine

An abstract machine on which a routine can be run. Control follows the flow of the routine. What an
operation delivers and whether a condition holds are arbitrary functions of the values of the
operands, and what a call delivers is up to an oracle that knows all calls made so far. The machine
keeps a trace of the nodes it has executed, apart from those that only give the stream its
structure, with the store after each of them.

A call of a coroutine is executed in two halves: the first makes the call, the second delivers the
result.
-/

namespace CoroutineIR

variable {V : Type}

/-- A call as the oracle sees it. -/
structure Request (V : Type) where
  node : NodeId
  args : List V

/-- What the machine leaves open. -/
structure Interp (V : Type) where
  lit : Literal → V
  /-- What the operation at a node delivers for the values of its operands. -/
  value : NodeId → List V → V
  /-- Whether the condition at a node holds for the values of its operands. -/
  truth : NodeId → List V → Bool
  /-- What the last of the calls made so far delivers. -/
  answer : List (Request V) → V

/-- What has been executed at a node. -/
inductive Deed where
  | test (holds : Bool)
  | declare (role : Role)
  | op (code : Opcode)
  | call (form : CallForm) (sig : Signature)
  | yield
  | ret

/-- An entry of the trace, with the store afterwards. -/
inductive Visit (V : Type) where
  | run (n : NodeId) (deed : Deed) (args : List V) (store : VarId → V)
  /-- The second half of a call. -/
  | finish (sig : Signature) (dest : Option VarId) (store : VarId → V)

/-- Where control is. -/
inductive Point where
  | before (n : NodeId)
  /-- Between the halves of a call. -/
  | amid (n : NodeId)
  | ended

/-- In front of a node, or at the end if there is none. -/
def Point.toward : Option NodeId → Point
  | some n => before n
  | none => ended

/-- A state of the machine. -/
structure Machine (V : Type) where
  point : Point
  store : VarId → V
  requests : List (Request V)
  trace : List (Visit V)

namespace Machine

/-- Control moved. -/
def goto (s : Machine V) (point : Point) : Machine V := { s with point }

/-- A node executed. -/
def visit (s : Machine V) (n : NodeId) (deed : Deed) (args : List V) : Machine V :=
  { s with trace := s.trace ++ [.run n deed args s.store] }

/-- The second half of a call executed. -/
def visitFinish (s : Machine V) (sig : Signature) (dest : Option VarId) : Machine V :=
  { s with trace := s.trace ++ [.finish sig dest s.store] }

/-- A value stored. -/
def assign (s : Machine V) (dest : Option VarId) (x : V) : Machine V :=
  { s with store := dest.elim s.store fun v => Function.update s.store v x }

/-- A call made. -/
def request (s : Machine V) (n : NodeId) (args : List V) : Machine V :=
  { s with requests := s.requests ++ [⟨n, args⟩] }

/-- The result of the last call delivered. -/
def deliver (s : Machine V) (M : Interp V) (dest : Option VarId) : Machine V :=
  s.assign dest (M.answer s.requests)

/-- A decision taken. Without a guard it is no decision. -/
def decide (s : Machine V) (M : Interp V) (n : NodeId) (guarded : Bool) (args : List V)
    (taken fallen : Point) : Machine V :=
  if guarded then
    (s.visit n (.test (M.truth n args)) args).goto (if M.truth n args then taken else fallen)
  else
    s.goto taken

end Machine

/-- The value of an operand. Sub-expressions have none. -/
def Operand.value? (M : Interp V) (store : VarId → V) : Operand → Option V
  | lit value => some (M.lit value)
  | var v => some (store v)
  | node _ => none

/-- The values of the operands of a node. -/
def Node.values (d : Node) (M : Interp V) (store : VarId → V) : List V :=
  d.args.filterMap (Operand.value? M store)

/-- Where control goes if a conditional does not hold: to the second arm or to the end. -/
def Node.otherwise (d : Node) (region : Region) : NodeId := d.next[1]?.getD region.close

/-- Where a jump leads. -/
def Node.landing (d : Node) : Jump → Point
  | .step n => .before n
  | .terminal => .ended
  | .pending _ => .toward d.firstNext

/-- The form of a call that has begun and waits for its result. -/
def CallForm.begun? : CallForm → Option CallForm
  | direct => some directBegin
  | indirect => some indirectBegin
  | _ => none

/-- Whether a node calls a coroutine and waits for it. -/
def NodeKind.awaits : NodeKind → Bool
  | .call .direct sig | .call .indirect sig => sig.suspends
  | _ => false

theorem NodeKind.awaits_of_begun {form first : CallForm} {sig : Signature}
    (hfirst : form.begun? = some first) (hsuspends : sig.suspends = true) :
    (NodeKind.call form sig).awaits = true := by
  cases form with
  | direct | indirect => exact hsuspends
  | directBegin | indirectBegin | finish | spawn | spawnIndirect => cases hfirst

/-- A call executed, or its first half. -/
def Node.performCall (d : Node) (M : Interp V) (n : NodeId) (form : CallForm) (sig : Signature)
    (s : Machine V) : Machine V :=
  let args := d.values M s.store
  let next := Point.toward d.firstNext
  match form.begun?, sig.suspends, form with
  | some first, true, _ => ((s.request n args).visit n (.call first sig) args).goto (.amid n)
  | _, _, .finish => ((s.deliver M d.dest).visitFinish sig d.dest).goto next
  | _, _, .directBegin => ((s.request n args).visit n (.call form sig) args).goto next
  | _, _, .indirectBegin => ((s.request n args).visit n (.call form sig) args).goto next
  | _, _, _ => (((s.request n args).deliver M d.dest).visit n (.call form sig) args).goto next

/-- The second half of a call executed. -/
def Node.performFinish (d : Node) (M : Interp V) (s : Machine V) : Machine V :=
  match d.kind with
  | .call _ sig => ((s.deliver M d.dest).visitFinish sig d.dest).goto (.toward d.firstNext)
  | _ => s.goto .ended

/-- A node executed. -/
def Routine.perform (r : Routine) (M : Interp V) (n : NodeId) (d : Node)
    (s : Machine V) : Machine V :=
  let args := d.values M s.store
  let next := Point.toward d.firstNext
  match d.kind with
  | .define .. | .enter .block _ | .enter .loop _ | .close _ | .step _ => s.goto next
  | .enter .cond region => s.decide M n true args next (.before (d.otherwise region))
  | .branch guarded goal => s.decide M n guarded args (.toward (r.branchArrival goal).toOption) next
  | .goto guarded goal => s.decide M n guarded args (d.landing goal) next
  | .declare role => (s.visit n (.declare role) args).goto next
  | .op code => ((s.assign d.dest (M.value n args)).visit n (.op code) args).goto next
  | .call form sig => d.performCall M n form sig s
  | .yield => (s.visit n .yield args).goto next
  | .ret => (s.visit n .ret args).goto .ended

/-- One step of the machine. Control that leaves the arena ends. -/
def Routine.advance (r : Routine) (M : Interp V) (s : Machine V) : Machine V :=
  match s.point with
  | .before n => r.nodes[n]?.elim (s.goto .ended) fun d => r.perform M n d s
  | .amid n => r.nodes[n]?.elim (s.goto .ended) fun d => d.performFinish M s
  | .ended => s

/-- The machine in front of a routine. -/
def Routine.boot (r : Routine) (store : VarId → V) : Machine V := ⟨.before r.entry, store, [], []⟩

/-- The machine after a number of steps. -/
def Routine.execute (r : Routine) (M : Interp V) (store : VarId → V) (steps : Nat) : Machine V :=
  (r.advance M)^[steps] (r.boot store)

/-- What can be seen of a state: the trace, the store and the calls made. -/
def Machine.seen (s : Machine V) : List (Visit V) × (VarId → V) × List (Request V) :=
  (s.trace, s.store, s.requests)

/-! ### Stuttering

Two deterministic systems run alike if related states can be kept related by moving one of them or
both, and a rank excludes that one of them moves alone forever. -/

/-- A relation, ranked by how far two states are from a common move. -/
structure Stutters {σ τ : Type} (f : σ → σ) (g : τ → τ) (finalL : σ → Prop) (finalR : τ → Prop)
    (R : ℕ → σ → τ → Prop) : Prop where
  step : ∀ {i s t}, R i s t →
    (∃ j < i, R j (f s) t) ∨ (∃ j < i, R j s (g t)) ∨ ∃ j, R j (f s) (g t)
  final_left : ∀ {i s t}, R i s t → finalL s → finalR t ∨ ∃ j < i, R j s (g t)
  final_right : ∀ {i s t}, R i s t → finalR t → finalL s ∨ ∃ j < i, R j (f s) t

namespace Stutters

variable {σ τ : Type} {f : σ → σ} {g : τ → τ} {finalL : σ → Prop} {finalR : τ → Prop}
  {R : ℕ → σ → τ → Prop}

theorem symm (h : Stutters f g finalL finalR R) :
    Stutters g f finalR finalL fun i t s => R i s t where
  step hR := by
    rcases h.step hR with hleft | hright | hboth
    · exact Or.inr (Or.inl hleft)
    · exact Or.inl hright
    · exact Or.inr (Or.inr hboth)
  final_left hR := h.final_right hR
  final_right hR := h.final_left hR

/-- Every run of the left system is followed by a run of the right one. -/
theorem follow (h : Stutters f g finalL finalR R) (k : ℕ) {i : ℕ} {s : σ} {t : τ} (hR : R i s t) :
    ∃ k' j, R j (f^[k] s) (g^[k'] t) ∧ (finalL (f^[k] s) → finalR (g^[k'] t)) := by
  -- the right system moves alone while the rank falls
  induction k generalizing i s t with
  | zero =>
    induction i using Nat.strongRecOn generalizing t with
    | ind i ih =>
      by_cases hfinal : finalL s
      · rcases h.final_left hR hfinal with hdone | ⟨j, hj, hnext⟩
        · exact ⟨0, i, hR, fun _ => hdone⟩
        · obtain ⟨k', j', hR', hfin⟩ := ih j hj hnext
          exact ⟨k' + 1, j', hR', hfin⟩
      · exact ⟨0, i, hR, fun hs => absurd hs hfinal⟩
  | succ k ih =>
    induction i using Nat.strongRecOn generalizing t with
    | ind i ihi =>
      rcases h.step hR with ⟨j, _, hleft⟩ | ⟨j, hj, hright⟩ | ⟨j, hboth⟩
      · exact ih hleft
      · obtain ⟨k', j', hR', hfin⟩ := ihi j hj hright
        exact ⟨k' + 1, j', hR', hfin⟩
      · obtain ⟨k', j', hR', hfin⟩ := ih hboth
        exact ⟨k' + 1, j', hR', hfin⟩

end Stutters

end CoroutineIR
