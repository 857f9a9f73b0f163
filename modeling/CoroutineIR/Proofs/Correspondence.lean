import CoroutineIR.Proofs.Machine
import CoroutineIR.Proofs.Structure

/-!
# Routines that run alike

Two routines run alike if the nodes of the one that execute something are executed by the other as
well, and if control, once it has left such a node, meets again: both routines then pass structural
nodes only, until they are in front of the same node. What has to be checked is local, one node at a
time.
-/

namespace CoroutineIR

open Option Node Routine

variable {V : Type}

@[simp] theorem Machine.seen_goto (s : Machine V) (p : Point) : (s.goto p).seen = s.seen := rfl

@[simp] theorem Machine.point_goto (s : Machine V) (p : Point) : (s.goto p).point = p := rfl

/-- Whether control only moves on to the next node. -/
def NodeKind.isQuiet : NodeKind → Bool
  | .define .. | .enter .block _ | .enter .loop _ | .close _ | .step _ => true
  | _ => false

theorem NodeKind.isQuiet_enter {form : Form} {region : Region} (h : form ≠ .cond) :
    (enter form region).isQuiet = true := by
  cases form <;> simp_all [isQuiet]

namespace Routine

variable {r : Routine} {n m exit : NodeId} {s : Machine V}

/-- The node reached from a node that executes nothing. -/
def passes (r : Routine) (n : NodeId) : Option NodeId :=
  r.nodes[n]?.bind fun d =>
    if d.kind.isQuiet then d.firstNext else
      match d.kind with
      | .goto false (.step m) => some m
      | _ => none

/-- Control gets from one node to another in a number of steps that execute nothing. -/
inductive Leads (r : Routine) : NodeId → NodeId → ℕ → Prop
  | refl (n : NodeId) : Leads r n n 0
  | pass {n m h : NodeId} {i : ℕ} (hpass : r.passes n = some m) (hlead : Leads r m h i) :
    Leads r n h (i + 1)

theorem passes_of_next {kind : NodeKind} (hkind : r.kindOf n = some kind)
    (hquiet : kind.isQuiet = true) (hnext : r.nextOf n = [m]) : r.passes n = some m := by
  obtain ⟨d, hd, rfl, hnexts, _⟩ := node_of_kindOf hkind
  simp [passes, hd, hquiet, Node.firstNext, hnexts, hnext]

theorem passes_of_goto (hkind : r.kindOf n = some (.goto false (.step m))) :
    r.passes n = some m := by
  obtain ⟨d, hd, hk, _⟩ := node_of_kindOf hkind
  simp [passes, hd, hk, NodeKind.isQuiet]

/-- Passing a node only moves control. -/
theorem advance_of_passes (hpass : r.passes n = some m) (M : Interp V) (hs : s.point = .before n) :
    r.advance M s = s.goto (.before m) := by
  obtain ⟨d, hd, hkind⟩ := bind_eq_some_iff.mp hpass
  simp only [advance, hs, hd, elim_some, perform]
  split at hkind
  · rename_i hquiet
    unfold NodeKind.isQuiet at hquiet
    split at hquiet <;> simp_all [Point.toward]
  · split at hkind <;> simp_all [Machine.decide, landing]

/-- A node at which a routine ends. -/
structure EndsAt (r : Routine) (n : NodeId) : Prop where
  close : ∃ o, r.kindOf n = some (.close o)
  last : r.nextOf n = []

theorem EndsAt.advance (hexit : r.EndsAt exit) (M : Interp V) (hs : s.point = .before exit) :
    r.advance M s = s.goto .ended := by
  obtain ⟨o, hclose⟩ := hexit.close
  obtain ⟨d, hd, hkind, _⟩ := node_of_kindOf hclose
  have hnext : d.next = [] := by rw [← nextOf_eq hd, hexit.last]
  simp [Routine.advance, hs, hd, perform, hkind, Node.firstNext, hnext, Point.toward]

theorem advance_terminal (hkind : r.kindOf n = some (.goto false .terminal)) (M : Interp V)
    (hs : s.point = .before n) : r.advance M s = s.goto .ended := by
  obtain ⟨d, hd, hk, _⟩ := node_of_kindOf hkind
  simp [advance, hs, hd, perform, hk, Machine.decide, landing]

end Routine

/-- Two routines to be compared. -/
structure Pairing where
  left : Routine
  right : Routine
  /-- The node at which both end. -/
  exit : NodeId
  /-- The nodes that both execute. -/
  kept : NodeId → Prop
  /-- The calls of the left routine with their second halves in the right one. -/
  split : NodeId → NodeId → Prop

namespace Pairing

variable {P : Pairing} {n m f : NodeId} {p q : Point} {i j : ℕ} {form : CallForm} {sig : Signature}

/-- Where control meets: in front of a node that both routines execute, or at the end. -/
inductive Joint (P : Pairing) : NodeId → NodeId → Prop
  | kept {n : NodeId} (h : P.kept n) : Joint P n n
  | exit : Joint P P.exit P.exit
  | jump {n : NodeId} (h : P.right.kindOf n = some (.goto false .terminal)) : Joint P P.exit n

/-- Control is about to meet. The index says how far it still is from there. -/
inductive Meet (P : Pairing) : ℕ → Point → Point → Prop
  | ended : Meet P 0 .ended .ended
  | node {n m h h' : NodeId} {i j : ℕ} (hleft : P.left.Leads n h i) (hright : P.right.Leads m h' j)
    (hjoint : P.Joint h h') : Meet P (i + j) (.before n) (.before m)
  /-- The right routine has jumped to its end. -/
  | ending {n : NodeId} {i : ℕ} (hleft : P.left.Leads n P.exit i) :
    Meet P (i + 1) (.before n) .ended
  /-- The left routine is between the halves of a call. -/
  | halves {n m f : NodeId} {j : ℕ} (hright : P.right.Leads m f j) (hsplit : P.split n f) :
    Meet P j (.amid n) (.before m)

/-- Control meets, whatever the distance. -/
def Meets (P : Pairing) (p q : Point) : Prop := ∃ i, P.Meet i p q

theorem meets_kept (h : P.kept n) : P.Meets (.before n) (.before n) :=
  ⟨0, .node (.refl n) (.refl n) (.kept h)⟩

theorem Meets.pass_left (hpass : P.left.passes n = some m) (h : P.Meets (.before m) q) :
    P.Meets (.before n) q := by
  obtain ⟨k, hmeet⟩ := h
  cases hmeet with
  | node hleft hright hjoint => exact ⟨_, .node (.pass hpass hleft) hright hjoint⟩
  | ending hleft => exact ⟨_, .ending (.pass hpass hleft)⟩

theorem Meets.pass_right (hpass : P.right.passes n = some m) (h : P.Meets p (.before m)) :
    P.Meets p (.before n) := by
  obtain ⟨k, hmeet⟩ := h
  cases hmeet with
  | node hleft hright hjoint => exact ⟨_, .node hleft (.pass hpass hright) hjoint⟩
  | halves hright hsplit => exact ⟨_, .halves (.pass hpass hright) hsplit⟩

/-- From states that look alike, with control at the given points, both routines go on alike. -/
def Alike (P : Pairing) (p q : Point) : Prop :=
  ∀ (V : Type) (M : Interp V) (s t : Machine V), s.point = p → t.point = q → s.seen = t.seen →
    (P.left.advance M s).seen = (P.right.advance M t).seen ∧
      P.Meets (P.left.advance M s).point (P.right.advance M t).point

/-- What has to be checked for two routines to run alike. -/
structure Holds (P : Pairing) : Prop where
  exit_left : P.left.EndsAt P.exit
  exit_right : P.right.EndsAt P.exit
  entry : P.Meets (.before P.left.entry) (.before P.right.entry)
  kept_alike : ∀ n, P.kept n → P.Alike (.before n) (.before n)
  split_alike : ∀ n f, P.split n f → P.Alike (.amid n) (.before f)

/-- Control at the joint moves on in both routines. -/
theorem Holds.joint (h : P.Holds) (hjoint : P.Joint n m) : P.Alike (.before n) (.before m) := by
  cases hjoint with
  | kept hkept => exact h.kept_alike n hkept
  | exit =>
    intro V M s t hs ht hseen
    rw [h.exit_left.advance M hs, h.exit_right.advance M ht]
    exact ⟨hseen, 0, .ended⟩
  | jump hkind =>
    intro V M s t hs ht hseen
    rw [h.exit_left.advance M hs, advance_terminal hkind M ht]
    exact ⟨hseen, 0, .ended⟩

/-- Where the right routine has ended, the left one goes on to its end. -/
theorem Holds.ending (h : P.Holds) (M : Interp V) {s t : Machine V} (hp : s.point = .before n)
    (hseen : s.seen = t.seen) (hleft : P.left.Leads n P.exit i) :
    ∃ j < i + 1, (P.left.advance M s).seen = t.seen ∧
    P.Meet j (P.left.advance M s).point .ended := by
  cases hleft with
  | @pass _ n' _ i hpass hlead =>
    refine ⟨i + 1, by omega, ?_⟩
    rw [advance_of_passes hpass M hp]
    exact ⟨hseen, .ending hlead⟩
  | refl =>
    refine ⟨0, by omega, ?_⟩
    rw [h.exit_left.advance M hp]
    exact ⟨hseen, .ended⟩

/-- Routines that correspond stay together. -/
theorem Holds.stutters (h : P.Holds) (M : Interp V) :
    Stutters (P.left.advance M) (P.right.advance M) (fun s => s.point = .ended)
    (fun s => s.point = .ended) fun i s t => s.seen = t.seen ∧ P.Meet i s.point t.point where
  step := by
    rintro i s t ⟨hseen, hmeet⟩
    generalize hp : s.point = p at hmeet
    generalize hq : t.point = q at hmeet
    cases hmeet with
    | ended =>
      refine Or.inr (Or.inr ⟨0, ?_⟩)
      simp only [Routine.advance, hp, hq]
      exact ⟨hseen, .ended⟩
    | @node n m a b i j hleft hright hjoint =>
      cases hleft with
      | @pass _ n' _ i hpass hlead =>
        refine Or.inl ⟨i + j, by omega, ?_⟩
        rw [advance_of_passes hpass M hp]
        exact ⟨hseen, .node hlead hright hjoint⟩
      | refl =>
        cases hright with
        | @pass _ m' _ j hpass hlead =>
          refine Or.inr (Or.inl ⟨0 + j, by omega, ?_⟩)
          rw [advance_of_passes hpass M hq]
          exact ⟨hseen, .node (.refl _) hlead hjoint⟩
        | refl =>
          obtain ⟨hseen', j, hj⟩ := h.joint hjoint V M s t hp hq hseen
          exact Or.inr (Or.inr ⟨j, hseen', hj⟩)
    | ending hleft => exact Or.inl (hq ▸ h.ending M hp hseen hleft)
    | @halves n m f j hright hsplit =>
      cases hright with
      | @pass _ m' _ j hpass hlead =>
        refine Or.inr (Or.inl ⟨j, by omega, ?_⟩)
        rw [advance_of_passes hpass M hq]
        exact ⟨hseen, .halves hlead hsplit⟩
      | refl =>
        obtain ⟨hseen', j, hj⟩ := h.split_alike n m hsplit V M s t hp hq hseen
        exact Or.inr (Or.inr ⟨j, hseen', hj⟩)
  final_left := by
    rintro i s t ⟨_, hmeet⟩ hfinal
    rw [hfinal] at hmeet
    left
    generalize t.point = q at hmeet
    cases hmeet
    rfl
  final_right := by
    rintro i s t ⟨hseen, hmeet⟩ hfinal
    generalize hp : s.point = p at hmeet
    rw [hfinal] at hmeet
    cases hmeet with
    | ended => exact Or.inl rfl
    | ending hleft => exact Or.inr (hfinal ▸ h.ending M hp hseen hleft)

/-- Every run of one of two corresponding routines is followed by a run of the other. -/
theorem Holds.execute (h : P.Holds) (M : Interp V) (store : VarId → V) :
    (∀ k, ∃ k', (P.left.execute M store k).seen = (P.right.execute M store k').seen ∧
      ((P.left.execute M store k).point = .ended → (P.right.execute M store k').point = .ended)) ∧
    ∀ k', ∃ k, (P.left.execute M store k).seen = (P.right.execute M store k').seen ∧
      ((P.right.execute M store k').point = .ended →
      (P.left.execute M store k).point = .ended) := by
  obtain ⟨i, hentry⟩ := h.entry
  have hboot : (P.left.boot store).seen = (P.right.boot store).seen ∧
      P.Meet i (P.left.boot store).point (P.right.boot store).point := ⟨rfl, hentry⟩
  constructor
  · intro k
    obtain ⟨k', j, ⟨hseen, _⟩, hfinal⟩ := (h.stutters M).follow k hboot
    exact ⟨k', hseen, hfinal⟩
  · intro k'
    obtain ⟨k, j, ⟨hseen, _⟩, hfinal⟩ := (h.stutters M).symm.follow k' hboot
    exact ⟨k, hseen, hfinal⟩

/-! ### Nodes that run alike -/

/-- States that look alike at the same point are the same. -/
theorem eq_of_seen {s t : Machine V} (hpoint : s.point = t.point)
    (hseen : s.seen = t.seen) : s = t := by
  obtain ⟨ps, ss, rs, ts⟩ := s
  obtain ⟨pt, st, rt, tt⟩ := t
  simp only [Machine.seen, Prod.mk.injEq] at hseen
  simp_all

variable {d d' : Node}

variable (hd : P.left.label n = some d)
include hd

/-- A node that stays as it is. -/
theorem alike_of_label (hd' : P.right.label n = some d)
    (hjump : ∀ guarded goal, d.kind ≠ .goto guarded goal) (hwhole : d.kind.awaits = false)
    (hnext : P.Meets (.toward (P.left.nextOf n).head?) (.toward (P.right.nextOf n).head?))
    (hcond : ∀ region, d.kind = .enter .cond region →
      P.Meets (.before ((P.left.nextOf n)[1]?.getD region.close))
        (.before ((P.right.nextOf n)[1]?.getD region.close)))
        (hbranch : ∀ guarded goal, d.kind = .branch guarded goal →
      P.Meets (.toward (P.left.branchArrival goal).toOption)
      (.toward (P.right.branchArrival goal).toOption)) :
    P.Alike (.before n) (.before n) := by
  intro V M s t hs ht hseen
  obtain rfl := eq_of_seen (hs.trans ht.symm) hseen
  simp only [Routine.advance, hs, node_of_label hd, node_of_label hd', elim_some,
    Routine.perform, values, Node.firstNext, Node.otherwise]
  cases hk : d.kind with
  | define | close | step | declare | op | yield => exact ⟨rfl, hnext⟩
  | ret => exact ⟨rfl, 0, .ended⟩
  | enter form region =>
    cases form with
    | block | loop => exact ⟨rfl, hnext⟩
    | cond =>
      cases hholds : M.truth n (d.args.filterMap (Operand.value? M s.store)) with
      | true => simpa [Machine.decide, hholds] using hnext
      | false => simpa [Machine.decide, hholds] using hcond region hk
  | branch guarded goal =>
    cases guarded with
    | false => simpa [Machine.decide] using hbranch false goal hk
    | true =>
      cases hholds : M.truth n (d.args.filterMap (Operand.value? M s.store)) with
      | true => simpa [Machine.decide, hholds] using hbranch true goal hk
      | false => simpa [Machine.decide, hholds] using hnext
  | goto guarded goal => exact absurd hk (hjump guarded goal)
  | call form sig =>
    rw [hk] at hwhole
    simp only [performCall, values, Node.firstNext]
    cases form with
    | direct | indirect =>
      rw [show sig.suspends = false from hwhole]
      exact ⟨rfl, hnext⟩
    | directBegin | indirectBegin | finish | spawn | spawnIndirect => exact ⟨rfl, hnext⟩

/-- A branch that has become a jump. -/
theorem alike_jump {guarded : Bool} {goal : Branch} {jump : Jump}
    (hd' : P.right.label n = some d') (hkind : d.kind = .branch guarded goal)
    (hkind' : d'.kind = .goto guarded jump) (hargs : d'.args = d.args)
    (hnext : P.Meets (.toward (P.left.nextOf n).head?) (.toward (P.right.nextOf n).head?))
    (hland : ∀ e : Node, P.Meets (.toward (P.left.branchArrival goal).toOption) (e.landing jump)) :
    P.Alike (.before n) (.before n) := by
  intro V M s t hs ht hseen
  obtain rfl := eq_of_seen (hs.trans ht.symm) hseen
  simp only [Routine.advance, hs, node_of_label hd, node_of_label hd', elim_some,
    Routine.perform, hkind, hkind', values, Node.firstNext, hargs]
  cases guarded with
  | false => simpa [Machine.decide] using hland _
  | true =>
    cases hholds : M.truth n (d.args.filterMap (Operand.value? M s.store)) with
    | true => simpa [Machine.decide, hholds] using hland _
    | false => simpa [Machine.decide, hholds] using hnext

/-- A call of which the first half is left. -/
theorem alike_begin {first : CallForm} (hd' : P.right.label n = some d')
    (hkind : d.kind = .call form sig) (hfirst : form.begun? = some first)
    (hsuspends : sig.suspends = true)
    (hkind' : d'.kind = .call first sig) (hargs : d'.args = d.args)
    (hnext : P.Meets (.amid n) (.toward (P.right.nextOf n).head?)) :
    P.Alike (.before n) (.before n) := by
  intro V M s t hs ht hseen
  obtain rfl := eq_of_seen (hs.trans ht.symm) hseen
  simp only [Routine.advance, hs, node_of_label hd, node_of_label hd', elim_some,
    Routine.perform, hkind, hkind', performCall, values, Node.firstNext, hargs,
    hfirst, hsuspends]
  cases form with
  | direct | indirect =>
    obtain rfl := some.inj hfirst
    exact ⟨rfl, hnext⟩
  | directBegin | indirectBegin | finish | spawn | spawnIndirect => cases hfirst

/-- The second half of a call. -/
theorem alike_finish (hd' : P.right.label f = some d') (hkind : d.kind = .call form sig)
    (hkind' : d'.kind = .call .finish sig) (hdest : d'.dest = d.dest)
    (hnext : P.Meets (.toward (P.left.nextOf n).head?) (.toward (P.right.nextOf f).head?)) :
    P.Alike (.amid n) (.before f) := by
  intro V M s t hs ht hseen
  obtain ⟨ps, ss, rs, ts⟩ := s
  obtain ⟨pt, st, rt, tt⟩ := t
  simp only [Machine.seen, Prod.mk.injEq] at hseen
  obtain ⟨rfl, rfl, rfl⟩ := hseen
  dsimp only at hs ht
  subst hs ht
  simp only [Routine.advance, node_of_label hd, node_of_label hd', elim_some,
    Routine.perform, hkind, hkind', performCall, performFinish, CallForm.begun?,
    hdest, Node.firstNext]
  exact ⟨rfl, hnext⟩

end Pairing

end CoroutineIR
