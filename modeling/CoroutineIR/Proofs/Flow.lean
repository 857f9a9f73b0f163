import CoroutineIR.Proofs.WellStructured
import Mathlib.Data.List.Chain

/-!
# The flow of control in a structured stream

Control that is in the stream stays there: a branch arrives at the head or behind the end of a
region of the stream, and a jump at one of its steps. The tables of predecessors that the passes
build list exactly the edges of the flow.
-/

namespace CoroutineIR

open List Option Attempt NodeKind

/-- Whether control may come to a node from elsewhere than the nodes in front of it. -/
def NodeKind.isLanding : NodeKind → Bool
  | .close _ | .enter .loop _ | .step _ => true
  | _ => false

@[simp] theorem mem_dropRepeats {α : Type} [DecidableEq α] {l : List α} {a : α} :
    a ∈ dropRepeats l ↔ a ∈ l := by
  fun_induction dropRepeats l with
  | case1 b rest ih => simp [ih]
  | case2 b c rest hne ih => rw [mem_cons, ih, mem_cons (l := c :: rest)]
  | case3 l => rfl

namespace Routine

variable {r : Routine} {exit n m : NodeId} {t : Strand} {holds : Bool}

/-- Where control goes after a node, given whether its condition holds. -/
def follow (r : Routine) (n : NodeId) (holds : Bool) : Option NodeId :=
  match r.kindOf n with
  | none | some .ret => none
  | some (.enter .cond region) =>
    if holds then (r.nextOf n).head? else some ((r.nextOf n)[1]?.getD region.close)
  | some (.branch guarded goal) =>
    if !guarded || holds then (r.branchArrival goal).toOption else (r.nextOf n).head?
  | some (.goto guarded goal) =>
    if !guarded || holds then
      match goal with
      | .step m => some m
      | .terminal => none
      | .pending _ => (r.nextOf n).head?
    else (r.nextOf n).head?
  | some _ => (r.nextOf n).head?

/-- Control can go on to a node right after another one. -/
def Follows (r : Routine) (n m : NodeId) : Prop := ∃ holds, r.follow n holds = some m

instance (r : Routine) (n m : NodeId) : Decidable (r.Follows n m) :=
  inferInstanceAs (Decidable (∃ holds, r.follow n holds = some m))

/-- Control can reach a node from the entry. -/
def Reached (r : Routine) (n : NodeId) : Prop := Relation.ReflTransGen r.Follows r.entry n

theorem Reached.of_path {path : List NodeId} (h : List.IsChain r.Follows (r.entry :: path)) :
    r.Reached ((r.entry :: path).getLast (cons_ne_nil _ _)) :=
  relationReflTransGen_of_exists_isChain_cons _ h rfl

/-- The nodes that the passes take to run right after a node, if there is an answer. -/
def flow (r : Routine) (n : NodeId) : List NodeId := (r.flowSuccs n).toOption.getD []

/-- The end of a region of the stream is in the stream. -/
theorem Streams.close_mem (h : r.Streams exit t) (hm : m ∈ r.live exit t) {kind : NodeKind}
    {region : Region} (hkind : r.kindOf m = some kind) (hregion : kind.region? = some region) :
    region.close ∈ r.live exit t := by
  simp only [mem_cons] at hm
  rcases hm with rfl | rfl | hm
  · obtain ⟨name, sig, suspends, hentry⟩ := h.entry_kind
    obtain rfl := some.inj (hkind.symm.trans hentry)
    obtain rfl := some.inj hregion
    simp
  · obtain rfl := some.inj (hkind.symm.trans h.exit_kind)
    simp at hregion
  · simp [h.shaped.closer_mem hm hkind hregion]

/-- A branch goes back to a loop and behind any other region. -/
theorem branchArrival_toOption (r : Routine) (goal : Branch) : (r.branchArrival goal).toOption =
    (r.kindOf goal.target).map fun kind =>
    if kind.isLoop then goal.target else kind.partner?.getD goal.target := by
  cases hkind : r.kindOf goal.target with
  | none =>
    have hnone : r.nodes[goal.target]? = none := by simpa [kindOf, label] using hkind
    simp [branchArrival, node, Arena.fetch, hnone, Attempt.present, Attempt.abort, Except.toOption]
  | some kind =>
    obtain ⟨d, hd, rfl, -⟩ := node_of_kindOf hkind
    simp only [branchArrival, node_eq_ok_iff.mpr hd, ok_bind, map_some]
    split <;> rfl

/-- Control goes on to a node behind, to the end of a conditional, to where a branch arrives or to a
step. -/
theorem follow_elim (hm : r.follow n holds = some m) : m ∈ r.nextOf n ∨
    (∃ region, r.kindOf n = some (.enter .cond region) ∧ m = region.close) ∨
    (∃ guarded goal, r.kindOf n = some (.branch guarded goal) ∧ (r.branchArrival goal).toOption =
      some m) ∨ ∃ guarded, r.kindOf n = some (.goto guarded (.step m)) := by
  have hhead : (r.nextOf n).head? = some m → m ∈ r.nextOf n := mem_of_mem_head?
  unfold follow at hm
  split at hm
  · cases hm
  · cases hm
  · rename_i region hkind
    split at hm
    · exact .inl (hhead hm)
    · cases hsecond : (r.nextOf n)[1]? with
      | some first =>
        rw [hsecond] at hm
        exact .inl (some.inj hm ▸ mem_of_getElem? hsecond)
      | none =>
        rw [hsecond] at hm
        exact .inr (.inl ⟨region, hkind, (some.inj hm).symm⟩)
  · rename_i guarded goal hkind
    split at hm
    · exact .inr (.inr (.inl ⟨guarded, goal, hkind, hm⟩))
    · exact .inl (hhead hm)
  · rename_i guarded goal hkind
    split at hm
    · split at hm
      · obtain rfl := some.inj hm
        exact .inr (.inr (.inr ⟨guarded, hkind⟩))
      · cases hm
      · exact .inl (hhead hm)
    · exact .inl (hhead hm)
  · exact .inl (hhead hm)

namespace WellStructured

variable (h : r.WellStructured exit t)
include h

section

variable (hn : n ∈ r.live exit t)
include hn

/-- A branch lands at the head of a loop or at the end of another region. -/
theorem branch_landing {guarded : Bool} {goal : Branch}
    (hkind : r.kindOf n = some (.branch guarded goal)) : ∃ m kind, (r.branchArrival goal).toOption =
    some m ∧ r.kindOf m = some kind ∧ kind.isLanding = true ∧ m ∈ r.live exit t := by
  obtain ⟨htarget, kind, hk, hregion⟩ := (h.fits hn).target guarded goal hkind
  rw [branchArrival_toOption, hk, map_some]
  by_cases hloop : kind.isLoop = true
  · refine ⟨goal.target, kind, by rw [if_pos hloop], hk, ?_, htarget⟩
    cases kind with
    | enter form region => cases form <;> simp_all [isLoop, isLanding]
    | _ => simp_all [isLoop]
  · obtain ⟨region, hregion⟩ := isSome_iff_exists.mp hregion
    have hpartner : kind.partner? = some region.close := by
      cases kind <;> simp_all [partner?]
    exact ⟨region.close, .close goal.target, by rw [if_neg hloop, hpartner, getD_some],
      (h.partners htarget hk).1 region hregion, rfl, h.close_mem htarget hk hregion⟩

/-- Control goes on to a node behind, or lands. -/
theorem follow_cases (hm : r.follow n holds = some m) :
    m ∈ r.nextOf n ∨ m ∈ r.live exit t ∧ ∃ kind, r.kindOf m = some kind ∧
    kind.isLanding = true := by
  rcases follow_elim hm with hm | ⟨region, hkind, rfl⟩ | ⟨guarded, goal, hkind,
    hm⟩ | ⟨guarded, hkind⟩
  · exact Or.inl hm
  · exact Or.inr ⟨h.close_mem hn hkind rfl, _, (h.partners hn hkind).1 region rfl, rfl⟩
  · obtain ⟨m', kind, harrival, hm', hlanding, hmem⟩ := h.branch_landing hn hkind
    obtain rfl := some.inj (harrival.symm.trans hm)
    exact Or.inr ⟨hmem, kind, hm', hlanding⟩
  · obtain ⟨hmem, name, hm'⟩ := (h.fits hn).lands guarded _ hkind
    exact Or.inr ⟨hmem, _, hm', rfl⟩

/-- Control stays in the stream. -/
theorem follow_mem (hm : r.follow n holds = some m) : m ∈ r.live exit t :=
  (h.follow_cases hn hm).elim (h.next_mem hn) And.left

theorem mem_of_follows (hm : r.Follows n m) : m ∈ r.live exit t := hm.elim fun _ => h.follow_mem hn

/-- Only a conditional has two nodes behind it, and only the end has none. -/
theorem nextOf_cases : (∃ a, r.nextOf n = [a]) ∨
    (∃ a b region, r.nextOf n = [a, b] ∧ r.kindOf n = some (.enter .cond region)) ∨
    r.nextOf n = [] ∧ ∃ o, r.kindOf n = some (.close o) := by
  simp only [live, mem_cons] at hn
  rcases hn with rfl | rfl | hn
  · exact Or.inl (length_eq_one_iff.mp h.entry_degrees.2)
  · exact Or.inr (Or.inr ⟨length_eq_zero_iff.mp h.exit_degrees.2, _, h.exit_kind⟩)
  · rcases (h.shaped.degrees hn h.sized).2 with hone | ⟨htwo, region, hkind⟩
    · exact Or.inl (length_eq_one_iff.mp hone)
    · obtain ⟨a, b, hnext⟩ := length_eq_two.mp htwo
      exact Or.inr (Or.inl ⟨a, b, region, hnext, hkind⟩)

/-- The passes take control to go where it does. -/
theorem flowSuccs_eq : r.flowSuccs n = .ok (r.flow n) ∧ ∀ m, m ∈ r.flow n ↔ r.Follows n m := by
  obtain ⟨d, hd⟩ := h.exists_node hn
  suffices hsuffices : ∃ succs, r.flowSuccs n = .ok (dropRepeats succs) ∧ ∀ m, m ∈ succs ↔
      r.Follows n m by
    obtain ⟨succs, hsuccs, hmem⟩ := hsuffices
    rw [flow, hsuccs]
    exact ⟨rfl, fun m => mem_dropRepeats.trans (hmem m)⟩
  have hcases := h.nextOf_cases hn
  have hkind := kindOf_eq hd
  rw [nextOf_eq hd, hkind] at hcases
  simp only [Follows, follow, hkind, nextOf_eq hd, flowSuccs, node_eq_ok_iff.mpr hd, ok_bind,
    Bool.exists_bool]
  rcases hcases with ⟨a, hnext⟩ | ⟨a, b, region, hnext, hk⟩ | ⟨hnext, o, hk⟩
  · cases hk : d.kind with
    | ret => exact ⟨[], rfl, by simp⟩
    | branch guarded goal =>
      obtain ⟨dest, -, hdest, -⟩ := h.branch_landing hn (hkind.trans (congrArg some hk))
      have harrives : r.branchArrival goal = .ok dest := by
        cases hgoal : r.branchArrival goal <;> simp_all [Except.toOption]
      refine ⟨(if guarded then d.firstNext.toList else []) ++ [dest], ?_, fun m => ?_⟩
      · dsimp only
        rw [harrives]
        rfl
      · cases guarded <;> simp [harrives, Except.toOption, Node.firstNext, hnext, eq_comm]
    | goto guarded goal =>
      refine ⟨(if guarded then d.firstNext.toList else []) ++ (jumpArrival d goal).toList,
        rfl, fun m => ?_⟩
      cases guarded <;> cases goal <;> simp [jumpArrival, Node.firstNext, hnext, eq_comm]
    | enter form region =>
      cases form with
      | cond =>
        exact ⟨[a, region.close], by rw [hnext]; rfl, fun m => by simp [hnext, eq_comm, or_comm]⟩
      | block | loop => exact ⟨d.next, rfl, fun m => by simp [hnext, eq_comm]⟩
    | define | declare | close | call | yield | step | op =>
      exact ⟨d.next, rfl, fun m => by simp [hnext, eq_comm]⟩
  · rw [some.inj hk]
    exact ⟨[a, b], by rw [hnext]; rfl, fun m => by simp [hnext, eq_comm, or_comm]⟩
  · rw [some.inj hk]
    exact ⟨[], by rw [hnext]; rfl, by simp [hnext]⟩

end

/-- The flow of control stays in the stream. -/
theorem flow_mem (hn : n ∈ r.live exit t) : ∀ m ∈ r.flow n, m ∈ r.live exit t := fun m hm =>
  h.mem_of_follows hn (((h.flowSuccs_eq hn).2 m).mp hm)

theorem flow_closedOn : r.flowGraph.ClosedOn r.flow (· ∈ r.live exit t) where
  lt_size _ hn := h.lt_size hn
  succs _ hn := (h.flowSuccs_eq hn).1
  closed _ hn := h.flow_mem hn

/-- Control can only reach nodes of the stream. -/
theorem mem_of_reached (hn : r.Reached n) : n ∈ r.live exit t := by
  induction hn with
  | refl => simp
  | tail _ hm ih => exact h.mem_of_follows ih hm

/-- Control reaches what can be reached by the flow. -/
theorem reached_iff : Relation.ReflTransGen (fun a b => b ∈ r.flow a) r.entry n ↔ r.Reached n := by
  constructor
  · intro hn
    suffices hboth : r.Reached n ∧ n ∈ r.live exit t from hboth.1
    induction hn with
    | refl => exact ⟨.refl, by simp⟩
    | tail _ hm ih => exact ⟨ih.1.tail (((h.flowSuccs_eq ih.2).2 _).mp hm), h.flow_mem ih.2 _ hm⟩
  · intro hn
    induction hn with
    | refl => exact .refl
    | tail hn hm ih => exact ih.tail (((h.flowSuccs_eq (h.mem_of_reached hn)).2 _).mpr hm)

/-- The table of predecessors lists the edges of the flow. -/
theorem flowPreds_eq : ∃ preds : Array (List NodeId), r.flowPreds = .ok preds ∧
    preds.size = r.nodes.size ∧ ∀ m l, preds[m]? = some l → ∀ n, n ∈ l ↔
    n ∈ r.live exit t ∧ m ∈ r.flow n := by
  obtain ⟨live, hlive, hperm⟩ := h.liveNodes_eq
  have hedges : ∀ n ∈ live, (∀ preds,
      (do (← r.flowSuccs n).foldlM (fun preds m => Arena.update preds m (· ++ [n])) preds
        : Query _) =
      (r.flow n).foldlM (fun preds m => Arena.update preds m (· ++ [n])) preds) ∧
      ∀ m ∈ r.flow n, m < r.nodes.size := by
    intro n hn
    have hn := hperm.mem_iff.mp hn
    exact ⟨fun preds => by rw [(h.flowSuccs_eq hn).1]; rfl,
      fun m hm => h.lt_size (h.flow_mem hn m hm)⟩
  obtain ⟨preds, hrun, hholds⟩ :=
    (Arena.Holds.replicate r.nodes.size []).spread (fun n => (· ++ [n])) r.flow hedges
  refine ⟨preds, bind_eq_ok_iff.mpr ⟨live, hlive, hrun⟩, hholds.size_eq, fun m l hl n => ?_⟩
  rw [hholds.get m (hholds.size_eq ▸ (Array.getElem?_eq_some_iff.mp hl).1), some.injEq] at hl
  rw [← hl, ← hperm.mem_iff]
  simp [count_eq_zero]

end WellStructured

end Routine

end CoroutineIR
