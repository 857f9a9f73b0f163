import CoroutineIR.Proofs.Verify
import Mathlib.Data.Nat.Find

/-!
# Sub-expressions

What is nested in a node depends on nothing but the operands of the nodes met on the way down, and
no node is nested in itself. The accesses of a node are put together from those of the nodes nested
in it.
-/

namespace CoroutineIR

namespace Attempt

variable {ε α β : Type} {l : List α} {f : α → Attempt ε β}

theorem mapM_eq_ok_iff {bs : List β} : l.mapM f = .ok bs ↔
    List.Forall₂ (fun a b => f a = .ok b) l bs := by
  induction l generalizing bs with
  | nil =>
    rw [List.mapM_nil, List.forall₂_nil_left_iff]
    exact ⟨fun h => (Except.ok.inj h).symm, fun h => by rw [h]; rfl⟩
  | cons a l ih =>
    rw [List.mapM_cons]
    simp only [bind_eq_ok_iff, ih, List.forall₂_cons_left_iff, pure_eq_ok, Except.ok.injEq]
    constructor
    · rintro ⟨b, hb, bs', hbs, rfl⟩
      exact ⟨b, bs', hb, hbs, rfl⟩
    · rintro ⟨b, bs', hb, hbs, rfl⟩
      exact ⟨b, hb, bs', hbs, rfl⟩

/-- A total function under the monad. -/
theorem mapM_eq_ok_map {g : α → β} (h : ∀ a ∈ l, f a = .ok (g a)) : l.mapM f = .ok (l.map g) := by
  rw [mapM_eq_ok_iff, List.forall₂_map_right_iff, List.forall₂_same]
  exact h

theorem filterM_eq_ok_filter {f : α → Attempt ε Bool} {g : α → Bool}
    (h : ∀ a ∈ l, f a = .ok (g a)) : l.filterM f = .ok (l.filter g) := by
  have haux : ∀ acc : List α, l.filterAuxM f acc = .ok ((l.filter g).reverse ++ acc) := by
    induction l with
    | nil => exact fun acc => rfl
    | cons a l ih =>
      intro acc
      simp only [List.forall_mem_cons] at h
      simp only [List.filterAuxM, h.1, ok_bind]
      rw [ih h.2, List.filter_cons]
      cases g a <;> simp
  simp only [List.filterM, haux, ok_bind, List.append_nil]
  exact congrArg Except.ok (List.reverse_reverse _)

/-- Keeping those that satisfy a property that can be decided under the monad. -/
theorem filterM_eq_ok {f : α → Attempt ε Bool} {P : α → Prop}
    (h : ∀ a ∈ l, ∃ b, f a = .ok b ∧ (b = true ↔ P a)) :
    ∃ kept, l.filterM f = .ok kept ∧ ∀ a, a ∈ kept ↔ a ∈ l ∧ P a := by
  choose! g hg using h
  refine ⟨l.filter g, filterM_eq_ok_filter fun a ha => (hg a ha).1, fun a => ?_⟩
  rw [List.mem_filter]
  exact and_congr_right fun ha => (hg a ha).2

end Attempt

open Option Attempt Operand

namespace Routine

variable {r r' : Routine} {n m : NodeId} {d : Node} {k k' : Nat} {ms : List NodeId}

/-- What is nested in a node is the node and what its operands hold. -/
theorem nestedWithin_succ_eq_ok_iff : r.nestedWithin (k + 1) n = .ok ms ↔
    ∃ d inner, r.nodes[n]? = some d ∧
      List.Forall₂ (fun m ms => r.nestedWithin k m = .ok ms) (d.args.filterMap node?)
      inner ∧ ms = n :: inner.flatten := by
  simp only [nestedWithin, bind_eq_ok_iff, node_eq_ok_iff, mapM_eq_ok_iff, pure_eq_ok,
    Except.ok.injEq]
  constructor
  · rintro ⟨d, hd, inner, hinner, rfl⟩
    exact ⟨d, inner, hd, hinner, rfl⟩
  · rintro ⟨d, inner, hd, hinner, rfl⟩
    exact ⟨d, hd, inner, hinner, rfl⟩

theorem mem_nestedWithin (h : r.nestedWithin k n = .ok ms) : n ∈ ms := by
  cases k with
  | zero => simp [nestedWithin] at h
  | succ k =>
    obtain ⟨-, inner, -, -, rfl⟩ := nestedWithin_succ_eq_ok_iff.mp h
    simp

/-- A sub-expression of a node is nested in it with all that is nested in it. -/
theorem nestedWithin_arg (h : r.nestedWithin (k + 1) n = .ok ms) (hd : r.label n = some d)
    (hm : .node m ∈ d.args) : ∃ below, r.nestedWithin k m = .ok below ∧ below ⊆ ms.tail := by
  obtain ⟨e, inner, he, hinner, rfl⟩ := nestedWithin_succ_eq_ok_iff.mp h
  obtain rfl := some.inj ((label_eq he).symm.trans hd)
  have hmem : m ∈ e.args.filterMap node? := List.mem_filterMap.mpr ⟨_, hm, rfl⟩
  obtain ⟨i, hi, rfl⟩ := List.mem_iff_getElem.mp hmem
  have hi' : i < inner.length := by rwa [← hinner.length_eq]
  exact ⟨inner[i], hinner.get hi hi',
    fun x hx => List.mem_flatten.mpr ⟨_, List.getElem_mem hi', hx⟩⟩

/-- Whatever is nested in a node has its operands there. -/
theorem mem_tail_of_nestedWithin (h : r.nestedWithin k n = .ok ms) {x : NodeId} (hx : x ∈ ms)
    (hd : r.label x = some d) (hm : .node m ∈ d.args) : m ∈ ms.tail := by
  induction k generalizing n ms with
  | zero => simp [nestedWithin] at h
  | succ k ih =>
    obtain ⟨e, inner, -, hinner, rfl⟩ := nestedWithin_succ_eq_ok_iff.mp h
    rcases List.mem_cons.mp hx with rfl | hx
    · obtain ⟨below, hbelow, hsub⟩ := nestedWithin_arg h hd hm
      exact hsub (mem_nestedWithin hbelow)
    · obtain ⟨l, hl, hx⟩ := List.mem_flatten.mp hx
      obtain ⟨i, hi, rfl⟩ := List.mem_iff_getElem.mp hl
      have hbelow := hinner.get (hinner.length_eq ▸ hi) hi
      exact List.mem_flatten.mpr ⟨_, hl, List.mem_of_mem_tail (ih hbelow hx)⟩

/-- The sub-expressions among the operands of a node. -/
def operandNodes (r : Routine) (n : NodeId) : Option (List NodeId) :=
  (r.label n).map fun d => d.args.filterMap Operand.node?

variable (h : r.nestedWithin k n = .ok ms)
include h

/-- What is nested in a node only depends on the sub-expressions these nodes have as operands. -/
theorem nestedWithin_congr (hk : k ≤ k')
    (heq : ∀ m ∈ ms, r'.operandNodes m = r.operandNodes m) : r'.nestedWithin k' n = .ok ms := by
  induction k generalizing n ms k' with
  | zero => simp [nestedWithin] at h
  | succ k ih =>
    obtain ⟨k', rfl⟩ : ∃ j, k' = j + 1 := ⟨k' - 1, by omega⟩
    obtain ⟨d, inner, hd, hinner, rfl⟩ := nestedWithin_succ_eq_ok_iff.mp h
    have hargs := heq n (by simp)
    rw [operandNodes, operandNodes, label_eq hd] at hargs
    obtain ⟨d', hd', hargs⟩ := map_eq_some_iff.mp hargs
    refine nestedWithin_succ_eq_ok_iff.mpr ⟨_, inner, node_of_label hd', ?_, rfl⟩
    have hsub : ∀ l ∈ inner, ∀ m ∈ l, r'.operandNodes m = r.operandNodes m := fun l hl m hm =>
      heq m (List.mem_cons_of_mem _ (List.mem_flatten.mpr ⟨l, hl, hm⟩))
    rw [show d'.args.filterMap node? = d.args.filterMap node? from hargs]
    generalize d.args.filterMap node? = below at hinner
    clear hargs heq h
    induction hinner with
    | nil => exact .nil
    | cons hm _ ihl =>
      exact .cons (ih hm (by omega) (hsub _ (by simp))) (ihl fun l hl => hsub l (by simp [hl]))

theorem nestedWithin_mono (hk : k ≤ k') : r.nestedWithin k' n = .ok ms :=
  nestedWithin_congr h hk fun _ _ => rfl

/-- A node that needs some fuel heads a chain of as many distinct nodes. -/
theorem exists_chain (hleast : ∀ j < k, ∀ ms', r.nestedWithin j n ≠ .ok ms') :
    ∃ l : List NodeId, l.Nodup ∧ l.length = k ∧ ∀ x ∈ l, x < r.nodes.size ∧
    ∃ below, r.nestedWithin k x = .ok below := by
  induction k generalizing n ms with
  | zero => exact ⟨[], by simp, rfl, by simp⟩
  | succ k ih =>
    obtain ⟨d, inner, hd, hinner, rfl⟩ := nestedWithin_succ_eq_ok_iff.mp h
    have hn : n < r.nodes.size := (Array.getElem?_eq_some_iff.mp hd).1
    cases k with
    | zero => exact ⟨[n], by simp, rfl, by simpa using ⟨hn, _, h⟩⟩
    | succ k =>
      -- some operand needs all the fuel that is left
      obtain ⟨m, hm, hmost⟩ :
          ∃ m ∈ d.args.filterMap node?, ∀ ms', r.nestedWithin k m ≠ .ok ms' := by
        by_contra hall
        push Not at hall
        choose! below hbelow using hall
        have hinner' : List.Forall₂ (fun m ms => r.nestedWithin k m = .ok ms)
            (d.args.filterMap node?) ((d.args.filterMap node?).map below) :=
          List.forall₂_map_right_iff.mpr (List.forall₂_same.mpr hbelow)
        exact hleast (k + 1) (Nat.lt_succ_self _) _
          (nestedWithin_succ_eq_ok_iff.mpr ⟨d, _, hd, hinner', rfl⟩)
      obtain ⟨i, hi, rfl⟩ := List.mem_iff_getElem.mp hm
      have hi' : i < inner.length := by rwa [← hinner.length_eq]
      obtain ⟨l, hnodup, hlength, hl⟩ := ih (hinner.get hi hi') fun j hj ms' hms' =>
        hmost ms' (nestedWithin_mono hms' (Nat.le_of_lt_succ hj))
      refine ⟨n :: l, List.nodup_cons.mpr ⟨fun hnl => ?_, hnodup⟩, by simp [hlength], ?_⟩
      · obtain ⟨-, below, hbelow⟩ := hl n hnl
        exact hleast (k + 1) (Nat.lt_succ_self _) below hbelow
      · refine List.forall_mem_cons.mpr ⟨⟨hn, _, h⟩, fun x hx => ?_⟩
        obtain ⟨hlt, below, hbelow⟩ := hl x hx
        exact ⟨hlt, below, nestedWithin_mono hbelow (Nat.le_succ _)⟩

/-- The fuel given is enough for whatever is nested at all. -/
theorem nested_of_nestedWithin : r.nested n = .ok ms := by
  classical
  have hex : ∃ j ms', r.nestedWithin j n = .ok ms' := ⟨k, ms, h⟩
  obtain ⟨ms', hms'⟩ := Nat.find_spec hex
  obtain rfl : ms' = ms := by
    have hle : Nat.find hex ≤ k := Nat.find_min' hex ⟨ms, h⟩
    exact Except.ok.inj ((nestedWithin_mono hms' hle).symm.trans h)
  obtain ⟨l, hnodup, hlength, hl⟩ := exists_chain hms' fun j hj ms₁ hms₁ =>
    Nat.find_min hex hj ⟨ms₁, hms₁⟩
  have hsub : l ⊆ List.range r.nodes.size := fun x hx => List.mem_range.mpr (hl x hx).1
  have hle := (hnodup.subperm hsub).length_le
  rw [hlength, List.length_range] at hle
  exact nestedWithin_mono hms' (Nat.le_succ_of_le hle)

/-- What is nested in a nested node is nested in the outer one. -/
theorem nestedWithin_of_mem (hm : m ∈ ms) :
    ∃ ms', r.nestedWithin k m = .ok ms' ∧ ms'.Sublist ms ∧ (m ∈ ms.tail → ms'.Sublist ms.tail) := by
  induction k generalizing n ms with
  | zero => simp [nestedWithin] at h
  | succ k ih =>
    obtain ⟨d, inner, hd, hinner, rfl⟩ := nestedWithin_succ_eq_ok_iff.mp h
    by_cases hbelow : m ∈ inner.flatten
    · obtain ⟨l, hl, hml⟩ := List.mem_flatten.mp hbelow
      obtain ⟨i, hi, rfl⟩ := List.mem_iff_getElem.mp hl
      have hi' : i < (d.args.filterMap node?).length := by rwa [hinner.length_eq]
      obtain ⟨ms', hms', hsub, -⟩ := ih (hinner.get hi' hi) hml
      have hsub' : ms'.Sublist inner.flatten := hsub.trans (List.sublist_flatten_of_mem hl)
      exact ⟨ms', nestedWithin_mono hms' (Nat.le_succ k), hsub'.cons _, fun _ => hsub'⟩
    · obtain rfl : m = n := (List.mem_cons.mp hm).resolve_right hbelow
      exact ⟨_, h, List.Sublist.refl _, fun htail => absurd htail hbelow⟩

omit h

theorem exists_nested (h : r.nested n = .ok ms) : ∃ inner, ms = n :: inner := by
  obtain ⟨d, inner, -, -, rfl⟩ := nestedWithin_succ_eq_ok_iff.mp h
  exact ⟨_, rfl⟩

/-- No node is nested in itself. -/
theorem not_mem_nested (h : r.nested n = .ok (n :: ms)) : n ∉ ms := by
  intro hn
  obtain ⟨ms', hms', -, htail⟩ := nestedWithin_of_mem h (List.mem_cons_self ..)
  obtain rfl : ms' = n :: ms := Except.ok.inj (hms'.symm.trans h)
  have hlength := (htail hn).length_le
  rw [List.length_cons, List.tail_cons] at hlength
  omega

theorem exists_label_of_nested (h : r.nested n = .ok ms) (hm : m ∈ ms) :
    ∃ d, r.label m = some d := by
  obtain ⟨ms', hms', -⟩ := nestedWithin_of_mem h hm
  obtain ⟨d, inner, hd, -⟩ := nestedWithin_succ_eq_ok_iff.mp hms'
  exact ⟨_, label_eq hd⟩

theorem nested_congr (h : r.nested n = .ok ms)
    (heq : ∀ m ∈ ms, r'.operandNodes m = r.operandNodes m) : r'.nested n = .ok ms :=
  nested_of_nestedWithin (nestedWithin_congr h (Nat.le_refl _) heq)

/-- The accesses a node contributes to those of a node it is nested in. -/
def accessesAt (r : Routine) (n m : NodeId) : List (VarId × Access) :=
  (r.label m).elim [] fun d => d.accesses ++ if m = n then [] else d.dest.toList.map (·, .read)

theorem accesses_of_nested (h : r.nested n = .ok ms) :
    r.accesses n = .ok (ms.flatMap (r.accessesAt n)) := by
  simp only [accesses, bind_eq_ok_iff, h, Except.ok.injEq, exists_eq_left', pure_eq_ok]
  refine ⟨ms.map (r.accessesAt n), mapM_eq_ok_map fun m hm => ?_, by rw [List.flatMap_def]⟩
  obtain ⟨d, hd⟩ := exists_label_of_nested h hm
  rw [node_eq_ok_iff.mpr (node_of_label hd)]
  simp only [accessesAt, hd, elim_some]
  rfl

end Routine

end CoroutineIR
