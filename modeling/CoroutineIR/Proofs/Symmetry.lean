import CoroutineIR.Proofs.Excising

/-!
# Edges kept at both ends

Every edge is kept twice, among the successors of its source and among the predecessors of its
target. The two copies agree when a node stands as often among the successors of another as that one
among its predecessors. Surgery on edges keeps the copies in agreement or leaves the routine as it
is, whatever loops and parallel edges there are, and a node that is put on an edge and taken out
again leaves no trace.
-/

namespace CoroutineIR

open List Option CoroutineIR.Action Edit

section Occurrences

variable {l : List NodeId} {a b m n : NodeId} {i k : Nat}

theorem occurrencesBefore_lt (h : l[i]? = some m) : occurrencesBefore l m i < l.count m := by
  obtain ⟨hi, rfl⟩ := List.getElem?_eq_some_iff.mp h
  have hsplit := congrArg (List.count l[i]) (take_append_drop i l)
  rw [count_append, drop_eq_getElem_cons hi, count_cons_self] at hsplit
  unfold occurrencesBefore
  omega

/-- There is an occurrence of each number below the count. -/
theorem exists_occurrence (h : k < l.count m) :
    ∃ j, l[j]? = some m ∧ occurrencesBefore l m j = k := by
  induction l generalizing k with
  | nil => simp at h
  | cons a l ih =>
    by_cases ha : a = m
    · cases k with
      | zero => exact ⟨0, by simp [ha], rfl⟩
      | succ k =>
        obtain ⟨j, hj, hk⟩ := ih (k := k) (by simpa [ha] using h)
        exact ⟨j + 1, hj, by simpa [occurrencesBefore, ha] using hk⟩
    · obtain ⟨j, hj, hk⟩ := ih (by simpa [ha] using h)
      exact ⟨j + 1, hj, by simpa [occurrencesBefore, ha] using hk⟩

theorem count_set_of_getElem? (h : l[i]? = some a) :
    (l.set i b).count m + (if m = a then 1 else 0) = l.count m + if m = b then 1 else 0 := by
  obtain ⟨hi, rfl⟩ := List.getElem?_eq_some_iff.mp h
  have hpos : m = l[i] → 0 < l.count m := fun heq => count_pos_iff.mpr (heq ▸ getElem_mem hi)
  rw [count_set hi]
  simp only [beq_iff_eq, eq_comm (b := m)]
  split <;> split <;> simp_all

/-- Edges to a node are replaced by edges to another one. -/
theorem count_substitute (l : List NodeId) (n : NodeId) (other : Option NodeId) (m : NodeId) :
    (substitute l n other).count m = (if m = n then 0 else l.count m) +
    if other = some m then l.count n else 0 := by
  cases other with
  | none =>
    by_cases hm : m = n
    · simp [substitute, hm, count_eq_zero]
    · simp [substitute, hm, count_filter]
  | some o =>
    induction l with
    | nil => simp [substitute]
    | cons a l ih =>
      simp only [substitute, map_cons, count_cons, some.injEq] at ih ⊢
      rw [ih]
      grind

theorem count_eq_of_length_le_one (h : l.length ≤ 1) :
    l.count m = if l.head? = some m then 1 else 0 := by
  rcases l with _ | ⟨a, _ | ⟨b, rest⟩⟩
  · simp
  · simp [count_singleton]
  · simp at h

variable {f : NodeId → List NodeId}

/-- The neighbours of a node after `x` has been put on the edge from `s` to `t`. -/
theorem count_threaded {s t x : NodeId} (hf : (f s)[i]? = some t) (a b : NodeId) :
    ((if a = s then (f a).set i x else f a) ++ (if a = x then [t] else [])).count b +
    (if a = s ∧ b = t then 1 else 0) =
      (f a).count b + (if a = s ∧ b = x then 1 else 0) + if a = x ∧ b = t then 1 else 0 := by
  have hset := count_set_of_getElem? (b := x) (m := b) hf
  rw [count_append]
  by_cases ha : a = s <;> by_cases hax : a = x <;> simp [ha, hax, count_singleton] <;> grind

/-- The neighbours of a node after `n`, which has at most one neighbour on each side, has been taken
out. -/
theorem count_unhooked {p s : Option NodeId} (hself : p = some n ↔ s = some n)
    (hf : ∀ a, (f a).count n = if p = some a then 1 else 0) (a b : NodeId) :
    (if a = n then [] else if p = some a then substitute (f a) n s else f a).count b =
      if a = n ∨ b = n then 0 else (f a).count b + if p = some a ∧ s = some b then 1 else 0 := by
  have hfa := hf a
  by_cases ha : a = n
  · simp [ha]
  · by_cases hp : p = some a
    · rw [if_neg ha, if_pos hp, count_substitute]
      grind
    · rw [if_neg ha, if_neg hp]
      grind

/-- The neighbours of a node after the range that is entered from `p` and left at `c` to `q` has
been taken out. -/
theorem count_excised {p c o q : NodeId} (hf : (f p)[i]? = some o) (ha : a ≠ c)
    (b : NodeId) : (if a = c then [] else if a = p then (f a).set i q else f a).count b +
    (if a = p ∧ b = o then 1 else 0) = (f a).count b + if a = p ∧ b = q then 1 else 0 := by
  have hset := count_set_of_getElem? (b := q) (m := b) hf
  by_cases hp : a = p
  · subst hp
    simpa [ha] using hset
  · simp [ha, hp]

end Occurrences

namespace Routine

variable {r r' : Routine} {n x : NodeId} {w : Wire} {i : Nat}

/-- The two copies of the edges agree. -/
def Symmetric (r : Routine) : Prop := ∀ a b, (r.nextOf a).count b = (r.prevOf b).count a

/-- The node `n` is taken out, and its neighbours, where there are any, take its place for each
other. -/
structure Unhooks (r : Routine) (n : NodeId) (before after : Option NodeId)
    (r' : Routine) : Prop where
  next : ∀ m, r'.nextOf m =
    if m = n then [] else if before = some m then Edit.substitute (r.nextOf m) n after
    else r.nextOf m
  prev : ∀ m, r'.prevOf m =
    if m = n then [] else if after = some m then Edit.substitute (r.prevOf m) n before
    else r.prevOf m

namespace Symmetric

variable (h : r.Symmetric)
include h

/-- Every slot of a successor belongs to a slot of a predecessor. -/
theorem exists_target {s t : NodeId} (hs : (r.nextOf s)[i]? = some t) :
    ∃ j, r.Matched ((s, i), (t, j)) := by
  have hlt := occurrencesBefore_lt hs
  rw [h s t] at hlt
  obtain ⟨j, hj, heq⟩ := exists_occurrence hlt
  exact ⟨j, ⟨hs, hj⟩, heq.symm⟩

/-- Every slot of a predecessor belongs to a slot of a successor. -/
theorem exists_source {s t : NodeId} (ht : (r.prevOf t)[i]? = some s) :
    ∃ j, r.Matched ((s, j), (t, i)) := by
  have hlt := occurrencesBefore_lt ht
  rw [← h s t] at hlt
  obtain ⟨j, hj, heq⟩ := exists_occurrence hlt
  exact ⟨j, ⟨hj, ht⟩, heq⟩

/-- A node put on an edge turns that edge into two. -/
theorem spliced (hw : r.Joined w) (hx : x < r.nodes.size) : (r.spliced w x).Symmetric := by
  intro a b
  have hnext := count_threaded (x := x) hw.1 a b
  have hprev := count_threaded (x := x) hw.2 b a
  rw [nextOf_spliced (lt_of_next hw.1) hx, prevOf_spliced (lt_of_prev hw.2) hx]
  simp only [and_comm (b := a = _)] at hprev
  have := h a b
  omega

/-- A node taken out with its only edges. -/
theorem unhooked (hprev : r.inDegree n ≤ 1) (hnext : r.outDegree n ≤ 1)
    (hr : r.Unhooks n (r.prevOf n).head? (r.nextOf n).head? r') : r'.Symmetric := by
  have hfrom : ∀ a, (r.nextOf a).count n = if (r.prevOf n).head? = some a then 1 else 0 :=
      fun a => by
    rw [h a n, count_eq_of_length_le_one hprev]
  have hto : ∀ b, (r.prevOf b).count n = if (r.nextOf n).head? = some b then 1 else 0 := fun b => by
    rw [← h n b, count_eq_of_length_le_one hnext]
  have hself : (r.prevOf n).head? = some n ↔ (r.nextOf n).head? = some n := by
    have hnn := h n n
    rw [hfrom, hto] at hnn
    split at hnn <;> split at hnn <;> simp_all
  intro a b
  rw [hr.next, hr.prev, count_unhooked hself hfrom, count_unhooked hself.symm hto, h a b]
  simp only [or_comm (b := b = n), and_comm]

/-- A range taken out between the edges that enter and leave it. -/
theorem excised {o c : NodeId} {p q : Port} (hin : r.Joined (p, (o, 0)))
    (hprev : r.prevOf o = [p.1]) (hout : r.Joined ((c, 0), q)) (hnext : r.nextOf c = [q.1]) :
    (r.excised o c p q).Symmetric := by
  intro a b
  have hab := h a b
  -- a range that follows itself is cut off whole
  have hself : p.1 = c ↔ q.1 = o := by
    have := hin.1
    have := hout.2
    grind
  rw [nextOf_excised (lt_of_next hout.1) (lt_of_next hin.1),
    prevOf_excised (lt_of_prev hin.2) (lt_of_prev hout.2)]
  by_cases ha : a = c
  · by_cases hb : b = o
    · simp [ha, hb]
    · have hcount := count_excised (q := p.1) hout.2 hb a
      rw [ha, hnext, count_singleton] at hab
      grind
  · have hcount := count_excised (q := q.1) hin.1 ha b
    by_cases hb : b = o
    · rw [hb, hprev, count_singleton] at hab
      grind
    · have hcount' := count_excised (q := p.1) hout.2 hb a
      grind

/-- The arms of a conditional in the other order. -/
theorem swapped {o c : NodeId} (ho : o < r.nodes.size) (hc : c < r.nodes.size) :
    (r.rearmed swapFront o c).Symmetric := by
  have hperm (l : List NodeId) : (swapFront l).Perm l := by
    rcases l with _ | ⟨a, _ | ⟨b, rest⟩⟩
    · exact .refl _
    · exact .refl _
    · exact .swap a b rest
  intro a b
  have hnext : ((r.rearmed swapFront o c).nextOf a).count b = (r.nextOf a).count b := by
    rw [nextOf_rearmed ho]
    split
    · exact (hperm _).count_eq b
    · rfl
  have hprev : ((r.rearmed swapFront o c).prevOf b).count a = (r.prevOf b).count a := by
    rw [prevOf_rearmed hc]
    split
    · exact (hperm _).count_eq a
    · rfl
  rw [hnext, hprev, h a b]

end Symmetric

/-- Routines that differ in nothing the views show. -/
theorem eq_of_views (hothers : { r' with nodes := r.nodes } = r)
    (hlabel : ∀ m, r'.label m = r.label m) (hnext : ∀ m, r'.nextOf m = r.nextOf m)
    (hprev : ∀ m, r'.prevOf m = r.prevOf m) : r' = r := by
  have hnodes : r'.nodes = r.nodes := Array.ext_getElem? fun m => by
    cases hl : r.label m with
    | none =>
      rw [map_eq_none_iff.mp hl]
      exact map_eq_none_iff.mp ((hlabel m).trans hl)
    | some d => rw [node_of_label hl, node_of_label ((hlabel m).trans hl), hnext, hprev]
  rw [← hnodes] at hothers
  exact hothers

/-- The edge `w` gives way, at both its ends, to the edges of the node `x`, and no other edge
changes. -/
structure Threads (r : Routine) (w : Wire) (x : NodeId) (r' : Routine) : Prop where
  next : ∀ m, r'.nextOf m =
    if m = x then [w.2.1] else if m = w.1.1 then (r.nextOf m).set w.1.2 x else r.nextOf m
  prev : ∀ m, r'.prevOf m =
    if m = x then [w.1.1] else if m = w.2.1 then (r.prevOf m).set w.2.2 x else r.prevOf m

section Detached

variable (hw : r.Joined w) (hx : x < r.nodes.size) (hdetached : r.Detached x)
include hw hx hdetached

/-- A detached node is none of the ends of an edge. -/
theorem Detached.ne_of_joined : w.1.1 ≠ x ∧ w.2.1 ≠ x := by
  obtain ⟨hnext, hprev⟩ := hdetached
  constructor
  · rintro rfl
    simpa [hnext] using hw.1
  · rintro rfl
    simpa [hprev] using hw.2

/-- A node put on an edge threads it. -/
theorem threads_spliced : r.Threads w x (r.spliced w x) := by
  obtain ⟨hs, ht⟩ := hdetached.ne_of_joined hw hx
  obtain ⟨hnext, hprev⟩ := hdetached
  constructor
  · intro m
    rw [nextOf_spliced (lt_of_next hw.1) hx]
    by_cases hm : m = x
    · simp [hm, Ne.symm hs, hnext]
    · simp [hm]
  · intro m
    rw [prevOf_spliced (lt_of_prev hw.2) hx]
    by_cases hm : m = x
    · simp [hm, Ne.symm ht, hprev]
    · simp [hm]

omit hw hx hdetached in
/-- A slot that is given away and taken back. -/
theorem map_set_eq {l : List NodeId} {t : NodeId} (hl : l[i]? = some t) (hx : x ∉ l) :
    ((l.set i x).map fun k => if k = x then t else k) = l := by
  refine ext_getElem? fun j => ?_
  rw [getElem?_map, getElem?_set]
  split
  · rename_i hij
    obtain ⟨hi, rfl⟩ := List.getElem?_eq_some_iff.mp hl
    simp [← hij, hi]
  · cases hj : l[j]? with
    | none => rfl
    | some k =>
      have hne : k ≠ x := fun heq => hx (heq ▸ mem_of_getElem? hj)
      simp [hne]

/-- A node put on an edge and taken out again leaves no trace. -/
theorem bypassed_spliced (h : r.Symmetric) : (r.spliced w x).bypassed x w.1.1 w.2.1 = r := by
  obtain ⟨hnext, hprev⟩ := threads_spliced hw hx hdetached
  have hothers : { (r.spliced w x).bypassed x w.1.1 w.2.1 with nodes := r.nodes } = r := by
    simp only [bypassed, spliced, alter]
  refine eq_of_views hothers (by simp) (fun m => ?_) fun m => ?_
  · have hnot : x ∉ r.nextOf m := by
      rw [← count_eq_zero, h, hdetached.2, count_nil]
    rw [nextOf_bypassed (by simpa using hx) (by simpa using lt_of_next hw.1), hnext]
    split
    · rename_i hm
      rw [hm, hdetached.1]
    · split
      · rename_i hm
        exact map_set_eq (hm ▸ hw.1) hnot
      · rfl
  · have hnot : x ∉ r.prevOf m := by
      rw [← count_eq_zero, ← h, hdetached.1, count_nil]
    rw [prevOf_bypassed (by simpa using hx) (by simpa using lt_of_prev hw.2), hprev]
    split
    · rename_i hm
      rw [hm, hdetached.2]
    · split
      · rename_i hm
        exact map_set_eq (hm ▸ hw.2) hnot
      · rfl

end Detached

end Routine

namespace Edit

open Routine

variable {r : Routine} {n : NodeId} {d : Node}

/-- The edit is refused before anything has changed. -/
def GivesUp (x : Edit Unit) (r : Routine) : Prop := ∃ reason, x r = .error (.refused reason) r

theorem GivesUp.after_node {f : Node → Edit Unit} (hd : r.nodes[n]? = some d)
    (h : GivesUp (f d) r) : GivesUp (Edit.node n >>= f) r := by
  obtain ⟨reason, hreason⟩ := h
  refine ⟨reason, ?_⟩
  simp only [Edit.node, ask, bind, EStateM.bind, node_eq_ok_iff.mpr hd]
  exact hreason

/-- A removed node leaves an edge between its neighbours. -/
theorem yields_removeNode_unhooks (hnext : ∀ s, (r.nextOf n).head? = some s → s < r.nodes.size)
    (hprev : ∀ p, (r.prevOf n).head? = some p → p < r.nodes.size) (hn : n < r.nodes.size)
    (hlegal : ¬(1 < (r.prevOf n).length ∨ 1 < (r.nextOf n).length)) :
    Yields (Edit.removeNode n) r fun _ r' =>
    r.Unhooks n (r.prevOf n).head? (r.nextOf n).head? r' := by
  obtain ⟨d, hd⟩ : ∃ d, r.nodes[n]? = some d := ⟨_, Array.getElem?_eq_getElem hn⟩
  simp only [removeNode, yields_bind, yields_node, hd, exists_some_eq, Node.firstNext,
    Node.firstPrev, ← nextOf_eq hd, ← prevOf_eq hd, if_neg hlegal]
  generalize (r.nextOf n).head? = after at hnext ⊢
  generalize (r.prevOf n).head? = before at hprev ⊢
  cases after with
  | none =>
    cases before with
    | none =>
      simp only [yields_changeNode]
      refine ⟨hn, fun m => ?_, fun m => ?_⟩ <;> simp only [nextOf, prevOf, getElem?_alter] <;> grind
    | some p =>
      simp only [yields_bind, yields_changeNode, size_alter]
      refine ⟨hprev p rfl, hn, fun m => ?_, fun m => ?_⟩ <;>
        simp only [nextOf, prevOf, getElem?_alter] <;> grind
  | some s =>
    cases before with
    | none =>
      simp only [yields_bind, yields_changeNode, size_alter]
      refine ⟨hnext s rfl, hn, fun m => ?_, fun m => ?_⟩ <;>
        simp only [nextOf, prevOf, getElem?_alter] <;> grind
    | some p =>
      simp only [yields_bind, yields_changeNode, size_alter]
      refine ⟨hnext s rfl, hprev p rfl, hn, fun m => ?_, fun m => ?_⟩ <;>
        simp only [nextOf, prevOf, getElem?_alter] <;> grind

end Edit

/-- A change of the edges of a routine. -/
inductive Surgery where
  | insertAfterSlot (source : NodeId) (slot : Nat) (new : NodeId)
  | insertBeforeSlot (target : NodeId) (slot : Nat) (new : NodeId)
  | insertBetween (source target new : NodeId)
  | insertBefore (n new : NodeId)
  | insertAfter (n new : NodeId)
  | removeNode (n : NodeId)
  | unlinkRange (first last : NodeId)
  | swapBranches (n : NodeId)

namespace Surgery

open Routine

def run : Surgery → Edit Unit
  | insertAfterSlot source slot new => Edit.insertAfterSlot source slot new
  | insertBeforeSlot target slot new => Edit.insertBeforeSlot target slot new
  | insertBetween source target new => Edit.insertBetween source target new
  | insertBefore n new => Edit.insertBefore n new
  | insertAfter n new => Edit.insertAfter n new
  | removeNode n => Edit.removeNode n
  | unlinkRange first last => Edit.unlinkRange first last
  | swapBranches n => Edit.swapBranches n

/-- The nodes that are named. -/
def arguments : Surgery → List NodeId
  | insertAfterSlot n _ new | insertBeforeSlot n _ new | insertBefore n new | insertAfter n new =>
    [n, new]
  | insertBetween source target new => [source, target, new]
  | removeNode n | swapBranches n => [n]
  | unlinkRange first last => [first, last]

/-- The node that is to be put on an edge. -/
def inserted : Surgery → Option NodeId
  | insertAfterSlot _ _ new | insertBeforeSlot _ _ new | insertBetween _ _ new | insertBefore _
    new | insertAfter _ new => some new
  | removeNode _ | unlinkRange .. | swapBranches _ => none

/-- The edge on which a node is to be put. -/
def Requests (r : Routine) (w : Wire) : Surgery → Prop
  | insertAfterSlot source slot _ => w.1 = (source, slot)
  | insertBeforeSlot target slot _ => w.2 = (target, slot)
  | insertBetween source target _ =>
    w.1.1 = source ∧ w.2.1 = target ∧ target ∉ (r.nextOf source).take w.1.2
  | insertBefore n _ => w.2 = (n, 0)
  | insertAfter n _ => w.1 = (n, 0)
  | removeNode _ | unlinkRange .. | swapBranches _ => False

/-- The edges allow the change: the edge that is asked for is there, the node that is to go has no
two neighbours on one side, the range has one edge at each end, the conditional has two arms. -/
def Applies (r : Routine) : Surgery → Prop
  | insertAfterSlot source slot _ => slot < r.outDegree source
  | insertBeforeSlot target slot _ => slot < r.inDegree target
  | insertBetween source target _ => target ∈ r.nextOf source
  | insertBefore n _ => 0 < r.inDegree n
  | insertAfter n _ => 0 < r.outDegree n
  | removeNode n => r.inDegree n ≤ 1 ∧ r.outDegree n ≤ 1
  | unlinkRange first last => r.inDegree first = 1 ∧ r.outDegree last = 1
  | swapBranches n =>
    ∃ region, r.kindOf n = some (.enter .cond region) ∧ r.outDegree n = 2 ∧
      r.inDegree region.close = 2

/-- The arms of a conditional are to be exchanged whose closing node is not there. -/
def Dangles (r : Routine) : Surgery → Prop
  | swapBranches n =>
    ∃ region, r.kindOf n = some (.enter .cond region) ∧ r.nodes.size ≤ region.close
  | _ => False

/-- A detached node that is put on an edge takes the slots of that edge, and can be taken out again
without a trace. -/
def Places (op : Surgery) (r r' : Routine) : Prop :=
  ∀ x, op.inserted = some x → r.Detached x → ∃ w, r.Matched w ∧ op.Requests r w ∧ r.Threads w x r' ∧
    Yields (Edit.removeNode x) r' fun _ r'' => r'' = r

variable {r : Routine} {op : Surgery} {w : Wire} {x : NodeId}

theorem places_of_none {r' : Routine} (h : op.inserted = none) : op.Places r r' := fun x hx => by
  rw [h] at hx
  cases hx

/-- An insertion that puts a node on an edge. -/
theorem yields_of_spliced (h : r.Symmetric) (hw : r.Matched w) (hx : x < r.nodes.size)
    (hreq : op.Requests r w) (hins : op.inserted = some x)
    (hrun : ∀ {post}, Yields op.run r post ↔ post () (r.spliced w x)) :
    Yields op.run r fun _ r' => r'.Symmetric ∧ op.Places r r' := by
  refine hrun.mpr ⟨h.spliced hw.joined hx, fun y hy hdetached => ⟨w, hw, hreq, ?_⟩⟩
  obtain rfl : x = y := some.inj (hins.symm.trans hy)
  have hthreads := threads_spliced hw.joined hx hdetached
  refine ⟨hthreads,
    (yields_removeNode_single ?_ ?_ ?_ ?_).mpr (bypassed_spliced hw.joined hx hdetached h)⟩
  · rw [hthreads.next, if_pos rfl]
  · rw [hthreads.prev, if_pos rfl]
  · simpa using lt_of_prev hw.joined.2
  · simpa using lt_of_next hw.joined.1

theorem yields_insertAfterSlot (h : r.Symmetric) {n : NodeId} {slot : Nat}
    (hx : x < r.nodes.size) (hslot : slot < r.outDegree n)
    (hreq : ∀ {w : Wire}, r.Matched w → w.1 = (n, slot) → op.Requests r w)
    (hins : op.inserted = some x) (hrun : op.run r = Edit.insertAfterSlot n slot x r) :
    Yields op.run r fun _ r' => r'.Symmetric ∧ op.Places r r' := by
  obtain ⟨j, hw⟩ := h.exists_target (getElem?_eq_getElem hslot)
  refine yields_of_spliced h hw hx (hreq hw rfl) hins fun {post} => ?_
  rw [Yields, hrun]
  exact Edit.yields_insertAfterSlot hw hx

theorem yields_insertBeforeSlot (h : r.Symmetric) {n : NodeId} {slot : Nat} (hx : x < r.nodes.size)
    (hslot : slot < r.inDegree n) (hreq : ∀ {w : Wire}, w.2 = (n, slot) → op.Requests r w)
    (hins : op.inserted = some x) (hrun : op.run = Edit.insertBeforeSlot n slot x) :
    Yields op.run r fun _ r' => r'.Symmetric ∧ op.Places r r' := by
  obtain ⟨j, hw⟩ := h.exists_source (getElem?_eq_getElem hslot)
  refine yields_of_spliced h hw hx (hreq rfl) hins ?_
  rw [hrun]
  exact Edit.yields_insertBeforeSlot hw hx

theorem givesUp_insertAfterSlot {n : NodeId} {slot : Nat} (hn : n < r.nodes.size)
    (hslot : r.outDegree n ≤ slot) : Edit.GivesUp (Edit.insertAfterSlot n slot x) r := by
  have hd := Array.getElem?_eq_getElem hn
  refine .after_node hd ?_
  rw [outDegree, nextOf_eq hd] at hslot
  simp only [getElem?_eq_none hslot]
  exact ⟨_, rfl⟩

theorem givesUp_insertBeforeSlot {n : NodeId} {slot : Nat} (hn : n < r.nodes.size)
    (hslot : r.inDegree n ≤ slot) : Edit.GivesUp (Edit.insertBeforeSlot n slot x) r := by
  have hd := Array.getElem?_eq_getElem hn
  refine .after_node hd ?_
  rw [inDegree, prevOf_eq hd] at hslot
  simp only [getElem?_eq_none hslot]
  exact ⟨_, rfl⟩

/-- Surgery that the edges do not allow is refused before anything has changed. -/
theorem givesUp_run (hargs : ∀ n ∈ op.arguments, n < r.nodes.size) (hnot : ¬op.Applies r) :
    op.Dangles r ∧ op.run r = .error (.aborted .missing) r ∨ Edit.GivesUp op.run r := by
  cases op with
  | insertAfterSlot n slot new | insertAfter n new =>
    exact Or.inr <| givesUp_insertAfterSlot (hargs n (by simp [arguments])) (Nat.not_lt.mp hnot)
  | insertBeforeSlot n slot new | insertBefore n new =>
    exact Or.inr <| givesUp_insertBeforeSlot (hargs n (by simp [arguments])) (Nat.not_lt.mp hnot)
  | insertBetween source target new =>
    have hd := Array.getElem?_eq_getElem (hargs source (by simp [arguments]))
    have hnone : nthSlot (r.nextOf source) target 0 = none := by
      rw [nthSlot, filter_eq_nil_iff.mpr, getElem?_nil]
      exact fun i _ hi => hnot (mem_of_getElem? (of_decide_eq_true hi))
    refine Or.inr (.after_node hd ?_)
    rw [nextOf_eq hd] at hnone
    simp only [hnone]
    exact ⟨_, rfl⟩
  | removeNode n =>
    have hd := Array.getElem?_eq_getElem (hargs n (by simp [arguments]))
    simp only [Applies, inDegree, outDegree, nextOf_eq hd, prevOf_eq hd] at hnot
    refine Or.inr (.after_node hd ?_)
    rw [if_pos (by omega)]
    exact ⟨_, rfl⟩
  | unlinkRange first last =>
    have hd := Array.getElem?_eq_getElem (hargs first (by simp [arguments]))
    have hd' := Array.getElem?_eq_getElem (hargs last (by simp [arguments]))
    simp only [Applies, inDegree, outDegree, nextOf_eq hd', prevOf_eq hd] at hnot
    refine Or.inr (.after_node hd ?_)
    split
    · rename_i hprev
      refine .after_node hd' ?_
      split
      · rename_i hnext
        exact absurd ⟨by rw [hprev]; rfl, by rw [hnext]; rfl⟩ hnot
      · exact ⟨_, rfl⟩
    · exact ⟨_, rfl⟩
  | swapBranches n =>
    cases hclose : r.twoArmedClose n with
    | ok c =>
      obtain ⟨region, hkind, rfl, hdegrees⟩ := twoArmedClose_eq_ok_iff.mp hclose
      exact absurd ⟨region, hkind, hdegrees⟩ hnot
    | error e =>
      have hrun : (swapBranches n).run r = .error e r := by
        simp only [run, Edit.swapBranches, ask, bind, EStateM.bind, hclose]
        rfl
      rcases twoArmedClose_eq_error (hargs n (by simp [arguments])) hclose with
        ⟨rfl, hdangles⟩ | ⟨reason, rfl⟩
      · exact Or.inl ⟨hdangles, hrun⟩
      · exact Or.inr ⟨reason, hrun⟩

/-- Surgery that the edges allow is done. -/
theorem yields_run (h : r.Symmetric) (hargs : ∀ n ∈ op.arguments, n < r.nodes.size)
    (happlies : op.Applies r) : Yields op.run r fun _ r' => r'.Symmetric ∧ op.Places r r' := by
  cases op with
  | insertAfterSlot n slot new | insertAfter n new =>
    exact yields_insertAfterSlot h (hargs new (by simp [arguments])) happlies (fun _ => id) rfl rfl
  | insertBeforeSlot n slot new | insertBefore n new =>
    exact yields_insertBeforeSlot h (hargs new (by simp [arguments])) happlies id rfl rfl
  | insertBetween source target new =>
    obtain ⟨slot, hslot, hfirst⟩ := exists_occurrence (count_pos_iff.mpr happlies)
    have hd := Array.getElem?_eq_getElem (hargs source (by simp [arguments]))
    have hnth := nthSlot_occurrencesBefore hslot
    rw [hfirst, nextOf_eq hd] at hnth
    refine yields_insertAfterSlot h (hargs new (by simp [arguments]))
      (List.getElem?_eq_some_iff.mp hslot).1 ?_ rfl ?_
    · intro w hw heq
      have hnext := hw.joined.1
      rw [heq, hslot] at hnext
      refine ⟨congrArg Prod.fst heq, (some.inj hnext).symm, ?_⟩
      rw [heq]
      exact count_eq_zero.mp hfirst
    · simp only [run, Edit.insertBetween, Edit.node, ask, bind, EStateM.bind, node_eq_ok_iff.mpr hd,
        Attempt.toAction, hnth]
  | removeNode n =>
    refine (Edit.yields_removeNode_unhooks ?_ ?_ (hargs n (by simp [arguments])) ?_).mono
      fun _ r' hr => ⟨h.unhooked happlies.1 happlies.2 hr, places_of_none rfl⟩
    · intro s hs
      rw [head?_eq_getElem?] at hs
      obtain ⟨j, hw⟩ := h.exists_target hs
      exact lt_of_prev hw.joined.2
    · intro p hp
      rw [head?_eq_getElem?] at hp
      obtain ⟨j, hw⟩ := h.exists_source hp
      exact lt_of_next hw.joined.1
    · have hin := happlies.1
      have hout := happlies.2
      unfold inDegree at hin
      unfold outDegree at hout
      omega
  | unlinkRange first last =>
    obtain ⟨pred, hprev⟩ := length_eq_one_iff.mp happlies.1
    obtain ⟨succ, hnext⟩ := length_eq_one_iff.mp happlies.2
    obtain ⟨i, hin⟩ := h.exists_source (show (r.prevOf first)[0]? = some pred by rw [hprev]; rfl)
    obtain ⟨j, hout⟩ := h.exists_target (show (r.nextOf last)[0]? = some succ by rw [hnext]; rfl)
    exact (yields_unlinkRange hin hprev hout hnext).mpr
      ⟨h.excised hin.joined hprev hout.joined hnext, places_of_none rfl⟩
  | swapBranches n =>
    obtain ⟨region, hkind, hout, hin⟩ := happlies
    have hclose := twoArmedClose_eq_ok_iff.mpr ⟨region, hkind, rfl, hout, hin⟩
    have hn := hargs n (by simp [arguments])
    have hc : region.close < r.nodes.size :=
      lt_of_prev (getElem?_eq_getElem (show 0 < r.inDegree _ by omega))
    have hpost : (r.rearmed swapFront n region.close).Symmetric ∧
        (swapBranches n).Places r (r.rearmed swapFront n region.close) :=
      ⟨h.swapped hn hc, places_of_none rfl⟩
    simpa [run, Edit.swapBranches, hclose, hn, hc, Routine.rearmed] using hpost

/-- Surgery that the edges do not allow is refused and changes nothing, unless it exchanges the arms
of a conditional whose closing node is not there. Else the two copies of the edges still agree, and
a detached node that was put on an edge stands in the slots of that edge, and can be taken out again
without a trace. -/
theorem run_symmetric (op : Surgery) (h : r.Symmetric)
    (hargs : ∀ n ∈ op.arguments, n < r.nodes.size) :
    (¬op.Applies r → op.Dangles r ∧ op.run r = .error (.aborted .missing) r ∨
      ∃ reason, op.run r = .error (.refused reason) r) ∧
    (op.Applies r → Yields op.run r fun _ r' => r'.Symmetric ∧ op.Places r r') :=
  ⟨givesUp_run hargs, yields_run h hargs⟩

/-- Of two parallel edges the second one is asked for. -/
theorem run_symmetric_parallel :
    let r : Routine := { (default : Routine) with
      nodes := #[{ (default : Node) with next := [1, 1] },
        { (default : Node) with prev := [0, 0] }, default] }
    Yields (insertAfterSlot 0 1 2).run r fun _ r' => r'.Symmetric ∧ r'.nextOf 0 = [1, 2] ∧
      r'.prevOf 1 = [0, 2] ∧ Yields (Edit.removeNode 2) r' fun _ r'' => r'' = r := by
  intro r
  have hsymmetric : r.Symmetric := by
    intro a b
    rcases a with _ | _ | _ | a <;> rcases b with _ | _ | _ | b <;> simp [r, nextOf, prevOf] <;> rfl
  have hargs : ∀ n ∈ (insertAfterSlot 0 1 2).arguments, n < r.nodes.size := by decide
  have happlies : (insertAfterSlot 0 1 2).Applies r := show 1 < r.outDegree 0 by decide
  refine ((run_symmetric _ hsymmetric hargs).2 happlies).mono fun _ r' h' => ⟨h'.1, ?_⟩
  obtain ⟨⟨_, target, slot⟩, ⟨⟨hnext, hprev⟩, hbefore⟩, rfl, hthreads, hback⟩ :=
    h'.2 2 rfl ⟨rfl, rfl⟩
  obtain rfl : 1 = target := some.inj hnext
  obtain rfl : slot = 1 := by
    rcases slot with _ | _ | slot
    · cases hbefore
    · rfl
    · cases hprev
  exact ⟨hthreads.next 0, hthreads.prev 1, hback⟩

end Surgery

end CoroutineIR
