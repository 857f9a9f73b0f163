import CoroutineIR.Proofs.Edit
import CoroutineIR.Proofs.Search
import CoroutineIR.Routine.Verify
import Mathlib.Data.List.Count
import Mathlib.Data.Set.Finite.Basic

/-!
# Taking the nodes of a stream away

The check for cycles takes away, one by one, the nodes at which no edge from a remaining node
arrives. The counters it keeps are the numbers of those edges, and the nodes on its list are those
whose counter is zero. A stream whose nodes can be ranked so that every edge goes upwards is taken
away completely.
-/

namespace CoroutineIR

open List Option Node

namespace BitSet

theorem contains_foldl_insert (ns : List Nat) (s : BitSet) (n : Nat) :
    (ns.foldl insert s).contains n = (s.contains n || decide (n ∈ ns)) := by
  induction ns generalizing s with
  | nil => simp
  | cons m ns ih =>
    rw [foldl_cons, ih, contains_insert]
    by_cases hmn : m = n
    · simp [hmn]
    · simp [hmn, Ne.symm hmn]

@[simp] theorem contains_ofList (ns : List Nat) (n : Nat) :
    (ofList ns).contains n = decide (n ∈ ns) := by
  simp [ofList, contains_foldl_insert]

end BitSet

namespace Arena

variable {α ε : Type} {rows : Arena α} {size : Nat} {f : Nat → α}

/-- A table holds the values of `f`. -/
structure Holds (rows : Arena α) (size : Nat) (f : Nat → α) : Prop where
  size_eq : rows.size = size
  get : ∀ m < size, rows[m]? = some (f m)

theorem Holds.congr {g : Nat → α} (h : Holds rows size f) (heq : ∀ m < size, f m = g m) :
    Holds rows size g :=
  ⟨h.size_eq, fun m hm => heq m hm ▸ h.get m hm⟩

theorem Holds.replicate (size : Nat) (x : α) : Holds (Array.replicate size x) size fun _ => x :=
  ⟨by simp, fun m hm => by simp [hm]⟩

/-- A row of an arena is changed in place. -/
theorem Holds.updated (h : Holds rows size f) {m : Nat} (hm : m < size) (g : α → α) :
    ∃ rows', (update rows m g : Attempt ε (Arena α)) = .ok rows' ∧
      Holds rows' size fun k => if k = m then g (f k) else f k := by
  refine ⟨rows.modify m g, if_pos (by rw [h.size_eq]; exact hm), by simp [h.size_eq],
    fun k hk => ?_⟩
  rw [Array.getElem?_modify, h.get k hk]
  by_cases hkm : k = m
  · simp [hkm]
  · simp [hkm, Ne.symm hkm]

/-- Changing the entries that a list names, on behalf of `n`. -/
theorem Holds.updateAll (h : Holds rows size f) (g : Nat → α → α) (n : Nat)
    {ms : List Nat} (hms : ∀ m ∈ ms, m < size) : ∃ rows',
    (ms.foldlM (fun rows m => update rows m (g n)) rows : Attempt ε (Arena α)) = .ok rows' ∧
    Holds rows' size fun k => (List.replicate (ms.count k) n).foldl (fun x n => g n x) (f k) := by
  induction ms generalizing rows f with
  | nil => exact ⟨rows, rfl, by simpa using h⟩
  | cons m ms ih =>
    obtain ⟨rows₁, hupdate, h₁⟩ := h.updated (ε := ε) (hms m (by simp)) (g n)
    obtain ⟨rows₂, hfold, h₂⟩ := ih h₁ fun k hk => hms k (by simp [hk])
    refine ⟨rows₂, ?_, h₂.congr fun k _ => ?_⟩
    · rw [foldlM_cons, hupdate]
      exact hfold
    · by_cases hkm : k = m
      · subst hkm
        rw [if_pos rfl, count_cons_self, replicate_succ, foldl_cons]
      · rw [if_neg hkm, count_cons_of_ne (Ne.symm hkm)]

/-- Changing the entries of the successors of nodes, one node after another. Every entry has been
changed on behalf of the nodes it is a successor of. -/
theorem Holds.spread (h : Holds rows size f) (g : Nat → α → α)
    {visit : Nat → Arena α → Attempt ε (Arena α)} (next : Nat → List Nat) {ns : List Nat}
    (hvisit : ∀ n ∈ ns, (∀ rows, visit n rows =
      (next n).foldlM (fun rows m => update rows m (g n)) rows) ∧ ∀ m ∈ next n, m < size) :
    ∃ rows', ns.foldlM (fun rows n => visit n rows) rows = .ok rows' ∧ Holds rows' size fun m =>
      (ns.flatMap fun n => List.replicate ((next n).count m) n).foldl (fun x n => g n x) (f m) := by
  induction ns generalizing rows f with
  | nil => exact ⟨rows, rfl, h⟩
  | cons n ns ih =>
    rw [forall_mem_cons] at hvisit
    obtain ⟨rows₁, hfirst, h₁⟩ := h.updateAll (ε := ε) g n hvisit.1.2
    obtain ⟨rows₂, hfold, h₂⟩ := ih h₁ hvisit.2
    refine ⟨rows₂, ?_, h₂.congr fun m _ => by rw [flatMap_cons, foldl_append]⟩
    rw [foldlM_cons, hvisit.1.1, hfirst]
    exact hfold

end Arena

namespace Routine

open Arena Relation

variable {r : Routine} {ns live : List NodeId} {degrees : Arena Nat}

/-- The number of edges that arrive at a node from the nodes of a list. -/
def arriving (r : Routine) (ns : List NodeId) (m : NodeId) : Nat := (ns.flatMap r.nextOf).count m

/-- A node at which edges from a list arrive is the successor of a node of the list. -/
theorem exists_of_arriving_pos {m : NodeId} (h : 0 < r.arriving ns m) : ∃ n ∈ ns, m ∈ r.nextOf n :=
  mem_flatMap.mp (count_pos_iff.mp h)

/-- The nodes are in the arena, and so are their successors. -/
def InRange (r : Routine) (ns : List NodeId) : Prop :=
  ∀ n ∈ ns, n < r.nodes.size ∧ ∀ m ∈ r.nextOf n, m < r.nodes.size

/-- The degrees the check computes are the numbers of edges that arrive. -/
theorem inDegrees_eq (hlive : r.InRange live) :
    ∃ degrees, r.inDegrees live = .ok degrees ∧ Holds degrees r.nodes.size (r.arriving live) := by
  have hedges : ∀ n ∈ live, (∀ degrees,
      (do (← r.node n).next.foldlM (fun degrees m => update degrees m (· + 1)) degrees : Query _) =
      (r.nextOf n).foldlM (fun degrees m => update degrees m (· + 1)) degrees) ∧
      ∀ m ∈ r.nextOf n, m < r.nodes.size := by
    intro n hn
    obtain ⟨hlt, hnext⟩ := hlive n hn
    have hnode := Array.getElem?_eq_getElem hlt
    refine ⟨fun degrees => ?_, hnext⟩
    rw [node_eq_ok_iff.mpr hnode, nextOf_eq hnode]
    rfl
  obtain ⟨degrees, hrun, hholds⟩ :=
    (Holds.replicate r.nodes.size 0).spread (fun _ => (· + 1)) r.nextOf hedges
  refine ⟨degrees, hrun, hholds.congr fun m _ => ?_⟩
  simp [arriving, foldl_add_const, length_flatMap, count_flatMap, Function.comp_def]

/-- Releasing edges lowers the counters, and puts a live node on the list when its last edge goes.
-/
theorem releaseEdges_eq (live : BitSet) {size : Nat} {ms : List NodeId} {f : Nat → Nat}
    (h : Holds degrees size f) (hms : ∀ m ∈ ms, m < size) (hcount : ∀ m, ms.count m ≤ f m)
    (ready : List NodeId) : ∃ degrees' new, releaseEdges live ms degrees ready =
    .ok (degrees', new ++ ready) ∧ Holds degrees' size (fun m => f m - ms.count m) ∧ new.Nodup ∧
      ∀ m, m ∈ new ↔ m ∈ ms ∧ live.contains m = true ∧ f m = ms.count m := by
  induction ms generalizing degrees f ready with
  | nil => exact ⟨degrees, [], rfl, by simpa using h, nodup_nil, by simp⟩
  | cons m ms ih =>
    have hm : m < size := hms m (by simp)
    have hpos := hcount m
    rw [count_cons_self] at hpos
    obtain ⟨left, hleft⟩ : ∃ left, f m = left + 1 := ⟨f m - 1, by omega⟩
    obtain ⟨degrees₁, hupdate, h₁⟩ := h.updated (ε := IrError) hm fun _ => left
    have hcount₁ : ∀ k, ms.count k ≤ if k = m then left else f k := by
      intro k
      have hk := hcount k
      by_cases hkm : k = m
      · subst hkm
        simp only [if_true]
        omega
      · rw [count_cons_of_ne (Ne.symm hkm)] at hk
        simpa [hkm] using hk
    obtain ⟨degrees₂, new, hrun, h₂, hnodup, hmem⟩ :=
      ih h₁ (fun k hk => hms k (by simp [hk])) hcount₁
        (if left = 0 && live.contains m then m :: ready else ready)
    have hfetch : (fetch degrees m : Query Nat) = .ok (left + 1) := by
      rw [fetch_eq_ok_iff, h.get m hm, hleft]
    have hstep : releaseEdges live (m :: ms) degrees ready = releaseEdges live ms degrees₁
        (if left = 0 && live.contains m then m :: ready else ready) := by
      rw [releaseEdges, hfetch]
      simp only [Attempt.ok_bind, hupdate]
    have hholds : Holds degrees₂ size fun k => f k - (m :: ms).count k := by
      refine h₂.congr fun k _ => ?_
      by_cases hkm : k = m
      · subst hkm
        rw [if_pos rfl, count_cons_self]
        omega
      · rw [if_neg hkm, count_cons_of_ne (Ne.symm hkm)]
    -- `m` itself comes last if this was its last edge
    have hzero : left = 0 → m ∉ ms := fun hlast => by
      have := hcount₁ m
      rw [if_pos rfl, hlast] at this
      exact count_eq_zero.mp (by omega)
    refine ⟨degrees₂, new ++ if left = 0 && live.contains m then [m] else [], ?_, hholds,
      ?_, fun k => ?_⟩
    · rw [hstep, hrun]
      split <;> simp
    · refine nodup_append.mpr ⟨hnodup, by split <;> simp, fun k hk k' hk' heq => ?_⟩
      obtain ⟨⟨hlast, -⟩, rfl⟩ : (left = 0 ∧ live.contains m = true) ∧ k' = m := by simpa using hk'
      exact hzero hlast ((hmem _).mp (heq ▸ hk)).1
    · rw [mem_append, hmem]
      by_cases hkm : k = m
      · subst hkm
        have hin : k ∈ ms ↔ 0 < ms.count k := count_pos_iff.symm
        rw [if_pos rfl, count_cons_self, hleft]
        by_cases hlive : live.contains k = true
        · by_cases hlast : left = 0
          · simp [hlast, hlive, count_eq_zero.mpr (hzero hlast)]
          · simp only [hlast, hlive, hin, decide_false, Bool.false_and, Bool.false_eq_true,
              if_false, not_mem_nil, or_false, mem_cons_self, true_and]
            omega
        · simp [hlive]
      · rw [if_neg hkm, count_cons_of_ne (Ne.symm hkm)]
        simp [hkm]

/-- The state of the check: `left` are the nodes not yet taken away, the counters are the numbers of
edges from them, and `ready` are those of them whose counter is zero. -/
structure Peeling (r : Routine) (live left ready : List NodeId) (degrees : Arena Nat) : Prop where
  nodup : left.Nodup
  sub : ∀ n ∈ left, n ∈ live
  degrees_eq : Holds degrees r.nodes.size (r.arriving left)
  gone : ∀ n ∈ live, n ∉ left → r.arriving left n = 0
  ready_nodup : ready.Nodup
  mem_ready : ∀ n, n ∈ ready ↔ n ∈ left ∧ r.arriving left n = 0

/-- Taking one node away. -/
theorem Peeling.step {left ready : List NodeId} {n : NodeId}
    (h : r.Peeling live left (n :: ready) degrees) (hlive : r.InRange live) :
    ∃ degrees' ready', releaseEdges (.ofList live) (r.nextOf n) degrees ready =
    .ok (degrees', ready') ∧ r.Peeling live (left.erase n) ready' degrees' := by
  obtain ⟨hn, hzero⟩ := (h.mem_ready n).mp (by simp)
  have hsplit (m : NodeId) :
      r.arriving left m = (r.nextOf n).count m + r.arriving (left.erase n) m := by
    rw [arriving, ((perm_cons_erase hn).flatMap_right r.nextOf).count_eq m]
    simp [arriving]
  obtain ⟨hnready, hready⟩ := nodup_cons.mp h.ready_nodup
  obtain ⟨degrees', new, hrun, hholds, hnew, hmem⟩ :=
    releaseEdges_eq (.ofList live) h.degrees_eq (hlive n (h.sub n hn)).2
      (fun m => by rw [hsplit]; omega) ready
  -- a node that has lost its last edge was still there
  have hleft : ∀ m ∈ new, m ∈ left ∧ m ≠ n := by
    intro m hm
    obtain ⟨hnext, hcontains, heq⟩ := (hmem m).mp hm
    have hpos : 0 < (r.nextOf n).count m := count_pos_iff.mpr hnext
    have hmlive : m ∈ live := by simpa using hcontains
    constructor
    · by_contra hnot
      have := h.gone m hmlive hnot
      omega
    · rintro rfl
      omega
  refine ⟨degrees', new ++ ready, hrun, ?_, ?_, ?_, ?_, ?_, ?_⟩
  · exact h.nodup.erase n
  · exact fun m hm => h.sub m (mem_of_mem_erase hm)
  · exact hholds.congr fun m _ => by rw [hsplit]; omega
  · intro m hm hnot
    by_cases hmn : m = n
    · have := hsplit n
      subst hmn
      omega
    · have := h.gone m hm fun hin => hnot ((mem_erase_of_ne hmn).mpr hin)
      have := hsplit m
      omega
  · rw [nodup_append]
    refine ⟨hnew, hready, fun m hm m' hm' heq => ?_⟩
    subst heq
    obtain ⟨hnext, _, heq⟩ := (hmem m).mp hm
    have hpos : 0 < (r.nextOf n).count m := count_pos_iff.mpr hnext
    have := ((h.mem_ready m).mp (by simp [hm'])).2
    omega
  · intro m
    have hm := hsplit m
    rw [mem_append, hmem, h.nodup.mem_erase_iff]
    constructor
    · rintro (hnewm | hm')
      · have := hleft m ((hmem m).mpr hnewm)
        exact ⟨⟨this.2, this.1⟩, by omega⟩
      · obtain ⟨hmleft, hmzero⟩ := (h.mem_ready m).mp (by simp [hm'])
        exact ⟨⟨fun heq => hnready (heq ▸ hm'), hmleft⟩, by omega⟩
    · rintro ⟨⟨hmn, hmleft⟩, hmzero⟩
      by_cases hbefore : r.arriving left m = 0
      · right
        have := (h.mem_ready m).mpr ⟨hmleft, hbefore⟩
        simpa [hmn] using this
      · left
        have hpos : 0 < (r.nextOf n).count m := by omega
        exact ⟨count_pos_iff.mp hpos, by simpa using h.sub m hmleft, by omega⟩

/-- Taking nodes away goes on until at each of those left an edge from another one arrives. Nodes
that all have an edge from one of them stay. -/
theorem Peeling.run {left ready : List NodeId} (h : r.Peeling live left ready degrees)
    (hlive : r.InRange live) {fuel : Nat} (hfuel : left.length ≤ fuel) (visited : Nat) :
    ∃ degrees' left' taken, r.peel (.ofList live) fuel degrees ready visited = .ok (degrees',
      visited + taken) ∧ taken + left'.length = left.length ∧ r.Peeling live left' [] degrees' ∧
      ∀ K : NodeId → Prop, (∀ n, K n → ∃ m, K m ∧ n ∈ r.nextOf m) → (∀ n, K n → n ∈ left) →
      ∀ n, K n → n ∈ left' := by
  induction fuel generalizing left ready degrees visited with
  | zero =>
    have hnil : left = [] := length_eq_zero_iff.mp (by omega)
    have hready : ready = [] := by
      rw [eq_nil_iff_forall_not_mem]
      intro n hn
      have := ((h.mem_ready n).mp hn).1
      simp [hnil] at this
    subst hready
    exact ⟨degrees, left, 0, rfl, by omega, h, fun _ _ hK => hK⟩
  | succ fuel ih =>
    cases ready with
    | nil => exact ⟨degrees, left, 0, rfl, by omega, h, fun _ _ hK => hK⟩
    | cons n ready =>
      obtain ⟨hn, hzero⟩ := (h.mem_ready n).mp (by simp)
      obtain ⟨degrees₁, ready₁, hrelease, h₁⟩ := h.step hlive
      have hlen : (left.erase n).length = left.length - 1 := length_erase_of_mem hn
      have hpos : 0 < left.length := length_pos_of_mem hn
      obtain ⟨degrees₂, left₂, taken, hpeel, hcount, h₂, hstay⟩ := ih h₁ (by omega) (visited + 1)
      refine ⟨degrees₂, left₂, taken + 1, ?_, by omega, h₂,
        fun K hedge hK => hstay K hedge fun m hm => ?_⟩
      · have hlt : n < r.nodes.size := (hlive n (h.sub n hn)).1
        have hnode : r.nodes[n]? = some r.nodes[n] := Array.getElem?_eq_getElem hlt
        rw [nextOf_eq hnode] at hrelease
        rw [peel, node_eq_ok_iff.mpr hnode]
        simp only [Attempt.ok_bind, hrelease]
        rw [hpeel]
        congr 2
        omega
      · -- the node taken away has no edge from one of those left
        refine (mem_erase_of_ne fun hmn => ?_).mpr (hK m hm)
        obtain ⟨k, hk, hnext⟩ := hedge m hm
        have := count_pos_iff.mpr (mem_flatMap.mpr ⟨k, hK k hk, hmn ▸ hnext⟩)
        rw [arriving] at hzero
        omega

/-- What the check answers depends on the nodes that are left when no more can be taken away. -/
theorem exists_left (hlive : r.InRange live) (hnodup : live.Nodup) :
    ∃ left : List NodeId, (∀ n ∈ left, n ∈ live ∧ ∃ m ∈ left, n ∈ r.nextOf m) ∧
      (∀ K : NodeId → Prop, (∀ n, K n → ∃ m, K m ∧ n ∈ r.nextOf m) → (∀ n, K n → n ∈ live) →
      ∀ n, K n → n ∈ left) ∧ (left = [] ∧ r.checkAcyclic live = .ok () ∨
        ∃ m ∈ left, ∃ n ∈ r.nextOf m, r.checkAcyclic live =
        .refuse (.malformed n "cycle in the instruction stream")) := by
  obtain ⟨degrees, hdegrees, hholds⟩ := inDegrees_eq hlive
  have hstart :
      r.Peeling live live (live.filter fun n => degrees[n]? = some 0).reverse degrees := by
    refine ⟨hnodup, fun n hn => hn, hholds, fun n hn hnot => absurd hn hnot,
      nodup_reverse.mpr (hnodup.filter _), fun n => ?_⟩
    simp only [mem_reverse, mem_filter, decide_eq_true_eq, and_congr_right_iff]
    intro hn
    rw [hholds.get n (hlive n hn).1, some.injEq]
  have hfuel : live.length ≤ r.nodes.size := by
    have hsub : live ⊆ List.range r.nodes.size := fun n hn => mem_range.mpr (hlive n hn).1
    simpa using (subperm_of_subset hnodup hsub).length_le
  obtain ⟨degrees', left, taken, hpeel, hcount, hend, hstay⟩ := hstart.run hlive hfuel 0
  have hpos : ∀ n ∈ left, 0 < r.arriving left n := fun n hn => by
    by_contra hzero
    simpa using (hend.mem_ready n).mpr ⟨hn, by omega⟩
  refine ⟨left, fun n hn => ⟨hend.sub n hn, exists_of_arriving_pos (hpos n hn)⟩, hstay, ?_⟩
  simp only [checkAcyclic, hdegrees, Attempt.ok_bind, hpeel, Nat.zero_add]
  cases left with
  | nil => exact Or.inl ⟨rfl, by simp [show taken = live.length from hcount]⟩
  | cons n left =>
    right
    have hdegree : ∀ m ∈ live, degrees'[m]? = some (r.arriving (n :: left) m) := fun m hm =>
      hend.degrees_eq.get m (hlive m hm).1
    -- the first node with a counter above zero is named
    have hn := hend.sub n (by simp)
    have hfind : (live.find? fun m => degrees'[m]?.any (0 < ·)).isSome := find?_isSome.mpr
      ⟨n, hn, by simpa [hdegree n hn] using hpos n (by simp)⟩
    obtain ⟨stuck, hstuck⟩ := isSome_iff_exists.mp hfind
    have hlarge := find?_some hstuck
    rw [hdegree stuck (mem_of_find?_eq_some hstuck)] at hlarge
    obtain ⟨m, hm, hnext⟩ := exists_of_arriving_pos (by simpa using hlarge)
    refine ⟨m, hm, stuck, hnext, ?_⟩
    have hne : taken ≠ live.length := by
      rw [length_cons] at hcount
      omega
    rw [if_pos hne, hstuck, getD_some]

/-- An edge that leaves one of the nodes of a list. -/
def EdgeFrom (r : Routine) (ns : List NodeId) (n m : NodeId) : Prop := n ∈ ns ∧ m ∈ r.nextOf n

/-- If each of some nodes has an edge from one of them, each is on a cycle of such edges or reached
from one. -/
theorem exists_cycle {n : NodeId} (hedge : ∀ n ∈ ns, ∃ m ∈ ns, n ∈ r.nextOf m) (hn : n ∈ ns) :
    ∃ m, TransGen (r.EdgeFrom ns) m m ∧ ReflTransGen (r.EdgeFrom ns) m n := by
  by_contra hnone
  rw [not_exists] at hnone
  -- otherwise going backwards from the node would come to an end
  let back := { m // m ∈ ns ∧ ReflTransGen (r.EdgeFrom ns) m n }
  let ahead (a b : back) : Prop := TransGen (r.EdgeFrom ns) a.1 b.1
  have : Finite back := (ns.finite_toSet.subset fun m hm => hm.1).to_subtype
  have : Std.Irrefl ahead := ⟨fun a ha => hnone a.1 ⟨ha, a.2.2⟩⟩
  have : IsTrans back ahead := ⟨fun _ _ _ => .trans⟩
  refine (Finite.wellFounded_of_trans_of_irrefl ahead).induction (C := fun _ => False) ⟨n, hn,
    .refl⟩ fun m ih => ?_
  obtain ⟨k, hk, hnext⟩ := hedge m.1 m.2.1
  exact ih ⟨k, hk, .head ⟨hk, hnext⟩ m.2.2⟩ (.single ⟨hk, hnext⟩)

/-- A stream whose edges all go upwards in some ranking has no cycle, and the check finds none. -/
theorem checkAcyclic_eq_ok (hlive : r.InRange live) (hnodup : live.Nodup) (rank : NodeId → Nat)
    (hrank : ∀ n ∈ live, ∀ m ∈ r.nextOf n, rank n < rank m) : r.checkAcyclic live = .ok () := by
  obtain ⟨left, hleft, -, ⟨-, hok⟩ | ⟨m, hm, -⟩⟩ := exists_left hlive hnodup
  · exact hok
  obtain ⟨n, hn, -⟩ := exists_cycle (fun n hn => (hleft n hn).2) hm
  have hlt := hn.lift rank fun a b hab => hrank a (hleft a hab.1).1 b hab.2
  rw [transGen_eq_self] at hlt
  exact absurd hlt (Nat.lt_irrefl _)

theorem graph_closedOn {S : NodeId → Prop} (hlt : ∀ n, S n → n < r.nodes.size)
    (hnext : ∀ n, S n → ∀ m ∈ r.nextOf n, S m) : r.graph.ClosedOn r.nextOf S := by
  refine ⟨hlt, fun n hn => ?_, hnext⟩
  have hnode := Array.getElem?_eq_getElem (hlt n hn)
  simp only [graph, node_eq_ok_iff.mpr hnode, nextOf_eq hnode]
  rfl

/-- Whatever the edges are, as long as they stay in the arena: the check of the live nodes succeeds
exactly if no cycle can be reached from the entry. Otherwise it fails at a node that is on a cycle,
or can be reached from one, that can be reached from the entry; no counter falls below zero and the
fuel lasts. -/
theorem checkAcyclic_exact (hentry : r.entry < r.nodes.size)
    (hrange : ∀ n < r.nodes.size, ∀ m ∈ r.nextOf n, m < r.nodes.size) :
    ∃ live, r.liveNodes = .ok live ∧
      (r.checkAcyclic live = .ok () ↔
        ∀ n, Reaches r.nextOf r.entry n → ¬TransGen (fun a b => b ∈ r.nextOf a) n n) ∧
      ∀ fault, r.checkAcyclic live = .error fault →
        ∃ n m, fault = .refused (.malformed n "cycle in the instruction stream") ∧
          Reaches r.nextOf r.entry m ∧ TransGen (fun a b => b ∈ r.nextOf a) m m ∧
          Reaches r.nextOf m n := by
  obtain ⟨live, hlive, hnodup, -, hmem⟩ :=
    (graph_closedOn (fun _ => id) hrange).reachable_eq r.entry hentry
  have hin : r.InRange live := fun n hn => by
    have hlt : n < r.nodes.size := by
      have hreach := (hmem n).mp hn
      clear hn
      induction hreach with
      | refl => exact hentry
      | tail _ hedge ih => exact hrange _ ih _ hedge
    exact ⟨hlt, hrange n hlt⟩
  obtain ⟨left, hleft, hstay, hanswer⟩ := exists_left hin hnodup
  -- a node of a cycle has an edge from another one
  have hnil : left = [] → ∀ n, Reaches r.nextOf r.entry n →
      ¬TransGen (fun a b => b ∈ r.nextOf a) n n := by
    rintro rfl n hn hcycle
    refine not_mem_nil (hstay (fun m => TransGen (fun a b => b ∈ r.nextOf a) n m ∧
      Reaches r.nextOf m n) ?_ ?_ n ⟨hcycle, .refl⟩)
    · rintro m ⟨hm, hback⟩
      obtain ⟨k, hk, hnext⟩ := TransGen.tail'_iff.mp hm
      exact ⟨k, ⟨hcycle.trans_left hk, .head hnext hback⟩, hnext⟩
    · exact fun m hm => (hmem m).mpr (hn.trans hm.1.to_reflTransGen)
  have hcycle : ∀ n ∈ left, ∃ m, Reaches r.nextOf r.entry m ∧
      TransGen (fun a b => b ∈ r.nextOf a) m m ∧ Reaches r.nextOf m n := by
    intro n hn
    obtain ⟨m, hm, hmn⟩ := exists_cycle (fun n hn => (hleft n hn).2) hn
    obtain ⟨k, hk, -⟩ := TransGen.head'_iff.mp hm
    exact ⟨m, (hmem m).mp (hleft m hk.1).1, hm.lift id fun _ _ h => h.2,
      hmn.lift id fun _ _ h => h.2⟩
  refine ⟨live, hlive, ?_⟩
  rcases hanswer with ⟨hnone, hok⟩ | ⟨m, hm, n, hnext, herror⟩
  · exact ⟨⟨fun _ => hnil hnone, fun _ => hok⟩, by simp [hok]⟩
  · obtain ⟨k, hk, hself, hkm⟩ := hcycle m hm
    rw [herror]
    refine ⟨⟨fun hok => absurd hok Attempt.refuse_ne_ok, fun hfree => absurd hself (hfree k hk)⟩,
      fun fault hfault => ?_⟩
    cases hfault
    exact ⟨n, k, rfl, hk, hself, hkm.tail hnext⟩

/-- Two nodes behind the entry with edges to each other, twice in one direction, next to a node that
cannot be reached. -/
theorem checkAcyclic_exact_double :
    let r : Routine :=
      { vars := #[], entry := 0, mem := 0, nextTmp := 0,
        nodes := #[{ bare .ret with next := [1] }, { bare .ret with next := [2, 2] },
          { bare .ret with next := [1] }, { bare .ret with next := [0] }] }
    ∃ live n, r.liveNodes = .ok live ∧
      r.checkAcyclic live = .refuse (.malformed n "cycle in the instruction stream") ∧
      ∃ m, Reaches r.nextOf r.entry m ∧ TransGen (fun a b => b ∈ r.nextOf a) m m ∧
      Reaches r.nextOf m n := by
  intro r
  obtain ⟨live, hlive, -, hfault⟩ := r.checkAcyclic_exact (by decide) (by decide)
  have hrefused :
      r.checkAcyclic live = .refuse (.malformed 1 "cycle in the instruction stream") := by
    cases hlive.symm.trans (show r.liveNodes = .ok [0, 1, 2] from by decide)
    decide
  obtain ⟨n, m, hn, hcycle⟩ := hfault _ hrefused
  cases hn
  exact ⟨live, 1, hlive, hrefused, m, hcycle⟩

end Routine

end CoroutineIR
