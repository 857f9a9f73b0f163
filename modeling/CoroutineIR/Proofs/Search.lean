import CoroutineIR.Graph.Search
import Mathlib.Data.List.Nodup
import Mathlib.Data.List.Perm.Subperm
import Mathlib.Logic.Relation

/-!
# What a depth-first search meets

On a set of nodes that is closed under successors a search comes to an end and meets the nodes that
can be reached from its start and have not been met by an earlier run, each once. The invariant ties
the marks to the list of the nodes met: such a node is waiting on the stack or has all its
successors on the list. The fuel is enough because every node still to be met and every waiting node
costs one step, and a step that meets nodes only moves them from the one kind to the other.
-/

namespace CoroutineIR

open List Relation

variable {ε τ : Type}

/-- On the nodes of `S`, which are in range, the successors are given by `next` and stay in `S`. -/
structure Digraph.ClosedOn (g : Digraph ε) (next : Nat → List Nat) (S : Nat → Prop) : Prop where
  lt_size : ∀ n, S n → n < g.size
  succs : ∀ n, S n → g.succs n = .ok (next n)
  closed : ∀ n, S n → ∀ m ∈ next n, S m

/-- The node can be reached along successors. -/
abbrev Reaches (next : Nat → List Nat) : Nat → Nat → Prop := ReflTransGen fun a b => b ∈ next a

namespace Search

/-- What a visitor is told: the search as it stands, the node met and the node it was reached from.
-/
structure Meeting where
  search : Search
  node : Nat
  origin : Option Nat

/-- The nodes met, first to last. -/
def nodesOf (ms : List Meeting) : List Nat := ms.map Meeting.node

/-- What a visitor makes of what it is told, first to last. -/
def tell (visit : Visitor τ) (acc : τ) (ms : List Meeting) : τ :=
  ms.foldl (fun acc m => visit m.search m.node m.origin acc) acc

/-- Every node was reached along an edge from one met before it. -/
def Leads (next : Nat → List Nat) : List Nat → List Meeting → Prop
  | _, [] => True
  | before, m :: ms =>
    (∃ p ∈ before, m.origin = some p ∧ m.node ∈ next p) ∧ Leads next (before ++ [m.node]) ms

variable {g : Digraph ε} {next : Nat → List Nat} {S : Nat → Prop} {s : Search}
    {met before : List Nat} {n : Nat} {ms ms' : List Meeting}

theorem leads_append : Leads next before (ms ++ ms') ↔
    Leads next before ms ∧ Leads next (before ++ nodesOf ms) ms' := by
  induction ms generalizing before with
  | nil => simp [Leads, nodesOf]
  | cons m ms ih => simp [Leads, ih, nodesOf, and_assoc]

theorem leads_of_origin (hn : n ∈ before) (h : ∀ m ∈ ms, m.origin = some n ∧ m.node ∈ next n) :
    Leads next before ms := by
  induction ms generalizing before with
  | nil => trivial
  | cons m ms ih =>
    rw [forall_mem_cons] at h
    exact ⟨⟨n, hn, h.1⟩, ih (mem_append_left _ hn) h.2⟩

/-- What is reached along edges can be reached. -/
theorem Leads.reachable {start : Nat} (h : Leads next before ms)
    (hbefore : ∀ n ∈ before, Reaches next start n) : ∀ n ∈ nodesOf ms, Reaches next start n := by
  induction ms generalizing before with
  | nil => simp [nodesOf]
  | cons m ms ih =>
    obtain ⟨⟨p, hp, -, hedge⟩, hrest⟩ := h
    have hm := (hbefore p hp).tail hedge
    exact forall_mem_cons.mpr ⟨hm, ih hrest (forall_mem_append.mpr ⟨hbefore, by simpa using hm⟩)⟩

/-- The marks of a search agree with the list of the nodes met. -/
structure Lists (S : Nat → Prop) (s : Search) (met : List Nat) : Prop where
  visited : ∀ n, s.visited.contains n = true ↔ n ∈ met
  nodup : met.Nodup
  inside : ∀ n ∈ met, S n
  waiting : ∀ n ∈ s.pending.items, n ∈ met

theorem items_mark (h : Lists S s met) (hnew : n ∉ met) :
    (s.mark n).pending.items = s.pending.items ++ [n] := by
  have hnot : n ∉ s.pending.items := fun hmem => hnew (h.waiting n hmem)
  simp only [Search.mark, UniqueStack.items_push, if_neg hnot]

/-- One more node is met. -/
theorem Lists.mark (h : Lists S s met) (hn : S n) (hnew : n ∉ met) :
    Lists S (s.mark n) (met ++ [n]) where
  visited m := by
    rw [Search.mark, BitSet.contains_insert, Bool.or_eq_true, h.visited, decide_eq_true_eq,
      mem_append, mem_singleton]
    exact or_congr_right eq_comm
  nodup := by simpa [nodup_append, hnew] using ⟨h.nodup, fun m hm heq => hnew (heq ▸ hm)⟩
  inside := forall_mem_append.mpr ⟨h.inside, by simpa using hn⟩
  waiting m hm := by
    rw [items_mark h hnew, mem_append] at hm
    exact mem_append.mpr (hm.imp_left (h.waiting m))

/-- Meeting nodes marks those that are new and leaves them waiting. -/
theorem meetAll_eq (hg : g.ClosedOn next S) (visit : Visitor τ) (origin : Nat) {ns : List Nat}
    (hns : ∀ m ∈ ns, S m) (h : Lists S s met) (acc : τ) : ∃ s' ms,
    meetAll g visit origin ns s acc = .ok (s', tell visit acc ms) ∧ Lists S s' (met ++ nodesOf ms) ∧
    (∀ m ∈ ns, m ∈ met ++ nodesOf ms) ∧ (∀ m ∈ ms, m.origin = some origin ∧ m.node ∈ ns) ∧
    s'.pending.items = s.pending.items ++ nodesOf ms := by
  induction ns generalizing s met acc with
  | nil => exact ⟨s, [], rfl, by simpa [nodesOf] using h, by simp, by simp, by simp [nodesOf]⟩
  | cons n ns ih =>
    rw [forall_mem_cons] at hns
    have hvisited : isVisited g s n = .ok (s.visited.contains n) := if_pos (hg.lt_size n hns.1)
    by_cases hold : n ∈ met
    · obtain ⟨s', ms, hrun, hlists, hall, hnew, hitems⟩ := ih hns.2 h acc
      refine ⟨s', ms, ?_, hlists, forall_mem_cons.mpr ⟨mem_append_left _ hold, hall⟩,
        fun m hm => ?_, hitems⟩
      · simp only [meetAll, hvisited, (h.visited n).mpr hold]
        exact hrun
      · exact ⟨(hnew m hm).1, mem_cons_of_mem _ (hnew m hm).2⟩
    · obtain ⟨s', ms, hrun, hlists, hall, hnew, hitems⟩ :=
        ih hns.2 (h.mark hns.1 hold) (visit (s.mark n) n (some origin) acc)
      have hfalse : s.visited.contains n = false := by
        rw [← Bool.not_eq_true, h.visited]
        exact hold
      rw [List.append_assoc] at hlists hall
      refine ⟨s', ⟨s.mark n, n, some origin⟩ :: ms, ?_, hlists, forall_mem_cons.mpr
        ⟨by simp [nodesOf], hall⟩, forall_mem_cons.mpr ⟨by simp, fun m hm => ?_⟩, ?_⟩
      · simp only [meetAll, hvisited, hfalse]
        exact hrun
      · exact ⟨(hnew m hm).1, mem_cons_of_mem _ (hnew m hm).2⟩
      · rw [hitems, items_mark h hold, List.append_assoc]
        rfl

/-- A search between two runs: nothing waits, and all successors of the nodes met have been met. -/
structure Rests (next : Nat → List Nat) (S : Nat → Prop) (s : Search) (met : List Nat) :
    Prop extends Lists S s met where
  idle : s.pending.items = []
  closed : ∀ n ∈ met, ∀ m ∈ next n, m ∈ met

theorem rests_fresh : Rests next S .fresh [] where
  visited := by simp [fresh]
  nodup := nodup_nil
  inside := by simp
  waiting := by simp [fresh]
  idle := rfl
  closed := by simp

/-- A search that has nothing left to look at. -/
theorem Lists.rests {below : UniqueStack Nat} (h : Lists S s met)
    (hexpanded : ∀ n ∈ met, n ∈ s.pending.items ∨ ∀ m ∈ next n, m ∈ met)
    (hpop : s.pending.pop = (none, below)) : Rests next S { s with pending := below } met := by
  have htop := s.pending.pop_fst
  have hbelow := s.pending.items_pop
  rw [hpop] at htop hbelow
  have hnone : s.pending.items = [] := getLast?_eq_none_iff.mp htop.symm
  rw [hnone] at hbelow hexpanded
  exact ⟨⟨h.visited, h.nodup, h.inside, by simp [hbelow]⟩, hbelow,
    fun n hn => (hexpanded n hn).resolve_left (by simp)⟩

/-- A search goes on until nothing waits. -/
theorem drain_eq (hg : g.ClosedOn next S) (visit : Visitor τ) (fuel : Nat) (before : List Nat)
    (h : Lists S s met) (hwaiting : s.pending.items ⊆ before)
    (hexpanded : ∀ n ∈ met, n ∈ s.pending.items ∨ ∀ m ∈ next n, m ∈ met)
    (hfuel : s.pending.items.length + g.size ≤ fuel + met.length) (acc : τ) :
    ∃ s' ms, drain g visit fuel s acc = .ok (s', tell visit acc ms) ∧
    Rests next S s' (met ++ nodesOf ms) ∧ Leads next before ms := by
  induction fuel generalizing s met before acc with
  | zero =>
    -- no more nodes have been met than there are
    have hlen : met.length ≤ g.size := by
      have hsub : met ⊆ List.range g.size := fun n hn =>
        mem_range.mpr (hg.lt_size n (h.inside n hn))
      simpa using (subperm_of_subset h.nodup hsub).length_le
    have hnone : s.pending.items = [] := length_eq_zero_iff.mp (by omega)
    rcases hpop : s.pending.pop with ⟨top, below⟩
    obtain rfl : top = none := by
      have htop := s.pending.pop_fst
      rwa [hpop, hnone] at htop
    refine ⟨{ s with pending := below }, [], ?_, by simpa [nodesOf] using h.rests hexpanded hpop,
      trivial⟩
    simp only [drain, hpop]
    rfl
  | succ fuel ih =>
    rcases hpop : s.pending.pop with ⟨_ | n, below⟩
    · refine ⟨{ s with pending := below }, [],
        ?_, by simpa [nodesOf] using h.rests hexpanded hpop, trivial⟩
      simp only [drain, hpop]
      rfl
    · have htop := s.pending.pop_fst
      have hbelow := s.pending.items_pop
      rw [hpop] at htop hbelow
      have hitems : s.pending.items = below.items ++ [n] := by
        rw [hbelow]
        exact (dropLast_append_getLast? n htop.symm).symm
      rw [hitems, append_subset] at hwaiting
      have hn : n ∈ met := h.waiting n (by simp [hitems])
      have hlists : Lists S { s with pending := below } met :=
        ⟨h.visited, h.nodup, h.inside, fun m hm => h.waiting m (by simp [hitems, hm])⟩
      obtain ⟨s', ms, hmeet, hlists', hall, hnew, hitems'⟩ :=
        meetAll_eq hg visit n (hg.closed n (h.inside n hn)) hlists acc
      have hexpanded' : ∀ m ∈ met ++ nodesOf ms, m ∈ s'.pending.items ∨
          ∀ k ∈ next m, k ∈ met ++ nodesOf ms := by
        rw [hitems']
        refine forall_mem_append.mpr ⟨fun m hm => ?_, fun m hm => Or.inl (mem_append_right _ hm)⟩
        by_cases hmn : m = n
        · exact Or.inr (hmn ▸ hall)
        · rcases hexpanded m hm with hwait | hdone
          · rw [hitems, mem_append, mem_singleton] at hwait
            exact Or.inl (mem_append_left _ (hwait.resolve_right hmn))
          · exact Or.inr fun k hk => mem_append_left _ (hdone k hk)
      obtain ⟨s'', ms', hdrain, hrests, hleads⟩ := ih (before ++ nodesOf ms) hlists'
        (hitems' ▸ append_subset.mpr ⟨fun m hm => mem_append_left _ (hwaiting.1 hm),
          subset_append_right ..⟩) hexpanded' (by
          simp only [hitems, hitems', length_append, length_singleton] at hfuel ⊢
          omega) (tell visit acc ms)
      refine ⟨s'', ms ++ ms', ?_, by simpa [nodesOf] using hrests,
        leads_append.mpr ⟨leads_of_origin (by simpa using hwaiting.2) hnew, hleads⟩⟩
      simp only [drain, hpop, hg.succs n (h.inside n hn), hmeet, bind, Except.bind]
      rw [hdrain, tell, tell, tell, foldl_append]

/-- A run meets its start unless it has been met, and from there whatever can be reached and has not
been met. -/
theorem Rests.runFrom_eq {start : Nat} (hg : g.ClosedOn next S) (h : Rests next S s met)
    (hstart : S start) (visit : Visitor τ) (acc : τ) :
    ∃ s' ms, runFrom g visit start s acc = .ok (s', tell visit acc ms) ∧
    Rests next S s' (met ++ nodesOf ms) ∧ (∀ n, n ∈ nodesOf ms ↔ Reaches next start n ∧ n ∉ met) ∧
    (ms = [] ∨ ∃ rest, ms = ⟨s.mark start, start, none⟩ :: rest ∧ Leads next [start] rest) := by
  have hvisited : isVisited g s start = .ok (s.visited.contains start) :=
    if_pos (hg.lt_size start hstart)
  have hclosed : ∀ {l : List Nat}, (∀ n ∈ l, ∀ m ∈ next n, m ∈ l) → start ∈ l →
      ∀ n, Reaches next start n → n ∈ l := by
    intro l hl hmem n hn
    induction hn with
    | refl => exact hmem
    | tail _ hedge ih => exact hl _ ih _ hedge
  by_cases hold : start ∈ met
  · refine ⟨s, [], ?_, by simpa [nodesOf] using h, fun n => ?_, Or.inl rfl⟩
    · simp only [runFrom, hvisited, (h.visited start).mpr hold]
      rfl
    · simpa [nodesOf] using hclosed h.closed hold n
  · have hfalse : s.visited.contains start = false := by
      rw [← Bool.not_eq_true, h.visited]
      exact hold
    have hitems : (s.mark start).pending.items = [start] := by
      rw [items_mark h.toLists hold, h.idle, nil_append]
    have hexpanded : ∀ n ∈ met ++ [start], n ∈ (s.mark start).pending.items ∨
        ∀ m ∈ next n, m ∈ met ++ [start] :=
      forall_mem_append.mpr ⟨fun n hn => Or.inr fun m hm =>
        mem_append_left _ (h.closed n hn m hm), by simp [hitems]⟩
    have hfuel :
        (s.mark start).pending.items.length + g.size ≤ g.size + (met ++ [start]).length := by
      simp only [hitems, length_append, length_singleton]
      omega
    obtain ⟨s', rest, hdrain, hrests, hleads⟩ :=
      drain_eq hg visit g.size [start] (h.toLists.mark hstart hold)
      (hitems ▸ List.Subset.refl _) hexpanded hfuel (visit (s.mark start) start none acc)
    rw [List.append_assoc] at hrests
    refine ⟨s', ⟨s.mark start, start, none⟩ :: rest, ?_, hrests,
      fun n => ⟨fun hn => ⟨?_, fun hmem => ?_⟩, ?_⟩, Or.inr ⟨rest, rfl, hleads⟩⟩
    · simp only [runFrom, hvisited, hfalse, bind, Except.bind, Bool.false_eq_true, if_false]
      exact hdrain
    · rcases mem_cons.mp hn with rfl | hn
      · exact .refl
      · exact hleads.reachable (forall_mem_singleton.mpr .refl) n hn
    · exact (nodup_append.mp hrests.nodup).2.2 n hmem n hn rfl
    · rintro ⟨hn, hnew⟩
      exact (mem_append.mp (hclosed hrests.closed (by simp) n hn)).resolve_left hnew

theorem tell_listing (acc : List Nat) (ms : List Meeting) :
    tell listing acc ms = (nodesOf ms).reverse ++ acc := by
  induction ms generalizing acc with
  | nil => rfl
  | cons m ms ih =>
    rw [nodesOf, map_cons, reverse_cons, List.append_assoc]
    exact ih (m.node :: acc)

/-- A search that runs have been made with, from the given nodes, each with a visitor of its own. -/
inductive Runs (g : Digraph ε) : List Nat → Search → Prop
  | fresh : Runs g [] .fresh
  | run {starts : List Nat} {s s' : Search} {τ : Type} {visit : Visitor τ} {start : Nat}
    {acc acc' : τ} (h : Runs g starts s)
    (hrun : runFrom g visit start s acc = .ok (s', acc')) : Runs g (starts ++ [start]) s'

/-- Between two runs the nodes met are those that can be reached from where runs started. -/
theorem Runs.rests {starts : List Nat} (hg : g.ClosedOn next (· < g.size)) (h : Runs g starts s) :
    ∃ met, Rests next (· < g.size) s met ∧ ∀ n, n ∈ met ↔
    ∃ start ∈ starts, Reaches next start n := by
  induction h with
  | fresh => exact ⟨[], rests_fresh, by simp⟩
  | @run starts s s' τ visit start acc acc' _ hrun ih =>
    obtain ⟨met, hrests, hmet⟩ := ih
    have hstart : start < g.size := by
      by_contra hnot
      simp [runFrom, isVisited, hnot, Attempt.abort, bind, Except.bind] at hrun
    obtain ⟨s'', ms, hrun', hrests', hms, -⟩ := hrests.runFrom_eq hg hstart visit acc
    cases hrun.symm.trans hrun'
    refine ⟨_, hrests', fun n => ?_⟩
    rw [mem_append, hms]
    simp only [mem_append, mem_singleton, or_and_right, exists_or, exists_eq_left, ← hmet]
    tauto

end Search

/-- A search lists the nodes that can be reached from its start, each once and the start first. -/
theorem Digraph.ClosedOn.reachable_eq {g : Digraph ε} {next : Nat → List Nat} {S : Nat → Prop}
    (hg : g.ClosedOn next S) (start : Nat) (hstart : S start) :
    ∃ live, g.reachable start = .ok live ∧ live.Nodup ∧ live.head? = some start ∧
      ∀ n, n ∈ live ↔ Reaches next start n := by
  obtain ⟨s, ms, hrun, hrests, hms, hfirst⟩ :=
    Search.rests_fresh.runFrom_eq hg hstart Search.listing []
  rw [Search.tell_listing, append_nil] at hrun
  refine ⟨Search.nodesOf ms, ?_, hrests.nodup, ?_, fun n => by simp [hms]⟩
  · simp only [Digraph.reachable, hrun, bind, Except.bind]
    exact congrArg Except.ok (reverse_reverse _)
  · rcases hfirst with rfl | ⟨rest, rfl, -⟩
    · cases (hms start).mpr ⟨.refl, by simp⟩
    · rfl

/-- Whatever runs have been made with a search on a graph, nothing waits and the nodes met are those
that can be reached from where runs started. Another run ends with nothing waiting, whatever its
visitor does. It tells the visitor, once each, the nodes that can be reached and have not been met
before: the start first, as reached from nowhere, and every other node as reached along an edge from
a node it has told before. So the nodes listed for a start are those that can be reached from it. -/
theorem Search.runs_meet_reachable {g : Digraph ε} {next : Nat → List Nat} {starts : List Nat}
    {s : Search} (hg : ∀ n < g.size, g.succs n = .ok (next n) ∧ ∀ m ∈ next n, m < g.size)
    (h : Runs g starts s) : s.pending.items = [] ∧
      (∀ n, s.visited.contains n = true ↔ ∃ start ∈ starts, Reaches next start n) ∧
      ∀ start < g.size, (∀ (τ : Type) (visit : Visitor τ) (acc : τ), ∃ s' ms,
          runFrom g visit start s acc = .ok (s', tell visit acc ms) ∧ s'.pending.items = [] ∧
          (nodesOf ms).Nodup ∧
          (∀ n, n ∈ nodesOf ms ↔ Reaches next start n ∧ s.visited.contains n = false) ∧
          (ms = [] ∨ ∃ rest, ms = ⟨s.mark start, start, none⟩ :: rest ∧ Leads next [start] rest)) ∧
        ∃ live, g.reachable start = .ok live ∧ live.Nodup ∧ live.head? = some start ∧
          ∀ n, n ∈ live ↔ Reaches next start n := by
  have hclosed : g.ClosedOn next (· < g.size) :=
    ⟨fun _ => id, fun n hn => (hg n hn).1, fun n hn => (hg n hn).2⟩
  obtain ⟨met, hrests, hmet⟩ := h.rests hclosed
  refine ⟨hrests.idle, fun n => (hrests.visited n).trans (hmet n),
    fun start hstart => ⟨fun τ visit acc => ?_, hclosed.reachable_eq start hstart⟩⟩
  obtain ⟨s', ms, hrun, hrests', hms, hfirst⟩ := hrests.runFrom_eq hclosed hstart visit acc
  refine ⟨s', ms, hrun, hrests'.idle, (nodup_append.mp hrests'.nodup).2.1, fun n => ?_, hfirst⟩
  rw [hms, ← Bool.not_eq_true, hrests.visited]

/-- A graph with a loop, a cycle and a double edge. A run from one end has left the other end to be
met. -/
theorem Search.runs_meet_reachable_tangled :
    let next : Nat → List Nat := fun n => if n = 0 then [1, 1, 2] else if n = 1 then [0] else [2]
    let g : Digraph Unit := ⟨4, fun n => .ok (next n)⟩
    ∃ s s' ms, Runs g [1] s ∧ runFrom g listing 3 s [] = .ok (s', tell listing [] ms) ∧
      nodesOf ms = [3] ∧ ∀ n, s.visited.contains n = true ↔ Reaches next 1 n := by
  intro next g
  obtain ⟨s, hruns, hthird⟩ : ∃ s, Runs g [1] s ∧
      (runFrom g listing 3 s []).map Prod.snd = .ok [3] :=
    ⟨_, @Runs.run _ _ _ _ _ _ listing 1 [] _ .fresh rfl, rfl⟩
  have hg : ∀ n < g.size, g.succs n = .ok (next n) ∧ ∀ m ∈ next n, m < g.size := by decide
  obtain ⟨-, hvisited, hmore⟩ := runs_meet_reachable hg hruns
  obtain ⟨s', ms, hrun, -⟩ := (hmore 3 (by decide)).1 _ listing []
  rw [hrun, tell_listing, append_nil] at hthird
  refine ⟨s, s', ms, hruns, hrun, reverse_injective (Except.ok.inj hthird), fun n => ?_⟩
  simp [hvisited]

end CoroutineIR
