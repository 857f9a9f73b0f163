import CoroutineIR.Proofs.Edit
import CoroutineIR.Proofs.Strand

/-!
# Streams that are strands

A routine carries a strand when the edges between its entry and its exit are the wires of the
strand. A node put on an edge lengthens the strand at that place, and a node taken out shortens it;
nothing else about the strand changes, whatever stands around the place.
-/

namespace CoroutineIR

open List Option CoroutineIR.Action Strand Edit

/-! ### Slots of parallel edges -/

/-- Occurrences before a position are positions before it. -/
theorem occurrencesBefore_eq (l : List NodeId) (m : NodeId) (i : Nat) :
    occurrencesBefore l m i = ((List.range i).filter fun k => l[k]? = some m).length := by
  induction i with
  | zero => simp [occurrencesBefore]
  | succ i ih =>
    rw [range_succ, filter_append, length_append, ← ih]
    unfold occurrencesBefore
    rw [take_add_one, count_append]
    cases h : l[i]? with
    | none => simp [h]
    | some a =>
      by_cases ha : a = m
      · simp [h, ha]
      · simp [h, ha]

/-- Counting the occurrences before an occurrence and selecting by that number are inverse. -/
theorem nthSlot_occurrencesBefore {l : List NodeId} {m : NodeId} {i : Nat} (h : l[i]? = some m) :
    nthSlot l m (occurrencesBefore l m i) = some i := by
  obtain ⟨hi, _⟩ := List.getElem?_eq_some_iff.mp h
  have hsplit : List.range l.length =
      List.range i ++ i :: (List.range (l.length - i - 1)).map (i + 1 + ·) := by
    have hlen : l.length = i + (1 + (l.length - i - 1)) := by omega
    rw [hlen, range_add, range_add]
    simp [Function.comp_def, Nat.add_assoc]
  rw [occurrencesBefore_eq, nthSlot, hsplit, filter_append]
  simp [h]

/-! ### Slots in the order of the wires -/

section Slots

variable {β : Type} {l : List Wire} {slot : Wire → Nat} (hslots : l.map slot = List.range l.length)
include hslots

/-- The wire at a position has the slot of that position. -/
theorem slot_of_getElem? {i : Nat} {w : Wire} (h : l[i]? = some w) : slot w = i := by
  have hlt : i < l.length := (List.getElem?_eq_some_iff.mp h).1
  have hmap := congrArg (fun l : List Nat => l[i]?) hslots
  simp only [getElem?_map, h, map_some, getElem?_range hlt] at hmap
  exact some.inj hmap

theorem getElem?_of_slots {w : Wire} (f : Wire → β) (hw : w ∈ l) :
    (l.map f)[slot w]? = some (f w) := by
  obtain ⟨i, hi⟩ := mem_iff_getElem?.mp hw
  rw [slot_of_getElem? hslots hi, getElem?_map, hi]
  rfl

/-- A list with an entry for each wire, at its slot. -/
theorem eq_map_of_slots {f : Wire → β} {bs : List β} (hlength : bs.length = l.length)
    (h : ∀ w ∈ l, bs[slot w]? = some (f w)) : bs = l.map f := by
  refine ext_getElem? fun i => ?_
  rw [getElem?_map]
  cases hi : l[i]? with
  | none =>
    rw [List.getElem?_eq_none_iff] at hi
    exact getElem?_eq_none (hlength ▸ hi)
  | some w =>
    rw [← slot_of_getElem? hslots hi]
    exact h w (mem_of_getElem? hi)

end Slots

/-- The wires of a stream are between its nodes. -/
theorem Strand.ends_mem {entry exit : NodeId} {t : Strand} {w : Wire}
    (hw : w ∈ t.wires (entry, 0) (exit, 0)) :
    w.1.1 ∈ entry :: exit :: t.nodes ∧ w.2.1 ∈ entry :: exit :: t.nodes := by
  constructor
  · rcases source_of_mem hw with heq | hmem
    · simp [heq]
    · simp [hmem]
  · rcases target_of_mem hw with heq | hmem
    · simp [heq]
    · simp [hmem]

namespace Strand

section Neighbours

variable {ws : List Wire} {n : NodeId} {w : Wire} {t : Strand} {src dst : Port}

theorem mem_wiresFrom : w ∈ wiresFrom ws n ↔ w ∈ ws ∧ w.1.1 = n := by
  simp [wiresFrom]

theorem mem_wiresTo : w ∈ wiresTo ws n ↔ w ∈ ws ∧ w.2.1 = n := by
  simp [wiresTo]

/-- The nodes to which wires lead from a node, in the order of the wires. -/
def heads (ws : List Wire) (n : NodeId) : List NodeId := (wiresFrom ws n).map fun w => w.2.1

/-- The nodes from which wires lead to a node, in the order of the wires. -/
def tails (ws : List Wire) (n : NodeId) : List NodeId := (wiresTo ws n).map fun w => w.1.1

theorem heads_append (ws ws' : List Wire) (n : NodeId) :
    heads (ws ++ ws') n = heads ws n ++ heads ws' n := by
  simp [heads, wiresFrom]

theorem tails_append (ws ws' : List Wire) (n : NodeId) :
    tails (ws ++ ws') n = tails ws n ++ tails ws' n := by
  simp [tails, wiresTo]

theorem heads_cons (w : Wire) (ws : List Wire) (n : NodeId) :
    heads (w :: ws) n = (if n = w.1.1 then [w.2.1] else []) ++ heads ws n := by
  by_cases h : n = w.1.1
  · simp [heads, wiresFrom, h]
  · simp [heads, wiresFrom, h, Ne.symm h]

theorem tails_cons (w : Wire) (ws : List Wire) (n : NodeId) :
    tails (w :: ws) n = (if n = w.2.1 then [w.1.1] else []) ++ tails ws n := by
  by_cases h : n = w.2.1
  · simp [tails, wiresTo, h]
  · simp [tails, wiresTo, h, Ne.symm h]

theorem heads_eq_nil (h : ∀ w ∈ ws, w.1.1 ≠ n) : heads ws n = [] := by
  simpa [heads, wiresFrom] using h

theorem tails_eq_nil (h : ∀ w ∈ ws, w.2.1 ≠ n) : tails ws n = [] := by
  simpa [tails, wiresTo] using h

/-- Outside of a strand only the wire that enters it starts. -/
theorem heads_wires (hn : n ∉ t.nodes) :
    heads (t.wires src dst) n = if n = src.1 then [(t.entryPort dst).1] else [] := by
  obtain ⟨more, hmore⟩ := t.wires_eq_cons dst
  have hports : more.map Prod.fst = t.ports true := by
    have hfst := map_fst_wires src t dst
    rw [hmore] at hfst
    exact (List.cons.inj hfst).2
  rw [hmore, heads_cons, heads_eq_nil, append_nil]
  intro w hw heq
  exact hn (heq ▸ mem_of_ports (hports ▸ List.mem_map_of_mem hw))

theorem tails_openWires (hn : n ∉ t.nodes) : tails (t.openWires src) n = [] := by
  have hports : (t.openWires src).map Prod.snd = t.ports false := by
    have hsnd := map_snd_wires src t (0, 0)
    rw [wires_eq, map_append] at hsnd
    exact append_inj_left' hsnd rfl
  refine tails_eq_nil fun w hw heq => ?_
  exact hn (heq ▸ mem_of_ports (hports ▸ List.mem_map_of_mem hw))

/-- Outside of a strand only the wire that leaves it ends. -/
theorem tails_wires (hn : n ∉ t.nodes) :
    tails (t.wires src dst) n = if n = dst.1 then [(t.exitPort src).1] else [] := by
  rw [wires_eq, tails_append, tails_openWires hn, tails_cons]
  simp [tails, wiresTo]

/-- The slots at the ends of a strand do not matter to its nodes. -/
theorem neighbours_congr {src' dst' : Port} (hs : src'.1 = src.1) (hd : dst'.1 = dst.1) :
    heads (t.wires src' dst') n = heads (t.wires src dst) n ∧
    tails (t.wires src' dst') n = tails (t.wires src dst) n := by
  induction t generalizing src src' with
  | done => simp [heads_cons, tails_cons, hs, hd]
  | leaf m rest ih | region o c body rest _ ih | fork o c first second rest _ _ ih =>
    simp [heads_cons, tails_cons, heads_append, tails_append, hs, ih rfl]

/-- The wires between two nodes, counted at either end. -/
theorem count_wires (ws : List Wire) (n m : NodeId) :
    (heads ws n).count m = (tails ws m).count n := by
  simp only [heads, tails, wiresFrom, wiresTo, List.count, countP_map, countP_filter,
    Function.comp_def]
  congr 1
  funext w
  rw [Bool.and_comm]
  rfl

end Neighbours

end Strand

namespace Routine

variable {r : Routine} {n m : NodeId} {i slot : Nat} {ms : List NodeId} {t : Strand} {w : Wire}
    {C : Strand.Context}

/-- The edge at both ends of a wire. -/
def Joined (r : Routine) (w : Wire) : Prop :=
  (r.nextOf w.1.1)[w.1.2]? = some w.2.1 ∧ (r.prevOf w.2.1)[w.2.2]? = some w.1.1

/-- An edge on which its two ends agree: as many edges between the same nodes come before it at
both. -/
structure Matched (r : Routine) (w : Wire) : Prop where
  joined : r.Joined w
  before_eq :
    occurrencesBefore (r.nextOf w.1.1) w.2.1 w.1.2 = occurrencesBefore (r.prevOf w.2.1) w.1.1 w.2.2

/-- The source slot of an edge as it is found from the target. -/
theorem Matched.nthSlot_next (h : r.Matched w) :
    nthSlot (r.nextOf w.1.1) w.2.1 (occurrencesBefore (r.prevOf w.2.1) w.1.1 w.2.2) =
    some w.1.2 := by
  rw [← h.before_eq]
  exact nthSlot_occurrencesBefore h.joined.1

/-- The target slot of an edge as it is found from the source. -/
theorem Matched.nthSlot_prev (h : r.Matched w) :
    nthSlot (r.prevOf w.2.1) w.1.1 (occurrencesBefore (r.nextOf w.1.1) w.2.1 w.1.2) =
    some w.2.2 := by
  rw [h.before_eq]
  exact nthSlot_occurrencesBefore h.joined.2

/-- The neighbours of a node are the far ends of its wires, in their order. -/
def Lists (r : Routine) (ws : List Wire) (n : NodeId) : Prop :=
  r.nextOf n = Strand.heads ws n ∧ r.prevOf n = Strand.tails ws n

theorem lt_of_next (h : (r.nextOf n)[i]? = some m) : n < r.nodes.size := by
  by_contra hge
  simp [nextOf, Array.getElem?_eq_none (Nat.not_lt.mp hge)] at h

theorem lt_of_prev (h : (r.prevOf n)[i]? = some m) : n < r.nodes.size := by
  by_contra hge
  simp [prevOf, Array.getElem?_eq_none (Nat.not_lt.mp hge)] at h

theorem exists_next (h : r.nextOf n = m :: ms) : ∃ d, r.nodes[n]? = some d ∧ d.next = m :: ms := by
  have hlt : n < r.nodes.size := lt_of_next (i := 0) (by rw [h]; rfl)
  refine ⟨_, Array.getElem?_eq_getElem hlt, ?_⟩
  rw [← nextOf_eq (Array.getElem?_eq_getElem hlt), h]

theorem exists_firstNext (h : r.nextOf n = m :: ms) :
    ∃ d, r.nodes[n]? = some d ∧ d.firstNext = some m := by
  obtain ⟨d, hd, hnext⟩ := exists_next h
  exact ⟨d, hd, by rw [Node.firstNext, hnext]; rfl⟩

/-- The number of predecessors of a node. -/
def inDegree (r : Routine) (n : NodeId) : Nat := (r.prevOf n).length

/-- The number of successors of a node. -/
def outDegree (r : Routine) (n : NodeId) : Nat := (r.nextOf n).length

/-- The wires of a strand from `src` to `dst` are edges, and its nodes have no others. -/
structure Lays (r : Routine) (src : Port) (t : Strand) (dst : Port) : Prop where
  joined : ∀ w ∈ t.wires src dst, r.Joined w
  sized : t.Sized r.inDegree r.outDegree

section Lays

variable {src dst : Port} {o c m' : NodeId} {body first second rest u : Strand}

theorem eq_singleton (hlength : ms.length = 1) (h : ms[0]? = some m) :
    ms = [m] := by
  obtain ⟨a, ha⟩ := length_eq_one_iff.mp hlength
  simp_all

theorem eq_pair (hlength : ms.length = 2) (h : ms[0]? = some m)
    (h' : ms[1]? = some m') : ms = [m, m'] := by
  obtain ⟨a, b, hab⟩ := length_eq_two.mp hlength
  simp_all

theorem Lays.entry (h : r.Lays src t dst) : r.Joined (src, t.entryPort dst) :=
  h.joined _ (Strand.entry_mem_wires src t dst)

theorem Lays.exit (h : r.Lays src t dst) : r.Joined (t.exitPort src, dst) :=
  h.joined _ (exit_mem_wires src t dst)

theorem Lays.leaf_rest (h : r.Lays src (.leaf n rest) dst) : r.Lays (n, 0) rest dst :=
  ⟨fun w hw => h.joined w (by simp [hw]), h.sized.2⟩

theorem Lays.region_body (h : r.Lays src (.region o c body rest) dst) : r.Lays (o, 0) body (c, 0) :=
  ⟨fun w hw => h.joined w (by simp [hw]), h.sized.2.2.1⟩

theorem Lays.region_rest (h : r.Lays src (.region o c body rest) dst) : r.Lays (c, 0) rest dst :=
  ⟨fun w hw => h.joined w (by simp [hw]), h.sized.2.2.2⟩

section

variable (h : r.Lays src (.fork o c first second rest) dst)
include h

theorem Lays.fork_first : r.Lays (o, 0) first (c, 0) :=
  ⟨fun w hw => h.joined w (by simp [hw]), h.sized.2.2.1⟩

theorem Lays.fork_second : r.Lays (o, 1) second (c, 1) :=
  ⟨fun w hw => h.joined w (by simp [hw]), h.sized.2.2.2.1⟩

theorem Lays.fork_rest : r.Lays (c, 0) rest dst :=
  ⟨fun w hw => h.joined w (by simp [hw]), h.sized.2.2.2.2⟩

end

theorem Lays.append_left (h : r.Lays src (t.append u) dst) : r.Lays src t (u.entryPort dst) where
  joined w hw := by
    apply h.joined
    rw [wires_eq, mem_append, mem_singleton] at hw
    rw [wires_append]
    rcases hw with hw | rfl
    · exact mem_append_left _ hw
    · exact mem_append_right _ (Strand.entry_mem_wires _ _ _)
  sized := (sized_append.mp h.sized).1

theorem Lays.append_right (h : r.Lays src (t.append u) dst) : r.Lays (t.exitPort src) u dst where
  joined w hw := h.joined w (by rw [wires_append]; exact mem_append_right _ hw)
  sized := (sized_append.mp h.sized).2

theorem Lays.nextOf_leaf (h : r.Lays src (.leaf n rest) dst) :
    r.nextOf n = [(rest.entryPort dst).1] :=
  eq_singleton h.sized.1.2 h.leaf_rest.entry.1

theorem Lays.prevOf_leaf (h : r.Lays src (.leaf n rest) dst) : r.prevOf n = [src.1] :=
  eq_singleton h.sized.1.1 h.entry.2

section

variable (h : r.Lays src (.region o c body rest) dst)
include h

theorem Lays.nextOf_opener : r.nextOf o = [(body.entryPort (c, 0)).1] :=
  eq_singleton h.sized.1.2 h.region_body.entry.1

theorem Lays.prevOf_opener : r.prevOf o = [src.1] :=
  eq_singleton h.sized.1.1 h.entry.2

theorem Lays.nextOf_closer : r.nextOf c = [(rest.entryPort dst).1] :=
  eq_singleton h.sized.2.1.2 h.region_rest.entry.1

theorem Lays.prevOf_closer : r.prevOf c = [(body.exitPort (o, 0)).1] :=
  eq_singleton h.sized.2.1.1 h.region_body.exit.2

end

variable (h : r.Lays src (.fork o c first second rest) dst)
include h

theorem Lays.nextOf_fork : r.nextOf o = [(first.entryPort (c, 0)).1, (second.entryPort (c, 1)).1] :=
  eq_pair h.sized.1.2 h.fork_first.entry.1 h.fork_second.entry.1

theorem Lays.prevOf_fork : r.prevOf o = [src.1] :=
  eq_singleton h.sized.1.1 h.entry.2

theorem Lays.nextOf_join : r.nextOf c = [(rest.entryPort dst).1] :=
  eq_singleton h.sized.2.1.2 h.fork_rest.entry.1

theorem Lays.prevOf_join : r.prevOf c = [(first.exitPort (o, 0)).1, (second.exitPort (o, 1)).1] :=
  eq_pair h.sized.2.1.1 h.fork_first.exit.2 h.fork_second.exit.2

end Lays

variable {exit x : NodeId}

/-- The nodes of the stream, its ends first. -/
abbrev live (r : Routine) (exit : NodeId) (t : Strand) : List NodeId := r.entry :: exit :: t.nodes

theorem mem_live (hn : n ∈ t.nodes) : n ∈ r.live exit t :=
  mem_cons_of_mem _ (mem_cons_of_mem _ hn)

theorem mem_live_of_entry (hn : n ∈ r.entry :: t.nodes) : n ∈ r.live exit t :=
  mem_cons.mpr ((mem_cons.mp hn).imp_right (mem_cons_of_mem _))

theorem live_congr {r' : Routine} (h : r'.entry = r.entry) (exit : NodeId) (t : Strand) :
    r'.live exit t = r.live exit t := by
  rw [live, h]

/-- The edges between the entry and `exit` are the wires of a strand. -/
structure Carries (r : Routine) (exit : NodeId) (t : Strand) : Prop
    extends r.Lays (r.entry, 0) t (exit, 0) where
  nodup : (r.entry :: exit :: t.nodes).Nodup
  entry_degrees : r.inDegree r.entry = 0 ∧ r.outDegree r.entry = 1
  exit_degrees : r.inDegree exit = 1 ∧ r.outDegree exit = 0

namespace Carries

variable (h : r.Carries exit t)
include h

theorem nodup_nodes : t.nodes.Nodup :=
  (nodup_cons.mp (nodup_cons.mp h.nodup).2).2

theorem entry_not_mem : r.entry ∉ t.nodes := fun hmem =>
  (nodup_cons.mp h.nodup).1 (mem_cons_of_mem _ hmem)

theorem exit_not_mem : exit ∉ t.nodes :=
  (nodup_cons.mp (nodup_cons.mp h.nodup).2).1

theorem entry_ne_exit : r.entry ≠ exit := fun heq =>
  (nodup_cons.mp h.nodup).1 (by simp [heq])

/-- Every node of the stream is in the arena. -/
theorem lt_size (hn : n ∈ r.live exit t) : n < r.nodes.size := by
  by_contra hge
  have hnone : r.nodes[n]? = none := Array.getElem?_eq_none (Nat.not_lt.mp hge)
  have hin : r.inDegree n = 0 := by simp [inDegree, prevOf, hnone]
  have hout : r.outDegree n = 0 := by simp [outDegree, nextOf, hnone]
  simp only [mem_cons] at hn
  rcases hn with rfl | rfl | hn
  · have := h.entry_degrees.2
    omega
  · have := h.exit_degrees.1
    omega
  · have := (h.sized.pos hn).1
    omega

theorem exists_node (hn : n ∈ r.live exit t) : ∃ d, r.nodes[n]? = some d :=
  ⟨_, Array.getElem?_eq_getElem (h.lt_size hn)⟩

end Carries

/-- A stream carries a strand when the neighbours of its nodes are listed in the order of the wires.
-/
theorem carries_iff : r.Carries exit t ↔
    (r.live exit t).Nodup ∧ ∀ n ∈ r.live exit t, r.Lists (t.wires (r.entry, 0) (exit, 0)) n := by
  constructor
  · intro h
    have hslotted := slotted_wires h.nodup
    have hdegrees : ∀ n ∈ r.live exit t, r.inDegree n =
        (Strand.wiresTo (t.wires (r.entry, 0) (exit, 0)) n).length ∧
        r.outDegree n = (Strand.wiresFrom (t.wires (r.entry, 0) (exit, 0)) n).length := by
      refine forall_mem_cons.mpr ⟨?_,
        forall_mem_cons.mpr ⟨?_, fun n hn => h.sized.eq hslotted.sized hn⟩⟩
      · rw [h.entry_degrees.1, h.entry_degrees.2, hslotted.entry_degrees.1,
          hslotted.entry_degrees.2]
        exact ⟨rfl, rfl⟩
      · rw [h.exit_degrees.1, h.exit_degrees.2, hslotted.exit_degrees.1, hslotted.exit_degrees.2]
        exact ⟨rfl, rfl⟩
    refine ⟨h.nodup, fun n hn => ⟨eq_map_of_slots (hslotted.from_eq n hn) (hdegrees n hn).2
      fun w hw => ?_, eq_map_of_slots (hslotted.to_eq n hn) (hdegrees n hn).1 fun w hw => ?_⟩⟩
    · obtain ⟨hmem, rfl⟩ := mem_wiresFrom.mp hw
      exact (h.joined w hmem).1
    · obtain ⟨hmem, rfl⟩ := mem_wiresTo.mp hw
      exact (h.joined w hmem).2
  · rintro ⟨hnodup, hlists⟩
    have hslotted := slotted_wires hnodup
    have hdegrees : ∀ n ∈ r.live exit t, r.inDegree n =
        (Strand.wiresTo (t.wires (r.entry, 0) (exit, 0)) n).length ∧
        r.outDegree n = (Strand.wiresFrom (t.wires (r.entry, 0) (exit, 0)) n).length :=
        fun n hn => by
      rw [inDegree, outDegree, (hlists n hn).1, (hlists n hn).2, Strand.heads, Strand.tails,
        length_map, length_map]
      exact ⟨rfl, rfl⟩
    refine
      { joined := fun w hw => ?_, sized := ?_, nodup := hnodup, entry_degrees := ?_,
        exit_degrees := ?_ }
    · obtain ⟨hs, ht⟩ := ends_mem hw
      rw [Joined, (hlists _ hs).1, (hlists _ ht).2]
      exact ⟨getElem?_of_slots (hslotted.from_eq _ hs) _ (mem_wiresFrom.mpr ⟨hw, rfl⟩),
        getElem?_of_slots (hslotted.to_eq _ ht) _ (mem_wiresTo.mpr ⟨hw, rfl⟩)⟩
    · exact hslotted.sized.congr fun n hn => hdegrees n (mem_live hn)
    · obtain ⟨hin, hout⟩ := hdegrees r.entry (by simp)
      exact ⟨hin.trans hslotted.entry_degrees.1, hout.trans hslotted.entry_degrees.2⟩
    · obtain ⟨hin, hout⟩ := hdegrees exit (by simp)
      exact ⟨hin.trans hslotted.exit_degrees.1, hout.trans hslotted.exit_degrees.2⟩

/-- What a stream carries depends on its wires and its nodes. -/
theorem Carries.of_wires {t' : Strand} (h : r.Carries exit t)
    (hwires : t'.wires (r.entry, 0) (exit, 0) = t.wires (r.entry, 0) (exit, 0))
    (hperm : t'.nodes.Perm t.nodes) : r.Carries exit t' := by
  have hlive : (r.live exit t').Perm (r.live exit t) := (hperm.cons exit).cons r.entry
  obtain ⟨hnodup, hlists⟩ := carries_iff.mp h
  rw [carries_iff, hwires]
  exact ⟨hlive.nodup_iff.mpr hnodup, fun n hn => hlists n (hlive.mem_iff.mp hn)⟩

namespace Carries

variable (h : r.Carries exit t)
include h

theorem lists (hn : n ∈ r.live exit t) : r.Lists (t.wires (r.entry, 0) (exit, 0)) n :=
    (carries_iff.mp h).2 n hn

/-- Only the edges of the stream's own nodes matter. -/
theorem congr {r' : Routine} (hentry : r'.entry = r.entry)
    (hedges : ∀ n ∈ r.live exit t, r'.nextOf n = r.nextOf n ∧ r'.prevOf n = r.prevOf n) :
    r'.Carries exit t := by
  rw [carries_iff, live, hentry]
  refine ⟨h.nodup, fun n hn => ?_⟩
  rw [Lists, (hedges n hn).1, (hedges n hn).2]
  exact h.lists hn

/-- A node that is added stays outside of the stream. -/
theorem withNew (d : Node) : (r.withNew d).Carries exit t := by
  refine h.congr rfl fun n hn => ?_
  have hne : n ≠ r.nodes.size := Nat.ne_of_lt (h.lt_size hn)
  rw [nextOf_withNew, prevOf_withNew, if_neg hne, if_neg hne]
  exact ⟨rfl, rfl⟩

/-- An edge is kept as often at the one end as at the other. -/
theorem count_eq (hn : n ∈ r.live exit t) (hm : m ∈ r.live exit t) :
    (r.nextOf n).count m = (r.prevOf m).count n := by
  rw [(h.lists hn).1, (h.lists hm).2, count_wires]

/-- Every successor of a node of the stream is reached by a wire. -/
theorem exists_wire (hn : n ∈ r.live exit t) (hm : (r.nextOf n)[slot]? = some m) :
    ∃ j, ((n, slot), (m, j)) ∈ t.wires (r.entry, 0) (exit, 0) := by
  rw [(h.lists hn).1, Strand.heads, getElem?_map] at hm
  obtain ⟨w, hi, rfl⟩ := map_eq_some_iff.mp hm
  obtain ⟨hw, rfl⟩ := mem_wiresFrom.mp (mem_of_getElem? hi)
  obtain rfl := slot_of_getElem? ((slotted_wires h.nodup).from_eq _ hn) hi
  exact ⟨w.2.2, hw⟩

/-- Every predecessor of a node of the stream is left by a wire. -/
theorem exists_wire_back (hn : n ∈ r.live exit t) (hm : (r.prevOf n)[slot]? = some m) :
    ∃ i, ((m, i), (n, slot)) ∈ t.wires (r.entry, 0) (exit, 0) := by
  rw [(h.lists hn).2, Strand.tails, getElem?_map] at hm
  obtain ⟨w, hi, rfl⟩ := map_eq_some_iff.mp hm
  obtain ⟨hw, rfl⟩ := mem_wiresTo.mp (mem_of_getElem? hi)
  obtain rfl := slot_of_getElem? ((slotted_wires h.nodup).to_eq _ hn) hi
  exact ⟨w.1.2, hw⟩

/-- The slots of a wire are the numbers of wires that come before it at its ends. -/
theorem slots_eq {before behind : List Wire}
    (hsplit : t.wires (r.entry, 0) (exit, 0) = before ++ w :: behind) :
    w.1.2 = (Strand.heads before w.1.1).length ∧ w.2.2 = (Strand.tails before w.2.1).length := by
  rw [Strand.heads, Strand.tails, length_map, length_map]
  have hslotted := slotted_wires h.nodup
  obtain ⟨hs, ht⟩ := ends_mem (show w ∈ t.wires (r.entry, 0) (exit, 0) by simp [hsplit])
  constructor
  · refine slot_of_getElem? (w := w) (hslotted.from_eq _ hs) ?_
    simp [hsplit, Strand.wiresFrom]
  · refine slot_of_getElem? (w := w) (hslotted.to_eq _ ht) ?_
    simp [hsplit, Strand.wiresTo]

/-- The two ends of an edge agree on how many edges between the same nodes come before it. -/
theorem matched (hw : w ∈ t.wires (r.entry, 0) (exit, 0)) : r.Matched w := by
  refine ⟨h.joined w hw, ?_⟩
  rw [(h.lists (ends_mem hw).1).1, (h.lists (ends_mem hw).2).2]
  obtain ⟨pre, post, hsplit⟩ := append_of_mem hw
  obtain ⟨hfrom, hto⟩ := h.slots_eq hsplit
  have hcount := count_wires pre w.1.1 w.2.1
  rw [occurrencesBefore, occurrencesBefore, hfrom, hto, hsplit, heads_append,
    Strand.tails_append, take_left, take_left, hcount]

end Carries

/-! ### Putting a node on an edge -/

/-- The routine with the node `x` put on a wire. -/
def spliced (r : Routine) (w : Wire) (x : NodeId) : Routine :=
  ((r.alter w.1.1 fun d => { d with next := d.next.set w.1.2 x }).alter w.2.1
    fun d => { d with prev := d.prev.set w.2.2 x }).alter x
      fun d => { d with prev := d.prev ++ [w.1.1], next := d.next ++ [w.2.1] }

@[simp] theorem spliced_entry : (r.spliced w x).entry = r.entry := rfl

@[simp] theorem size_spliced : (r.spliced w x).nodes.size = r.nodes.size := by
  simp [spliced]

@[simp] theorem label_spliced : (r.spliced w x).label m = r.label m := by
  unfold spliced
  rw [label_alter_of_eq, label_alter_of_eq, label_alter_of_eq] <;> exact fun _ => rfl

theorem nextOf_spliced (hsrc : w.1.1 < r.nodes.size) (hx : x < r.nodes.size) :
    (r.spliced w x).nextOf m =
      (if m = w.1.1 then (r.nextOf m).set w.1.2 x else r.nextOf m) ++
        (if m = x then [w.2.1] else []) := by
  unfold spliced
  rw [nextOf_alter (g := (· ++ [w.2.1])) (fun _ => rfl) (by simpa using hx),
    nextOf_alter_of_eq (by intro d; rfl),
    nextOf_alter (g := (List.set · w.1.2 x)) (fun _ => rfl) hsrc]
  by_cases hm : m = x <;> simp [hm]

theorem prevOf_spliced (hdst : w.2.1 < r.nodes.size) (hx : x < r.nodes.size) :
    (r.spliced w x).prevOf m =
      (if m = w.2.1 then (r.prevOf m).set w.2.2 x else r.prevOf m) ++
        (if m = x then [w.1.1] else []) := by
  unfold spliced
  rw [prevOf_alter (g := (· ++ [w.1.1])) (fun _ => rfl) (by simpa using hx),
    prevOf_alter (g := (List.set · w.2.2 x)) (fun _ => rfl) (by simpa using hdst),
    prevOf_alter_of_eq (by intro d; rfl)]
  by_cases hm : m = x <;> simp [hm]

namespace Carries

/-- A detached node put on the edge that enters a part stands in front of that part. -/
theorem spliced (h : r.Carries exit (C.plug t)) (hx : x ∉ r.entry :: exit :: (C.plug t).nodes)
    (hlt : x < r.nodes.size) (hnext : r.nextOf x = []) (hprev : r.prevOf x = []) :
    (r.spliced (C.source (r.entry, 0), t.entryPort (C.target (exit, 0))) x).Carries exit
      (C.plug (.leaf x t)) := by
  obtain ⟨before, behind, hold, hnew⟩ := C.wires_plug_leaf (r.entry, 0) (exit, 0) x t
  generalize C.source (r.entry, 0) = p, t.entryPort (C.target (exit, 0)) = q at hold hnew ⊢
  have hperm := C.perm_stream_leaf r.entry exit x t
  have hmem : (p, q) ∈ (C.plug t).wires (r.entry, 0) (exit, 0) := by simp [hold]
  obtain ⟨hfrom, hto⟩ : p.2 = (Strand.heads before p.1).length ∧
    q.2 = (Strand.tails before q.1).length := h.slots_eq hold
  -- no wire is at `x` yet
  have hnone {ws : List Wire} (hws : ws ⊆ before ++ (p, q) :: behind) :
      Strand.heads ws x = [] ∧ Strand.tails ws x = [] :=
    ⟨heads_eq_nil fun v hv heq => hx (heq ▸ (ends_mem (hold ▸ hws hv)).1),
      tails_eq_nil fun v hv heq => hx (heq ▸ (ends_mem (hold ▸ hws hv)).2)⟩
  refine carries_iff.mpr ⟨hperm.nodup_iff.mpr (nodup_cons.mpr ⟨hx, h.nodup⟩), fun m hm => ?_⟩
  rw [Lists, nextOf_spliced (h.lt_size (ends_mem hmem).1) hlt,
    prevOf_spliced (h.lt_size (ends_mem hmem).2) hlt, spliced_entry, hnew]
  simp only [heads_append, Strand.tails_append, heads_cons, Strand.tails_cons]
  rcases mem_cons.mp (hperm.mem_iff.mp hm) with rfl | hm'
  · obtain ⟨hs, ht⟩ : m ≠ p.1 ∧ m ≠ q.1 :=
      ⟨fun heq => hx (heq ▸ (ends_mem hmem).1), fun heq => hx (heq ▸ (ends_mem hmem).2)⟩
    simp [hs, ht, hnext, hprev, hnone (subset_append_left before _),
      hnone (fun v hv => mem_append_right before (mem_cons_of_mem _ hv))]
  · have hmx : m ≠ x := fun heq => hx (heq ▸ hm')
    rw [(h.lists hm').1, (h.lists hm').2, hold]
    simp only [heads_append, Strand.tails_append, heads_cons, Strand.tails_cons, if_neg hmx]
    constructor
    · by_cases hp : m = p.1
      · simp [hp, hfrom]
      · simp [hp]
    · by_cases hq : m = q.1
      · simp [hq, hto]
      · simp [hq]

end Carries

/-! ### Taking a node out -/

/-- The routine with the node `n`, which stands between `p` and `s`, taken out. -/
def bypassed (r : Routine) (n p s : NodeId) : Routine :=
  ((r.alter s fun d => { d with prev := Edit.substitute d.prev n (some p) }).alter p
    fun d => { d with next := Edit.substitute d.next n (some s) }).alter n
      ({ · with prev := [], next := [] })

section Bypassed

variable {p s : NodeId}

@[simp] theorem bypassed_entry : (r.bypassed n p s).entry = r.entry := rfl

@[simp] theorem size_bypassed : (r.bypassed n p s).nodes.size = r.nodes.size := by
  simp [bypassed]

@[simp] theorem label_bypassed : (r.bypassed n p s).label m = r.label m := by
  unfold bypassed
  rw [label_alter_of_eq, label_alter_of_eq, label_alter_of_eq] <;> exact fun _ => rfl

theorem nextOf_bypassed (hn : n < r.nodes.size) (hp : p < r.nodes.size) :
    (r.bypassed n p s).nextOf m =
      if m = n then [] else if m = p then (r.nextOf m).map fun k => if k = n then s else k
      else r.nextOf m := by
  unfold bypassed
  rw [nextOf_alter (g := fun _ => []) (fun _ => rfl) (by simpa using hn),
    nextOf_alter (g := fun l => substitute l n (some s)) (fun _ => rfl) (by simpa using hp),
    nextOf_alter_of_eq (by intro d; rfl)]
  rfl

theorem prevOf_bypassed (hn : n < r.nodes.size) (hs : s < r.nodes.size) :
    (r.bypassed n p s).prevOf m =
      if m = n then [] else if m = s then (r.prevOf m).map fun k => if k = n then p else k
      else r.prevOf m := by
  unfold bypassed
  rw [prevOf_alter (g := fun _ => []) (fun _ => rfl) (by simpa using hn),
    prevOf_alter_of_eq (by intro d; rfl),
    prevOf_alter (g := fun l => substitute l n (some p)) (fun _ => rfl) hs]
  rfl

end Bypassed

namespace Carries

/-- The edges of a part are those the whole carries there. -/
theorem part (h : r.Carries exit (C.plug t)) :
    r.Lays (C.source (r.entry, 0)) t (C.target (exit, 0)) := by
  obtain ⟨before, behind, hwires⟩ := C.wires_plug (r.entry, 0) (exit, 0)
  exact ⟨fun w hw => h.joined w (by simp [hwires, hw]), ((C.sized_plug_iff _ _ t).mp h.sized).2⟩

/-- The nodes of a part are different nodes of the arena. -/
theorem part_nodes (h : r.Carries exit (C.plug t)) :
    t.nodes.Nodup ∧ ∀ m ∈ t.nodes, m < r.nodes.size := by
  obtain ⟨before, behind, hnodes⟩ := C.nodes_plug
  constructor
  · have hnodup := h.nodup_nodes
    rw [hnodes t] at hnodup
    exact (nodup_append.mp (nodup_append.mp hnodup).1).2.1
  · exact fun m hm => h.lt_size (by simp [hnodes t, hm])

/-- A node taken out of a strand leaves the strand without it. -/
theorem bypassed (h : r.Carries exit (C.plug (.leaf n t))) :
    (r.bypassed n (C.source (r.entry, 0)).1 (t.entryPort (C.target (exit, 0))).1).Carries exit
      (C.plug t) := by
  obtain ⟨before, behind, hnew, hold⟩ := C.wires_plug_leaf (r.entry, 0) (exit, 0) n t
  generalize C.source (r.entry, 0) = p, t.entryPort (C.target (exit, 0)) = q at hnew hold ⊢
  have hperm := C.perm_stream_leaf r.entry exit n t
  obtain ⟨hnmem, hnodup⟩ := nodup_cons.mp (hperm.nodup_iff.mp h.nodup)
  have hin := h.joined (p, (n, 0)) (by simp [hold])
  have hout := h.joined ((n, 0), q) (by simp [hold])
  refine carries_iff.mpr ⟨hnodup, fun m hm => ?_⟩
  have hmn : m ≠ n := fun heq => hnmem (heq ▸ hm)
  have hlists := h.lists (hperm.mem_iff.mpr (mem_cons_of_mem _ hm))
  -- the other wires are not at `n`
  have hfar : ∀ v ∈ before ++ (p, q) :: behind, v.1.1 ≠ n ∧ v.2.1 ≠ n := fun v hv => by
    obtain ⟨hs, ht⟩ := ends_mem (hnew ▸ hv)
    exact ⟨fun heq => hnmem (heq ▸ hs), fun heq => hnmem (heq ▸ ht)⟩
  have hsame {ws : List Wire} (hws : ws ⊆ before ++ (p, q) :: behind) :
      (Strand.heads ws m).map (fun k => if k = n then q.1 else k) = Strand.heads ws m ∧
        (Strand.tails ws m).map (fun k => if k = n then p.1 else k) = Strand.tails ws m := by
    simp only [Strand.heads, Strand.tails, List.map_map]
    exact ⟨map_congr_left fun v hv => if_neg (hfar v (hws (mem_wiresFrom.mp hv).1)).2,
      map_congr_left fun v hv => if_neg (hfar v (hws (mem_wiresTo.mp hv).1)).1⟩
  obtain ⟨hfrom, hto⟩ := hsame (subset_append_left before _)
  obtain ⟨hfrom', hto'⟩ := hsame (fun v hv => mem_append_right before (mem_cons_of_mem _ hv))
  rw [Lists, nextOf_bypassed (lt_of_next hout.1) (lt_of_next hin.1),
    prevOf_bypassed (lt_of_next hout.1) (lt_of_prev hout.2),
    if_neg hmn, if_neg hmn, hlists.1, hlists.2, hold, bypassed_entry, hnew]
  simp only [heads_append, Strand.tails_append, heads_cons, Strand.tails_cons, if_neg hmn]
  constructor
  · by_cases hp : m = p.1
    · subst hp
      simp [hfrom, hfrom']
    · simp [hp]
  · by_cases hq : m = q.1
    · subst hq
      simp [hto, hto']
    · simp [hq]

end Carries

end Routine

/-! ### The edits -/

namespace Edit

open Routine

variable {r : Routine} {exit : NodeId} {t : Strand} {C : Strand.Context} {n x : NodeId}
  {post : PUnit → Routine → Prop} {w : Wire}

theorem yields_splice (hs : w.1.1 < r.nodes.size)
    (ht : w.2.1 < r.nodes.size) (hx : x < r.nodes.size) :
    Yields (splice w.1.1 w.1.2 w.2.1 w.2.2 x) r post ↔ post () (r.spliced w x) := by
  simp [splice, Routine.spliced, hs, ht, hx]

/-- Putting a node in front of a slot, seen from the target. -/
theorem yields_insertBeforeSlot (h : r.Matched w) (hx : x < r.nodes.size) :
    Yields (Edit.insertBeforeSlot w.2.1 w.2.2 x) r post ↔ post () (r.spliced w x) := by
  obtain ⟨hnext, hprev⟩ := h.joined
  have hs := lt_of_next hnext
  have ht := lt_of_prev hprev
  have hslot := h.nthSlot_next
  unfold Edit.insertBeforeSlot
  simp only [yields_bind, yields_node, Array.getElem?_eq_getElem ht, exists_some_eq]
  simp only [nextOf_eq (Array.getElem?_eq_getElem hs), prevOf_eq (Array.getElem?_eq_getElem ht)]
    at hprev hslot
  simp only [hprev]
  simp only [yields_bind, yields_node, Array.getElem?_eq_getElem hs, exists_some_eq, hslot]
  exact yields_splice hs ht hx

/-- Putting a node behind a slot, seen from the source. -/
theorem yields_insertAfterSlot (h : r.Matched w) (hx : x < r.nodes.size) :
    Yields (Edit.insertAfterSlot w.1.1 w.1.2 x) r post ↔ post () (r.spliced w x) := by
  obtain ⟨hnext, hprev⟩ := h.joined
  have hs := lt_of_next hnext
  have ht := lt_of_prev hprev
  have hslot := h.nthSlot_prev
  unfold Edit.insertAfterSlot
  simp only [yields_bind, yields_node, Array.getElem?_eq_getElem hs, exists_some_eq]
  simp only [nextOf_eq (Array.getElem?_eq_getElem hs), prevOf_eq (Array.getElem?_eq_getElem ht)]
    at hnext hslot
  simp only [hnext]
  simp only [yields_bind, yields_node, Array.getElem?_eq_getElem ht, exists_some_eq, hslot]
  exact yields_splice hs ht hx

/-- Taking out a node with one edge on each side. -/
theorem yields_removeNode_single {p s : NodeId} (hnext : r.nextOf n = [s])
    (hprev : r.prevOf n = [p]) (hs : s < r.nodes.size) (hp : p < r.nodes.size) :
    Yields (Edit.removeNode n) r post ↔ post () (r.bypassed n p s) := by
  have hn : n < r.nodes.size := lt_of_next (i := 0) (by rw [hnext]; rfl)
  rw [nextOf_eq (Array.getElem?_eq_getElem hn)] at hnext
  rw [prevOf_eq (Array.getElem?_eq_getElem hn)] at hprev
  unfold Edit.removeNode
  simp only [yields_bind, yields_node, Array.getElem?_eq_getElem hn, exists_some_eq, hnext, hprev,
    Node.firstNext, Node.firstPrev, head?_cons]
  simp [hp, hs, hn, Routine.bypassed]

/-- Taking a node out of the stream. -/
theorem yields_removeNode (h : r.Carries exit (C.plug (.leaf n t))) :
    Yields (Edit.removeNode n) r post ↔
      post () (r.bypassed n (C.source (r.entry, 0)).1 (t.entryPort (C.target (exit, 0))).1) :=
  yields_removeNode_single h.part.nextOf_leaf h.part.prevOf_leaf
    (lt_of_prev h.part.leaf_rest.entry.2) (lt_of_next h.part.entry.1)

end Edit

end CoroutineIR
