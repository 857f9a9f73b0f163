import CoroutineIR.Node
import Mathlib.Data.List.Nodup

/-!
# Strands

A strand is a stretch of the instruction stream between two neighbouring nodes, read as a tree:
single nodes, regions with one arm, and conditionals with two. Laid out in the arena it becomes a
set of wires, each from a slot in the successor list of one node to a slot in the predecessor list
of another. The wires of a strand only depend on the slot it leaves from and the slot it arrives at.
-/

namespace CoroutineIR

open List

/-- A slot of a node: one of its successors where an edge leaves, one of its predecessors where an
edge arrives. -/
abbrev Port := NodeId × Nat

/-- An edge with its slots at both ends. -/
abbrev Wire := Port × Port

/-- A stretch of the stream as a tree. -/
inductive Strand where
  | done
  | leaf (n : NodeId) (rest : Strand)
  /-- A region with one arm: a block, a loop or a conditional without second arm. -/
  | region (opener closer : NodeId) (body rest : Strand)
  /-- A conditional with two arms. -/
  | fork (opener closer : NodeId) (first second rest : Strand)
deriving DecidableEq, Repr, Inhabited

namespace Strand

variable {src dst : Port} {t rest : Strand} {w : Wire} {o c n : NodeId}
    {ins outs : NodeId → Nat}

/-- The nodes in the order they are laid out. -/
def nodes : Strand → List NodeId
  | done => []
  | leaf n rest => n :: rest.nodes
  | region o c body rest => o :: body.nodes ++ c :: rest.nodes
  | fork o c first second rest => o :: first.nodes ++ second.nodes ++ c :: rest.nodes

/-- One strand behind another. -/
def append : Strand → Strand → Strand
  | done, u => u
  | leaf n rest, u => leaf n (rest.append u)
  | region o c body rest, u => region o c body (rest.append u)
  | fork o c first second rest, u => fork o c first second (rest.append u)

/-- The wires of a strand that leaves from `src` and arrives at `dst`. -/
def wires (src : Port) : Strand → Port → List Wire
  | done, dst => [(src, dst)]
  | leaf n rest, dst => (src, (n, 0)) :: rest.wires (n, 0) dst
  | region o c body rest, dst =>
    (src, (o, 0)) :: body.wires (o, 0) (c, 0) ++ rest.wires (c, 0) dst
  | fork o c first second rest, dst =>
    (src, (o, 0)) :: first.wires (o, 0) (c, 0) ++ second.wires (o, 1) (c, 1) ++
      rest.wires (c, 0) dst

attribute [simp] nodes append wires

/-- The slot at which a strand is entered. -/
def entryPort (dst : Port) : Strand → Port
  | done => dst
  | leaf n _ | region n _ _ _ | fork n _ _ _ _ => (n, 0)

/-- The slot from which a strand is left. -/
def exitPort (src : Port) : Strand → Port
  | done => src
  | leaf n rest => rest.exitPort (n, 0)
  | region _ c _ rest | fork _ c _ _ rest => rest.exitPort (c, 0)

/-- The wires up to the slot from which the strand is left. -/
def openWires (src : Port) : Strand → List Wire
  | done => []
  | leaf n rest => (src, (n, 0)) :: rest.openWires (n, 0)
  | region o c body rest =>
    (src, (o, 0)) :: body.wires (o, 0) (c, 0) ++ rest.openWires (c, 0)
  | fork o c first second rest =>
    (src, (o, 0)) :: first.wires (o, 0) (c, 0) ++ second.wires (o, 1) (c, 1) ++
      rest.openWires (c, 0)

@[simp] theorem entryPort_done (dst : Port) : done.entryPort dst = dst := rfl

@[simp] theorem entryPort_leaf (dst : Port) (n : NodeId) (rest : Strand) :
    (leaf n rest).entryPort dst = (n, 0) := rfl

@[simp] theorem entryPort_region (dst : Port) (o c : NodeId) (body rest : Strand) :
    (region o c body rest).entryPort dst = (o, 0) := rfl

@[simp] theorem entryPort_fork (dst : Port) (o c : NodeId) (first second rest : Strand) :
    (fork o c first second rest).entryPort dst = (o, 0) := rfl

@[simp] theorem append_done (t : Strand) : t.append done = t := by
  induction t with
  | done => rfl
  | leaf n rest ih | region o c body rest _ ih | fork o c first second rest _ _ ih =>
    simp only [append, ih]

theorem append_assoc (t u v : Strand) : (t.append u).append v = t.append (u.append v) := by
  induction t with
  | done => rfl
  | leaf n rest ih | region o c body rest _ ih | fork o c first second rest _ _ ih =>
    simp only [append, ih]

@[simp] theorem nodes_append (t u : Strand) : (t.append u).nodes = t.nodes ++ u.nodes := by
  induction t with
  | done => rfl
  | leaf n rest ih | region o c body rest _ ih | fork o c first second rest _ _ ih => simp [ih]

/-! ### The nodes of a strand and those of its parts -/

section Parts

variable {m : NodeId} {body first second : Strand} {ns : List NodeId} {p : NodeId → Prop}

theorem mem_region : m ∈ (region o c body rest).nodes ↔
    m = o ∨ m ∈ body.nodes ∨ m = c ∨ m ∈ rest.nodes := by
  simp only [nodes, cons_append, mem_cons, mem_append]

theorem mem_fork : m ∈ (fork o c first second rest).nodes ↔
    m = o ∨ m ∈ first.nodes ∨ m ∈ second.nodes ∨ m = c ∨ m ∈ rest.nodes := by
  simp only [nodes, cons_append, List.append_assoc, mem_cons, mem_append]

theorem forall_leaf : (∀ m ∈ (leaf n rest).nodes, p m) ↔ p n ∧ ∀ m ∈ rest.nodes, p m := by
  simp only [nodes, forall_mem_cons]

theorem forall_region : (∀ m ∈ (region o c body rest).nodes, p m) ↔
    p o ∧ (∀ m ∈ body.nodes, p m) ∧ p c ∧ ∀ m ∈ rest.nodes, p m := by
  simp only [nodes, cons_append, forall_mem_cons, forall_mem_append]

theorem forall_fork : (∀ m ∈ (fork o c first second rest).nodes, p m) ↔
    p o ∧ (∀ m ∈ first.nodes, p m) ∧ (∀ m ∈ second.nodes, p m) ∧ p c ∧ ∀ m ∈ rest.nodes, p m := by
  simp only [nodes, cons_append, List.append_assoc, forall_mem_cons, forall_mem_append]

theorem leaf_subset : (leaf n rest).nodes ⊆ ns ↔ n ∈ ns ∧ rest.nodes ⊆ ns := by
  simp only [nodes, cons_subset]

theorem region_subset : (region o c body rest).nodes ⊆ ns ↔
    o ∈ ns ∧ body.nodes ⊆ ns ∧ c ∈ ns ∧ rest.nodes ⊆ ns := by
  simp only [nodes, cons_append, cons_subset, append_subset]

theorem fork_subset : (fork o c first second rest).nodes ⊆ ns ↔
    o ∈ ns ∧ first.nodes ⊆ ns ∧ second.nodes ⊆ ns ∧ c ∈ ns ∧ rest.nodes ⊆ ns := by
  simp only [nodes, cons_append, List.append_assoc, cons_subset, append_subset]

end Parts

theorem wires_append (src : Port) (t u : Strand) (dst : Port) :
    (t.append u).wires src dst = t.openWires src ++ u.wires (t.exitPort src) dst := by
  induction t generalizing src with
  | done => rfl
  | leaf n rest ih | region o c body rest _ ih | fork o c first second rest _ _ ih =>
    simp [openWires, exitPort, ih]

theorem wires_eq (src : Port) (t : Strand) (dst : Port) :
    t.wires src dst = t.openWires src ++ [(t.exitPort src, dst)] := by
  simpa using wires_append src t done dst

theorem openWires_append (src : Port) (t u : Strand) :
    (t.append u).openWires src = t.openWires src ++ u.openWires (t.exitPort src) := by
  induction t generalizing src with
  | done => rfl
  | leaf n rest ih | region o c body rest _ ih | fork o c first second rest _ _ ih =>
    simp [openWires, exitPort, ih]

theorem entryPort_append (dst : Port) (t u : Strand) :
    (t.append u).entryPort dst = t.entryPort (u.entryPort dst) := by
  cases t <;> rfl

theorem exitPort_append (src : Port) (t u : Strand) :
    (t.append u).exitPort src = u.exitPort (t.exitPort src) := by
  induction t generalizing src with
  | done => rfl
  | leaf n rest ih | region o c body rest _ ih | fork o c first second rest _ _ ih =>
    simp only [append, exitPort, ih]

/-- A strand is entered through its first wire, and only that one depends on where it leaves from.
-/
theorem wires_eq_cons (t : Strand) (dst : Port) :
    ∃ more, ∀ src, t.wires src dst = (src, t.entryPort dst) :: more := by
  cases t with
  | done => exact ⟨[], fun _ => rfl⟩
  | leaf n rest => exact ⟨_, fun _ => rfl⟩
  | region o c body rest => exact ⟨_, fun _ => rfl⟩
  | fork o c first second rest => exact ⟨_, fun _ => rfl⟩

theorem entry_mem_wires (src : Port) (t : Strand) (dst : Port) :
    (src, t.entryPort dst) ∈ t.wires src dst := by
  obtain ⟨more, h⟩ := wires_eq_cons t dst
  simp [h]

theorem exit_mem_wires (src : Port) (t : Strand) (dst : Port) :
    (t.exitPort src, dst) ∈ t.wires src dst := by
  simp [wires_eq]

/-- A strand is entered at one of its own nodes, unless it has none. -/
theorem entryPort_cases (dst : Port) (t : Strand) :
    (∃ n ∈ t.nodes, t.entryPort dst = (n, 0)) ∨ t = done ∧ t.entryPort dst = dst := by
  cases t with
  | done => exact Or.inr ⟨rfl, rfl⟩
  | leaf n rest => exact Or.inl ⟨n, by simp, rfl⟩
  | region o c body rest | fork o c first second rest => exact Or.inl ⟨o, by simp, rfl⟩

/-- A strand is left from one of its own nodes, unless it has none. -/
theorem exitPort_cases (src : Port) (t : Strand) :
    (∃ n ∈ t.nodes, t.exitPort src = (n, 0)) ∨ t = done ∧ t.exitPort src = src := by
  induction t generalizing src with
  | done => exact Or.inr ⟨rfl, rfl⟩
  | leaf c rest ih | region o c body rest _ ih | fork o c first second rest _ _ ih =>
    left
    rcases ih (c, 0) with ⟨m, hm, h⟩ | ⟨_, h⟩
    · exact ⟨m, by simp [hm], h⟩
    · exact ⟨c, by simp, h⟩

/-- The slots of the nodes of a strand from which wires leave, or at which they arrive, in the order
of the wires. -/
def ports (leaving : Bool) : Strand → List Port
  | done => []
  | leaf n rest => (n, 0) :: rest.ports leaving
  | region o c body rest => (o, 0) :: body.ports leaving ++ (c, 0) :: rest.ports leaving
  | fork o c first second rest =>
    (o, 0) :: first.ports leaving ++ (bif leaving then (o, 1) else (c, 0)) ::
      second.ports leaving ++ (c, bif leaving then 0 else 1) :: rest.ports leaving

/-- The wires start at the ports that leave. -/
theorem map_fst_wires (src : Port) (t : Strand) (dst : Port) :
    (t.wires src dst).map Prod.fst = src :: t.ports true := by
  induction t generalizing src dst with
  | done => rfl
  | leaf n rest ih => simp [ports, ih]
  | region o c body rest ihb ihr => simp [ports, ihb, ihr]
  | fork o c first second rest iha ihb ihr => simp [ports, iha, ihb, ihr]

/-- The wires end at the ports that are entered. -/
theorem map_snd_wires (src : Port) (t : Strand) (dst : Port) :
    (t.wires src dst).map Prod.snd = t.ports false ++ [dst] := by
  induction t generalizing src dst with
  | done => rfl
  | leaf n rest ih => simp [ports, ih]
  | region o c body rest ihb ihr => simp [ports, ihb, ihr]
  | fork o c first second rest iha ihb ihr => simp [ports, iha, ihb, ihr]

theorem mem_of_ports {p : Port} {leaving : Bool} (h : p ∈ t.ports leaving) : p.1 ∈ t.nodes := by
  induction t with
  | done => cases h
  | leaf n rest ih =>
    rcases mem_cons.mp h with rfl | h
    · simp
    · simp [ih h]
  | region o c body rest ihb ihr =>
    simp only [ports, cons_append, mem_cons, mem_append] at h
    rcases h with rfl | h | rfl | h <;> simp_all
  | fork o c first second rest iha ihb ihr =>
    simp only [ports, cons_append, List.append_assoc, mem_cons, mem_append] at h
    rcases h with rfl | h | rfl | h | rfl | h <;> cases leaving <;> simp_all

/-- A wire leaves from the slot the strand starts at or from one of the strand's own nodes. -/
theorem source_of_mem (h : w ∈ t.wires src dst) :
    w.1 = src ∨ w.1.1 ∈ t.nodes := by
  have hport := List.mem_map_of_mem (f := Prod.fst) h
  rw [map_fst_wires, mem_cons] at hport
  exact hport.imp_right mem_of_ports

/-- A wire arrives at the slot the strand leads to or at one of the strand's own nodes. -/
theorem target_of_mem (h : w ∈ t.wires src dst) :
    w.2 = dst ∨ w.2.1 ∈ t.nodes := by
  have hport := List.mem_map_of_mem (f := Prod.snd) h
  rw [map_snd_wires, mem_append, mem_singleton, or_comm] at hport
  exact hport.imp_right mem_of_ports

/-- The parts of a region that stands in a strand without repetition. -/
theorem nodup_region {body : Strand} (h : (region o c body rest).nodes.Nodup) :
    body.nodes.Nodup ∧ rest.nodes.Nodup ∧ o ≠ c ∧ o ∉ body.nodes ∧ o ∉ rest.nodes ∧
      c ∉ body.nodes ∧ c ∉ rest.nodes ∧ ∀ n ∈ body.nodes, n ∉ rest.nodes := by
  simp only [nodes, cons_append, nodup_cons, nodup_append, mem_append, mem_cons, not_or] at h
  grind

/-- The parts of a two-armed conditional that stands in a strand without repetition. -/
theorem nodup_fork {first second : Strand} (h : (fork o c first second rest).nodes.Nodup) :
    first.nodes.Nodup ∧ second.nodes.Nodup ∧ rest.nodes.Nodup ∧ o ≠ c ∧ o ∉ first.nodes ∧
      o ∉ second.nodes ∧ o ∉ rest.nodes ∧ c ∉ first.nodes ∧ c ∉ second.nodes ∧ c ∉ rest.nodes ∧
      (∀ n ∈ first.nodes, n ∉ second.nodes ∧ n ∉ rest.nodes) ∧
      ∀ n ∈ second.nodes, n ∉ rest.nodes := by
  simp only [nodes, cons_append, List.append_assoc, nodup_cons, nodup_append,
    mem_append, mem_cons, not_or] at h
  grind

/-- The numbers of predecessors and successors that the nodes of a strand have to have. -/
def Sized (ins outs : NodeId → Nat) : Strand → Prop
  | done => True
  | leaf n rest => (ins n = 1 ∧ outs n = 1) ∧ rest.Sized ins outs
  | region o c body rest =>
    (ins o = 1 ∧ outs o = 1) ∧ (ins c = 1 ∧ outs c = 1) ∧ body.Sized ins outs ∧
      rest.Sized ins outs
  | fork o c first second rest =>
    (ins o = 1 ∧ outs o = 2) ∧ (ins c = 2 ∧ outs c = 1) ∧ first.Sized ins outs ∧
      second.Sized ins outs ∧ rest.Sized ins outs

/-- The numbers only matter at the strand's own nodes. -/
theorem Sized.congr {ins' outs' : NodeId → Nat} (h : t.Sized ins outs)
    (heq : ∀ n ∈ t.nodes, ins' n = ins n ∧ outs' n = outs n) : t.Sized ins' outs' := by
  induction t with
  | done => trivial
  | leaf n rest ih =>
    simp only [nodes, mem_cons, forall_eq_or_imp] at heq
    exact ⟨by rw [heq.1.1, heq.1.2]; exact h.1, ih h.2 heq.2⟩
  | region o c body rest ihb ihr =>
    obtain ⟨ho, hc, hb, hr⟩ := h
    obtain ⟨heo, heb, hec, her⟩ := forall_region.mp heq
    exact ⟨by rw [heo.1, heo.2]; exact ho, by rw [hec.1, hec.2]; exact hc, ihb hb heb, ihr hr her⟩
  | fork o c first second rest iha ihb ihr =>
    obtain ⟨ho, hc, ha, hb, hr⟩ := h
    obtain ⟨heo, hea, heb, hec, her⟩ := forall_fork.mp heq
    exact ⟨by rw [heo.1, heo.2]; exact ho, by rw [hec.1, hec.2]; exact hc, iha ha hea,
      ihb hb heb, ihr hr her⟩

theorem sized_append {u : Strand} : (t.append u).Sized ins outs ↔
    t.Sized ins outs ∧ u.Sized ins outs := by
  induction t with
  | done => simp [Sized]
  | leaf n rest ih | region o c body rest _ ih | fork o c first second rest _ _ ih =>
    simp only [append, Sized, ih, and_assoc]

/-! ### Slots -/

/-- The slots of a node in a list of slots, in their order. -/
def slotsAt (ps : List Port) (n : NodeId) : List Nat := (ps.filter fun p => p.1 = n).map Prod.snd

@[simp] theorem slotsAt_nil (n : NodeId) : slotsAt [] n = [] := rfl

theorem slotsAt_cons (p : Port) (ps : List Port) (n : NodeId) :
    slotsAt (p :: ps) n = (if n = p.1 then [p.2] else []) ++ slotsAt ps n := by
  by_cases h : n = p.1
  · simp [slotsAt, h]
  · simp [slotsAt, h, Ne.symm h]

theorem slotsAt_append (ps qs : List Port) (n : NodeId) :
    slotsAt (ps ++ qs) n = slotsAt ps n ++ slotsAt qs n := by
  simp [slotsAt]

theorem slotsAt_ports_eq_nil {leaving : Bool} (h : n ∉ t.nodes) :
    slotsAt (t.ports leaving) n = [] := by
  rw [slotsAt, filter_eq_nil_iff.mpr, map_nil]
  intro p hp heq
  exact h (of_decide_eq_true heq ▸ mem_of_ports hp)

/-- The slots of the nodes of a strand are laid out in their order, as many as its wires ask for. -/
theorem sized_of_slots {f : Bool → NodeId → List Nat} (hnodup : t.nodes.Nodup)
    (h : ∀ n ∈ t.nodes, ∀ leaving, f leaving n = slotsAt (t.ports leaving) n) :
    t.Sized (fun n => (f false n).length) (fun n => (f true n).length) ∧
      ∀ n ∈ t.nodes, ∀ leaving, f leaving n = List.range (f leaving n).length := by
  induction t with
  | done => exact ⟨trivial, nofun⟩
  | leaf m rest ih =>
    obtain ⟨hm, hrest⟩ := nodup_cons.mp hnodup
    obtain ⟨hself, hothers⟩ := forall_leaf.mp h
    simp only [ports, slotsAt_cons, if_true, slotsAt_ports_eq_nil hm, append_nil] at hself
    obtain ⟨hsized, hrange⟩ := ih hrest fun n hn leaving => by
      have hne : n ≠ m := fun heq => hm (heq ▸ hn)
      simp [hothers n hn, ports, slotsAt_cons, hne]
    exact ⟨⟨by simp [hself], hsized⟩, forall_leaf.mpr ⟨by simp [hself], hrange⟩⟩
  | region o c body rest ihb ihr =>
    obtain ⟨hb, hr, hoc, hob, hor, hcb, hcr, hbr⟩ := nodup_region hnodup
    obtain ⟨ho, hbody, hc, hrest⟩ := forall_region.mp h
    simp only [ports, cons_append, slotsAt_cons, slotsAt_append] at ho hc hbody hrest
    have ho' : ∀ leaving, f leaving o = [0] := fun leaving => by
      simp [ho, hoc, slotsAt_ports_eq_nil hob, slotsAt_ports_eq_nil hor]
    have hc' : ∀ leaving, f leaving c = [0] := fun leaving => by
      simp [hc, Ne.symm hoc, slotsAt_ports_eq_nil hcb, slotsAt_ports_eq_nil hcr]
    obtain ⟨hsizedb, hrangeb⟩ := ihb hb fun n hn leaving => by
      have hno : n ≠ o := fun heq => hob (heq ▸ hn)
      have hnc : n ≠ c := fun heq => hcb (heq ▸ hn)
      simp [hbody n hn, hno, hnc, slotsAt_ports_eq_nil (hbr n hn)]
    obtain ⟨hsizedr, hranger⟩ := ihr hr fun n hn leaving => by
      have hno : n ≠ o := fun heq => hor (heq ▸ hn)
      have hnc : n ≠ c := fun heq => hcr (heq ▸ hn)
      have hnb : n ∉ body.nodes := fun hmem => hbr n hmem hn
      simp [hrest n hn, hno, hnc, slotsAt_ports_eq_nil hnb]
    refine ⟨⟨by simp [ho'], by simp [hc'], hsizedb, hsizedr⟩,
      forall_region.mpr ⟨?_, hrangeb, ?_, hranger⟩⟩
    · simp [ho']
    · simp [hc']
  | fork o c first second rest iha ihb ihr =>
    obtain ⟨ha, hb, hr, hoc, hoa, hob, hor, hca, hcb, hcr, hab, hbr⟩ := nodup_fork hnodup
    obtain ⟨ho, hfirst, hsecond, hc, hrest⟩ := forall_fork.mp h
    simp only [ports, cons_append, slotsAt_cons, slotsAt_append] at ho hc hfirst hsecond hrest
    have ho' : ∀ leaving, f leaving o = List.range (bif leaving then 2 else 1) := fun leaving => by
      cases leaving <;>
        simp [ho, hoc, slotsAt_ports_eq_nil hoa, slotsAt_ports_eq_nil hob,
        slotsAt_ports_eq_nil hor, range_succ]
    have hc' : ∀ leaving, f leaving c = List.range (bif leaving then 1 else 2) := fun leaving => by
      cases leaving <;>
        simp [hc, Ne.symm hoc, slotsAt_ports_eq_nil hca, slotsAt_ports_eq_nil hcb,
        slotsAt_ports_eq_nil hcr, range_succ]
    obtain ⟨hsizeda, hrangea⟩ := iha ha fun n hn leaving => by
      have hno : n ≠ o := fun heq => hoa (heq ▸ hn)
      have hnc : n ≠ c := fun heq => hca (heq ▸ hn)
      obtain ⟨hnb, hnr⟩ := hab n hn
      cases leaving <;>
        simp [hfirst n hn, hno, hnc, slotsAt_ports_eq_nil hnb, slotsAt_ports_eq_nil hnr]
    obtain ⟨hsizedb, hrangeb⟩ := ihb hb fun n hn leaving => by
      have hno : n ≠ o := fun heq => hob (heq ▸ hn)
      have hnc : n ≠ c := fun heq => hcb (heq ▸ hn)
      have hna : n ∉ first.nodes := fun hmem => (hab n hmem).1 hn
      cases leaving <;>
        simp [hsecond n hn, hno, hnc, slotsAt_ports_eq_nil hna, slotsAt_ports_eq_nil (hbr n hn)]
    obtain ⟨hsizedr, hranger⟩ := ihr hr fun n hn leaving => by
      have hno : n ≠ o := fun heq => hor (heq ▸ hn)
      have hnc : n ≠ c := fun heq => hcr (heq ▸ hn)
      have hna : n ∉ first.nodes := fun hmem => (hab n hmem).2 hn
      have hnb : n ∉ second.nodes := fun hmem => hbr n hmem hn
      cases leaving <;>
        simp [hrest n hn, hno, hnc, slotsAt_ports_eq_nil hna, slotsAt_ports_eq_nil hnb]
    refine ⟨⟨by simp [ho'], by simp [hc'], hsizeda, hsizedb, hsizedr⟩,
      forall_fork.mpr ⟨?_, hrangea, hrangeb, ?_, hranger⟩⟩
    · simp [ho']
    · simp [hc']

/-- The wires that leave a node. -/
def wiresFrom (ws : List Wire) (n : NodeId) : List Wire := ws.filter fun w => w.1.1 = n

/-- The wires that arrive at a node. -/
def wiresTo (ws : List Wire) (n : NodeId) : List Wire := ws.filter fun w => w.2.1 = n

/-- The wires of a stream take the slots of each node in their order, as many as the node has to
have. -/
structure Slotted (ws : List Wire) (entry exit : NodeId) (t : Strand) : Prop where
  sized : t.Sized (fun n => (wiresTo ws n).length) fun n => (wiresFrom ws n).length
  from_eq : ∀ n ∈ entry :: exit :: t.nodes, (wiresFrom ws n).map (fun w => w.1.2) =
    List.range (wiresFrom ws n).length
  to_eq : ∀ n ∈ entry :: exit :: t.nodes, (wiresTo ws n).map (fun w => w.2.2) =
    List.range (wiresTo ws n).length
  entry_degrees : (wiresTo ws entry).length = 0 ∧ (wiresFrom ws entry).length = 1
  exit_degrees : (wiresTo ws exit).length = 1 ∧ (wiresFrom ws exit).length = 0

/-- The slots at a node number its wires in their order. -/
theorem slotted_wires {entry exit : NodeId} (hnodup : (entry :: exit :: t.nodes).Nodup) :
    Slotted (t.wires (entry, 0) (exit, 0)) entry exit t := by
  set ws := t.wires (entry, 0) (exit, 0) with hws
  let f (leaving : Bool) : NodeId → List Nat :=
    slotsAt (bif leaving then ws.map Prod.fst else ws.map Prod.snd)
  have hfrom (n : NodeId) : (wiresFrom ws n).map (fun w => w.1.2) = f true n := by
    simp [f, wiresFrom, slotsAt, List.filter_map, Function.comp_def]
  have hto (n : NodeId) : (wiresTo ws n).map (fun w => w.2.2) = f false n := by
    simp [f, wiresTo, slotsAt, List.filter_map, Function.comp_def]
  simp only [nodup_cons, mem_cons, not_or] at hnodup
  obtain ⟨⟨hends, hentry⟩, hexit, hnodes⟩ := hnodup
  have hslots : ∀ n ∈ t.nodes, ∀ leaving, f leaving n = slotsAt (t.ports leaving) n := by
    intro n hn leaving
    have hne : n ≠ entry := fun heq => hentry (heq ▸ hn)
    have hne' : n ≠ exit := fun heq => hexit (heq ▸ hn)
    cases leaving <;>
      simp [f, ws, map_fst_wires, map_snd_wires, slotsAt_cons, slotsAt_append, hne, hne']
  have hfirst : f true entry = [0] ∧ f false entry = [] := by
    simp [f, ws, map_fst_wires, map_snd_wires, slotsAt_cons, slotsAt_append,
      slotsAt_ports_eq_nil hentry, hends]
  have hlast : f true exit = [] ∧ f false exit = [0] := by
    simp [f, ws, map_fst_wires, map_snd_wires, slotsAt_cons, slotsAt_append,
      slotsAt_ports_eq_nil hexit, Ne.symm hends]
  obtain ⟨hsized, hrange⟩ := sized_of_slots hnodes hslots
  have hall :
      ∀ n ∈ entry :: exit :: t.nodes, ∀ leaving, f leaving n = List.range (f leaving n).length :=
    forall_mem_cons.mpr ⟨fun leaving => by cases leaving <;> simp [hfirst],
      forall_mem_cons.mpr ⟨fun leaving => by cases leaving <;> simp [hlast], hrange⟩⟩
  have hout (n : NodeId) : (wiresFrom ws n).length = (f true n).length := by
    rw [← hfrom, length_map]
  have hin (n : NodeId) : (wiresTo ws n).length = (f false n).length := by rw [← hto, length_map]
  refine ⟨hsized.congr fun n _ => ⟨hin n, hout n⟩, fun n hn => ?_, fun n hn => ?_, ?_, ?_⟩
  · rw [hfrom, hout]
    exact hall n hn true
  · rw [hto, hin]
    exact hall n hn false
  · simp [hin, hout, hfirst]
  · simp [hin, hout, hlast]

/-- One level of what stands around a part of a strand. The part reaches to the end of its arm. -/
inductive Frame where
  /-- The part stands behind another strand. -/
  | behind (t : Strand)
  /-- The part is the only arm of a region. -/
  | body (opener closer : NodeId) (rest : Strand)
  | first (opener closer : NodeId) (second rest : Strand)
  | second (opener closer : NodeId) (first rest : Strand)

namespace Frame

/-- The strand with the part in its place. -/
def fill : Frame → Strand → Strand
  | behind t, u => t.append u
  | body o c rest, u => .region o c u rest
  | first o c b rest, u => .fork o c u b rest
  | second o c a rest, u => .fork o c a u rest

/-- The slot the part leaves from. -/
def source (src : Port) : Frame → Port
  | behind t => t.exitPort src
  | body o _ _ | first o _ _ _ => (o, 0)
  | second o _ _ _ => (o, 1)

/-- The slot the part leads to. -/
def target (dst : Port) : Frame → Port
  | behind _ => dst
  | body _ c _ | first _ c _ _ => (c, 0)
  | second _ c _ _ => (c, 1)

end Frame

/-- What stands around a part of a strand, innermost first. -/
inductive Context where
  | hole
  | inside (f : Frame) (outer : Context)

namespace Context

/-- The strand with the part in its place. -/
def plug : Context → Strand → Strand
  | hole, u => u
  | inside f outer, u => outer.plug (f.fill u)

/-- The slot the part leaves from. -/
def source (src : Port) : Context → Port
  | hole => src
  | inside f outer => f.source (outer.source src)

/-- The slot the part leads to. -/
def target (dst : Port) : Context → Port
  | hole => dst
  | inside f outer => f.target (outer.target dst)

/-- The wires of a part stand together among those of the whole, and the others do not depend on the
part. -/
theorem wires_plug (C : Context) (src dst : Port) : ∃ before behind, ∀ u : Strand,
    (C.plug u).wires src dst = before ++ u.wires (C.source src) (C.target dst) ++ behind := by
  induction C with
  | hole => exact ⟨[], [], fun u => by simp [plug, source, target]⟩
  | inside f C ih =>
    obtain ⟨before, behind, h⟩ := ih
    cases f with
    | behind t =>
      refine ⟨before ++ t.openWires (C.source src), behind, fun u => ?_⟩
      simp [plug, h, Frame.fill, Strand.wires_append, source, target, Frame.source, Frame.target]
    | body o c rest =>
      refine ⟨before ++ [(C.source src, (o, 0))], rest.wires (c, 0) (C.target dst) ++ behind,
        fun u => ?_⟩
      simp [plug, h, Frame.fill, source, target, Frame.source, Frame.target]
    | first o c b rest =>
      refine ⟨before ++ [(C.source src, (o, 0))],
        b.wires (o, 1) (c, 1) ++ rest.wires (c, 0) (C.target dst) ++ behind, fun u => ?_⟩
      simp [plug, h, Frame.fill, source, target, Frame.source, Frame.target]
    | second o c a rest =>
      refine ⟨before ++ (C.source src, (o, 0)) :: a.wires (o, 0) (c, 0),
        rest.wires (c, 0) (C.target dst) ++ behind, fun u => ?_⟩
      simp [plug, h, Frame.fill, source, target, Frame.source, Frame.target]

/-- The nodes of a part stand together among those of the whole, and the others do not depend on the
part. -/
theorem nodes_plug (C : Context) : ∃ before behind, ∀ u : Strand,
    (C.plug u).nodes = before ++ u.nodes ++ behind := by
  induction C with
  | hole => exact ⟨[], [], fun u => by simp [plug]⟩
  | inside f C ih =>
    obtain ⟨before, behind, h⟩ := ih
    cases f with
    | behind t => exact ⟨before ++ t.nodes, behind, fun u => by simp [plug, h, Frame.fill]⟩
    | body o c rest =>
      exact ⟨before ++ [o], c :: rest.nodes ++ behind, fun u => by
        simp [plug, h, Frame.fill]⟩
    | first o c b rest =>
      exact ⟨before ++ [o], b.nodes ++ c :: rest.nodes ++ behind, fun u => by
        simp [plug, h, Frame.fill]⟩
    | second o c a rest =>
      exact ⟨before ++ o :: a.nodes, c :: rest.nodes ++ behind, fun u => by
        simp [plug, h, Frame.fill]⟩

theorem nodes_sublist (C : Context) (u : Strand) : u.nodes.Sublist (C.plug u).nodes := by
  obtain ⟨before, behind, h⟩ := C.nodes_plug
  rw [h u]
  exact (sublist_append_right before _).trans (sublist_append_left _ _)

/-- What a frame and the part in it have to satisfy separately a context and the part do. -/
theorem plug_iff {P : Strand → Prop} (hdone : P .done)
    (hfill : ∀ (f : Frame) u, P (f.fill u) ↔ P (f.fill .done) ∧ P u) (C : Context) (u : Strand) :
    P (C.plug u) ↔ P (C.plug .done) ∧ P u := by
  induction C generalizing u with
  | hole => simp [plug, hdone]
  | inside f C ih => rw [plug, plug, ih (f.fill u), ih (f.fill .done), hfill f u, and_assoc]

/-- Degrees are asked for around a part and in it. -/
theorem sized_plug_iff (C : Context) (ins outs : NodeId → Nat) (u : Strand) :
    (C.plug u).Sized ins outs ↔ (C.plug .done).Sized ins outs ∧ u.Sized ins outs :=
  plug_iff (P := Strand.Sized ins outs) trivial
    (fun f u => by cases f <;> simp only [Frame.fill, sized_append, Strand.Sized] <;> tauto) C u

/-- A node in front of a part replaces the wire that enters the part by two, and changes no other.
-/
theorem wires_plug_leaf (C : Context) (src dst : Port) (x : NodeId) (t : Strand) :
    ∃ before behind,
      (C.plug t).wires src dst =
        before ++ (C.source src, t.entryPort (C.target dst)) :: behind ∧
      (C.plug (.leaf x t)).wires src dst =
        before ++ (C.source src, (x, 0)) :: ((x, 0), t.entryPort (C.target dst)) :: behind := by
  obtain ⟨before, behind, h⟩ := C.wires_plug src dst
  obtain ⟨more, hmore⟩ := t.wires_eq_cons (C.target dst)
  exact ⟨before, more ++ behind, by simp [h, hmore], by simp [h, hmore]⟩

theorem nodes_plug_leaf (C : Context) (x : NodeId) (t : Strand) :
    (C.plug (.leaf x t)).nodes.Perm (x :: (C.plug t).nodes) := by
  obtain ⟨before, behind, h⟩ := C.nodes_plug
  simp only [h, Strand.nodes, List.append_assoc, cons_append]
  exact perm_middle

/-- The same with two nodes in front. -/
theorem perm_stream_leaf (C : Context) (n m x : NodeId) (t : Strand) :
    (n :: m :: (C.plug (.leaf x t)).nodes).Perm (x :: n :: m :: (C.plug t).nodes) :=
  (((C.nodes_plug_leaf x t).cons m).cons n).trans
    (((Perm.swap x m _).cons n).trans (Perm.swap x n _))

end Context

/-! ### Where a node stands -/

/-- A strand starts with the node, or with a region that the node closes. -/
inductive Stands (n : NodeId) : Strand → Prop
  | leaf (rest : Strand) : Stands n (leaf n rest)
  | opener (c : NodeId) (body rest : Strand) : Stands n (region n c body rest)
  | closer (o : NodeId) (body rest : Strand) : Stands n (region o n body rest)
  | fork (c : NodeId) (first second rest : Strand) : Stands n (fork n c first second rest)
  | join (o : NodeId) (first second rest : Strand) : Stands n (fork o n first second rest)

/-- Every node stands at the front of some part. -/
theorem exists_stands (hn : n ∈ t.nodes) (outer : Context) :
    ∃ (C : Context) (u : Strand), outer.plug t = C.plug u ∧ u.Stands n := by
  induction t generalizing outer with
  | done => simp at hn
  | leaf m rest ih =>
    rcases mem_cons.mp hn with rfl | hn
    · exact ⟨outer, _, rfl, .leaf rest⟩
    · exact ih hn (.inside (.behind (.leaf m .done)) outer)
  | region o c body rest ihb ihr =>
    rcases mem_region.mp hn with rfl | hn | rfl | hn
    · exact ⟨outer, _, rfl, .opener c body rest⟩
    · exact ihb hn (.inside (.body o c rest) outer)
    · exact ⟨outer, _, rfl, .closer o body rest⟩
    · exact ihr hn (.inside (.behind (.region o c body .done)) outer)
  | fork o c first second rest iha ihb ihr =>
    rcases mem_fork.mp hn with rfl | hn | hn | rfl | hn
    · exact ⟨outer, _, rfl, .fork c first second rest⟩
    · exact iha hn (.inside (.first o c second rest) outer)
    · exact ihb hn (.inside (.second o c first rest) outer)
    · exact ⟨outer, _, rfl, .join o first second rest⟩
    · exact ihr hn (.inside (.behind (.fork o c first second .done)) outer)

theorem Sized.pos (h : t.Sized ins outs) (hn : n ∈ t.nodes) : 0 < ins n ∧ 0 < outs n := by
  obtain ⟨C, u, rfl, hu⟩ := exists_stands hn .hole
  have hpart := ((C.sized_plug_iff ins outs u).mp h).2
  cases hu <;> simp only [Sized] at hpart <;> omega

/-- All numbers a strand can ask for are the same. -/
theorem Sized.eq {ins' outs' : NodeId → Nat} (h : t.Sized ins outs) (h' : t.Sized ins' outs')
    (hn : n ∈ t.nodes) : ins n = ins' n ∧ outs n = outs' n := by
  obtain ⟨C, u, rfl, hu⟩ := exists_stands hn .hole
  have hpart := ((C.sized_plug_iff ins outs u).mp h).2
  have hpart' := ((C.sized_plug_iff ins' outs' u).mp h').2
  cases hu <;> simp only [Sized] at hpart hpart' <;> omega

end Strand

end CoroutineIR
