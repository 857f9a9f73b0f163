import CoroutineIR.Proofs.Acyclic
import CoroutineIR.Proofs.Stream

/-!
# Structured streams

A stream is structured when it carries a strand whose nodes have the kinds of their places: single
nodes open and close nothing, and the two ends of a region name each other. Such a stream is laid
out in the order of its strand, a search finds exactly the nodes of the strand, and the regions
around a branch are those the strand shows.
-/

namespace CoroutineIR

open List Option NodeKind

/-- In a list without repetition the first of two entries has the smaller position. -/
theorem idxOf_lt_of_sublist {l : List NodeId} (hnodup : l.Nodup) {a b : NodeId}
    (h : [a, b].Sublist l) : l.idxOf a < l.idxOf b := by
  induction l with
  | nil => simp at h
  | cons c l ih =>
    obtain ⟨hc, hl⟩ := nodup_cons.mp hnodup
    rw [sublist_cons_iff] at h
    rcases h with h | ⟨l', heq, hl'⟩
    · have ha : a ∈ l := h.subset (by simp)
      have hb : b ∈ l := h.subset (by simp)
      have hca : c ≠ a := fun heq => hc (heq ▸ ha)
      have hcb : c ≠ b := fun heq => hc (heq ▸ hb)
      rw [idxOf_cons_ne l hca, idxOf_cons_ne l hcb]
      exact Nat.succ_lt_succ (ih hl h)
    · obtain ⟨rfl, rfl⟩ := List.cons.inj heq
      have hb : b ∈ l := singleton_sublist.mp hl'
      have hab : a ≠ b := fun heq => hc (heq ▸ hb)
      rw [idxOf_cons_self, idxOf_cons_ne l hab]
      exact Nat.succ_pos _

namespace NodeKind

variable {kind : NodeKind} {form : Form} {c o : NodeId} {k : Option NodeKind}

/-- The kind with the region it opens, if any, not marked as suspending. -/
def unmarked (kind : NodeKind) : NodeKind := kind.mapRegion ({ · with suspends := false })

@[simp] theorem region?_unmarked (kind : NodeKind) :
    kind.unmarked.region? = kind.region?.map ({ · with suspends := false }) := by
  cases kind <;> rfl

theorem unmarked_eq_enter (h : kind.unmarked = .enter form ⟨c, false⟩) :
    ∃ suspends, kind = .enter form ⟨c, suspends⟩ := by
  cases kind <;> simp [unmarked, mapRegion] at h
  case enter form' region =>
    obtain ⟨rfl, rfl⟩ := h
    exact ⟨region.suspends, rfl⟩

theorem unmarked_eq_define {name : String} {sig : Signature}
    (h : kind.unmarked = .define name sig ⟨c, false⟩) :
    ∃ suspends, kind = .define name sig ⟨c, suspends⟩ := by
  cases kind <;> simp [unmarked, mapRegion] at h
  case define name' sig' region =>
    obtain ⟨rfl, rfl, rfl⟩ := h
    exact ⟨region.suspends, rfl⟩

@[simp] theorem unmarked_eq_close : kind.unmarked = .close o ↔ kind = .close o := by
  cases kind <;> simp [unmarked, mapRegion]

@[simp] theorem unmarked_eq_branch {guarded : Bool} {goal : Branch} :
    kind.unmarked = .branch guarded goal ↔ kind = .branch guarded goal := by
  cases kind <;> simp [unmarked, mapRegion]

/-- What a kind opens or closes, without marks. -/
def shape : NodeKind → NodeKind
  | define name sig body => define name sig { body with suspends := false }
  | enter form region => enter form { region with suspends := false }
  | close opener => close opener
  | _ => ret

/-- Marks do not matter for the shape. -/
theorem map_shape_of_unmarked {k' : Option NodeKind} (h : k.map unmarked = k'.map unmarked) :
    k.map shape = k'.map shape := by
  have hshape : ∀ kind : NodeKind, kind.unmarked.shape = kind.shape := by rintro (_ | _) <;> rfl
  simpa [Option.map_map, Function.comp_def, hshape] using congrArg (Option.map shape) h

theorem shape_eq_enter {suspends : Bool} (h : kind.shape = (enter form ⟨c, suspends⟩).shape) :
    ∃ suspends', kind = .enter form ⟨c, suspends'⟩ := by
  cases kind with
  | enter form' region =>
    simp only [shape, enter.injEq, Region.mk.injEq, and_true] at h
    exact ⟨region.suspends, by rw [h.1, ← h.2]⟩
  | _ => simp [shape] at h

theorem shape_eq_close (h : kind.shape = (close o).shape) : kind = .close o := by
  cases kind <;> simp_all [shape]

theorem shape_eq_leaf {kind' : NodeKind} (h : kind'.shape = kind.shape)
    (hregion : kind.region? = none) (hclose : kind.isClose = false) :
    kind'.region? = none ∧ kind'.isClose = false := by
  cases kind <;> cases kind' <;> simp_all [shape, region?, isClose]

/-- The same kind in two tables, up to marks. -/
theorem exists_unmarked (h : k.map unmarked = (some kind).map unmarked) :
    ∃ kind', k = some kind' ∧ kind'.unmarked = kind.unmarked :=
  map_eq_some_iff.mp h

end NodeKind

/-- The node with the region it opens, if any, marked as suspending. -/
def Node.marked (d : Node) : Node :=
    { d with kind := d.kind.mapRegion ({ · with suspends := true }) }

theorem Node.marked_marked (d : Node) : d.marked.marked = d.marked := by
  obtain ⟨kind, ty, dest, args, next, prev⟩ := d
  cases kind <;> rfl

theorem Node.unmarked_marked (d : Node) : d.marked.kind.unmarked = d.kind.unmarked := by
  simp only [Node.marked]
  cases d.kind <;> rfl

namespace Strand

variable {kinds kinds' : NodeId → Option NodeKind} {t u : Strand} {n : NodeId} {kind : NodeKind}
    {enclosing : List NodeId}

/-- The kinds of the nodes are those of their places. -/
def Shaped (kinds : NodeId → Option NodeKind) : Strand → Prop
  | done => True
  | leaf n rest =>
    (∃ kind, kinds n = some kind ∧ kind.region? = none ∧ kind.isClose = false) ∧ rest.Shaped kinds
  | region o c body rest =>
    (∃ form suspends, kinds o = some (.enter form ⟨c, suspends⟩)) ∧ kinds c = some (.close o) ∧
      body.Shaped kinds ∧ rest.Shaped kinds
  | fork o c first second rest =>
    (∃ suspends, kinds o = some (.enter .cond ⟨c, suspends⟩)) ∧ kinds c = some (.close o) ∧
      first.Shaped kinds ∧ second.Shaped kinds ∧ rest.Shaped kinds

theorem shaped_append : (t.append u).Shaped kinds ↔ t.Shaped kinds ∧ u.Shaped kinds := by
  induction t with
  | done => simp [Shaped]
  | leaf n rest ih | region o c body rest _ ih | fork o c first second rest _ _ ih =>
    simp only [append, Shaped, ih, and_assoc]

/-- Only what nodes open and close matters for the shape. -/
theorem Shaped.congr (h : t.Shaped kinds)
    (heq : ∀ n ∈ t.nodes, (kinds' n).map NodeKind.shape = (kinds n).map NodeKind.shape) :
    t.Shaped kinds' := by
  have hopen : ∀ {n form c suspends}, (kinds' n).map NodeKind.shape = (kinds n).map NodeKind.shape →
      kinds n = some (.enter form ⟨c, suspends⟩) →
      ∃ suspends', kinds' n = some (.enter form ⟨c, suspends'⟩) := by
    intro n form c suspends heq hkind
    rw [hkind] at heq
    obtain ⟨kind, hkind', hsame⟩ := map_eq_some_iff.mp heq
    obtain ⟨suspends', rfl⟩ := shape_eq_enter hsame
    exact ⟨suspends', hkind'⟩
  have hclose : ∀ {n o}, (kinds' n).map NodeKind.shape = (kinds n).map NodeKind.shape →
      kinds n = some (.close o) → kinds' n = some (.close o) := by
    intro n o heq hkind
    rw [hkind] at heq
    obtain ⟨kind, hkind', hsame⟩ := map_eq_some_iff.mp heq
    rw [hkind', shape_eq_close hsame]
  induction t with
  | done => trivial
  | leaf n rest ih =>
    simp only [forall_leaf] at heq
    obtain ⟨⟨kind, hkind, hregion, hclosed⟩, hrest⟩ := h
    rw [hkind] at heq
    obtain ⟨kind', hkind', hsame⟩ := map_eq_some_iff.mp heq.1
    exact ⟨⟨kind', hkind', shape_eq_leaf hsame hregion hclosed⟩, ih hrest heq.2⟩
  | region o c body rest ihb ihr =>
    obtain ⟨⟨form, suspends, hko⟩, hkc, hbody, hrest⟩ := h
    obtain ⟨heo, heb, hec, her⟩ := forall_region.mp heq
    obtain ⟨suspends', hko'⟩ := hopen heo hko
    exact ⟨⟨form, suspends', hko'⟩, hclose hec hkc, ihb hbody heb, ihr hrest her⟩
  | fork o c first second rest iha ihb ihr =>
    obtain ⟨⟨suspends, hko⟩, hkc, hfirst, hsecond, hrest⟩ := h
    obtain ⟨heo, hea, heb, hec, her⟩ := forall_fork.mp heq
    obtain ⟨suspends', hko'⟩ := hopen heo hko
    exact ⟨⟨suspends', hko'⟩, hclose hec hkc, iha hfirst hea, ihb hsecond heb, ihr hrest her⟩

/-- Kinds are asked for around a part and in it. -/
theorem Context.shaped_plug_iff (C : Context) (kinds : NodeId → Option NodeKind) (u : Strand) :
    (C.plug u).Shaped kinds ↔ (C.plug .done).Shaped kinds ∧ u.Shaped kinds :=
  plug_iff (P := Shaped kinds) trivial
    (fun f u => by cases f <;> simp only [Frame.fill, shaped_append, Shaped] <;> tauto) C u

variable (h : t.Shaped kinds) (hn : n ∈ t.nodes)
include h hn

/-- A node of a strand stands alone, opens a region that is closed behind, or closes one. -/
theorem Shaped.place : (∃ kind, kinds n = some kind ∧ kind.region? = none ∧ kind.isClose = false) ∨
      (∃ form c suspends, kinds n = some (.enter form ⟨c, suspends⟩) ∧ kinds c = some (.close n) ∧
      [n, c].Sublist t.nodes) ∨
      ∃ o form suspends, kinds n = some (.close o) ∧
      kinds o = some (.enter form ⟨n, suspends⟩) := by
  obtain ⟨C, u, rfl, hu⟩ := exists_stands hn .hole
  have hpart := ((C.shaped_plug_iff kinds u).mp h).2
  have hsub := C.nodes_sublist u
  cases hu with
  | leaf => exact Or.inl hpart.1
  | opener c =>
    obtain ⟨⟨form, suspends, hopen⟩, hclose, -⟩ := hpart
    exact Or.inr (Or.inl ⟨form, c, suspends, hopen, hclose, .trans (by simp) hsub⟩)
  | fork c =>
    obtain ⟨⟨suspends, hopen⟩, hclose, -⟩ := hpart
    exact Or.inr (Or.inl ⟨.cond, c, suspends, hopen, hclose, .trans (by simp) hsub⟩)
  | closer o =>
    obtain ⟨⟨form, suspends, hopen⟩, hclose, -⟩ := hpart
    exact Or.inr (Or.inr ⟨o, form, suspends, hclose, hopen⟩)
  | join o =>
    obtain ⟨⟨suspends, hopen⟩, hclose, -⟩ := hpart
    exact Or.inr (Or.inr ⟨o, .cond, suspends, hclose, hopen⟩)

/-- Only the end of a region has several nodes in front of it, and only a conditional has several
behind it. -/
theorem Shaped.degrees {ins outs : NodeId → Nat} (hsized : t.Sized ins outs) :
    (ins n = 1 ∨ ∃ o, kinds n = some (.close o)) ∧
    (outs n = 1 ∨ outs n = 2 ∧ ∃ region, kinds n = some (.enter .cond region)) := by
  obtain ⟨C, u, rfl, hu⟩ := exists_stands hn .hole
  have hpart := ((C.shaped_plug_iff kinds u).mp h).2
  have hdegrees := ((C.sized_plug_iff ins outs u).mp hsized).2
  cases hu with
  | leaf | opener => exact ⟨Or.inl hdegrees.1.1, Or.inl hdegrees.1.2⟩
  | fork =>
    obtain ⟨⟨suspends, hopen⟩, -⟩ := hpart
    exact ⟨Or.inl hdegrees.1.1, Or.inr ⟨hdegrees.1.2, _, hopen⟩⟩
  | closer | join => exact ⟨Or.inr ⟨_, hpart.2.1⟩, Or.inl hdegrees.2.1.2⟩

/-- No routine begins inside another one. -/
theorem Shaped.exists_kind_ne_define : ∃ kind, kinds n = some kind ∧
    ∀ name sig body, kind ≠ .define name sig body := by
  rcases h.place hn with ⟨kind, hkind, hregion, -⟩ | ⟨form, c, suspends, hkind, -⟩ | ⟨o, form,
    suspends, hkind, -⟩
  · exact ⟨kind, hkind, by rintro _ _ _ rfl; simp at hregion⟩
  · exact ⟨_, hkind, by simp⟩
  · exact ⟨_, hkind, by simp⟩

theorem Shaped.exists_kind : ∃ kind, kinds n = some kind :=
  (h.exists_kind_ne_define hn).imp fun _ hkind => hkind.1

/-- A region that is opened in a strand is closed behind. -/
theorem Shaped.closer_behind {region : Region} (hkind : kinds n = some kind)
    (hregion : kind.region? = some region) : [n, region.close].Sublist t.nodes := by
  rcases h.place hn with ⟨_, hkind', hnone, -⟩ | ⟨form, c, suspends, hkind', -, hsub⟩ | ⟨o, form,
    suspends, hkind', -⟩ <;> obtain rfl := some.inj (hkind.symm.trans hkind')
  · simp [hnone] at hregion
  · obtain rfl := some.inj hregion
    exact hsub
  · cases hregion

/-- A node that neither opens nor closes a region stands alone. -/
theorem Shaped.exists_leaf (hkind : kinds n = some kind)
    (hregion : kind.region? = none) (hclose : kind.isClose = false) :
    ∃ (C : Context) (rest : Strand), t = C.plug (.leaf n rest) := by
  obtain ⟨C, u, rfl, hu⟩ := exists_stands hn .hole
  have hpart := ((C.shaped_plug_iff kinds u).mp h).2
  cases hu with
  | leaf rest => exact ⟨C, rest, rfl⟩
  | opener =>
    obtain ⟨⟨form, suspends, hopen⟩, -⟩ := hpart
    simp [some.inj (hkind.symm.trans hopen)] at hregion
  | fork =>
    obtain ⟨⟨suspends, hopen⟩, -⟩ := hpart
    simp [some.inj (hkind.symm.trans hopen)] at hregion
  | closer | join => simp [some.inj (hkind.symm.trans hpart.2.1)] at hclose

theorem Shaped.closer_mem {region : Region} (hkind : kinds n = some kind)
    (hregion : kind.region? = some region) : region.close ∈ t.nodes :=
  (h.closer_behind hn hkind hregion).subset (by simp)

omit h hn

/-- Every branch carries the number of regions between itself and its target, with `enclosing` the
regions around the strand, innermost first. -/
def BranchesFit (kinds : NodeId → Option NodeKind) : List NodeId → Strand → Prop
  | _, done => True
  | enclosing, leaf n rest =>
    (∀ guarded goal, kinds n = some (.branch guarded goal) →
      enclosing.idxOf? goal.target = some goal.depth) ∧ rest.BranchesFit kinds enclosing
  | enclosing, region o _ body rest =>
    body.BranchesFit kinds (o :: enclosing) ∧ rest.BranchesFit kinds enclosing
  | enclosing, fork o _ first second rest =>
    first.BranchesFit kinds (o :: enclosing) ∧ second.BranchesFit kinds (o :: enclosing) ∧
      rest.BranchesFit kinds enclosing

/-- Every branch satisfies `P`, given the regions around it, innermost first. -/
def Branching (P : List NodeId → Branch → Prop) (kinds : NodeId → Option NodeKind) :
    List NodeId → Strand → Prop
  | _, done => True
  | enclosing, leaf n rest =>
    (∀ guarded goal, kinds n = some (.branch guarded goal) → P enclosing goal) ∧
      rest.Branching P kinds enclosing
  | enclosing, region o _ body rest =>
    body.Branching P kinds (o :: enclosing) ∧ rest.Branching P kinds enclosing
  | enclosing, fork o _ first second rest =>
    first.Branching P kinds (o :: enclosing) ∧ second.Branching P kinds (o :: enclosing) ∧
      rest.Branching P kinds enclosing

variable {P Q : List NodeId → Branch → Prop}

theorem branchesFit_iff_branching : t.BranchesFit kinds enclosing ↔
    t.Branching (fun around goal => around.idxOf? goal.target = some goal.depth)
    kinds enclosing := by
  induction t generalizing enclosing with
  | done => exact Iff.rfl
  | leaf n rest ih => simp only [BranchesFit, Branching, ih]
  | region o c body rest ihb ihr => simp only [BranchesFit, Branching, ihb, ihr]
  | fork o c first second rest iha ihb ihr => simp only [BranchesFit, Branching, iha, ihb, ihr]

/-- Only the branches themselves matter. -/
theorem Branching.mono (h : t.Branching P kinds enclosing)
    (himp : ∀ around goal, P around goal → Q around goal)
    (hback : ∀ n ∈ t.nodes, ∀ guarded goal, kinds' n = some (.branch guarded goal) →
      kinds n = some (.branch guarded goal)) : t.Branching Q kinds' enclosing := by
  induction t generalizing enclosing with
  | done => trivial
  | leaf n rest ih =>
    simp only [forall_leaf] at hback
    exact ⟨fun guarded goal hk => himp _ _ (h.1 guarded goal (hback.1 guarded goal hk)),
      ih h.2 hback.2⟩
  | region o c body rest ihb ihr =>
    simp only [forall_region] at hback
    exact ⟨ihb h.1 hback.2.1, ihr h.2 hback.2.2.2⟩
  | fork o c first second rest iha ihb ihr =>
    simp only [forall_fork] at hback
    exact ⟨iha h.1 hback.2.1, ihb h.2.1 hback.2.2.1, ihr h.2.2 hback.2.2.2.2⟩

/-- Branches of two parts, one behind the other. -/
theorem branching_append :
    (t.append u).Branching P kinds enclosing ↔
    t.Branching P kinds enclosing ∧ u.Branching P kinds enclosing := by
  induction t with
  | done => simp [Branching]
  | leaf n rest ih => simp only [append, Branching, ih, and_assoc]
  | region o c body rest ihb ihr | fork o c first second rest iha ihb ihr =>
    simp only [append, Branching, ihr, and_assoc]

theorem branchesFit_append : (t.append u).BranchesFit kinds enclosing ↔
      t.BranchesFit kinds enclosing ∧ u.BranchesFit kinds enclosing := by
  simp only [branchesFit_iff_branching, branching_append]

theorem BranchesFit.mono (h : t.BranchesFit kinds enclosing)
    (hback : ∀ n ∈ t.nodes, ∀ guarded goal, kinds' n = some (.branch guarded goal) →
      kinds n = some (.branch guarded goal)) : t.BranchesFit kinds' enclosing :=
  branchesFit_iff_branching.mpr ((branchesFit_iff_branching.mp h).mono (fun _ _ => id) hback)

/-- Every branch goes to one of the regions around it. -/
def Aims (kinds : NodeId → Option NodeKind) (enclosing : List NodeId) (t : Strand) : Prop :=
  t.Branching (fun around goal => goal.target ∈ around) kinds enclosing

theorem BranchesFit.aims (h : t.BranchesFit kinds enclosing) : t.Aims kinds enclosing :=
  (branchesFit_iff_branching.mp h).mono (fun around goal hfit => by
    by_contra hnot
    rw [idxOf?_eq_none_iff.mpr hnot] at hfit
    cases hfit) fun _ _ _ _ hk => hk

/-- Marks do not matter for the branches. -/
theorem BranchesFit.congr (h : t.BranchesFit kinds enclosing)
    (heq : ∀ n ∈ t.nodes, (kinds' n).map NodeKind.unmarked = (kinds n).map NodeKind.unmarked) :
    t.BranchesFit kinds' enclosing := by
  refine h.mono fun n hn guarded goal hkind => ?_
  obtain ⟨kind, hkind', hsame⟩ := exists_unmarked (hkind ▸ (heq n hn).symm)
  obtain rfl := unmarked_eq_branch.mp hsame
  exact hkind'

namespace Context

/-- The regions around a part, innermost first, given those around the whole. -/
def regions (enclosing : List NodeId) : Context → List NodeId
  | hole => enclosing
  | inside (.behind _) C => C.regions enclosing
  | inside (.body o _ _) C | inside (.first o _ _ _) C | inside (.second o _ _ _) C =>
    o :: C.regions enclosing

variable (C : Context)

/-- Branches are looked at around a part and in it. -/
theorem branching_plug (P : List NodeId → Branch → Prop) (kinds : NodeId → Option NodeKind)
    (enclosing : List NodeId) (u : Strand) : (C.plug u).Branching P kinds enclosing ↔
      (C.plug .done).Branching P kinds enclosing ∧ u.Branching P kinds (C.regions enclosing) := by
  induction C generalizing u with
  | hole => simp [plug, regions, Branching]
  | inside f C ih =>
    rw [plug, plug, ih, ih (f.fill .done)]
    cases f with
    | behind t => simp only [Frame.fill, branching_append, regions, Branching]; tauto
    | body o c rest | first o c b rest | second o c a rest =>
      simp only [Frame.fill, regions, Branching]; tauto

/-- The same for the depths that branches carry. -/
theorem branchesFit_plug_iff (kinds : NodeId → Option NodeKind) (enclosing : List NodeId)
    (u : Strand) : (C.plug u).BranchesFit kinds enclosing ↔
      (C.plug .done).BranchesFit kinds enclosing ∧ u.BranchesFit kinds (C.regions enclosing) := by
  simp only [branchesFit_iff_branching]
  exact C.branching_plug _ kinds enclosing u

/-- A region around a part stands around the whole, or is opened in it and closed behind the part.
-/
theorem mem_regions {o : NodeId} (h : (C.plug u).Shaped kinds) (ho : o ∈ C.regions enclosing) :
    o ∈ enclosing ∨ ∃ form c suspends, kinds o = some (.enter form ⟨c, suspends⟩) ∧
    o ∈ (C.plug u).nodes ∧ ∀ n ∈ u.nodes, [n, c].Sublist (C.plug u).nodes := by
  induction C generalizing u with
  | hole => exact Or.inl ho
  | inside f C ih =>
    have hpart := ((C.shaped_plug_iff kinds _).mp h).2
    have hsub := C.nodes_sublist (f.fill u)
    have houter (ho : o ∈ C.regions enclosing) :
        o ∈ enclosing ∨ ∃ form c suspends, kinds o = some (.enter form ⟨c, suspends⟩) ∧
        o ∈ (C.plug (f.fill u)).nodes ∧ ∀ n ∈ u.nodes,
        [n, c].Sublist (C.plug (f.fill u)).nodes := by
      refine (ih h ho).imp_right ?_
      rintro ⟨form, c, suspends, hopen, hmem, hall⟩
      exact ⟨form, c, suspends, hopen, hmem,
        fun n hn => hall n (((inside f .hole).nodes_sublist u).subset hn)⟩
    cases f with
    | behind t => exact houter ho
    | body o' c rest =>
      rcases mem_cons.mp ho with rfl | ho
      · obtain ⟨⟨form, suspends, hopen⟩, -⟩ := hpart
        refine Or.inr ⟨form, c, suspends, hopen, hsub.subset (by simp [Frame.fill]),
          fun n hn => .trans ?_ hsub⟩
        exact (((singleton_sublist.mpr hn).append (singleton_sublist.mpr mem_cons_self)).cons o)
      · exact houter ho
    | first o' c arm rest | second o' c arm rest =>
      rcases mem_cons.mp ho with rfl | ho
      · obtain ⟨⟨suspends, hopen⟩, -⟩ := hpart
        refine Or.inr ⟨.cond, c, suspends, hopen, hsub.subset (by simp [Frame.fill]),
          fun n hn => .trans ?_ hsub⟩
        exact ((singleton_sublist.mpr (by simp [hn])).append
          (singleton_sublist.mpr mem_cons_self)).cons o
      · exact houter ho

end Context

/-- The branches of a strand with the positions of their targets among the regions around them. -/
def depths (kinds : NodeId → Option NodeKind) : List NodeId → Strand → List (NodeId × Option Nat)
  | _, done => []
  | enclosing, leaf n rest =>
    (((kinds n).bind NodeKind.branch?).toList.map fun b => (n, enclosing.idxOf? b.target)) ++
      rest.depths kinds enclosing
  | enclosing, region o _ body rest =>
    body.depths kinds (o :: enclosing) ++ rest.depths kinds enclosing
  | enclosing, fork o _ first second rest =>
    first.depths kinds (o :: enclosing) ++ second.depths kinds (o :: enclosing) ++
      rest.depths kinds enclosing

/-- Depths are listed for branches. -/
theorem mem_depths {p : NodeId × Option Nat} (hp : p ∈ t.depths kinds enclosing) :
    p.1 ∈ t.nodes ∧ ∃ guarded goal, kinds p.1 = some (.branch guarded goal) := by
  induction t generalizing enclosing with
  | done => simp [depths] at hp
  | leaf n rest ih =>
    simp only [depths, mem_append, List.mem_map, mem_toList] at hp
    rcases hp with ⟨b, hb, rfl⟩ | hp
    · obtain ⟨kind, hkind, hbranch⟩ := bind_eq_some_iff.mp hb
      refine ⟨by simp, ?_⟩
      cases kind <;> simp at hbranch
      exact ⟨_, _, hkind⟩
    · exact ⟨by simp [(ih hp).1], (ih hp).2⟩
  | region o c body rest ihb ihr =>
    simp only [depths, mem_append] at hp
    rcases hp with hp | hp
    · exact ⟨by simp [(ihb hp).1], (ihb hp).2⟩
    · exact ⟨by simp [(ihr hp).1], (ihr hp).2⟩
  | fork o c first second rest iha ihb ihr =>
    simp only [depths, mem_append] at hp
    rcases hp with (hp | hp) | hp
    · exact ⟨by simp [(iha hp).1], (iha hp).2⟩
    · exact ⟨by simp [(ihb hp).1], (ihb hp).2⟩
    · exact ⟨by simp [(ihr hp).1], (ihr hp).2⟩

/-- What is listed for the branches of a strand is what they have to carry. -/
theorem branchesFit_iff : t.BranchesFit kinds enclosing ↔ ∀ p ∈ t.depths kinds enclosing,
      ∀ guarded goal, kinds p.1 = some (.branch guarded goal) → p.2 = some goal.depth := by
  induction t generalizing enclosing with
  | done => simp [BranchesFit, depths]
  | leaf n rest ih =>
    simp only [BranchesFit, depths, mem_append, List.mem_map, mem_toList, or_imp, forall_and, ih]
    refine and_congr_left fun _ => ⟨?_, ?_⟩
    · rintro hfit _ ⟨b, _, rfl⟩ guarded goal hkind
      have := hfit guarded goal hkind
      simp_all
    · intro hfit guarded goal hkind
      exact hfit (n, enclosing.idxOf? goal.target) ⟨goal, by simp [hkind], rfl⟩
        guarded goal hkind
  | region o c body rest ihb ihr =>
    simp only [BranchesFit, depths, mem_append, or_imp, forall_and, ihb, ihr]
  | fork o c first second rest iha ihb ihr =>
    simp only [BranchesFit, depths, mem_append, or_imp, forall_and, iha, ihb, ihr, and_assoc]

/-- Every wire goes forwards in the layout of the strand. -/
theorem wire_forwards {src dst : Port} {w : Wire} (hw : w ∈ t.wires src dst) :
    [w.1.1, w.2.1].Sublist (src.1 :: t.nodes ++ [dst.1]) := by
  induction t generalizing src dst with
  | done =>
    simp only [wires, mem_singleton] at hw
    simp [hw]
  | leaf n rest ih =>
    simp only [wires, mem_cons] at hw
    rcases hw with rfl | hw
    · simp
    · exact (ih hw).trans (by simp)
  | region o c body rest ihb ihr =>
    simp only [wires, cons_append, mem_cons, mem_append] at hw
    rcases hw with rfl | hw | hw
    · simp
    · refine (ihb hw).trans ?_
      simp only [nodes, cons_append, List.append_assoc]
      refine Sublist.cons _ (Sublist.cons_cons _ (Sublist.append_left ?_ _))
      simp
    · refine (ihr hw).trans ?_
      simp only [nodes, cons_append, List.append_assoc]
      exact Sublist.cons _ (Sublist.cons _ (sublist_append_right _ _))
  | fork o c first second rest iha ihb ihr =>
    simp only [wires, cons_append, List.append_assoc, mem_cons, mem_append] at hw
    rcases hw with rfl | hw | hw | hw
    · simp
    · refine (iha hw).trans ?_
      simp only [nodes, cons_append, List.append_assoc]
      refine Sublist.cons _ (Sublist.cons_cons _ (Sublist.append_left ?_ _))
      exact singleton_sublist.mpr (by simp)
    · refine (ihb hw).trans ?_
      simp only [nodes, cons_append, List.append_assoc]
      refine Sublist.cons _ (Sublist.cons_cons _ ?_)
      refine (Sublist.append_left ?_ _).trans (sublist_append_right _ _)
      simp
    · refine (ihr hw).trans ?_
      simp only [nodes, cons_append, List.append_assoc]
      refine Sublist.cons _ (Sublist.cons _ ?_)
      exact (sublist_append_right _ _).trans (sublist_append_right _ _)

/-- What holds where a strand starts and is handed on by its wires holds of all its nodes and where
it leads to. -/
theorem forall_of_wires {P : NodeId → Prop} (src dst : Port)
    (hwires : ∀ w ∈ t.wires src dst, P w.1.1 → P w.2.1) (hsrc : P src.1) :
    (∀ n ∈ t.nodes, P n) ∧ P dst.1 := by
  induction t generalizing src dst with
  | done => exact ⟨by simp, hwires (src, dst) (by simp) hsrc⟩
  | leaf n rest ih =>
    have hn : P n := hwires (src, (n, 0)) (by simp) hsrc
    obtain ⟨hrest, hdst⟩ := ih (n, 0) dst (fun w hw => hwires w (by simp [hw])) hn
    exact ⟨by simpa [nodes] using ⟨hn, hrest⟩, hdst⟩
  | region o c body rest ihb ihr =>
    have ho : P o := hwires (src, (o, 0)) (by simp) hsrc
    obtain ⟨hbody, hc⟩ := ihb (o, 0) (c, 0) (fun w hw => hwires w (by simp [hw])) ho
    obtain ⟨hrest, hdst⟩ := ihr (c, 0) dst (fun w hw => hwires w (by simp [hw])) hc
    refine ⟨fun n hn => ?_, hdst⟩
    simp only [mem_region] at hn
    rcases hn with rfl | hn | rfl | hn
    exacts [ho, hbody n hn, hc, hrest n hn]
  | fork o c first second rest iha ihb ihr =>
    have ho : P o := hwires (src, (o, 0)) (by simp) hsrc
    obtain ⟨hfirst, hc⟩ := iha (o, 0) (c, 0) (fun w hw => hwires w (by simp [hw])) ho
    obtain ⟨hsecond, _⟩ := ihb (o, 1) (c, 1) (fun w hw => hwires w (by simp [hw])) ho
    obtain ⟨hrest, hdst⟩ := ihr (c, 0) dst (fun w hw => hwires w (by simp [hw])) hc
    refine ⟨fun n hn => ?_, hdst⟩
    simp only [mem_fork] at hn
    rcases hn with rfl | hn | hn | rfl | hn
    exacts [ho, hfirst n hn, hsecond n hn, hc, hrest n hn]

/-- The nodes in the order of a walk that takes the second arm of a conditional before the first. -/
def tour : Strand → List NodeId
  | done => []
  | leaf n rest => n :: rest.tour
  | region o c body rest => o :: body.tour ++ c :: rest.tour
  | fork o c first second rest => o :: second.tour ++ first.tour ++ c :: rest.tour

theorem tour_perm (t : Strand) : t.tour.Perm t.nodes := by
  induction t with
  | done => exact .refl _
  | leaf n rest ih => exact ih.cons n
  | region o c body rest ihb ihr => exact (ihb.append (ihr.cons c)).cons o
  | fork o c first second rest iha ihb ihr =>
    exact ((perm_append_comm.trans (iha.append ihb)).append (ihr.cons c)).cons o

end Strand

namespace Routine

variable {r : Routine} {n : NodeId} {d : Node} {kind : NodeKind}

theorem size_lt_walkFuel (r : Routine) : r.nodes.size < r.walkFuel :=
  Nat.lt_of_lt_of_le (Nat.lt_succ_self _) (Nat.le_mul_of_pos_right _ (Nat.succ_pos _))

/-- What a node does. -/
def kindOf (r : Routine) (n : NodeId) : Option NodeKind := (r.label n).map Node.kind

theorem kindOf_eq (h : r.nodes[n]? = some d) : r.kindOf n = some d.kind := by
  simp [kindOf, label_eq h]

theorem kindOf_congr {r' : Routine} (h : r'.label n = r.label n) : r'.kindOf n = r.kindOf n := by
  rw [kindOf, h, kindOf]

theorem kindOf_of_label (hd : r.label n = some d) (hkind : d.kind = kind) :
    r.kindOf n = some kind := by
  rw [kindOf, hd, map_some, hkind]

/-- A node with a kind is in the arena, with the edges the other views show. -/
theorem node_of_kindOf (h : r.kindOf n = some kind) :
    ∃ d, r.nodes[n]? = some d ∧ d.kind = kind ∧ d.next = r.nextOf n ∧ d.prev = r.prevOf n := by
  obtain ⟨d, hlabel, hkind⟩ := map_eq_some_iff.mp h
  exact ⟨_, node_of_label hlabel, hkind, rfl, rfl⟩

/-- The stream from the entry to `exit` is a strand of nodes that have the kinds of their places. -/
structure Streams (r : Routine) (exit : NodeId) (t : Strand) : Prop extends r.Carries exit t where
  shaped : t.Shaped r.kindOf
  entry_kind : ∃ name sig suspends, r.kindOf r.entry = some (.define name sig ⟨exit, suspends⟩)
  exit_kind : r.kindOf exit = some (.close r.entry)

namespace Carries

variable {exit m : NodeId} {t : Strand} {slot : Nat}

variable (h : r.Carries exit t) (hn : n ∈ r.live exit t)
include h hn

theorem next_mem (hm : m ∈ r.nextOf n) : m ∈ r.live exit t := by
  obtain ⟨slot, hslot⟩ := mem_iff_getElem?.mp hm
  obtain ⟨j, hwire⟩ := h.exists_wire hn hslot
  exact (Strand.ends_mem hwire).2

omit hn in
/-- The nodes of the stream are those a search from the entry meets. -/
theorem liveNodes_eq : ∃ live, r.liveNodes = .ok live ∧ live.Perm (r.live exit t) := by
  obtain ⟨live, hrun, hnodup, _, hmem⟩ :=
    (graph_closedOn (fun n hn => h.lt_size hn) fun n hn m hm => h.next_mem hn hm).reachable_eq
      r.entry (by simp)
  refine ⟨live, hrun, (perm_ext_iff_of_nodup hnodup h.nodup).mpr fun n => ⟨fun hn => ?_, ?_⟩⟩
  · -- what can be reached stays in the stream
    have hreach := (hmem n).mp hn
    clear hn
    induction hreach with
    | refl => simp
    | tail _ hedge ih => exact h.next_mem ih hedge
  · have hall := Strand.forall_of_wires (P := (· ∈ live)) (r.entry, 0) (exit, 0) (t := t)
      (fun w hw hin => (hmem _).mpr (((hmem _).mp hin).tail (mem_of_getElem? (h.joined w hw).1)))
      ((hmem _).mpr .refl)
    intro hn
    simp only [mem_cons] at hn
    rcases hn with rfl | rfl | hn
    exacts [(hmem _).mpr .refl, hall.2, hall.1 n hn]

omit hn in
theorem nodup_layout : (r.entry :: t.nodes ++ [exit]).Nodup :=
  ((perm_append_singleton exit t.nodes).cons r.entry).nodup_iff.mpr h.nodup

/-- The position of a node in the layout ranks the nodes so that every edge goes upwards. -/
theorem idxOf_lt (hm : m ∈ r.nextOf n) :
    (r.entry :: t.nodes ++ [exit]).idxOf n < (r.entry :: t.nodes ++ [exit]).idxOf m := by
  obtain ⟨slot, hslot⟩ := mem_iff_getElem?.mp hm
  obtain ⟨j, hwire⟩ := h.exists_wire hn hslot
  exact idxOf_lt_of_sublist h.nodup_layout (Strand.wire_forwards hwire)

end Carries

/-- Induction along the walk over a laid strand, with what the walk reads at each node. Every step
inwards or ahead takes fuel. -/
theorem Lays.walk_induction {motive : Nat → Port → Strand → Prop}
    (done : ∀ fuel dst, motive (fuel + 1) dst .done)
    (leaf : ∀ {fuel n d dst rest}, r.nodes[n]? = some d → n ≠ dst.1 → d.kind.region? = none →
      d.kind.isClose = false → d.firstNext = some (rest.entryPort dst).1 →
      motive fuel dst rest → motive (fuel + 1) dst (.leaf n rest))
    (region : ∀ {fuel o c d e dst body rest form suspends}, r.nodes[o]? = some d → o ≠ dst.1 →
      d.kind = .enter form ⟨c, suspends⟩ → d.next = [(body.entryPort (c, 0)).1] → r.nodes[c]? = some
      e → e.kind = .close o → e.firstNext = some (rest.entryPort dst).1 → motive fuel (c, 0) body →
      motive fuel dst rest → motive (fuel + 1) dst (.region o c body rest))
    (fork : ∀ {fuel o c d e dst first second rest suspends}, r.nodes[o]? = some d → o ≠ dst.1 →
      d.kind = .enter .cond ⟨c, suspends⟩ → d.next = [(first.entryPort (c, 0)).1,
      (second.entryPort (c, 1)).1] → r.nodes[c]? = some e → e.kind = .close o → e.firstNext =
      some (rest.entryPort dst).1 → motive fuel (c, 0) first → motive fuel (c, 1) second →
      motive fuel dst rest → motive (fuel + 1) dst (.fork o c first second rest)) {src dst : Port}
    {t : Strand} (h : r.Lays src t dst) (hshaped : t.Shaped r.kindOf) (hdst : dst.1 ∉ t.nodes)
    (hnodup : t.nodes.Nodup) (fuel : Nat) (hfuel : t.nodes.length < fuel) : motive fuel dst t := by
  induction t generalizing src dst fuel with
  | done =>
    obtain _ | fuel := fuel
    · omega
    exact done fuel dst
  | leaf n rest ih =>
    simp only [Strand.nodes, mem_cons, not_or, nodup_cons, length_cons] at hdst hnodup hfuel
    obtain ⟨⟨kind, hkind, hregion, hopen⟩, hrest⟩ := hshaped
    obtain ⟨d, hnode, rfl, hnext, _⟩ := node_of_kindOf hkind
    obtain _ | fuel := fuel
    · omega
    exact leaf hnode (Ne.symm hdst.1) hregion hopen (by simp [Node.firstNext, hnext, h.nextOf_leaf])
      (ih h.leaf_rest hrest hdst.2 hnodup.2 fuel (by omega))
  | region o c body rest ihb ihr =>
    obtain ⟨hb, hr, -, -, -, hcb, -, -⟩ := Strand.nodup_region hnodup
    simp only [Strand.nodes, cons_append, mem_cons, mem_append, not_or, length_cons,
      length_append] at hdst hfuel
    obtain ⟨⟨form, suspends, hopen⟩, hclose, hbody, hrest⟩ := hshaped
    obtain ⟨d, hnode, hdkind, hnext, _⟩ := node_of_kindOf hopen
    obtain ⟨e, hend, hekind, hnext', _⟩ := node_of_kindOf hclose
    obtain _ | fuel := fuel
    · omega
    exact region hnode (Ne.symm hdst.1) hdkind (hnext.trans h.nextOf_opener) hend hekind
      (by simp [Node.firstNext, hnext', h.nextOf_closer]) (ihb h.region_body hbody hcb hb fuel
      (by omega)) (ihr h.region_rest hrest hdst.2.2.2 hr fuel (by omega))
  | fork o c first second rest iha ihb ihr =>
    obtain ⟨ha, hb, hr, -, -, -, -, hca, hcb, -, -, -⟩ := Strand.nodup_fork hnodup
    simp only [Strand.nodes, cons_append, List.append_assoc, mem_cons, mem_append, not_or,
      length_cons, length_append] at hdst hfuel
    obtain ⟨⟨suspends, hopen⟩, hclose, hfirst, hsecond, hrest⟩ := hshaped
    obtain ⟨d, hnode, hdkind, hnext, _⟩ := node_of_kindOf hopen
    obtain ⟨e, hend, hekind, hnext', _⟩ := node_of_kindOf hclose
    obtain _ | fuel := fuel
    · omega
    exact fork hnode (Ne.symm hdst.1) hdkind (hnext.trans h.nextOf_fork) hend hekind
      (by simp [Node.firstNext, hnext', h.nextOf_join])
      (iha h.fork_first hfirst hca ha fuel (by omega))
      (ihb h.fork_second hsecond hcb hb fuel (by omega))
      (ihr h.fork_rest hrest hdst.2.2.2.2 hr fuel (by omega))

section Walk

open CoroutineIR.Action

variable {σ τ : Type} (walk : Nat → NodeId → τ → Action ε σ PUnit) (goal : NodeId → τ)
  (Done : List NodeId → σ → Prop) (full : List NodeId)

/-- A walk over a laid strand that deals with one node after the other in the order of the tour. -/
theorem Lays.yields_walk (hgoal : ∀ {n m}, goal n = goal m → n = m)
    (hend : ∀ {fuel c s post}, post () s → Yields (walk fuel c (goal c)) s post)
    (hone : ∀ {fuel n x stop l s post}, l ++ [n] <+: full → r.nextOf n = [x] → goal n ≠ stop →
      Done l s → (∀ s', Done (l ++ [n]) s' → Yields (walk fuel x stop) s' post) →
      Yields (walk (fuel + 1) n stop) s post) (hfork : ∀ {fuel n x y c suspends stop l s post}, l ++
      [n] <+: full → r.nextOf n = [x, y] → r.kindOf n = some (.enter .cond ⟨c, suspends⟩) → goal n ≠
      stop → Done l s → (∀ s', Done (l ++ [n]) s' → Yields (walk fuel y (goal c)) s' fun _ s'' =>
        (∃ l', Done l' s'') ∧ Yields (walk fuel x stop) s'' post) →
          Yields (walk (fuel + 1) n stop) s post)
    {u : Strand} {src dst : Port} {stop : τ} {l : List NodeId} {s : σ} {m fuel : Nat}
      {post : PUnit → σ → Prop}
    (h : r.Lays src u dst) (hshaped : u.Shaped r.kindOf) (hnodup : u.nodes.Nodup)
      (hstop : ∀ n ∈ u.nodes, goal n ≠ stop)
    (hfull : l ++ u.tour <+: full) (hs : Done l s) (hfuel : m + u.nodes.length ≤ fuel)
    (hk : ∀ s' fuel', m ≤ fuel' → Done (l ++ u.tour) s' → Yields (walk fuel' dst.1 stop) s' post) :
    Yields (walk fuel (u.entryPort dst).1 stop) s post := by
  have hfront : ∀ {l l' : List NodeId}, l ++ l' <+: full → l <+: full :=
    fun hl => (prefix_append ..).trans hl
  induction u generalizing src dst stop l s m fuel post with
  | done => exact hk s fuel (by simpa [Strand.nodes] using hfuel) (by simpa [Strand.tour] using hs)
  | leaf n rest ih =>
    rw [Strand.tour, append_cons] at hfull hk
    simp only [Strand.nodes, nodup_cons, forall_mem_cons, length_cons] at hnodup hstop hfuel
    obtain _ | fuel := fuel
    · omega
    refine hone (hfront hfull) h.nextOf_leaf hstop.1 hs fun s₁ hs₁ => ?_
    exact ih h.leaf_rest hshaped.2 hnodup.2 hstop.2 hfull hs₁ (by omega) hk
  | region o c body rest ihb ihr =>
    obtain ⟨-, -, hbody, hrest⟩ := hshaped
    obtain ⟨hnb, hnr, -⟩ := Strand.nodup_region hnodup
    rw [show l ++ (Strand.region o c body rest).tour =
      l ++ [o] ++ body.tour ++ [c] ++ rest.tour by simp [Strand.tour]] at hfull hk
    simp only [Strand.forall_region] at hstop
    simp only [Strand.nodes, length_append, length_cons] at hfuel
    obtain _ | fuel := fuel
    · omega
    refine hone (hfront (hfront (hfront hfull))) h.nextOf_opener hstop.1 hs fun s₁ hs₁ => ?_
    refine ihb (m := m + 1 + rest.nodes.length) h.region_body hbody hnb hstop.2.1
      (hfront (hfront hfull)) hs₁ (by omega) fun s₂ fuel₂ hfuel₂ hs₂ => ?_
    obtain _ | fuel₂ := fuel₂
    · omega
    refine hone (hfront hfull) h.nextOf_closer hstop.2.2.1 hs₂ fun s₃ hs₃ => ?_
    exact ihr h.region_rest hrest hnr hstop.2.2.2 hfull hs₃ (by omega) hk
  | fork o c first second rest iha ihb ihr =>
    obtain ⟨⟨suspends, hkind⟩, -, hfirst, hsecond, hrest⟩ := hshaped
    obtain ⟨hna, hnb, hnr, -, -, -, -, -, hcb, -⟩ := Strand.nodup_fork hnodup
    rw [show l ++ (Strand.fork o c first second rest).tour =
        l ++ [o] ++ second.tour ++ first.tour ++ [c] ++ rest.tour by
      simp [Strand.tour]] at hfull hk
    simp only [Strand.forall_fork] at hstop
    simp only [Strand.nodes, length_append, length_cons] at hfuel
    obtain _ | fuel := fuel
    · omega
    refine hfork (hfront (hfront (hfront (hfront hfull)))) h.nextOf_fork hkind hstop.1 hs
      fun s₁ hs₁ => ?_
    refine ihb (m := 0) h.fork_second hsecond hnb (fun n hn heq => hcb (hgoal heq ▸ hn))
      (hfront (hfront (hfront hfull))) hs₁ (by omega) fun s₂ fuel₂ _ hs₂ => hend ⟨⟨_, hs₂⟩, ?_⟩
    refine iha (m := m + 1 + rest.nodes.length) h.fork_first hfirst hna hstop.2.1
      (hfront (hfront hfull)) hs₂ (by omega) fun s₃ fuel₃ hfuel₃ hs₃ => ?_
    obtain _ | fuel₃ := fuel₃
    · omega
    refine hone (hfront hfull) h.nextOf_join hstop.2.2.2.1 hs₃ fun s₄ hs₄ => ?_
    exact ihr h.fork_rest hrest hnr hstop.2.2.2.2 hfull hs₄ (by omega) hk

end Walk

/-- The walk that derives depths lists the branches of the strand it walks along. -/
theorem branchDepthsWithin_eq {src dst : Port} {t : Strand} (h : r.Lays src t dst)
    (hshaped : t.Shaped r.kindOf) (hdst : dst.1 ∉ t.nodes) (hnodup : t.nodes.Nodup) (fuel : Nat)
    (hfuel : t.nodes.length < fuel) (enclosing : List NodeId) : r.branchDepthsWithin fuel
    (some (t.entryPort dst).1) dst.1 enclosing = .ok (t.depths r.kindOf enclosing) := by
  refine h.walk_induction (motive := fun fuel dst t => ∀ enclosing,
    r.branchDepthsWithin fuel (some (t.entryPort dst).1) dst.1 enclosing = .ok
    (t.depths r.kindOf enclosing)) (fun fuel dst enclosing => ?_) (fun hnode hne hregion _ hfirst
    hwalk enclosing => ?_) (fun hnode hne hkind hnext hend _ hfirst hinner hbehind enclosing => ?_)
    (fun hnode hne hkind hnext hend _ hfirst hthen helse hbehind enclosing => ?_) hshaped hdst
    hnodup fuel hfuel enclosing <;> rw [branchDepthsWithin.eq_def]
  · simp [Strand.depths]
  · simp only [Strand.entryPort_leaf, if_neg hne, node_eq_ok_iff.mpr hnode, Attempt.ok_bind,
      hregion, hfirst, hwalk, Strand.depths, kindOf_eq hnode, Attempt.pure_eq_ok]
    rfl
  · simp only [Strand.entryPort_region, if_neg hne, node_eq_ok_iff.mpr hnode, hkind,
      NodeKind.region?, hnext, node_eq_ok_iff.mpr hend, hfirst, Attempt.ok_bind, mapM_cons,
      mapM_nil, hinner, hbehind, Attempt.pure_eq_ok, branch?, Strand.depths]
    simp
  · simp only [Strand.entryPort_fork, if_neg hne, node_eq_ok_iff.mpr hnode, hkind, NodeKind.region?,
      hnext, node_eq_ok_iff.mpr hend, hfirst, Attempt.ok_bind, mapM_cons, mapM_nil, hthen, helse,
      hbehind, Attempt.pure_eq_ok, branch?, Strand.depths]
    simp

namespace Streams

variable {exit : NodeId} {t : Strand}

variable (h : r.Streams exit t)
include h

theorem exit_eq : r.exit = .ok exit := by
  obtain ⟨name, sig, suspends, hkind⟩ := h.entry_kind
  obtain ⟨d, hnode, hdkind, _⟩ := node_of_kindOf hkind
  simp only [Routine.exit, definition, node_eq_ok_iff.mpr hnode, Attempt.ok_bind, hdkind,
    Attempt.pure_eq_ok]

theorem length_le_size : t.nodes.length + 2 ≤ r.nodes.size := by
  have hsub : (r.live exit t) ⊆ List.range r.nodes.size := fun n hn =>
    mem_range.mpr (h.lt_size hn)
  have hlength := (subperm_of_subset h.nodup hsub).length_le
  rw [length_range] at hlength
  exact hlength

theorem nextOf_entry : r.nextOf r.entry = [(t.entryPort (exit, 0)).1] :=
  eq_singleton h.entry_degrees.2 h.entry.1

theorem prevOf_exit : r.prevOf exit = [(t.exitPort (r.entry, 0)).1] :=
  eq_singleton h.exit_degrees.1 h.exit.2

/-- What is neither the definition nor the end of a region stands between the ends of the stream. -/
theorem mem_of_kindOf
    (hn : n ∈ r.live exit t) (hkind : r.kindOf n = some kind)
    (hends : ∀ name sig region o, kind ≠ .define name sig region ∧ kind ≠ .close o) :
    n ∈ t.nodes := by
  obtain ⟨name, sig, suspends, hentry⟩ := h.entry_kind
  rcases mem_cons.mp hn with rfl | hn
  · exact absurd (some.inj (hkind.symm.trans hentry)) (hends _ _ _ exit).1
  rcases mem_cons.mp hn with rfl | hn
  · exact absurd (some.inj (hkind.symm.trans h.exit_kind)) (hends name sig ⟨n, suspends⟩ _).2
  · exact hn

/-- A walk over the body of a routine starts at its entry, with fuel for every node. -/
theorem exists_walk : ∃ d, r.nodes[r.entry]? = some d ∧
    d.firstNext = some (t.entryPort (exit, 0)).1 ∧ t.nodes.length < r.walkFuel := by
  obtain ⟨name, sig, suspends, hkind⟩ := h.entry_kind
  obtain ⟨d, hnode, _, hnext, _⟩ := node_of_kindOf hkind
  refine ⟨d, hnode, by simp [Node.firstNext, hnext, h.nextOf_entry], ?_⟩
  have := h.length_le_size
  have := r.size_lt_walkFuel
  omega

theorem branchDepths_eq : r.branchDepths = .ok (t.depths r.kindOf [r.entry]) := by
  obtain ⟨d, hnode, hfirst, hfuel⟩ := h.exists_walk
  simp only [branchDepths, node_eq_ok_iff.mpr hnode, h.exit_eq, hfirst, Attempt.ok_bind]
  exact branchDepthsWithin_eq h.toLays h.shaped h.exit_not_mem h.nodup_nodes _ hfuel [r.entry]

end Streams

end Routine

end CoroutineIR
