import CoroutineIR.Proofs.Structure
import Mathlib.Tactic.Set

/-!
# Replacing a part of the stream

Edits inside a part of a stream that leave the edges around it alone put another part in its place.
In this way the arms of a conditional are exchanged, its second arm is cut off, and whole regions
are taken out.
-/

namespace CoroutineIR

open List CoroutineIR.Action Strand

namespace Strand.Context

variable (C : Context) {u : Strand} {n : NodeId}

/-- The nodes around a part are those of the whole without the part. -/
theorem perm_plug (u : Strand) : (C.plug u).nodes.Perm (u.nodes ++ (C.plug .done).nodes) := by
  obtain ⟨before, behind, hnodes⟩ := C.nodes_plug
  rw [hnodes u, hnodes .done, nodes, append_nil, ← List.append_assoc]
  exact (perm_append_comm).append_right _

/-- The same with two nodes in front. -/
theorem perm_stream (n m : NodeId) (u : Strand) :
    (n :: m :: (C.plug u).nodes).Perm (u.nodes ++ n :: m :: (C.plug .done).nodes) :=
  ((C.perm_plug u).cons m |>.cons n).trans (perm_append_comm_assoc [n, m] _ _)

/-- What another part in the place of a part leaves out. -/
theorem perm_replace {u' : Strand} (gone : List NodeId) (h : u.nodes.Perm (gone ++ u'.nodes))
    (n m : NodeId) : (n :: m :: (C.plug u).nodes).Perm (gone ++ n :: m :: (C.plug u').nodes) :=
  (C.perm_stream n m u).trans ((h.append_right _).trans (by
    rw [List.append_assoc]
    exact (C.perm_stream n m u').symm.append_left gone))

theorem mem_plug : n ∈ (C.plug u).nodes ↔ n ∈ u.nodes ∨ n ∈ (C.plug .done).nodes := by
  rw [(C.perm_plug u).mem_iff, mem_append]

theorem sublist_plug {u' : Strand} (h : u'.nodes.Sublist u.nodes) :
    (C.plug u').nodes.Sublist (C.plug u).nodes := by
  obtain ⟨before, behind, hnodes⟩ := C.nodes_plug
  rw [hnodes, hnodes]
  exact ((Sublist.refl _).append h).append (Sublist.refl _)

/-- A part is entered from outside. -/
theorem source_mem (src : Port) : (C.source src).1 ∈ src.1 :: (C.plug .done).nodes := by
  induction C with
  | hole => exact mem_cons_self
  | inside f C ih =>
    rw [source, plug, mem_cons, C.mem_plug]
    rw [mem_cons] at ih
    cases f with
    | behind t =>
      rcases exitPort_cases (C.source src) t with ⟨n, hn, heq⟩ | ⟨-, heq⟩
      · simp [Frame.source, Frame.fill, heq, hn]
      · simp only [Frame.source, heq]
        tauto
    | body o c rest | first o c b rest | second o c a rest => simp [Frame.source, Frame.fill]

/-- A part is left to outside. -/
theorem target_mem (dst : Port) : (C.target dst).1 ∈ dst.1 :: (C.plug .done).nodes := by
  induction C with
  | hole => exact mem_cons_self
  | inside f C ih =>
    rw [target, plug, mem_cons, C.mem_plug]
    rw [mem_cons] at ih
    cases f with
    | behind t =>
      simp only [Frame.target]
      tauto
    | body o c rest | first o c b rest | second o c a rest => simp [Frame.target, Frame.fill]

end Strand.Context

namespace Routine

variable {r : Routine} {exit o c : NodeId} {t : Strand} {C : Strand.Context}
    {u a b rest : Strand} {src dst : Port}

/-- The nodes a part is entered from and left to are outside. -/
theorem Carries.ports_not_mem (h : r.Carries exit (C.plug u)) :
    (C.source (r.entry, 0)).1 ∉ u.nodes ∧ (C.target (exit, 0)).1 ∉ u.nodes := by
  obtain ⟨-, -, hdisjoint⟩ := nodup_append.mp ((C.perm_stream r.entry exit u).nodup_iff.mp h.nodup)
  constructor
  · refine fun hmem => hdisjoint _ hmem _ ?_ rfl
    rcases mem_cons.mp (C.source_mem (r.entry, 0)) with heq | hmem'
    · rw [heq]
      exact mem_cons_self
    · simp [hmem']
  · refine fun hmem => hdisjoint _ hmem _ ?_ rfl
    rcases mem_cons.mp (C.target_mem (exit, 0)) with heq | hmem'
    · rw [heq]
      exact mem_cons_of_mem _ mem_cons_self
    · simp [hmem']

/-! ### The arms of a conditional -/

/-- The routine with the edges from `o` into the arms of a conditional and those from the arms to
`c` changed alike. -/
def rearmed (r : Routine) (f : List NodeId → List NodeId) (o c : NodeId) : Routine :=
  (r.alter o fun d => { d with next := f d.next }).alter c fun d => { d with prev := f d.prev }

section Rearmed

variable {f : List NodeId → List NodeId}

theorem nextOf_rearmed (ho : o < r.nodes.size) (m : NodeId) :
    (r.rearmed f o c).nextOf m = if m = o then f (r.nextOf m) else r.nextOf m := by
  unfold rearmed
  rw [nextOf_alter_of_eq (by intro d; rfl), nextOf_alter (g := f) (fun _ => rfl) ho]

theorem prevOf_rearmed (hc : c < r.nodes.size) (m : NodeId) :
    (r.rearmed f o c).prevOf m = if m = c then f (r.prevOf m) else r.prevOf m := by
  unfold rearmed
  rw [prevOf_alter (g := f) (fun _ => rfl) (by simpa using hc),
    prevOf_alter_of_eq (by intro d; rfl)]

end Rearmed

/-- The wires around a part are at none of its nodes. -/
theorem Carries.around (h : r.Carries exit (C.plug u)) {before behind : List Wire}
    (hwires : ∀ v : Strand, (C.plug v).wires (r.entry, 0) (exit, 0) =
      before ++ v.wires (C.source (r.entry, 0)) (C.target (exit, 0)) ++ behind) {n : NodeId}
    (hn : n ∈ u.nodes) : (heads before n = [] ∧ heads behind n = []) ∧
    Strand.tails before n = [] ∧ Strand.tails behind n = [] := by
  obtain ⟨-, -, hdisjoint⟩ := nodup_append.mp ((C.perm_stream r.entry exit u).nodup_iff.mp h.nodup)
  have hfar : ∀ w ∈ before ++ behind, w.1.1 ≠ n ∧ w.2.1 ≠ n := fun w hw => by
    have hmem : w ∈ (C.plug .done).wires (r.entry, 0) (exit, 0) := by
      rw [hwires]
      rcases mem_append.mp hw with hw | hw <;> simp [hw]
    obtain ⟨hs, ht⟩ := ends_mem hmem
    exact ⟨fun heq => hdisjoint n hn _ hs heq.symm, fun heq => hdisjoint n hn _ ht heq.symm⟩
  rw [forall_mem_append] at hfar
  exact ⟨⟨heads_eq_nil fun w hw => (hfar.1 w hw).1, heads_eq_nil fun w hw => (hfar.2 w hw).1⟩,
    tails_eq_nil fun w hw => (hfar.1 w hw).2, tails_eq_nil fun w hw =>
    (hfar.2 w hw).2⟩

theorem Carries.fork_lt (h : r.Carries exit (C.plug (.fork o c a b rest))) :
    o < r.nodes.size ∧ c < r.nodes.size :=
  ⟨h.part_nodes.2 o (by simp), h.part_nodes.2 c (by simp)⟩

/-- Another part in the place of a conditional that differs in the edges into the arms and out of
them. -/
theorem Carries.rearmed {f : List NodeId → List NodeId} (gone : List NodeId)
    (h : r.Carries exit (C.plug (.fork o c a b rest)))
    (hnodes : (Strand.fork o c a b rest).nodes.Perm (gone ++ u.nodes))
    (hpart : ∀ src dst m, src.1 ≠ o → dst.1 ≠ c → m ∉ gone → (heads (u.wires src dst) m =
      if m = o then f (heads ((Strand.fork o c a b rest).wires src dst) m) else heads
      ((Strand.fork o c a b rest).wires src dst) m) ∧ Strand.tails (u.wires src dst) m =
      if m = c then f (Strand.tails ((Strand.fork o c a b rest).wires src dst) m)
      else Strand.tails ((Strand.fork o c a b rest).wires src dst) m) :
    (r.rearmed f o c).Carries exit (C.plug u) := by
  obtain ⟨before, behind, hwires⟩ := C.wires_plug (r.entry, 0) (exit, 0)
  obtain ⟨hsource, htarget⟩ := h.ports_not_mem
  obtain ⟨ho, hc⟩ := h.fork_lt
  have hperm := C.perm_replace gone hnodes r.entry exit
  obtain ⟨-, hnodup, hdisjoint⟩ := nodup_append.mp (hperm.nodup_iff.mp h.nodup)
  refine carries_iff.mpr ⟨hnodup, fun m hm => ?_⟩
  obtain ⟨hnext, hprev⟩ := h.lists (hperm.mem_iff.mpr (mem_append_right _ hm))
  obtain ⟨hheads, htails⟩ :=
    hpart (C.source (r.entry, 0)) (C.target (exit, 0)) m (fun heq => hsource (heq ▸ by simp))
    (fun heq => htarget (heq ▸ by simp)) fun hmem => hdisjoint m hmem m hm rfl
  rw [Lists, nextOf_rearmed ho, prevOf_rearmed hc, hnext, hprev,
    show (r.rearmed f o c).entry = r.entry from rfl, hwires, hwires]
  simp only [heads_append, Strand.tails_append, hheads, htails]
  constructor
  · by_cases hmo : m = o
    · subst hmo
      simp [(h.around hwires (n := m) (by simp)).1]
    · simp [hmo]
  · by_cases hmc : m = c
    · subst hmc
      simp [(h.around hwires (n := m) (by simp)).2]
    · simp [hmc]

/-- A conditional with its arms swapped. -/
theorem Carries.swapped (h : r.Carries exit (C.plug (.fork o c a b rest))) :
    (r.rearmed swapFront o c).Carries exit (C.plug (.fork o c b a rest)) := by
  obtain ⟨-, -, -, hoc, hoa, hob, hor, hca, hcb, hcr, hab, -⟩ := nodup_fork h.part_nodes.1
  refine h.rearmed [] ?_ fun src dst m hsrc hdst _ => ?_
  · simp only [Strand.nodes, cons_append, List.append_assoc]
    exact (perm_append_comm_assoc _ _ _).cons o
  have hswap (t : Strand) :
      heads (t.wires (o, 0) (c, 0)) m = heads (t.wires (o, 1) (c, 1)) m ∧
      Strand.tails (t.wires (o, 0) (c, 0)) m = Strand.tails (t.wires (o, 1) (c, 1)) m :=
      neighbours_congr rfl rfl
  simp only [Strand.wires, cons_append, List.append_assoc, heads_append, Strand.tails_append,
    heads_cons, Strand.tails_cons, (hswap a).1, (hswap a).2, (hswap b).1, (hswap b).2]
  constructor
  · by_cases hmo : m = o
    · subst hmo
      simp [Ne.symm hsrc, hoc, heads_wires hoa, heads_wires hob, heads_wires hor, swapFront]
    · by_cases ha : m ∈ a.nodes
      · simp [hmo, heads_wires (hab m ha).1]
      · simp [hmo, heads_wires ha]
  · by_cases hmc : m = c
    · subst hmc
      simp [Ne.symm hdst, Ne.symm hoc, tails_wires hca, tails_wires hcb, tails_wires hcr, swapFront]
    · by_cases ha : m ∈ a.nodes
      · simp [hmc, tails_wires (hab m ha).1]
      · simp [hmc, tails_wires ha]

/-- A conditional without its second arm. -/
theorem Carries.armCut (h : r.Carries exit (C.plug (.fork o c a b rest))) :
    (r.rearmed (List.take 1) o c).Carries exit (C.plug (.region o c a rest)) := by
  obtain ⟨-, -, -, hoc, hoa, -, hor, hca, -, hcr, -⟩ := nodup_fork h.part_nodes.1
  refine h.rearmed b.nodes ?_ fun src dst m hsrc hdst hmb => ?_
  · simp only [Strand.nodes, cons_append, List.append_assoc]
    exact ((perm_append_comm_assoc _ _ _).cons o).trans perm_middle.symm
  simp only [Strand.wires, cons_append, List.append_assoc, heads_append, Strand.tails_append,
    heads_cons, Strand.tails_cons, heads_wires hmb, tails_wires hmb]
  constructor
  · by_cases hmo : m = o
    · subst hmo
      simp [Ne.symm hsrc, hoc, heads_wires hoa, heads_wires hor]
    · simp [hmo]
  · by_cases hmc : m = c
    · subst hmc
      simp [Ne.symm hdst, Ne.symm hoc, tails_wires hca, tails_wires hcr]
    · simp [hmc]

/-! ### Taking a range out -/

/-- The routine with the range from `o` to `c`, entered from the port `p` and left to the port `q`,
taken out. -/
def excised (r : Routine) (o c : NodeId) (p q : Port) : Routine :=
  (((r.alter p.1 fun d => { d with next := d.next.set p.2 q.1 }).alter q.1
    fun d => { d with prev := d.prev.set q.2 p.1 }).alter o ({ · with prev := [] })).alter c
    ({ · with next := [] })

section Excised

variable {p q : Port}

theorem nextOf_excised (hc : c < r.nodes.size) (hp : p.1 < r.nodes.size) (m : NodeId) :
    (r.excised o c p q).nextOf m =
      if m = c then [] else if m = p.1 then (r.nextOf m).set p.2 q.1 else r.nextOf m := by
  unfold excised
  rw [nextOf_alter (g := fun _ => []) (fun _ => rfl) (by simpa using hc),
    nextOf_alter_of_eq (by intro d; rfl),
    nextOf_alter_of_eq (by intro d; rfl),
    nextOf_alter (g := fun l => l.set p.2 q.1) (fun _ => rfl) hp]

theorem prevOf_excised (ho : o < r.nodes.size) (hq : q.1 < r.nodes.size) (m : NodeId) :
    (r.excised o c p q).prevOf m =
      if m = o then [] else if m = q.1 then (r.prevOf m).set q.2 p.1 else r.prevOf m := by
  unfold excised
  rw [prevOf_alter_of_eq (by intro d; rfl),
    prevOf_alter (g := fun _ => []) (fun _ => rfl) (by simpa using ho),
    prevOf_alter (g := fun l => l.set q.2 p.1) (fun _ => rfl) (by simpa using hq),
    prevOf_alter_of_eq (by intro d; rfl)]

end Excised

/-- A part that is entered at `o` and left from `c`, taken out of what stands in front of the rest.
-/
theorem Carries.excised {x : Strand} (h : r.Carries exit (C.plug (x.append rest)))
    (hentry : ∀ dst, x.entryPort dst = (o, 0)) (hexit : ∀ src, x.exitPort src = (c, 0))
    (hno : o ∈ x.nodes) (hnc : c ∈ x.nodes) : (r.excised o c (C.source (r.entry, 0))
      (rest.entryPort (C.target (exit, 0)))).Carries exit (C.plug rest) := by
  obtain ⟨before, behind, hwires⟩ := C.wires_plug (r.entry, 0) (exit, 0)
  obtain ⟨more, hmore⟩ := rest.wires_eq_cons (C.target (exit, 0))
  obtain ⟨front, hfront⟩ := (x.append rest).wires_eq_cons (C.target (exit, 0))
  have hold := hwires (x.append rest)
  have hnew := hwires rest
  rw [entryPort_append, hentry] at hfront
  generalize C.source (r.entry, 0) = p, C.target (exit, 0) = d at hold hnew hmore hfront ⊢
  have hsplit : (C.plug (x.append rest)).wires (r.entry, 0) (exit, 0) =
      before ++ (p, (o, 0)) :: (front ++ behind) := by
    rw [hold, hfront, List.append_assoc, cons_append]
  rw [wires_append, hexit, hmore, ← List.append_assoc, List.append_assoc, cons_append] at hold
  have hfirst : r.Joined (p, (o, 0)) := h.joined _ (by simp [hsplit])
  have hlast : r.Joined ((c, 0), rest.entryPort d) := h.joined _ (by simp [hold])
  have hperm : (r.live exit (C.plug (x.append rest))).Perm (x.nodes ++ r.live exit (C.plug rest)) :=
    C.perm_replace x.nodes (by rw [nodes_append]) r.entry exit
  obtain ⟨-, hnodup, hdisjoint⟩ := nodup_append.mp (hperm.nodup_iff.mp h.nodup)
  have hfrom : p.2 = (heads before p.1).length := (h.slots_eq hsplit).1
  have hto :
    (rest.entryPort d).2 = (Strand.tails (before ++ x.openWires p) (rest.entryPort d).1).length :=
    (h.slots_eq hold).2
  refine carries_iff.mpr ⟨hnodup, fun m hm => ?_⟩
  have hmx : m ∉ x.nodes := fun hmem => hdisjoint m hmem m hm rfl
  have hmo : m ≠ o := fun heq => hmx (heq ▸ hno)
  have hmc : m ≠ c := fun heq => hmx (heq ▸ hnc)
  have hopen : heads (x.openWires p) m = if m = p.1 then [o] else [] := by
    have hwire : heads (x.wires p d) m = _ := heads_wires hmx
    rw [wires_eq, heads_append, heads_cons, hexit, hentry, if_neg hmc] at hwire
    simpa [heads, wiresFrom] using hwire
  obtain ⟨hnext, hprev⟩ := h.lists (hperm.mem_iff.mpr (mem_append_right _ hm))
  rw [Lists, nextOf_excised (lt_of_next hlast.1) (lt_of_next hfirst.1),
    prevOf_excised (lt_of_prev hfirst.2) (lt_of_prev hlast.2),
    if_neg hmc, if_neg hmo, hnext, hprev, hold,
    show (r.excised o c p (rest.entryPort d)).entry = r.entry from rfl, hnew, hmore]
  simp only [cons_append, List.append_assoc, heads_append, Strand.tails_append,
    heads_cons, Strand.tails_cons, hopen, tails_openWires hmx, if_neg hmc]
  constructor
  · by_cases hp : m = p.1
    · simp [hp, hfrom]
    · simp [hp]
  · by_cases hq : m = (rest.entryPort d).1
    · rw [← hq, Strand.tails_append, tails_openWires hmx, append_nil] at hto
      simp [if_pos hq, hto]
    · simp [hq]

end Routine

namespace Edit

open Routine

variable {r : Routine} {exit o c : NodeId} {C : Strand.Context} {a b rest : Strand}
  {post : PUnit → Routine → Prop} {suspends : Bool}

/-- The closing node of a conditional with two arms. -/
theorem twoArmedClose_eq_ok_iff : r.twoArmedClose o = .ok c ↔
    ∃ region, r.kindOf o = some (.enter .cond region) ∧ region.close = c ∧ r.outDegree o = 2 ∧
    r.inDegree c = 2 := by
  constructor
  · intro h
    obtain ⟨d, hd, h⟩ := Attempt.bind_eq_ok_iff.mp h
    rw [node_eq_ok_iff] at hd
    split at h
    · rename_i region hkind
      split at h
      · exact absurd h Attempt.refuse_ne_ok
      · rename_i hnext
        obtain ⟨dc, hdc, h⟩ := Attempt.bind_eq_ok_iff.mp h
        rw [node_eq_ok_iff] at hdc
        split at h
        · exact absurd h Attempt.refuse_ne_ok
        · rename_i hprev
          obtain rfl : region.close = c := Except.ok.inj h
          refine ⟨region, by rw [kindOf_eq hd, hkind], rfl, ?_, ?_⟩
          · rw [outDegree, nextOf_eq hd, not_not.mp hnext]
          · rw [inDegree, prevOf_eq hdc, not_not.mp hprev]
    · exact absurd h Attempt.refuse_ne_ok
  · rintro ⟨region, hkind, rfl, hout, hin⟩
    obtain ⟨d, hd, hdkind, hdnext, -⟩ := node_of_kindOf hkind
    obtain ⟨dc, hdc⟩ : ∃ dc, r.nodes[region.close]? = some dc :=
      ⟨_, Array.getElem?_eq_getElem
        (lt_of_prev (getElem?_eq_getElem (show 0 < r.inDegree _ by omega)))⟩
    rw [outDegree, ← hdnext] at hout
    rw [inDegree, prevOf_eq hdc] at hin
    simp only [twoArmedClose, node_eq_ok_iff.mpr hd, Attempt.ok_bind, hdkind, hout,
      node_eq_ok_iff.mpr hdc, hin]
    rfl

/-- A conditional without two arms is refused, unless its closing node is not there. -/
theorem twoArmedClose_eq_error {e : Fault IrError}
    (ho : o < r.nodes.size) (h : r.twoArmedClose o = .error e) :
    (e = .aborted .missing ∧ ∃ region, r.kindOf o = some (.enter .cond region) ∧
      r.nodes.size ≤ region.close) ∨ ∃ reason, e = .refused reason := by
  have hd := Array.getElem?_eq_getElem ho
  simp only [twoArmedClose, node_eq_ok_iff.mpr hd, bind, Except.bind] at h
  split at h
  · rename_i region hkind
    split at h
    · exact Or.inr ⟨_, (Except.error.inj h).symm⟩
    rcases Nat.lt_or_ge region.close r.nodes.size with hc | hc
    · rw [node_eq_ok_iff.mpr (Array.getElem?_eq_getElem hc)] at h
      dsimp only at h
      split at h
      · exact Or.inr ⟨_, (Except.error.inj h).symm⟩
      · cases h
    · rw [show r.node region.close = .error (.aborted .missing) by
        simp [Routine.node, Arena.fetch, Attempt.present, Attempt.abort, Array.getElem?_eq_none hc]]
          at h
      exact Or.inl ⟨(Except.error.inj h).symm, region, by rw [kindOf_eq hd, hkind], hc⟩
  · exact Or.inr ⟨_, (Except.error.inj h).symm⟩

variable (h : r.Carries exit (C.plug (.fork o c a b rest)))
    (hkind : r.kindOf o = some (.enter .cond ⟨c, suspends⟩))
include h hkind

theorem twoArmedClose_eq : r.twoArmedClose o = .ok c := by
  refine twoArmedClose_eq_ok_iff.mpr ⟨_, hkind, rfl, ?_, ?_⟩
  · rw [outDegree, h.part.nextOf_fork]
    rfl
  · rw [inDegree, h.part.prevOf_join]
    rfl

theorem yields_swapBranches : Yields (Edit.swapBranches o) r post ↔ post ()
    (r.rearmed swapFront o c) := by
  obtain ⟨ho, hc⟩ := h.fork_lt
  simp [Edit.swapBranches, twoArmedClose_eq h hkind, ho, hc, rearmed]

theorem yields_dropElse : Yields (Edit.dropElse o) r post ↔ post ()
    (r.rearmed (List.take 1) o c) := by
  obtain ⟨ho, hc⟩ := h.fork_lt
  simp [Edit.dropElse, twoArmedClose_eq h hkind, ho, hc, rearmed]

omit h hkind

/-- Taking out the range between two nodes of which the one is entered and the other is left by a
single edge. -/
theorem yields_unlinkRange {p q : Port} (hin : r.Matched (p, (o, 0))) (hprev : r.prevOf o = [p.1])
    (hout : r.Matched ((c, 0), q)) (hnext : r.nextOf c = [q.1]) :
    Yields (Edit.unlinkRange o c) r post ↔ post () (r.excised o c p q) := by
  have ho := lt_of_prev hin.joined.2
  have hc := lt_of_next hout.joined.1
  have hp := lt_of_next hin.joined.1
  have hq := lt_of_prev hout.joined.2
  have hslot := hin.nthSlot_next
  have hslot' := hout.nthSlot_prev
  simp only [nextOf_eq (Array.getElem?_eq_getElem hp), prevOf_eq (Array.getElem?_eq_getElem ho),
    nextOf_eq (Array.getElem?_eq_getElem hc), prevOf_eq (Array.getElem?_eq_getElem hq),
    occurrencesBefore, take_zero, count_nil] at hprev hnext hslot hslot'
  simp only [Edit.unlinkRange, yields_bind, yields_node, Array.getElem?_eq_getElem ho,
    Array.getElem?_eq_getElem hc, Array.getElem?_eq_getElem hp, Array.getElem?_eq_getElem hq,
    exists_some_eq, hprev, hnext, hslot, hslot', yields_changeNode, size_alter]
  exact ⟨fun hpost => hpost.2.2.2.2, fun hpost => ⟨hp, hq, ho, hc, hpost⟩⟩

/-- Taking out a part that is entered and left by one edge. -/
theorem yields_unlinkRange_part {x : Strand} (h : r.Carries exit (C.plug (x.append rest)))
    (hentry : ∀ dst, x.entryPort dst = (o, 0)) (hexit : ∀ src, x.exitPort src = (c, 0))
    (hin : r.inDegree o = 1) (hout : r.outDegree c = 1) : Yields (Edit.unlinkRange o c) r post ↔
    post () (r.excised o c (C.source (r.entry, 0)) (rest.entryPort (C.target (exit, 0)))) := by
  obtain ⟨before, behind, hwires⟩ := C.wires_plug (r.entry, 0) (exit, 0)
  have hfirst :
      (C.source (r.entry, 0), (o, 0)) ∈ (C.plug (x.append rest)).wires (r.entry, 0) (exit, 0) := by
    have hmem := Strand.entry_mem_wires (C.source (r.entry, 0)) (x.append rest) (C.target (exit, 0))
    rw [entryPort_append, hentry] at hmem
    rw [hwires]
    simp [hmem]
  have hlast : ((c, 0), rest.entryPort (C.target (exit, 0))) ∈
      (C.plug (x.append rest)).wires (r.entry, 0) (exit, 0) := by
    have hmem := Strand.entry_mem_wires (c, 0) rest (C.target (exit, 0))
    rw [hwires, wires_append, hexit]
    simp [hmem]
  exact yields_unlinkRange (h.matched hfirst) (eq_singleton hin (h.joined _ hfirst).2)
    (h.matched hlast) (eq_singleton hout (h.joined _ hlast).1)

end Edit

end CoroutineIR
