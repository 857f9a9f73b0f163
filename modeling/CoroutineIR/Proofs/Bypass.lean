import CoroutineIR.Proofs.Execution

/-!
# Taking a node out of the stream

A node that control just passes through can be taken out of the stream. What is left is a stream
again, and its flow is that of the old one with the node skipped.
-/

namespace CoroutineIR

open List Option CoroutineIR.Action

theorem NodeKind.isPlain_landing {kind : NodeKind} (h : kind.isPlain = true) :
    kind.isLanding = false := by
  cases kind <;> simp_all [isPlain, isLanding]

namespace Strand

variable {kinds : NodeId → Option NodeKind} {n : NodeId} {t : Strand} {kind : NodeKind}

theorem Shaped.exists_plug (h : t.Shaped kinds) (hn : n ∈ t.nodes) (hkind : kinds n = some kind)
    (hplain : kind.isPlain = true) : ∃ (C : Context) (rest : Strand), t = C.plug (.leaf n rest) :=
  h.exists_leaf hn hkind (by cases kind <;> simp_all [NodeKind.isPlain])
    (by cases kind <;> simp_all [NodeKind.isPlain])

end Strand

namespace Routine

variable {r r' : Routine} {exit n m d p s : NodeId} {t t' : Strand} {kind : NodeKind} {holds : Bool}

/-- The routine `r'` is `r` with the node `d`, which stands between `p` and `s`, taken out of the
stream. Its nodes may have got other operands and destinations. -/
structure Bypasses (r r' : Routine) (exit : NodeId) (t t' : Strand) (d p s : NodeId) : Prop where
  streams : r'.Streams exit t'
  branches : t'.BranchesFit r'.kindOf [r'.entry]
  size : r'.nodes.size = r.nodes.size
  entry : r'.entry = r.entry
  kinds : ∀ m, r'.kindOf m = r.kindOf m
  plug : ∃ (C : Strand.Context) (rest : Strand), t = C.plug (.leaf d rest) ∧ t' = C.plug rest
  sub : t'.nodes.Sublist t.nodes
  nodes : t.nodes.Perm (d :: t'.nodes)
  nextOf : r.nextOf d = [s]
  prevOf : r.prevOf d = [p]
  detached : r'.Detached d
  stays : ∀ m, r.Detached m → r'.Detached m
  edges : ∀ m ∈ r'.entry :: exit :: t'.nodes, r'.nextOf m = (r.nextOf m).map fun k =>
    if k = d then s else k
  edges_back : ∀ m ∈ r'.entry :: exit :: t'.nodes, r'.prevOf m = (r.prevOf m).map fun k =>
    if k = d then p else k

/-- The stream is the same. Nodes may have got other operands and destinations. -/
structure SameStream (r r' : Routine) : Prop where
  size : r'.nodes.size = r.nodes.size
  entry : r'.entry = r.entry
  kinds : ∀ m, r'.kindOf m = r.kindOf m
  nextOf : ∀ m, r'.nextOf m = r.nextOf m
  prevOf : ∀ m, r'.prevOf m = r.prevOf m

namespace SameStream

variable {r'' : Routine}

theorem refl (r : Routine) : r.SameStream r := ⟨rfl, rfl, fun _ => rfl, fun _ => rfl, fun _ => rfl⟩

theorem trans (h : r.SameStream r') (h' : r'.SameStream r'') : r.SameStream r'' :=
  ⟨h'.size.trans h.size, h'.entry.trans h.entry, fun m => (h'.kinds m).trans (h.kinds m),
    fun m => (h'.nextOf m).trans (h.nextOf m), fun m => (h'.prevOf m).trans (h.prevOf m)⟩

theorem alterVar (v : VarId) (f : Variable → Variable) : r.SameStream (r.alterVar v f) :=
  ⟨rfl, rfl, fun _ => rfl, fun _ => rfl, fun _ => rfl⟩

theorem alter (n : NodeId) {f : Node → Node} (hkind : ∀ d, (f d).kind = d.kind)
    (hnext : ∀ d, (f d).next = d.next) (hprev : ∀ d, (f d).prev = d.prev) :
    r.SameStream (r.alter n f) := by
  refine ⟨size_alter r n f, rfl, fun m => ?_, fun m => nextOf_alter_of_eq hnext,
    fun m => prevOf_alter_of_eq hprev⟩
  rw [kindOf, kindOf, label, label, getElem?_alter]
  split
  · cases r.nodes[m]? <;> simp [Node.unlinked, hkind]
  · rfl

/-- A routine with the same stream is shaped alike. -/
theorem streams (h : r.SameStream r') (hr : r.Streams exit t) : r'.Streams exit t where
  toCarries := hr.toCarries.congr h.entry fun n _ => ⟨h.nextOf n, h.prevOf n⟩
  shaped := by
    rw [show r'.kindOf = r.kindOf from funext h.kinds]
    exact hr.shaped
  entry_kind := by
    rw [h.entry, h.kinds]
    exact hr.entry_kind
  exit_kind := by
    rw [h.entry, h.kinds]
    exact hr.exit_kind

end SameStream

/-- What the check asks of a node by itself depends on the branches, jumps, regions and steps, and
on the conditions. -/
theorem Fits.congr {stream stream' : List NodeId} (h : r.Fits stream n)
    (hkind : ∀ kind, kind.isPlain = false → r'.kindOf n = some kind → r.kindOf n = some kind)
    (hstays : ∀ m ∈ stream, ∀ kind, kind.isPlain = false → r.kindOf m = some kind → m ∈ stream' ∧
      r'.kindOf m = some kind)
    (hcondition : ∀ e', r'.label n = some e' → e'.kind.isConditional = true →
      ∃ e, r.label n = some e ∧ e.kind.isConditional = true ∧ e'.args.length = e.args.length) :
      r'.Fits stream' n := by
  refine ⟨fun guarded goal hk => ?_, fun guarded goal hk => ?_, fun e' he' hconditional => ?_⟩
  · obtain ⟨htarget, kind, hk', hregion⟩ := h.target guarded goal (hkind _ rfl hk)
    have hregional : kind.isPlain = false := by cases kind <;> simp_all [NodeKind.isPlain]
    obtain ⟨hmem, hkept⟩ := hstays _ htarget kind hregional hk'
    exact ⟨hmem, kind, hkept, hregion⟩
  · have hlands := h.lands guarded goal (hkind _ rfl hk)
    cases goal with
    | pending => exact hlands
    | terminal => trivial
    | step m =>
      obtain ⟨hmem, name, hk'⟩ := hlands
      obtain ⟨hmem', hkept⟩ := hstays m hmem _ rfl hk'
      exact ⟨hmem', name, hkept⟩
  · obtain ⟨e, he, hconditional', hlength⟩ := hcondition e' he' hconditional
    rw [hlength]
    exact h.condition e he hconditional'

theorem exists_condition (hkinds : r'.kindOf n = r.kindOf n)
    (hargs : (r'.label n).map (fun e => e.args.length) = (r.label n).map fun e => e.args.length)
    {e' : Node} (he' : r'.label n = some e') (hconditional : e'.kind.isConditional = true) :
    ∃ e, r.label n = some e ∧ e.kind.isConditional = true ∧ e'.args.length = e.args.length := by
  rw [he'] at hargs
  obtain ⟨e, he, hlength⟩ := map_eq_some_iff.mp hargs.symm
  rw [kindOf, kindOf, he', he, map_some, map_some, some.injEq] at hkinds
  exact ⟨e, he, hkinds ▸ hconditional, hlength.symm⟩

/-- The check passes again if the operands and the counts are right. -/
theorem SameStream.wellStructured (h : r.SameStream r') (hr : r.WellStructured exit t)
    (hargs : ∀ m, (r'.label m).map (fun e => e.args.length) = (r.label m).map fun e =>
      e.args.length) (hnests : ∀ m ∈ r'.live exit t, r'.NestsDetached m)
    (hcounted : r'.Counted (r'.live exit t)) : r'.WellStructured exit t := by
  refine ⟨h.streams hr.toStreams,
    (h.streams hr.toStreams).verify_eq_ok_iff.mpr ⟨?_, fun m hm => ⟨?_, hnests m hm⟩, hcounted⟩⟩
  · rw [show r'.kindOf = r.kindOf from funext h.kinds, h.entry]
    exact hr.branchesFit
  · rw [live, h.entry] at hm ⊢
    exact (hr.fits hm).congr (fun kind _ hk => h.kinds m ▸ hk) (fun k hk kind _ hkind =>
      ⟨hk, (h.kinds k).trans hkind⟩) fun _ => exists_condition (h.kinds m) (hargs m)

section

variable (h : r.Carries exit t) (hn : n ∈ r.live exit t)
include h hn

/-- Edges are kept twice. -/
theorem Carries.mem_prevOf (hm : m ∈ r.nextOf n) : n ∈ r.prevOf m := by
  obtain ⟨slot, hslot⟩ := mem_iff_getElem?.mp hm
  obtain ⟨j, hwire⟩ := h.exists_wire hn hslot
  exact mem_of_getElem? (h.joined _ hwire).2

theorem Carries.mem_nextOf (hm : m ∈ r.prevOf n) : n ∈ r.nextOf m := by
  obtain ⟨slot, hslot⟩ := mem_iff_getElem?.mp hm
  obtain ⟨j, hwire⟩ := h.exists_wire_back hn hslot
  exact mem_of_getElem? (h.joined _ hwire).1

theorem Carries.prev_mem (hm : m ∈ r.prevOf n) : m ∈ r.live exit t := by
  obtain ⟨slot, hslot⟩ := mem_iff_getElem?.mp hm
  obtain ⟨j, hwire⟩ := h.exists_wire_back hn hslot
  exact (Strand.ends_mem hwire).1

end

/-- A node that control just passes through stands between two others. -/
theorem Streams.plain_edges (h : r.Streams exit t) (hn : n ∈ t.nodes)
    (hkind : r.kindOf n = some kind) (hplain : kind.isPlain = true) :
    ∃ p s, r.prevOf n = [p] ∧ r.nextOf n = [s] := by
  obtain ⟨C, rest, rfl⟩ := h.shaped.exists_plug hn hkind hplain
  exact ⟨_, _, h.part.prevOf_leaf, h.part.nextOf_leaf⟩

/-- Taking a node out of the stream that control just passes through. -/
theorem Streams.exists_bypass (h : r.Streams exit t) (hbranches : t.BranchesFit r.kindOf [r.entry])
    (hd : d ∈ t.nodes) (hkind : r.kindOf d = some kind) (hplain : kind.isPlain = true) :
    ∃ t' p s, r.Bypasses (r.bypassed d p s) exit t t' d p s ∧ ∀ post : PUnit → Routine → Prop,
      Yields (Edit.removeNode d) r post ↔ post () (r.bypassed d p s) := by
  obtain ⟨C, rest, rfl⟩ := h.shaped.exists_plug hd hkind hplain
  have hcarries := h.toCarries.bypassed
  set p := (C.source (r.entry, 0)).1
  set s := (rest.entryPort (C.target (exit, 0))).1
  have hkinds : (r.bypassed d p s).kindOf = r.kindOf :=
    funext fun m => by simp only [kindOf, label_bypassed]
  refine ⟨C.plug rest, p, s, ?_, fun post => Edit.yields_removeNode h.toCarries⟩
  have hnext : r.nextOf d = [s] := h.part.nextOf_leaf
  have hprev : r.prevOf d = [p] := h.part.prevOf_leaf
  have hperm := C.nodes_plug_leaf d rest
  have hmem : ∀ m ∈ r.entry :: exit :: (C.plug rest).nodes,
      m ∈ r.entry :: exit :: (C.plug (.leaf d rest)).nodes ∧ m ≠ d := by
    have hnodup := h.nodup
    have hall := C.perm_stream_leaf r.entry exit d rest
    intro m hm
    refine ⟨hall.mem_iff.mpr (mem_cons_of_mem _ hm), ?_⟩
    rintro rfl
    exact (nodup_cons.mp (hall.nodup_iff.mp hnodup)).1 hm
  have hself : ∀ (l : List NodeId) (k : NodeId), d ∉ l → l = l.map fun m =>
      if m = d then k else m := by
    intro l k hnot
    have hid : ∀ m ∈ l, (if m = d then k else m) = id m :=
      fun m hm => if_neg fun heq : m = d => hnot (heq ▸ hm)
    rw [map_congr_left hid, List.map_id]
  obtain ⟨hdlt, hplt, hslt⟩ : d < r.nodes.size ∧ p < r.nodes.size ∧ s < r.nodes.size := by
    have hd' : d ∈ r.entry :: exit :: (C.plug (.leaf d rest)).nodes := by simp [hd]
    exact ⟨h.lt_size hd', lt_of_next h.part.entry.1, h.lt_size (h.next_mem hd' (by simp [hnext]))⟩
  exact {
    streams := ⟨hcarries, by
      have hshaped := (C.shaped_plug_iff _ _).mp h.shaped
      rw [hkinds, C.shaped_plug_iff]
      exact ⟨hshaped.1, hshaped.2.2⟩,
      by rw [hkinds]; exact h.entry_kind, by rw [hkinds]; exact h.exit_kind⟩
    branches := by
      have hfit := (C.branchesFit_plug_iff _ _ _).mp hbranches
      rw [bypassed_entry, hkinds, C.branchesFit_plug_iff]
      exact ⟨hfit.1, hfit.2.2⟩
    size := size_bypassed
    entry := rfl
    kinds := fun m => congrFun hkinds m
    plug := ⟨C, rest, rfl, rfl⟩
    sub := by
      obtain ⟨before, behind, hnodes⟩ := C.nodes_plug
      rw [hnodes, hnodes]
      exact ((Sublist.refl before).append (sublist_cons_self d _)).append (Sublist.refl behind)
    nodes := hperm
    nextOf := hnext
    prevOf := hprev
    detached := by
      rw [Detached, nextOf_bypassed hdlt hplt, prevOf_bypassed hdlt hslt]
      simp
    stays := by
      rintro m ⟨hnext, hprev⟩
      rw [Detached, nextOf_bypassed hdlt hplt, prevOf_bypassed hdlt hslt, hnext, hprev]
      simp
    edges := by
      intro m hm
      obtain ⟨hm, hmd⟩ := hmem m hm
      rw [nextOf_bypassed hdlt hplt, if_neg hmd]
      split
      · rfl
      · rename_i hmp
        have hnot : d ∉ r.nextOf m := fun hd => hmp (by simpa [hprev] using h.mem_prevOf hm hd)
        exact hself _ _ hnot
    edges_back := by
      intro m hm
      obtain ⟨hm, hmd⟩ := hmem m hm
      rw [prevOf_bypassed hdlt hslt, if_neg hmd]
      split
      · rfl
      · rename_i hms
        have hnot : d ∉ r.prevOf m := fun hd => hms (by simpa [hnext] using h.mem_nextOf hm hd)
        exact hself _ _ hnot }

/-- A run stays in the stream. -/
theorem WellStructured.runFor_mem {V : Type} (h : r.WellStructured exit t) (M : Meaning V)
    (store : VarId → V) (k : Nat) : (∀ m, (r.runFor M store k).point = some m → m ∈ r.live exit t) ∧
      ∀ e ∈ (r.runFor M store k).trace, e.node ∈ r.live exit t := by
  induction k with
  | zero =>
    refine ⟨?_, by simp [runFor]⟩
    rintro m ⟨⟩
    exact mem_cons_self
  | succ k ih =>
    rw [runFor_succ]
    cases hpoint : (r.runFor M store k).point with
    | none =>
      rw [advanceRun, hpoint, elim_none]
      exact ih
    | some n =>
      have hn := ih.1 n hpoint
      rw [advanceRun, hpoint, elim_some]
      refine ⟨fun m hm => h.follow_mem hn hm, fun e he => ?_⟩
      rcases mem_append.mp he with he | he
      · exact ih.2 e he
      · rw [mem_singleton.mp he]
        exact hn

/-- From a node that control just passes through it goes to the next one. -/
theorem follow_plain (hkind : r.kindOf n = some kind) (hplain : kind.isPlain = true)
    (holds : Bool) : r.follow n holds = (r.nextOf n).head? := by
  cases kind <;> simp_all [follow, NodeKind.isPlain]

namespace Bypasses

variable (h : r.Bypasses r' exit t t' d p s)
include h

theorem mem_old (hm : m ∈ r'.live exit t') : m ∈ r.live exit t := by
  rw [live, h.entry] at hm
  exact cons_subset_cons _ (cons_subset_cons _ h.sub.subset) hm

theorem mem_new (hm : m ∈ r.live exit t) (hne : m ≠ d) : m ∈ r'.live exit t' := by
  have hnodes := h.nodes.mem_iff (a := m)
  simp only [h.entry, mem_cons] at hm hnodes ⊢
  tauto

/-- The node that is passed by has left the stream. -/
theorem ne_of_mem (hr : r.WellStructured exit t) (hm : m ∈ r'.live exit t') : m ≠ d := by
  have hd : d ∈ t.nodes := h.nodes.mem_iff.mpr mem_cons_self
  rw [live, h.entry] at hm
  rintro rfl
  rcases mem_cons.mp hm with heq | hm
  · exact hr.entry_not_mem (heq ▸ hd)
  rcases mem_cons.mp hm with heq | hm
  · exact hr.exit_not_mem (heq ▸ hd)
  · exact (nodup_cons.mp (h.nodes.nodup_iff.mp hr.nodup_nodes)).1 hm

theorem def_mem : d ∈ r.live exit t := mem_live (h.nodes.mem_iff.mpr mem_cons_self)

theorem next_ne (hr : r.WellStructured exit t) : s ≠ d := by
  have hlt := hr.idxOf_lt h.def_mem (m := s) (by simp [h.nextOf])
  rintro rfl
  exact Nat.lt_irrefl _ hlt

omit h in
/-- Where control lands it does not come to a node it just passes through. -/
theorem landing_ne (hkind : r.kindOf d = some kind) (hplain : kind.isPlain = true)
    {kind' : NodeKind} (hm : r.kindOf m = some kind')
    (hlanding : kind'.isLanding = true) : m ≠ d := by
  rintro rfl
  obtain rfl := some.inj (hkind.symm.trans hm)
  rw [NodeKind.isPlain_landing hplain] at hlanding
  cases hlanding

/-- Control skips the node taken out. -/
theorem follow (hr : r.WellStructured exit t) (hkind : r.kindOf d = some kind)
    (hplain : kind.isPlain = true) (hm : m ∈ r'.live exit t') (holds : Bool) :
    r'.follow m holds = (r.follow m holds).map fun k => if k = d then s else k := by
  have hm' := h.mem_old hm
  have hedges := h.edges m hm
  have hhead : (r'.nextOf m).head? = ((r.nextOf m).head?).map fun k => if k = d then s else k := by
    rw [hedges, head?_map]
  simp only [Routine.follow, h.kinds, hhead]
  split
  · rfl
  · rfl
  · rename_i region hk
    split
    · rfl
    · rw [hedges, getElem?_map]
      cases (r.nextOf m)[1]? with
      | some first => rfl
      | none =>
        have hne := landing_ne hkind hplain ((hr.partners hm' hk).1 region rfl) rfl
        simp [hne]
  · rename_i guarded goal hk
    obtain ⟨m₁, kind', harrival, hk₁, hlanding, -⟩ := hr.branch_landing hm' hk
    have harrival' : (r'.branchArrival goal).toOption = (r.branchArrival goal).toOption := by
      rw [branchArrival_toOption, branchArrival_toOption, h.kinds]
    rw [harrival', harrival]
    split
    · simp [landing_ne hkind hplain hk₁ hlanding]
    · rfl
  · rename_i guarded goal hk
    split
    · cases goal with
      | step m₁ =>
        obtain ⟨-, name, hk₁⟩ := (hr.fits hm').lands guarded _ hk
        simp [landing_ne hkind hplain hk₁ rfl]
      | terminal | pending => rfl
    · rfl
  · rfl

omit h in
/-- Operands and destinations may change before and after. -/
theorem congr {r₁ r₂ : Routine} (h : r₁.Bypasses r₂ exit t t' d p s) (hold : r.SameStream r₁)
    (hnew : r₂.SameStream r') : r.Bypasses r' exit t t' d p s where
  streams := hnew.streams h.streams
  branches := by
    rw [show r'.kindOf = r₂.kindOf from funext hnew.kinds, hnew.entry]
    exact h.branches
  size := hnew.size.trans (h.size.trans hold.size)
  entry := hnew.entry.trans (h.entry.trans hold.entry)
  kinds m := (hnew.kinds m).trans ((h.kinds m).trans (hold.kinds m))
  plug := h.plug
  sub := h.sub
  nodes := h.nodes
  nextOf := (hold.nextOf d).symm.trans h.nextOf
  prevOf := (hold.prevOf d).symm.trans h.prevOf
  detached := ⟨(hnew.nextOf d).trans h.detached.1, (hnew.prevOf d).trans h.detached.2⟩
  stays m hm := by
    obtain ⟨hnext, hprev⟩ := h.stays m ⟨(hold.nextOf m).trans hm.1, (hold.prevOf m).trans hm.2⟩
    exact ⟨(hnew.nextOf m).trans hnext, (hnew.prevOf m).trans hprev⟩
  edges m hm := by
    rw [hnew.nextOf, ← hold.nextOf]
    exact h.edges m (hnew.entry ▸ hm)
  edges_back m hm := by
    rw [hnew.prevOf, ← hold.prevOf]
    exact h.edges_back m (hnew.entry ▸ hm)

/-- What is left is well structured again if the operands and the counts are right. -/
theorem wellStructured (hr : r.WellStructured exit t) (hkind : r.kindOf d = some kind)
    (hplain : kind.isPlain = true) (hargs : ∀ m, (r'.label m).map (fun e => e.args.length) =
      (r.label m).map fun e => e.args.length) (hnests : ∀ m ∈ r'.live exit t', r'.NestsDetached m)
    (hcounted : r'.Counted (r'.live exit t')) : r'.WellStructured exit t' := by
  refine ⟨h.streams,
    h.streams.verify_eq_ok_iff.mpr ⟨h.branches, fun m hm => ⟨?_, hnests m hm⟩, hcounted⟩⟩
  refine (hr.fits (h.mem_old hm)).congr (fun kind _ hk => (h.kinds m).symm.trans hk)
    (fun k hk kind' hnot hkind' => ?_) fun _ => exists_condition (h.kinds m) (hargs m)
  refine ⟨h.mem_new hk ?_, (h.kinds k).trans hkind'⟩
  rintro rfl
  rw [some.inj (hkind'.symm.trans hkind), hplain] at hnot
  cases hnot

end Bypasses

end Routine

end CoroutineIR
