import CoroutineIR.Proofs.Inlining
import CoroutineIR.Proofs.Stages

/-!
# Building trees

Whatever the walk that builds trees does, it does by moving one definition after another. It always
comes to its end: a definition stands in front of its reader, so that moving it leaves the walk with
no more nodes ahead.
-/

namespace CoroutineIR

open List Option CoroutineIR.Action Edit

/-- One definition is moved. -/
def Inlining (exit : NodeId) (a b : Routine × Strand) : Prop :=
  ∃ n i v d reader e assigned p s, a.1.Inlines b.1 exit a.2 b.2 n i v d reader e assigned p s

/-- Definitions are moved, one after another. -/
def Inlinings (exit : NodeId) : Routine × Strand → Routine × Strand → Prop :=
    Relation.ReflTransGen (Inlining exit)

namespace Inlinings

variable {exit n : NodeId} {a b : Routine × Strand}

variable (h : Inlinings exit a b)
include h

/-- What every inlining keeps. -/
theorem keeps {P : Routine × Strand → Prop} (ha : P a)
    (hstep : ∀ {c c' n i v d reader e assigned p s},
      c.1.Inlines c'.1 exit c.2 c'.2 n i v d reader e assigned p s → P c → P c') : P b := by
  induction h with
  | refl => exact ha
  | tail _ hinlining ih =>
    obtain ⟨_, _, _, _, _, _, _, _, _, hinlines⟩ := hinlining
    exact hstep hinlines ih

theorem wellStructured (ha : a.1.WellStructured exit a.2) : b.1.WellStructured exit b.2 :=
  h.keeps ha fun hinlines hc => hinlines.wellStructured hc

theorem treelike (ha : a.1.Treelike exit a.2) : b.1.Treelike exit b.2 :=
  h.keeps ha fun hinlines hc => hinlines.treelike hc

theorem entry_eq : b.1.entry = a.1.entry :=
  h.keeps (P := fun b => b.1.entry = a.1.entry) rfl fun hinlines hc =>
    hinlines.bypasses.entry.trans hc

theorem kinds_eq (n : NodeId) : b.1.kindOf n = a.1.kindOf n :=
  h.keeps (P := fun b => b.1.kindOf n = a.1.kindOf n) rfl fun hinlines hc =>
    (hinlines.bypasses.kinds n).trans hc

theorem sublist : b.2.nodes.Sublist a.2.nodes :=
  h.keeps (P := fun b => b.2.nodes.Sublist a.2.nodes) (.refl _) fun hinlines hc =>
    hinlines.bypasses.sub.trans hc

/-- Only nodes that control just passes through are moved. -/
theorem mem_of_not_plain (hn : n ∈ a.1.live exit a.2) {kind : NodeKind}
    (hkind : a.1.kindOf n = some kind) (hplain : kind.isPlain = false) : n ∈ b.1.live exit b.2 := by
  induction h with
  | refl => exact hn
  | @tail c _ hrun hstep ih =>
    obtain ⟨_, _, _, d, _, e, _, _, _, hinlines⟩ := hstep
    refine hinlines.bypasses.mem_new ih ?_
    rintro rfl
    have hc : c.1.kindOf n = some e.kind := Routine.kindOf_of_label hinlines.defines.label rfl
    rw [kinds_eq hrun, hkind, some.injEq] at hc
    rw [hc, hinlines.defines.plain] at hplain
    cases hplain

end Inlinings

namespace Routine

variable {r r' : Routine} {exit n m d p s : NodeId} {t t' : Strand} {i j : ℕ} {v : VarId}
    {reader e : Node} {assigned : List VarId}

/-- An operand of a node. -/
def operand? (r : Routine) (n : NodeId) (i : ℕ) : Option Operand := (r.label n).bind (·.args[i]?)

/-- Moving a definition changes one operand. -/
theorem Inlines.operand?_eq (h : r.Inlines r' exit t t' n i v d reader e assigned p s) (m : NodeId)
    (j : ℕ) :
    r'.operand? m j = if m = n ∧ j = i then some (Tree.replacement d e) else r.operand? m j := by
  rw [operand?, operand?, h.labels]
  by_cases hmd : m = d
  · rw [if_pos hmd, if_neg fun hm => h.ne (hmd.symm.trans hm.1), hmd, h.defines.label]
    rfl
  · rw [if_neg hmd]
    by_cases hmn : m = n
    · rw [if_pos hmn, hmn, h.label, bind_some, bind_some]
      by_cases hji : j = i
      · rw [if_pos ⟨rfl, hji⟩, hji, getElem?_set_self (List.getElem?_eq_some_iff.mp h.arg).1]
      · rw [if_neg fun hm => hji hm.2, getElem?_set_ne (Ne.symm hji)]
    · rw [if_neg hmn, if_neg fun hm => hmn hm.1]

/-- Whether a node is put into an operand as a whole when it is moved. -/
def isHeld (r : Routine) (n : NodeId) : Bool :=
    (r.label n).any fun e => (Tree.replacement n e).node?.isSome

/-- The node `n` of `r` has been moved into an operand on the way to `r'`. -/
structure Moved (r r' : Routine) (n : NodeId) (v : VarId) (m : NodeId) (i : ℕ)
    (e : Node) : Prop where
  dest : r.destOf n = some v
  once : r.readsOf v = 1
  not_finish : ∀ sig, r.kindOf n ≠ some (.call .finish sig)
  arg : r.operand? m i = some (.var v)
  detached : r'.Detached n
  label : r'.label n = some e
  filled : r'.operand? m i = some (Tree.replacement n e)

end Routine

open Routine in
/-- The nodes `gone` have been moved into operands. -/
structure Gathers (exit : NodeId) (a b : Routine × Strand) (gone : List NodeId) : Prop where
  nodes : a.2.nodes.Perm (gone ++ b.2.nodes)
  below : ((b.1.entry :: exit :: b.2.nodes).flatMap b.1.below).Perm
    (gone.filter b.1.isHeld ++ (a.1.entry :: exit :: a.2.nodes).flatMap a.1.below)
  tally : ∀ v access, a.1.tally v access = b.1.tally v access + (gone.filterMap a.1.destOf).count v
  dests : ∀ n ∈ b.1.entry :: exit :: b.2.nodes, b.1.destOf n = a.1.destOf n
  args : ∀ n i v, b.1.operand? n i = some (.var v) → a.1.operand? n i = some (.var v)
  moved : ∀ n ∈ gone, ∃ v m i e, a.1.Moved b.1 n v m i e

namespace Gathers

variable {exit n m d p s : NodeId} {a b : Routine × Strand} {gone : List NodeId} {i : ℕ} {v : VarId}
  {reader e : Node} {assigned : List VarId} {r : Routine} {t : Strand}

open Routine

variable (h : Gathers exit a b gone)
include h

/-- A variable that is read once has been read once from the start. -/
theorem readsOf_eq (honce : b.1.readsOf v = 1) : a.1.readsOf v = 1 := by
  by_cases hmem : v ∈ gone.filterMap a.1.destOf
  · obtain ⟨n, hn, hdest⟩ := mem_filterMap.mp hmem
    obtain ⟨u, m, i, e, hmoved⟩ := h.moved n hn
    obtain rfl : u = v := some.inj (hmoved.dest.symm.trans hdest)
    exact hmoved.once
  · have htally : a.1.readsOf v = b.1.readsOf v + _ := h.tally v .read
    rw [count_eq_zero.mpr hmem] at htally
    exact htally.trans honce

theorem mem_gone (hentry : b.1.entry = a.1.entry) (hn : n ∈ a.1.live exit a.2)
    (hout : n ∉ b.1.live exit b.2) : n ∈ gone := by
  simp only [hentry, mem_cons, h.nodes.mem_iff, mem_append] at hn hout
  tauto

theorem not_mem (ha : a.1.WellStructured exit a.2) (hentry : b.1.entry = a.1.entry)
    (hn : n ∈ gone) : n ∉ b.1.live exit b.2 := by
  have hperm : (a.1.live exit a.2).Perm (gone ++ (b.1.live exit b.2)) := by
    rw [live_congr hentry]
    exact ((h.nodes.cons exit).cons a.1.entry).trans
      ((perm_middle.symm.cons a.1.entry).trans perm_middle.symm)
  exact fun hmem => (nodup_append.mp (hperm.nodup_iff.mp ha.nodup)).2.2 n hn n hmem rfl

/-- One more definition is gathered. -/
theorem step (ha : a.1.WellStructured exit a.2) (hb : b.1.WellStructured exit b.2)
    (hentry : b.1.entry = a.1.entry) (hkinds : ∀ n, b.1.kindOf n = a.1.kindOf n)
    (hstep : b.1.Inlines r exit b.2 t n i v d reader e assigned p s) :
    Gathers exit a (r, t) (d :: gone) := by
  have hlabels : ∀ m ∈ gone, r.label m = b.1.label m := fun m hm =>
    hstep.label_of_ne (fun heq => h.not_mem ha hentry hm (heq ▸ hstep.def_mem))
      fun heq => h.not_mem ha hentry hm (heq ▸ hstep.mem)
  have hdest : a.1.destOf d = some v := by
    rw [← h.dests d hstep.def_mem, destOf_eq hstep.defines.label, hstep.defines.dest]
  refine ⟨?_, ?_, fun u access => ?_, fun m hm => ?_, fun m j u hu => ?_, fun m hm => ?_⟩
  · exact h.nodes.trans ((hstep.bypasses.nodes.append_left gone).trans perm_middle)
  · refine (hstep.below_perm hb).trans ?_
    have hheld : (d :: gone).filter r.isHeld =
        (Tree.replacement d e).node?.toList ++ gone.filter b.1.isHeld := by
      have hgone : gone.filter r.isHeld = gone.filter b.1.isHeld :=
        filter_congr fun m hm => by rw [isHeld, hlabels m hm, isHeld]
      rw [filter_cons, hgone, isHeld, hstep.label_def, any_some,
        show Tree.replacement d { e with dest := none } = Tree.replacement d e from rfl]
      rcases replacement_cases d e with hrep | ⟨x, hrep, -⟩ <;> rw [hrep] <;> rfl
    rw [hheld, List.append_assoc]
    exact h.below.append_left _
  · have htally :
      b.1.tally u access = r.tally u access + [(v, .write), (v, .read)].count (u, access) :=
      hstep.tally u access
    have hpair : [(v, Access.write), (v, Access.read)].count (u, access) = [v].count u := by
      cases access <;> by_cases huv : v = u <;> simp [huv]
    rw [h.tally, htally, hpair, filterMap_cons_some hdest, Nat.add_assoc, ← count_append,
      singleton_append]
  · have hmem := hstep.bypasses.mem_old hm
    rw [← h.dests m hmem, destOf, hstep.labels, if_neg (hstep.bypasses.ne_of_mem hb hm)]
    split
    · rename_i heq
      rw [heq, destOf_eq hstep.label]
      rfl
    · rfl
  · refine h.args m j u ?_
    rw [hstep.operand?_eq] at hu
    split at hu
    · rcases replacement_cases d e with hrep | ⟨x, hrep, -⟩ <;> rw [hrep] at hu <;> cases hu
    · exact hu
  · rcases mem_cons.mp hm with rfl | hm
    · refine ⟨v, n, i, { e with dest := none }, hdest, h.readsOf_eq hstep.once,
        fun sig hsig => ?_, h.args n i v ?_, hstep.bypasses.detached, hstep.label_def, ?_⟩
      · rw [← hkinds, kindOf, hstep.defines.label] at hsig
        exact hstep.defines.not_finish sig (some.inj hsig)
      · rw [operand?, hstep.label]
        exact hstep.arg
      · rw [hstep.operand?_eq, if_pos ⟨rfl, rfl⟩]
        rfl
    · obtain ⟨u, k, j, em, hmoved⟩ := h.moved m hm
      refine ⟨u, k, j, em, hmoved.dest, hmoved.once, hmoved.not_finish, hmoved.arg,
        hstep.bypasses.stays m hmoved.detached, (hlabels m hm).trans hmoved.label, ?_⟩
      rw [hstep.operand?_eq, if_neg]
      · exact hmoved.filled
      · rintro ⟨rfl, rfl⟩
        have hfilled := hmoved.filled
        rw [operand?, hstep.label, bind_some, hstep.arg] at hfilled
        rcases replacement_cases m em with hrep | ⟨x, hrep, -⟩ <;> rw [hrep]
          at hfilled <;> cases hfilled

end Gathers

/-- All definitions that move are gathered by what is left. -/
theorem Inlinings.exists_gathers {exit : NodeId} {a b : Routine × Strand} (h : Inlinings exit a b)
    (ha : a.1.WellStructured exit a.2) : ∃ gone, Gathers exit a b gone := by
  induction h with
  | refl =>
    exact ⟨[], .refl _, .refl _, fun _ _ => rfl, fun _ _ => rfl, fun _ _ _ hv => hv,
      fun n hn => absurd hn not_mem_nil⟩
  | tail hrun hstep ih =>
    obtain ⟨gone, hgathers⟩ := ih
    obtain ⟨_, _, _, d, _, _, _, _, _, hinlines⟩ := hstep
    exact ⟨d :: gone,
      hgathers.step ha (wellStructured hrun ha) (entry_eq hrun) (kinds_eq hrun) hinlines⟩

/-- The number of nodes from a node on. -/
def ahead (l : List NodeId) (n : NodeId) : Nat := l.length - l.idxOf n

theorem ahead_le_of_sublist {l l' : List NodeId} (h : l'.Sublist l) (n : NodeId) :
    ahead l' n ≤ ahead l n := by
  induction h with
  | slnil => exact Nat.le_refl _
  | cons m hsub ih =>
    refine Nat.le_trans ih ?_
    simp only [ahead, length_cons, idxOf_cons]
    cases m == n
    · simp
    · simp
      omega
  | cons_cons m hsub ih =>
    have hlength := hsub.length_le
    simp only [ahead, length_cons, idxOf_cons] at ih ⊢
    cases m == n <;> simp <;> omega

namespace Tree

open Routine

variable {exit n : NodeId} {t : Strand} {w : Work} {r : Routine}

variable (hr : w.routine.WellStructured exit t)
include hr

/-- Filling the operands of a node. -/
theorem yields_fillOperands (hn : n ∈ w.routine.live exit t)
    (hentry : n ≠ w.routine.entry) (left index : Nat) (evaluated assigned : List VarId) :
    Yields (fillOperands n left index evaluated assigned) w fun _ w' => ∃ t',
      Inlinings exit (w.routine, t) (w'.routine, t') ∧ n ∈ w'.routine.live exit t' := by
  induction left generalizing w t index evaluated assigned with
  | zero => exact yields_pure.mpr ⟨t, .refl, hn⟩
  | succ left ih =>
    obtain ⟨reader, hreader⟩ := hr.exists_node hn
    have hlabel := label_eq hreader
    simp only [fillOperands, yields_bind, Pass.yields_lift, yields_node, hreader, exists_some_eq]
    cases harg : reader.args[index]? with
    | none => exact ih hr hn hentry _ _ _
    | some arg =>
      cases arg with
      | lit x => exact ih hr hn hentry _ _ _
      | node m =>
        have hm : .node m ∈ reader.unlinked.args := mem_of_getElem? harg
        obtain ⟨ms, hms⟩ := ((nested_eq_ok_iff hlabel).mp (hr.nested_eq hn)).1 m hm
        simp only [yields_bind, Pass.yields_ask]
        exact ⟨_, writtenBy_eq hms, ih hr hn hentry _ _ _⟩
      | var v =>
        have hv : .var v ∈ reader.unlinked.args := mem_of_getElem? harg
        obtain ⟨x, hx⟩ : ∃ x, w.routine.vars[v]? = some x :=
          exists_var_of_tally (hr.tally_pos hn hlabel (Node.mem_accesses_of_arg hv))
        simp only [yields_bind, Pass.yields_lift, yields_var, hx, exists_some_eq]
        split
        · rename_i honce
          obtain ⟨found, written, hfind, hspec⟩ :=
            findDefinition_eq hr hn hentry v evaluated assigned
          simp only [yields_bind, Pass.yields_ask]
          refine ⟨_, hfind, ?_⟩
          cases found with
          | none =>
            simp only [yields_bind, yields_pure]
            exact ih hr hn hentry _ _ _
          | some d =>
            obtain ⟨hd, hdn, ⟨e, hdefines⟩, hleads⟩ := hspec d rfl
            simp only [yields_bind, yields_pure]
            refine (yields_inline hr rfl hn hlabel harg ((readsOf_eq hx).trans honce) hd hdn
              hdefines hleads).mono fun _ w₁ hmoved => ?_
            obtain ⟨t₁, p, s, hinlines⟩ := hmoved
            have hn₁ := hinlines.bypasses.mem_new hn hdn.symm
            refine (ih (hinlines.wellStructured hr) hn₁ (hinlines.bypasses.entry ▸ hentry) _ _
              _).mono fun _ w' hfilled => ?_
            obtain ⟨t', hrun, hn'⟩ := hfilled
            refine ⟨t', ?_, hn'⟩
            exact Relation.ReflTransGen.head ⟨_, _, _, _, _, _, _, _, _, hinlines⟩ hrun
        · simp only [yields_bind, yields_pure]
          exact ih hr hn hentry _ _ _

omit hr in
/-- What comes next is in the stream, and fewer nodes are ahead of it. -/
theorem next_ahead {m : NodeId} (hr : r.Carries exit t) (hn : n ∈ r.live exit t)
    (hm : m ∈ r.nextOf n) : m ∈ r.live exit t ∧ m ≠ r.entry ∧
      ahead (r.entry :: t.nodes ++ [exit]) m < ahead (r.entry :: t.nodes ++ [exit]) n := by
  have hmem := hr.next_mem hn hm
  have hlt := hr.idxOf_lt hn hm
  have hidx := idxOf_lt_length_of_mem (mem_layout hmem)
  refine ⟨hmem, ?_, ?_⟩
  · rintro rfl
    simp at hlt
  · rw [ahead, ahead]
    omega

omit hr in
/-- The layout of a stream gets shorter as definitions are moved. -/
theorem layout_sublist {r' : Routine} {t' : Strand} (h : Inlinings exit (r, t) (r', t')) :
    (r'.entry :: t'.nodes ++ [exit]).Sublist (r.entry :: t.nodes ++ [exit]) := by
  have hsub : t'.nodes.Sublist t.nodes := h.sublist
  rw [show r'.entry = r.entry from h.entry_eq]
  exact (hsub.cons_cons _).append (Sublist.refl _)

/-- Building trees from a node on. -/
theorem yields_buildWithin {fuel : Nat} {start : Option NodeId} (stop : Option NodeId)
    (hstart : ∀ n, start = some n → n ∈ w.routine.live exit t ∧ n ≠ w.routine.entry ∧
      ahead (w.routine.entry :: t.nodes ++ [exit]) n ≤ fuel) :
    Yields (buildWithin fuel start stop) w fun _ w' =>
    ∃ t', Inlinings exit (w.routine, t) (w'.routine, t') := by
  induction fuel generalizing w t start stop with
  | zero =>
    cases start with
    | none => exact yields_pure.mpr ⟨t, .refl⟩
    | some n =>
      obtain ⟨hn, -, hfuel⟩ := hstart n rfl
      have hidx := idxOf_lt_length_of_mem (mem_layout hn)
      rw [ahead] at hfuel
      omega
  | succ fuel ih =>
    cases start with
    | none => exact yields_pure.mpr ⟨t, .refl⟩
    | some n =>
    obtain ⟨hn, hentry, hfuel⟩ := hstart n rfl
    obtain ⟨node, hnode⟩ := hr.exists_node hn
    rw [buildWithin]
    split
    · exact yields_pure.mpr ⟨t, .refl⟩
    -- going on from the node in a routine where it is still in the stream
    have hgo : ∀ (w₁ : Work) (t₁ : Strand) (stop : Option NodeId),
        Inlinings exit (w.routine, t) (w₁.routine, t₁) →
        n ∈ w₁.routine.live exit t₁ → ∀ start, (∀ m, start = some m → m ∈ w₁.routine.nextOf n) →
        Yields (buildWithin fuel start stop) w₁ fun _ w' =>
        ∃ t', Inlinings exit (w.routine, t) (w'.routine, t') := by
      intro w₁ t₁ stop hrun hn₁ start hnext
      have hr₁ : w₁.routine.WellStructured exit t₁ := hrun.wellStructured hr
      refine (ih hr₁ stop fun m hm => ?_).mono fun _ w' hbuilt => ?_
      · obtain ⟨hmem, hne, hlt⟩ := next_ahead hr₁.toCarries hn₁ (hnext m hm)
        have hle := ahead_le_of_sublist (layout_sublist hrun) n
        exact ⟨hmem, hne, by omega⟩
      · obtain ⟨t', hrun'⟩ := hbuilt
        exact ⟨t', hrun.trans hrun'⟩
    simp only [yields_bind, Pass.yields_lift, yields_node, hnode, exists_some_eq]
    split
    · refine hgo w t stop .refl hn _ fun m hm => ?_
      rw [nextOf_eq hnode]
      exact mem_of_head? hm
    have hrest : ∀ (arm : Nat) (w₁ : Work) (t₁ : Strand),
        Inlinings exit (w.routine, t) (w₁.routine, t₁) → n ∈ w₁.routine.live exit t₁ → Yields (do
          let filled ← fillOperands n node.args.length 0 [] []
          if endsStep node.kind then
            return arm + filled
          return arm + filled + (← buildWithin fuel (← Edit.firstNext n) stop) : Pass Nat) w₁
          fun _ w' => ∃ t', Inlinings exit (w.routine, t) (w'.routine, t') := by
      intro arm w₁ t₁ hrun hn₁
      have hr₁ : w₁.routine.WellStructured exit t₁ := hrun.wellStructured hr
      have hentry₁ : n ≠ w₁.routine.entry := by
        rwa [show w₁.routine.entry = w.routine.entry from hrun.entry_eq]
      rw [yields_bind]
      refine (yields_fillOperands hr₁ hn₁ hentry₁ _ 0 [] []).mono fun filled w₂ hfilled => ?_
      obtain ⟨t₂, hrun₂, hn₂⟩ := hfilled
      split
      · exact yields_pure.mpr ⟨t₂, hrun.trans hrun₂⟩
      · have hr₂ : w₂.routine.WellStructured exit t₂ := hrun₂.wellStructured hr₁
        obtain ⟨node₂, hnode₂⟩ := hr₂.exists_node hn₂
        simp only [yields_bind, Pass.yields_lift, yields_firstNext, yields_pure,
          hnode₂, exists_some_eq]
        refine hgo w₂ t₂ stop (hrun.trans hrun₂) hn₂ _ fun m hm => ?_
        rw [nextOf_eq hnode₂]
        exact mem_of_head? hm
    cases harm : node.secondArm? with
    | none => exact hrest 0 w t .refl hn
    | some arm =>
      obtain ⟨first, close⟩ := arm
      obtain ⟨hfirst, hplain⟩ : first ∈ node.next ∧ node.kind.isPlain = false := by
        unfold Node.secondArm? at harm
        split at harm
        · rename_i hkind hnext
          obtain ⟨rfl, -⟩ : _ = first ∧ _ := by simpa using harm
          exact ⟨by simp [hnext], by simp [hkind, NodeKind.isPlain]⟩
        · cases harm
      refine yields_bind.mpr
        ((hgo w t (some close) .refl hn (some first) fun m hm => ?_).mono fun arm w₁ hbuilt => ?_)
      · obtain rfl := some.inj hm
        rwa [nextOf_eq hnode]
      · obtain ⟨t₁, hrun⟩ := hbuilt
        exact hrest arm w₁ t₁ hrun (hrun.mem_of_not_plain hn (kindOf_eq hnode) hplain)

omit hr in
/-- The steps of a routine, or its entry. -/
theorem starts_eq (hr : r.WellStructured exit t) : ∃ l, starts r = .ok l ∧
    ∀ n ∈ l, n ∈ r.live exit t ∧ ∃ kind, r.kindOf n = some kind ∧ kind.isPlain = false := by
  obtain ⟨live, hlive, hperm⟩ := hr.liveNodes_eq
  have hone : ∀ n ∈ live, ∃ b, (do return (← r.node n).kind.isStep : Query Bool) = .ok b ∧
      (b = true ↔ (r.kindOf n).any NodeKind.isStep = true) := by
    intro n hn
    obtain ⟨d, hd⟩ := hr.exists_node (hperm.mem_iff.mp hn)
    refine ⟨d.kind.isStep, ?_, by rw [kindOf_eq hd, any_some]⟩
    rw [node_eq_ok_iff.mpr hd]
    rfl
  obtain ⟨steps, hsteps, hmem⟩ := Attempt.filterM_eq_ok hone
  refine ⟨if steps.isEmpty then [r.entry] else steps,
    Attempt.bind_eq_ok_iff.mpr ⟨live, hlive, Attempt.bind_eq_ok_iff.mpr ⟨steps, hsteps, rfl⟩⟩,
    fun n hn => ?_⟩
  split at hn
  · obtain rfl := mem_singleton.mp hn
    obtain ⟨name, sig, suspends, hkind⟩ := hr.entry_kind
    exact ⟨by simp, _, hkind, rfl⟩
  · obtain ⟨hlive, hstep⟩ := (hmem n).mp hn
    obtain ⟨kind, hkind, hstep⟩ := (Option.any_eq_true _ _).mp hstep
    refine ⟨hperm.mem_iff.mp hlive, kind, hkind, ?_⟩
    cases kind <;> simp_all [NodeKind.isPlain]

/-- The walk over the readers moves definitions into them. -/
theorem yields_buildFrom {l : List NodeId} (hl : ∀ n ∈ l, n ∈ w.routine.live exit t ∧
      ∃ kind, w.routine.kindOf n = some kind ∧ kind.isPlain = false) :
    Yields (buildFrom l) w fun _ w' => ∃ t', Inlinings exit (w.routine, t) (w'.routine, t') := by
  induction l generalizing w t with
  | nil => exact yields_pure.mpr ⟨t, .refl⟩
  | cons n l ih =>
    rw [forall_mem_cons] at hl
    obtain ⟨⟨hn, kind, -, -⟩, hl⟩ := hl
    obtain ⟨d, hd⟩ := hr.exists_node hn
    simp only [buildFrom, yields_bind, yields_get, Pass.yields_lift, yields_firstNext, hd,
      exists_some_eq, yields_pure]
    refine (yields_buildWithin hr none fun m hm => ?_).mono fun _ w₁ hbuilt => ?_
    · have hnext : m ∈ w.routine.nextOf n := by
        rw [nextOf_eq hd]
        exact mem_of_head? hm
      obtain ⟨hmem, hne, -⟩ := next_ahead hr.toCarries hn hnext
      refine ⟨hmem, hne, ?_⟩
      have hlength : ahead (w.routine.entry :: t.nodes ++ [exit]) m ≤ t.nodes.length + 2 := by
        rw [ahead]
        simp
      have hfuel := le_editFuel hr.length_le_size
      omega
    · obtain ⟨t₁, hrun⟩ := hbuilt
      refine (ih (hrun.wellStructured hr) fun m hm => ?_).mono fun _ w' hothers => ?_
      · obtain ⟨hmem, kind', hkind', hplain'⟩ := hl m hm
        exact ⟨hrun.mem_of_not_plain hmem hkind' hplain', kind',
          (hrun.kinds_eq m).trans hkind', hplain'⟩
      · obtain ⟨t', hrun'⟩ := hothers
        exact ⟨t', hrun.trans hrun'⟩

/-- Building trees moves definitions and does nothing else. -/
theorem yields_buildTrees : Yields buildTrees w fun _ w' => ∃ t', Inlinings exit (w.routine, t)
    (w'.routine, t') := by
  obtain ⟨l, hl, hmem⟩ := starts_eq hr
  simp only [buildTrees, yields_bind, Pass.yields_ask]
  refine ⟨l, hl, (yields_buildFrom hr hmem).mono fun _ w' hrun => ?_⟩
  exact Pass.yields_note.mpr hrun

omit hr

/-- Trees are built in every well-structured routine, and leave it well structured with exact
counts. A node of the stream stays there or is detached, and the operand that read its variable now
holds the node, which is then one sub-expression of one node of the stream, or the literal that the
node delivers. The variable has lost its read and its write, and other variables have lost nothing.
-/
theorem buildTrees_wellStructured (hr : w.routine.WellStructured exit t) :
    Yields buildTrees w fun _ w' => ∃ t', w'.routine.WellStructured exit t' ∧
      (∀ n ∈ w.routine.entry :: exit :: t.nodes, n ∈ w'.routine.entry :: exit :: t'.nodes ∨
        ∃ v m i, w.routine.destOf n = some v ∧ w.routine.operand? m i = some (.var v) ∧
          w'.routine.Detached n ∧
          (∀ access, w.routine.tally v access = w'.routine.tally v access + 1) ∧
          (w'.routine.operand? m i = some (.node n) ∧
            ((w'.routine.entry :: exit :: t'.nodes).flatMap w'.routine.below).count n = 1 ∨
          ∃ e x, w'.routine.label n = some e ∧ e.kind = .op .const ∧ e.args = [.lit x] ∧
            w'.routine.operand? m i = some (.lit x))) ∧
      ∀ v, (∀ n ∈ w.routine.entry :: exit :: t.nodes, w.routine.destOf n = some v →
          n ∈ w'.routine.entry :: exit :: t'.nodes) →
        ∀ access, w'.routine.tally v access = w.routine.tally v access := by
  refine (yields_buildTrees hr).mono fun _ w' hbuilt => ?_
  obtain ⟨t', hrun⟩ := hbuilt
  obtain ⟨gone, hgathers⟩ := hrun.exists_gathers hr
  have hentry : w'.routine.entry = w.routine.entry := hrun.entry_eq
  have hnodes : t.nodes.Perm (gone ++ t'.nodes) := hgathers.nodes
  have hold : ∀ n ∈ gone, n ∈ w.routine.entry :: exit :: t.nodes := fun n hn =>
    mem_live (hnodes.mem_iff.mpr (mem_append_left _ hn))
  refine ⟨t', hrun.wellStructured hr, fun n hn => ?_, fun v hstays access => ?_⟩
  · by_cases hstays : n ∈ w'.routine.entry :: exit :: t'.nodes
    · exact Or.inl hstays
    have hgone : n ∈ gone := hgathers.mem_gone hentry hn hstays
    obtain ⟨v, m, i, e, hmoved⟩ := hgathers.moved n hgone
    -- the variable was read once, so that only one node is gone that defines it
    have hone : (gone.filterMap w.routine.destOf).count v = 1 := by
      have hreads :
          w.routine.readsOf v = w'.routine.readsOf v + (gone.filterMap w.routine.destOf).count v :=
        hgathers.tally v .read
      have hpos : 0 < (gone.filterMap w.routine.destOf).count v :=
        count_pos_iff.mpr (mem_filterMap.mpr ⟨n, hgone, hmoved.dest⟩)
      have honce : w.routine.readsOf v = 1 := hmoved.once
      omega
    refine Or.inr ⟨v, m, i, hmoved.dest, hmoved.arg, hmoved.detached,
      fun access => hone ▸ hgathers.tally v access, ?_⟩
    rcases replacement_cases n e with hrep | ⟨x, hrep, hkind, hargs⟩
    · refine Or.inl ⟨hrep ▸ hmoved.filled, ?_⟩
      have hheld : w'.routine.isHeld n = true := by
        rw [isHeld, hmoved.label, any_some, hrep]
        rfl
      have hnodup : gone.Nodup := (nodup_append.mp (hnodes.nodup_iff.mp hr.nodup_nodes)).1
      have hfresh : n ∉ (w.routine.entry :: exit :: t.nodes).flatMap w.routine.below :=
          fun hmem => by
        obtain ⟨m, hm, hbelow⟩ := mem_flatMap.mp hmem
        exact hr.not_mem_below hm hn hbelow
      rw [hgathers.below.count_eq, count_append, count_filter hheld,
        count_eq_one_of_mem hnodup hgone, count_eq_zero.mpr hfresh]
    · exact Or.inr ⟨e, x, hmoved.label, hkind, hargs, hrep ▸ hmoved.filled⟩
  · have hnone : v ∉ gone.filterMap w.routine.destOf := fun hmem => by
      obtain ⟨n, hn, hdest⟩ := mem_filterMap.mp hmem
      exact hgathers.not_mem hr hentry hn (hstays n (hold n hn) hdest)
    have htally : w.routine.tally v access = w'.routine.tally v access + _ :=
      hgathers.tally v access
    rw [htally, count_eq_zero.mpr hnone, Nat.add_zero]

/-- A load from a constant address whose result is passed on: the load ends up inside the call, and
the constant is replaced. -/
theorem buildTrees_wellStructured_load :
    let callee : Signature := ⟨[.scalar .i32], none, .default⟩
    let calls : List Instruction := [.tmp (some (.scalar .i32)), .tmp (some (.scalar .i32)),
      .assign (some 1) .const (.scalar .i32) [.lit (.int 8)],
      .assign (some 2) .load (.scalar .i32) [.var 1], .call none callee [.var 2]]
    ∃ r b' t, Build.finish (Build.play default calls (Build.define "main" default)).1 = .ok r b' ∧
      r.WellStructured 1 t ∧ Yields buildTrees ⟨r, #[]⟩ fun _ w' => w'.routine.nextOf 0 = [4] ∧
        ∃ t', w'.routine.WellStructured 1 t' ∧ ∃ v m i, r.destOf 3 = some v ∧
        r.operand? m i = some (.var v) ∧ w'.routine.operand? m i = some (.node 3) ∧
          ((w'.routine.entry :: 1 :: t'.nodes).flatMap w'.routine.below).count 3 = 1 := by
  intro callee calls
  obtain ⟨r, b', t, hfinish, -, ht, hfirst, hsecond, hbuilt⟩ :=
    Build.exists_main calls (by decide)
    (fun r => 2 ∈ r.nextOf r.entry ∧ 3 ∈ r.nextOf 2 ∧
    buildTrees.Yields ⟨r, #[]⟩ fun _ w' => w'.routine.entry = 0 ∧
      w'.routine.nextOf 0 = [4] ∧ w'.routine.prevOf 3 = [] ∧
      w'.routine.kindOf 3 = some (.op .load)) (by decide +kernel)
  have hmem : 3 ∈ r.entry :: 1 :: t.nodes := ht.next_mem (ht.next_mem mem_cons_self hfirst) hsecond
  refine ⟨r, b', t, hfinish, ht, ?_⟩
  refine ((buildTrees_wellStructured (w := ⟨r, #[]⟩) ht).and hbuilt).mono fun _ w' hboth => ?_
  obtain ⟨⟨t', hwell, hfate, -⟩, hentry', hnext, hprev, hkind⟩ := hboth
  refine ⟨hnext, t', hwell, ?_⟩
  rcases hfate 3 hmem with hstays | ⟨v, m, i, hdest, harg, -, -, hheld | ⟨e, x, he, hconst, -⟩⟩
  · obtain ⟨b, hhead, -⟩ := hwell.exists_firstPrev hstays (by simp [hentry'])
    simp [hprev] at hhead
  · exact ⟨v, m, i, hdest, harg, hheld⟩
  · rw [kindOf, he, map_some, hconst] at hkind
    cases hkind

end Tree

end CoroutineIR
