import CoroutineIR.Proofs.Structure

/-!
# Dissolving regions

The third walk of the lowering takes the opening and closing nodes of blocks and loops that suspend
out of the stream. Nothing else changes: what stood inside such a region then stands in its place.
-/

namespace CoroutineIR

open List Option CoroutineIR.Action Strand Edit

/-- Whether a node opens a region that is taken apart. -/
def dissolvesAt (kinds : NodeId → Option NodeKind) (n : NodeId) : Bool :=
    (kinds n).any Lower.isDissolved

theorem dissolvesAt_of_enter {kinds : NodeId → Option NodeKind} {o c : NodeId} {form : Form}
    {suspends : Bool} (h : kinds o = some (.enter form ⟨c, suspends⟩)) :
    dissolvesAt kinds o = (form ≠ .cond && suspends) := by
  cases form <;> simp [dissolvesAt, h, Lower.isDissolved]

/-- Whether a node is taken out: it opens or closes a region that is taken apart. -/
def goneAt (kinds : NodeId → Option NodeKind) (n : NodeId) : Bool :=
  (kinds n).any fun kind =>
    match kind with
    | .close opener => dissolvesAt kinds opener
    | kind => Lower.isDissolved kind

namespace Strand

variable {t : Strand} {n o c : NodeId} {kind : NodeKind}

/-- The strand with what regions that are taken apart hold in their places. -/
def dissolved (kinds : NodeId → Option NodeKind) : Strand → Strand
  | done => done
  | leaf n rest => leaf n (rest.dissolved kinds)
  | region o c body rest =>
    if dissolvesAt kinds o then (body.dissolved kinds).append (rest.dissolved kinds)
    else region o c (body.dissolved kinds) (rest.dissolved kinds)
  | fork o c first second rest =>
    fork o c (first.dissolved kinds) (second.dissolved kinds) (rest.dissolved kinds)

variable {kinds : NodeId → Option NodeKind}

theorem dissolved_append (t u : Strand) :
    (t.append u).dissolved kinds = (t.dissolved kinds).append (u.dissolved kinds) := by
  induction t with
  | done => rfl
  | leaf n rest ih => simp only [append, dissolved, ih]
  | region o c body rest ihb ihr =>
    simp only [append, dissolved, ihr]
    split
    · rw [append_assoc]
    · rfl
  | fork o c first second rest iha ihb ihr => simp only [append, dissolved, ihr]

theorem goneAt_leaf (hkind : kinds n = some kind) (hregion : kind.region? = none)
    (hclose : kind.isClose = false) : goneAt kinds n = false := by
  cases kind <;> simp_all [goneAt, Lower.isDissolved]

theorem goneAt_closer (hkind : kinds c = some (.close o)) :
    goneAt kinds c = dissolvesAt kinds o := by
  simp [goneAt, hkind]

theorem goneAt_opener {form : Form} {suspends : Bool}
    (hkind : kinds o = some (.enter form ⟨c, suspends⟩)) :
    goneAt kinds o = dissolvesAt kinds o := by
  simp [goneAt, dissolvesAt, hkind]

theorem goneAt_of_ne (hkind : kinds n = some kind) (hclose : ∀ o, kind ≠ .close o) :
    goneAt kinds n = Lower.isDissolved kind := by
  cases kind <;> simp_all [goneAt]

end Strand

/-- A region may be read as what it holds between two single nodes. -/
theorem Routine.Carries.open_region {r : Routine} {exit o c : NodeId} {C : Strand.Context}
    {body rest : Strand} (h : r.Carries exit (C.plug (.region o c body rest))) :
    r.Carries exit (C.plug (.leaf o (body.append (.leaf c rest)))) := by
  obtain ⟨before, behind, hwires⟩ := C.wires_plug (r.entry, 0) (exit, 0)
  obtain ⟨front, back, hnodes⟩ := C.nodes_plug
  refine h.of_wires ?_ (.of_eq ?_)
  · simp [hwires, Strand.wires, wires_append, wires_eq (o, 0) body]
  · simp [hnodes]

/-- A routine that differs from another one at most in the edges of nodes that have some. -/
structure Routine.Rewires (r r' : Routine) : Prop where
  entry : r'.entry = r.entry
  mem : r'.mem = r.mem
  vars : r'.vars = r.vars
  label : ∀ m, r'.label m = r.label m
  detached : ∀ m, r.Detached m → r'.Detached m

namespace Routine.Rewires

variable {r r₁ : Routine}

theorem refl (r : Routine) : r.Rewires r := ⟨rfl, rfl, rfl, fun _ => rfl, fun _ h => h⟩

/-- Changing the edges of a node in a way that leaves a node without edges as it is. -/
theorem alter (h : r.Rewires r₁) (n : NodeId) {f : Node → Node} (hf : ∀ d : Node, (f d).unlinked =
      d.unlinked ∧ (d.next = [] → d.prev = [] → (f d).next = [] ∧ (f d).prev = [])) :
    r.Rewires (r₁.alter n f) where
  entry := h.entry
  mem := h.mem
  vars := h.vars
  label m := by rw [label_alter_of_eq fun d => (hf d).1, h.label]
  detached m hm := (h.detached m hm).alter fun d _ => (hf d).2

theorem bypassed (h : r.Rewires r₁) (n p s : NodeId) : r.Rewires (r₁.bypassed n p s) := by
  refine ((h.alter s ?_).alter p ?_).alter n ?_
  all_goals exact fun d => ⟨rfl, fun hnext hprev => by simp [hnext, hprev, substitute]⟩

theorem kindOf_eq (h : r.Rewires r₁) : r₁.kindOf = r.kindOf :=
    funext fun m => by rw [kindOf, h.label, kindOf]

end Routine.Rewires

namespace Lower

open Routine

variable {r r₀ : Routine} {exit n x y : NodeId} {t : Strand} {d : Node} {stop : Option NodeId}
  {fuel : Nat} {post : PUnit → Routine → Prop}

/-- The walk past a node with at most one successor. -/
theorem yields_dissolveWithin_cons {x : Option NodeId} (hd : r.label n = some d)
    (hopener : ∀ o, d.kind = .close o → (r.kindOf o).isSome) (hnext : r.nextOf n = x.toList)
    (hstop : some n ≠ stop) (hgone : goneAt r.kindOf n = true → Yields (Edit.removeNode n) r
      fun _ r' => Yields (dissolveWithin fuel x stop) r' post)
    (hkept : goneAt r.kindOf n = false → Yields (dissolveWithin fuel x stop) r post) :
    Yields (dissolveWithin (fuel + 1) (some n) stop) r post := by
  have hkind : r.kindOf n = some d.kind := kindOf_of_label hd rfl
  have hhead : x.toList.head? = x := by cases x <;> rfl
  have hsecond : x.toList[1]? = none := by cases x <;> rfl
  have hgo : ∀ b, goneAt r.kindOf n = b → Yields (if b = true then do
      Edit.removeNode n
      dissolveWithin fuel x stop
    else dissolveWithin fuel x stop) r post := by
    intro b hb
    cases b with
    | false => exact hkept hb
    | true =>
      rw [if_pos rfl, yields_bind]
      exact hgone hb
  simp only [dissolveWithin, hstop, if_false, yields_bind, yields_node, node_of_label hd,
    exists_some_eq, hnext, Node.firstNext, hhead, hsecond]
  split
  · rename_i hfirst
    cases hfirst
  · cases hk : d.kind with
    | close o =>
      obtain ⟨kind, hko⟩ := isSome_iff_exists.mp (hopener o hk)
      obtain ⟨dₒ, hdₒ, hkₒ, -⟩ := node_of_kindOf hko
      simp only [yields_bind, yields_kind, hdₒ, exists_some_eq, yields_pure, hkₒ]
      exact hgo _ (by simp [goneAt, dissolvesAt, hkind, hk, hko])
    | _ =>
      rw [hk] at hkind
      exact hgo _ (goneAt_of_ne hkind (by simp))

/-- The walk at a conditional with two arms, the second arm first. -/
theorem yields_dissolveWithin_fork {c : NodeId} {suspends : Bool} (hd : r.label n = some d)
    (hkind : d.kind = .enter .cond ⟨c, suspends⟩) (hnext : r.nextOf n = [x, y])
    (hstop : some n ≠ stop) (hk : Yields (dissolveWithin fuel (some y) (some c)) r fun _ r' =>
      Yields (dissolveWithin fuel (some x) stop) r' post) :
    Yields (dissolveWithin (fuel + 1) (some n) stop) r post := by
  simp only [dissolveWithin, hstop, if_false, yields_bind, yields_node, node_of_label hd,
    exists_some_eq, hnext, hkind, Node.firstNext, head?_cons, getElem?_cons_succ,
    getElem?_cons_zero, isDissolved, yields_pure, Bool.false_eq_true]
  exact hk

/-- The third walk gets through a part of a stream, wherever it stands, and comes to what is behind
the part. -/
theorem yields_dissolvePart {f g : Strand} {C : Strand.Context} {m : Nat}
    (h : r.Carries exit (C.plug (f.append g))) (hsame : r₀.Rewires r) (hshaped : f.Shaped r₀.kindOf)
    (hstop : ∀ n ∈ f.nodes, some n ≠ stop) (hfuel : m + f.nodes.length ≤ fuel)
    (hk : ∀ r' fuel', m ≤ fuel' → r'.Carries exit (C.plug ((f.dissolved r₀.kindOf).append g)) →
      r₀.Rewires r' →
      Yields (dissolveWithin fuel' (some (g.entryPort (C.target (exit, 0))).1) stop) r' post) :
    Yields (dissolveWithin fuel (some ((f.append g).entryPort (C.target (exit, 0))).1) stop) r
    post := by
  induction f generalizing r g C stop fuel m post with
  | done => exact hk r fuel (Nat.le_trans (Nat.le_add_right _ _) hfuel) h hsame
  | leaf n rest ih =>
    obtain ⟨⟨kind, hkind, hregion, hclose⟩, hrest⟩ := hshaped
    obtain ⟨d, hd, rfl⟩ := map_eq_some_iff.mp hkind
    simp only [Strand.nodes, forall_mem_cons, length_cons] at hstop hfuel
    obtain _ | fuel := fuel
    · omega
    refine yields_dissolveWithin_cons (x := some _) (n := n) ((hsame.label n).trans hd)
      (fun o ho => by simp [ho] at hclose)
      h.part.nextOf_leaf hstop.1
      (by simp [hsame.kindOf_eq, goneAt_leaf hkind hregion hclose]) fun _ => ?_
    exact ih (m := m) (C := C.inside (.behind (.leaf n .done))) h hsame hrest hstop.2 (by omega) hk
  | region o c body rest ihb ihr =>
    have hkinds := hsame.kindOf_eq
    obtain ⟨⟨form, suspends, hko⟩, hkc, hbody, hrest⟩ := hshaped
    obtain ⟨dₒ, hdₒ, hkₒ⟩ := map_eq_some_iff.mp hko
    obtain ⟨d, hd, hk'⟩ := map_eq_some_iff.mp hkc
    simp only [Strand.nodes, cons_append, forall_mem_cons, forall_mem_append, length_cons,
      length_append] at hstop hfuel
    obtain _ | fuel := fuel
    · omega
    refine yields_dissolveWithin_cons (x := some _) (n := o) ((hsame.label o).trans hdₒ)
      (by simp [hkₒ]) h.part.nextOf_opener hstop.1 (fun hgone => ?_) fun hkept => ?_
    · rw [hkinds, goneAt_opener hko] at hgone
      simp only [Strand.dissolved, hgone, if_true, Strand.append_assoc] at hk
      have hleaf := h.open_region
      rw [yields_removeNode hleaf]
      rw [← entryPort_leaf (C.target (exit, 0)) c (rest.append g), ← entryPort_append]
      refine ihb (m := m + 1 + rest.nodes.length) (C := C) hleaf.bypassed (hsame.bypassed _ _ _)
        hbody hstop.2.1 (by omega) fun r₁ fuel₁ hfuel₁ h₁ hsame₁ => ?_
      obtain _ | fuel₁ := fuel₁
      · omega
      have hkinds₁ := hsame₁.kindOf_eq
      refine yields_dissolveWithin_cons (x := some _) (n := c) ((hsame₁.label c).trans hd)
        (by simp [hk', hkinds₁, hko]) (Carries.part (C := C.inside (.behind _)) h₁).nextOf_leaf
        hstop.2.2.1 (fun _ => ?_) (by simp [hkinds₁, goneAt_closer hkc, hgone])
      rw [yields_removeNode (C := C.inside (.behind _)) h₁]
      exact ihr (m := m) (C := C.inside (.behind _)) (Carries.bypassed (C := C.inside (.behind _))
        h₁) (hsame₁.bypassed _ _ _) hrest hstop.2.2.2 (by omega) hk
    · rw [hkinds, goneAt_opener hko] at hkept
      simp only [Strand.dissolved, hkept, Bool.false_eq_true, if_false] at hk
      rw [← append_done body] at h ⊢
      refine ihb (m := m + 1 + rest.nodes.length) (C := C.inside (.body o c (rest.append g))) h
        hsame hbody hstop.2.1 (by omega) fun r₁ fuel₁ hfuel₁ h₁ hsame₁ => ?_
      obtain _ | fuel₁ := fuel₁
      · omega
      have hkinds₁ := hsame₁.kindOf_eq
      rw [append_done] at h₁
      refine yields_dissolveWithin_cons (x := some _) (n := c) ((hsame₁.label c).trans hd)
        (by simp [hk', hkinds₁, hko])
        (Carries.part (C := C) (t := .region o c _ (rest.append g)) h₁).nextOf_closer hstop.2.2.1
        (by simp [hkinds₁, goneAt_closer hkc, hkept]) fun _ => ?_
      exact ihr (m := m) (C := C.inside (.behind (.region o c _ .done))) h₁ hsame₁ hrest
        hstop.2.2.2 (by omega) hk
  | fork o c first second rest ihf ihs ihr =>
    obtain ⟨⟨suspends, hko⟩, hkc, hfirst, hsecond, hrest⟩ := hshaped
    have hgc : goneAt r₀.kindOf c = false :=
      (goneAt_closer hkc).trans (by simp [dissolvesAt, hko, isDissolved])
    obtain ⟨dₒ, hdₒ, hkₒ⟩ := map_eq_some_iff.mp hko
    obtain ⟨d, hd, hk'⟩ := map_eq_some_iff.mp hkc
    obtain ⟨-, -, -, -, -, -, -, -, hcs, -⟩ := nodup_fork h.part_nodes.1
    simp only [Strand.nodes, cons_append, forall_mem_cons, forall_mem_append, length_cons,
      length_append] at hstop hfuel
    obtain _ | fuel := fuel
    · omega
    refine yields_dissolveWithin_fork (n := o) ((hsame.label o).trans hdₒ) hkₒ
      h.part.nextOf_fork hstop.1 ?_
    rw [← append_done second] at h ⊢
    refine ihs (m := 0) (C := C.inside (.second o c first (rest.append g))) h hsame hsecond
      (fun n hn heq => hcs (some.inj heq ▸ hn)) (by omega) fun r₁ fuel₁ _ h₁ hsame₁ => ?_
    change Yields (dissolveWithin fuel₁ (some c) (some c)) r₁ _
    rw [dissolveWithin.eq_def]
    simp only [if_true, yields_pure]
    rw [append_done, ← append_done first] at h₁
    rw [← append_done first]
    refine ihf (m := m + 1 + rest.nodes.length) (C := C.inside (.first o c _ (rest.append g))) h₁
      hsame₁ hfirst hstop.2.1.1 (by omega) fun r₂ fuel₂ hfuel₂ h₂ hsame₂ => ?_
    obtain _ | fuel₂ := fuel₂
    · omega
    have hkinds₂ := hsame₂.kindOf_eq
    rw [append_done] at h₂
    refine yields_dissolveWithin_cons (x := some _) (n := c) ((hsame₂.label c).trans hd)
      (by simp [hk', hkinds₂, hko]) (Carries.part (C := C) (t := .fork o c _ _ (rest.append g))
      h₂).nextOf_join hstop.2.2.1 (by simp [hkinds₂, hgc]) fun _ => ?_
    exact ihr (m := m) (C := C.inside (.behind (.fork o c _ _ .done))) h₂ hsame₂ hrest
      hstop.2.2.2 (by omega) hk

/-- The third walk dissolves the regions of a stream and leaves everything else as it is. -/
theorem yields_dissolveWithin (h : r.Streams exit t) (hfuel : t.nodes.length + 2 ≤ fuel)
    (hpost : ∀ r', r'.Carries exit (t.dissolved r.kindOf) → r.Rewires r' → post () r') :
    Yields (dissolveWithin fuel (some r.entry) none) r post := by
  obtain ⟨name, sig, suspends, hkind⟩ := h.entry_kind
  obtain ⟨dₑ, hdₑ, hkₑ⟩ := map_eq_some_iff.mp hkind
  obtain ⟨dₓ, hdₓ, hkₓ⟩ := map_eq_some_iff.mp h.exit_kind
  obtain _ | fuel := fuel
  · omega
  refine yields_dissolveWithin_cons (x := some _) hdₑ (by simp [hkₑ]) h.nextOf_entry (by simp)
    (fun hgone => by simp [goneAt, hkind, isDissolved] at hgone) fun _ => ?_
  have hcarries := h.toCarries
  rw [← append_done t] at hcarries ⊢
  refine yields_dissolvePart (m := 1) (C := .hole) hcarries (.refl r) h.shaped (by simp) (by omega)
    fun r' fuel' hfuel' h' hsame => ?_
  obtain _ | fuel' := fuel'
  · omega
  have hkinds := hsame.kindOf_eq
  have hkept : goneAt r'.kindOf exit = false := by
    rw [hkinds, goneAt_closer h.exit_kind]
    simp [dissolvesAt, hkind, isDissolved]
  rw [append_done] at h'
  refine yields_dissolveWithin_cons (x := none) (n := exit) ((hsame.label exit).trans hdₓ)
    (by simp [hkₓ, hkinds, hkind]) (length_eq_zero_iff.mp h'.exit_degrees.2) (by simp)
    (by simp [hkept]) fun _ => ?_
  rw [dissolveWithin, yields_pure]
  exact hpost r' h' hsame

end Lower

end CoroutineIR
