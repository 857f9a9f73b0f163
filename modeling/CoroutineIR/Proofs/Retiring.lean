import CoroutineIR.Proofs.Intact
import CoroutineIR.Proofs.Stages

/-!
# Releasing what is deleted

The accesses of everything that leaves the stream are released, each of them once. The walk along a
part of the stream goes through the first arm of a conditional and turns aside into the second one,
so that it meets every node of the part once, and exact counts are high enough for all of them.
-/

namespace CoroutineIR

open List CoroutineIR.Action Strand Edit

namespace Routine

variable {r r₁ r' : Routine} {exit n : NodeId} {t x rest : Strand}
    {lost lost' : List (VarId × Access)} {C : Strand.Context}

namespace Releases

variable (h : r.Releases r' lost)
include h

theorem perm (hperm : lost.Perm lost') : r.Releases r' lost' where
  adds := { h.adds with tally_eq := fun v access => by rw [h.adds.tally_eq, hperm.count_eq] }
  traits := h.traits

omit h in
theorem trans (h : r.Releases r₁ lost) (h' : r₁.Releases r' lost') :
    r.Releases r' (lost ++ lost') :=
  (⟨h'.adds.trans h.adds, fun v => (h'.traits v).trans (h.traits v)⟩ : r.Releases r'
    (lost' ++ lost)).perm perm_append_comm

theorem nodes_eq : r'.nodes = r.nodes := h.adds.nodes.symm

theorem nextOf_eq (n : NodeId) : r'.nextOf n = r.nextOf n := (h.adds.nextOf_eq n).symm

theorem prevOf_eq (n : NodeId) : r'.prevOf n = r.prevOf n := (h.adds.prevOf_eq n).symm

theorem kindOf_eq (n : NodeId) : r'.kindOf n = r.kindOf n := kindOf_congr (h.label_eq n)

/-- Nodes can be changed at the same time. -/
theorem alter (n : NodeId) (f : Node → Node) : (r.alter n f).Releases (r'.alter n f) lost where
  adds := { h.adds with others := congrArg (Routine.alter · n f) h.adds.others }
  traits := h.traits

end Releases

namespace Accounted

variable (h : r.Accounted exit (C.plug x))
include h

theorem nested_part (hn : n ∈ x.nodes) : r.nested n = .ok (n :: r.below n) :=
  h.nested_eq (mem_live (C.mem_plug.mpr (Or.inl hn)))

/-- The counts are high enough for the accesses of different nodes of a part. -/
theorem counts_part (ns others : List NodeId) (hperm : x.nodes.Perm (ns ++ others)) (v : VarId)
    (access : Access) : (ns.flatMap r.accessesOf).count (v, access) ≤ r.tally v access := by
  have hplug := ((C.perm_plug x).trans (hperm.append_right _)).flatMap_right r.accessesOf
  rw [h.tally_eq]
  simp only [flatMap_cons, count_append, hplug.count_eq, flatMap_append]
  omega

end Accounted

/-- Releasing accesses does not touch the stream. -/
theorem Releases.carries (h : r.Releases r' lost) (hr : r.Carries exit t) : r'.Carries exit t :=
  hr.congr h.adds.entry.symm fun n _ => ⟨h.nextOf_eq n, h.prevOf_eq n⟩

namespace Intact

/-- The closing node of a region accesses nothing. -/
theorem accessesOf_closer {o : NodeId} (h : r.Intact exit (C.plug x))
    (hkind : r.kindOf n = some (.close o)) (hn : n ∈ x.nodes) : r.accessesOf n = [] :=
    h.accessesOf_bracket (C.mem_plug.mpr (Or.inl hn)) hkind rfl

/-- What is left when a part gives way to some of its nodes. -/
theorem leaves_part {u : Strand} {swept : DeadCode.Swept} (h : r'.Intact exit (C.plug u))
    (hrelinks : r.Relinks r') (hsub : u.nodes.Sublist x.nodes)
    (hlength : u.nodes.length + swept.removed ≤ x.nodes.length) (hfits : swept.resolved = 0 →
      x.BranchesFit r.kindOf (C.regions [r.entry]) → u.BranchesFit r.kindOf (C.regions [r.entry]))
    (hroused : x.Roused r.kindOf (C.parent r.entry) → u.Roused r.kindOf (C.parent r.entry)) :
    r.Leaves exit (C.plug x) r' (C.plug u) swept := by
  have hall := C.sublist_plug hsub
  refine ⟨h, ?_, fun hnone hfit => ?_, fun hmarks => ?_,
    fun hbound m hm => (boundAt_congr (hrelinks.label m)).mpr (hbound m (hall.subset hm)),
    fun m hm => ⟨((hall.cons_cons exit).cons_cons _).subset (hrelinks.entry ▸ hm),
    stemsAt_of_label (hrelinks.label m)⟩⟩
  · rw [(C.perm_plug u).length_eq, (C.perm_plug x).length_eq, length_append, length_append]
    omega
  · obtain ⟨haround, hpart⟩ := (C.branchesFit_plug_iff _ _ _).mp hfit
    rw [hrelinks.kindOf, hrelinks.entry]
    exact (C.branchesFit_plug_iff _ _ _).mpr ⟨haround, hfits hnone hpart⟩
  · obtain ⟨haround, hpart⟩ := (C.roused_plug_iff _ _ _).mp hmarks
    rw [hrelinks.kindOf, hrelinks.entry]
    exact (C.roused_plug_iff _ _ _).mpr ⟨haround, hroused hpart⟩

/-- What is left once the piece in front of the rest is released and unlinked. -/
theorem leaves_rest (h : r.Intact exit (C.plug (x.append rest)))
    (hrel : r.Releases r₁ (x.nodes.flatMap r.accessesOf)) (hrew : r₁.Rewires r')
    (hcarries : r'.Carries exit (C.plug rest)) (hpos : 0 < x.nodes.length) :
    r.Leaves exit (C.plug (x.append rest)) r' (C.plug rest) ⟨1, 0⟩ := by
  have hnodes := nodes_append x rest
  obtain ⟨hshaped, haims⟩ := h.part
  refine leaves_part ?_ (hrel.relinks hrew) ?_ ?_
      (fun _ hfit => (branchesFit_append.mp hfit).2) fun hroused =>
    (roused_append.mp hroused).2
  · exact h.replace _ hrel hrew hcarries (shaped_append.mp hshaped).2
      (branching_append.mp haims).2 (.of_eq hnodes)
  · rw [hnodes]
    exact sublist_append_right _ _
  · rw [hnodes, length_append]
    change _ + 1 ≤ _
    omega

end Intact

end Routine

namespace Edit

open Routine

variable {r r₀ : Routine} {exit n x stop : NodeId} {t : Strand}
  {lost : List (VarId × Access)} {fuel m : Nat} {post : PUnit → Routine → Prop}
  {via : NodeId → NodeId → Edit Unit}

/-- Releasing accesses one after the other. -/
theorem yields_releaseAll (hcount : ∀ v access, lost.count (v, access) ≤ r.tally v access)
    (hpost : ∀ r', r.Releases r' lost → post () r') :
    Yields (lost.forM fun (v, access) => release v access) r post := by
  induction lost generalizing r with
  | nil => exact hpost r (.refl r)
  | cons a lost ih =>
    obtain ⟨v, access⟩ := a
    have hpos : 0 < r.tally v access := by
      have hle := hcount v access
      rw [count_cons_self] at hle
      omega
    refine yields_bind.mpr (yields_release hpos fun r₁ h₁ => ih (fun u access' => ?_) fun r' h' =>
      hpost r' (h₁.trans h'))
    have hle := hcount u access'
    have htally := h₁.tally_eq u access'
    rw [count_cons] at hle
    rw [count_singleton] at htally
    omega

/-- Releasing two accesses, one after the other. -/
theorem yields_releaseTwo {u v : VarId} {a b : Access} {good : Routine → Prop}
    (hcount : ∀ x access, [(u, a), (v, b)].count (x, access) ≤ r.tally x access)
    (hgood : ∀ r', r.Releases r' [(u, a), (v, b)] → good r') :
    Yields (release u a) r fun _ r₁ => Yields (release v b) r₁ fun _ r' => good r' := by
  have hall := @yields_releaseAll _ _ (fun _ => good) hcount hgood
  simpa [List.forM_eq_forM] using hall

variable (hbase : r₀.Releases r lost)
include hbase

/-- Releasing a node after others. -/
theorem yields_uncountNode (hnested : r₀.nested n = .ok (n :: r₀.below n))
    (hcount : ∀ v access, (lost ++ r₀.accessesOf n).count (v, access) ≤ r₀.tally v access)
    (hpost : ∀ r', r₀.Releases r' (lost ++ r₀.accessesOf n) → post () r') :
    Yields (uncountNode n) r post := by
  obtain ⟨hnested', hbelow, haccesses⟩ := accessesOf_congr hnested fun m _ => hbase.label_eq m
  have hall : r.accesses n = .ok (r₀.accessesOf n) := by
    rw [accesses_of_nested hnested', ← haccesses, accessesOf, hbelow]
  simp only [uncountNode, yields_bind, yields_ask, hall, Except.ok.injEq, exists_eq_left']
  refine yields_releaseAll (fun v access => ?_) fun r' h' => hpost r' (hbase.trans h')
  have hle := hcount v access
  have htally := hbase.tally_eq v access
  rw [count_append] at hle
  omega

/-- Releasing a node with one successor. -/
theorem yields_retireNodeVia (hnext : r₀.nextOf n = [x])
    (hnested : r₀.nested n = .ok (n :: r₀.below n))
    (hcount : ∀ v access, (lost ++ r₀.accessesOf n).count (v, access) ≤ r₀.tally v access)
    (hpost : ∀ r', r₀.Releases r' (lost ++ r₀.accessesOf n) → post () r') :
    Yields (retireNodeVia via n) r post := by
  refine yields_bind.mpr (yields_uncountNode hbase hnested hcount fun r' h' => ?_)
  obtain ⟨d, hd, hdnext⟩ := exists_next ((h'.nextOf_eq n).trans hnext)
  have harm : d.secondArm? = none := by
    rw [Node.secondArm?, hdnext]
    split
    · rename_i heq
      cases heq
    · rfl
  simp only [yields_bind, yields_node, hd, exists_some_eq, harm, yields_pure]
  exact hpost r' h'

/-- Releasing a conditional with two arms, given a way to release the second one. -/
theorem yields_retireNodeVia_fork {c y : NodeId} {suspends : Bool} (hnext : r₀.nextOf n = [x, y])
    (hkind : r₀.kindOf n = some (.enter .cond ⟨c, suspends⟩)) (hnested : r₀.nested n =
      .ok (n :: r₀.below n)) (hcount : ∀ v access, (lost ++ r₀.accessesOf n).count (v, access) ≤
      r₀.tally v access) (harm : ∀ r', r₀.Releases r' (lost ++ r₀.accessesOf n) →
      Yields (via y c) r' post) : Yields (retireNodeVia via n) r post := by
  refine yields_bind.mpr (yields_uncountNode hbase hnested hcount fun r' h' => ?_)
  obtain ⟨d, hd, hdkind, hdnext, -⟩ := node_of_kindOf ((h'.kindOf_eq n).trans hkind)
  have hsecond : d.secondArm? = some (y, c) := by
    rw [Node.secondArm?, hdkind, hdnext, h'.nextOf_eq, hnext]
  simp only [yields_bind, yields_node, hd, exists_some_eq, hsecond]
  exact harm r' h'

/-- The walk past a node. -/
theorem yields_retireStrainWithin_cons {xs : List NodeId} (hnext : r₀.nextOf n = x :: xs)
    (hne : n ≠ stop) (hk : Yields (retireNodeVia (retireStrainWithin fuel) n) r
      fun _ r' => Yields (retireStrainWithin fuel x stop) r' post) :
    Yields (retireStrainWithin (fuel + 1) n stop) r post := by
  obtain ⟨d, hd, hdnext⟩ := exists_firstNext ((hbase.nextOf_eq n).trans hnext)
  rw [retireStrainWithin, if_neg hne]
  simp only [yields_bind, yields_firstNext, hd, exists_some_eq, hdnext]
  exact hk

omit hbase in
/-- The walk ends where it is told to. -/
theorem yields_retireStrainWithin_stop :
    Yields (retireStrainWithin fuel stop stop) r post ↔ post () r := by
  cases fuel <;> simp [retireStrainWithin]

/-- Releasing everything up to the end of a part. -/
theorem yields_retireStrain {C : Strand.Context} (h : r₀.Accounted exit (C.plug t))
    (hshaped : (C.plug t).Shaped r₀.kindOf)
    (hcount : ∀ v access, (lost ++ t.nodes.flatMap r₀.accessesOf).count (v, access) ≤
      r₀.tally v access)
    (hpost : ∀ r', r₀.Releases r' (lost ++ t.nodes.flatMap r₀.accessesOf) → post () r') :
    Yields (retireStrain (t.entryPort (C.target (exit, 0))).1 (C.target (exit, 0)).1) r
    post := by
  obtain ⟨hnodup, hlt⟩ := h.toCarries.part_nodes
  have hlength := (subperm_of_subset hnodup fun n hn => mem_range.mpr (hlt n hn)).length_le
  rw [length_range, ← hbase.nodes_eq] at hlength
  have hfuel := le_editFuel hlength
  -- in the order of the walk
  have hperm :
      (lost ++ t.tour.flatMap r₀.accessesOf).Perm (lost ++ t.nodes.flatMap r₀.accessesOf) :=
    (t.tour_perm.flatMap_right r₀.accessesOf).append_left lost
  have hfront : ∀ {l n}, l ++ [n] <+: t.tour → n ∈ t.nodes ∧
      ∀ v access, (lost ++ l.flatMap r₀.accessesOf ++ r₀.accessesOf n).count (v, access) ≤
      r₀.tally v access := by
    rintro l n ⟨rest, hl⟩
    refine ⟨t.tour_perm.mem_iff.mp (hl ▸ by simp), fun v access => ?_⟩
    have hle := hcount v access
    rw [← hperm.count_eq, ← hl] at hle
    simp only [flatMap_append, flatMap_singleton, count_append] at hle ⊢
    omega
  refine yields_bind.mpr
    (yields_get.mpr (Lays.yields_walk (m := 0) (l := []) retireStrainWithin id
    (fun l r' => r₀.Releases r' (lost ++ l.flatMap r₀.accessesOf)) t.tour id
    (fun hpost => yields_retireStrainWithin_stop.mpr hpost)
    (fun hfull hnext hne hs hk => ?_) (fun hfull hnext hkind hne hs hk => ?_) h.toCarries.part
    ((C.shaped_plug_iff _ t).mp hshaped).2 hnodup
    (fun n hn heq => h.toCarries.ports_not_mem.2 (heq ▸ hn)) (prefix_refl _) (by simpa using hbase)
    (by omega) fun r' fuel' _ h' => yields_retireStrainWithin_stop.mpr (hpost r' (h'.perm hperm))))
  · obtain ⟨hn, hle⟩ := hfront hfull
    refine yields_retireStrainWithin_cons hs hnext hne
      (yields_retireNodeVia hs hnext (h.nested_part hn) hle fun r₁ h₁ => hk r₁ ?_)
    simpa using h₁
  · obtain ⟨hn, hle⟩ := hfront hfull
    refine yields_retireStrainWithin_cons hs hnext hne
      (yields_retireNodeVia_fork hs hnext hkind (h.nested_part hn) hle fun r₁ h₁ => ?_)
    exact (hk r₁ (by simpa using h₁)).mono fun _ _ hrest => hrest.2

omit hbase

/-- Releasing a part of a well-structured routine, from its first node up to the end of the region
it stands in, goes through. Every variable counts as often less as the nodes of the part and their
sub-expressions access it, and everything else stays. -/
theorem retireStrain_releases_part {C : Strand.Context} (h : r.WellStructured exit (C.plug t)) :
    ∃ first r', (r.nextOf (C.source (r.entry, 0)).1)[(C.source (r.entry, 0)).2]? = some first ∧
      Edit.retireStrain first (C.target (exit, 0)).1 r = .ok () r' ∧
      { r' with vars := r.vars } = r ∧ (∀ v, r'.traits v = r.traits v) ∧
      ∀ v access, r.tally v access =
        r'.tally v access + (t.nodes.flatMap r.accessesOf).count (v, access) := by
  have hyields : Yields (retireStrain (t.entryPort (C.target (exit, 0))).1
      (C.target (exit, 0)).1) r fun _ r' => r.Releases r' (t.nodes.flatMap r.accessesOf) :=
    yields_retireStrain (.refl r) h.accounted h.shaped
      (h.accounted.counts_part t.nodes [] (by simp)) fun _ h' => h'
  obtain ⟨_, r', hok, hreleases⟩ := yields_iff_exists.mp hyields
  have hothers := congrArg (fun x : Routine => { x with vars := r.vars }) hreleases.adds.others
  exact ⟨_, r', h.toCarries.part.entry.1, hok, hothers.symm, hreleases.traits,
    hreleases.adds.tally_eq⟩

/-- A conditional with two arms in a loop. Nothing but memory is read or written any more once the
whole body is released. -/
theorem retireStrain_releases_part_arms :
    let calls : List Instruction := [.declare .param (.scalar .i32) "p" false, .tmp none, .loop,
      .cond (.var 1), .assign (some 2) .add (.scalar .i32) [.var 1, .var 1], .otherwise,
      .assign (some 2) .copy (.scalar .i32) [.var 2], .close, .close, .ret [.var 2]]
    ∃ r b' t r',
      Build.finish (Build.play default calls (Build.define "main" default)).1 = .ok r b' ∧
      r.WellStructured 1 t ∧ r.tally 1 .read = 4 ∧ Edit.retireStrain 2 1 r = .ok () r' ∧
      { r' with vars := r.vars } = r ∧
      (t.nodes.flatMap r.accessesOf).count (1, .read) = 4 ∧ r'.tally 1 .read = 0 ∧
      r'.tally 0 .write = 2 := by
  intro calls
  obtain ⟨r, b', t, hfinish, -, hwell, hentry, hnext, hreads, hretired⟩ :=
    Build.exists_main calls (by decide) (fun r => r.entry = 0 ∧ r.nextOf 0 = [2] ∧
      r.tally 1 .read = 4 ∧ (retireStrain 2 1).Yields r fun _ r' =>
      r'.tally 1 .read = 0 ∧ r'.tally 0 .write = 2) (by decide +kernel)
  obtain ⟨first, r', hfirst, hok, hothers, -, htally⟩ :=
    retireStrain_releases_part (C := .hole) hwell
  rw [Strand.Context.source, hentry, hnext] at hfirst
  obtain rfl := Option.some.inj hfirst
  obtain ⟨hread, hwrite⟩ := hretired.of_ok hok
  have hcount := htally 1 .read
  rw [hread, hreads, Nat.zero_add] at hcount
  exact ⟨r, b', t, r', hfinish, hwell, hreads, hok, hothers, hcount.symm, hread, hwrite⟩

end Edit

end CoroutineIR
