import CoroutineIR.Proofs.Structure

/-!
# Settling jumps

The second walk of the lowering gives every open jump its destination: the first step found from
where the jump starts to look. Only jumps change and edges stay, so that it does not matter in which
order they are settled.
-/

namespace CoroutineIR

open List Option CoroutineIR.Action Edit Lower

namespace Routine

variable {r : Routine} {n : NodeId} {d : Node}

/-- The first step met from a node along first successors, if there is one. -/
inductive Scan (r : Routine) : NodeId → Option NodeId → Prop
  | found {n : NodeId} {kind : NodeKind} (hkind : r.kindOf n = some kind)
    (hstep : kind.isStep = true) : Scan r n (some n)
  | pass {n m : NodeId} {res : Option NodeId} {kind : NodeKind} (hkind : r.kindOf n = some kind)
    (hstep : kind.isStep = false) (hnext : (r.nextOf n).head? = some m) (hscan : Scan r m res) :
    Scan r n res
  | last {n : NodeId} {kind : NodeKind} (hkind : r.kindOf n = some kind)
    (hstep : kind.isStep = false) (hnext : (r.nextOf n).head? = none) : Scan r n none

section Scan

variable {r' : Routine} {exit : NodeId} {t : Strand} {res : Option NodeId}

theorem mem_layout (hn : n ∈ r.live exit t) : n ∈ r.entry :: t.nodes ++ [exit] := by
  rcases mem_cons.mp hn with rfl | hn
  · simp
  · rcases mem_cons.mp hn with rfl | hn
    · simp
    · simp [hn]

/-- On a stream the search for a step has fuel enough. -/
theorem Scan.nextStepWithin_eq (hscan : r.Scan n res) (h : r.Carries exit t)
    (hn : n ∈ r.live exit t) {fuel : Nat}
    (hfuel : (r.entry :: t.nodes ++ [exit]).length - (r.entry :: t.nodes ++ [exit]).idxOf n <
      fuel) : nextStepWithin r fuel (some n) = .ok res := by
  induction hscan generalizing fuel with
  | @found n kind hkind hstep =>
    obtain _ | fuel := fuel
    · omega
    obtain ⟨d, hd, rfl, -⟩ := node_of_kindOf hkind
    simp [nextStepWithin, node_eq_ok_iff.mpr hd, hstep]
  | @pass n m res kind hkind hstep hnext _ ih =>
    obtain _ | fuel := fuel
    · omega
    obtain ⟨d, hd, rfl, hdnext, -⟩ := node_of_kindOf hkind
    have hm : m ∈ r.nextOf n := mem_of_head? hnext
    have hlt := h.idxOf_lt hn hm
    have hmem := h.next_mem hn hm
    have hidx := idxOf_lt_length_of_mem (mem_layout hmem)
    have hrest : nextStepWithin r fuel (some m) = .ok res := ih hmem (by omega)
    rw [← hdnext] at hnext
    simp [nextStepWithin, node_eq_ok_iff.mpr hd, hstep, Node.firstNext, hnext, hrest]
  | @last n kind hkind hstep hnext =>
    obtain _ | fuel := fuel
    · omega
    obtain ⟨d, hd, rfl, hdnext, -⟩ := node_of_kindOf hkind
    rw [← hdnext] at hnext
    simp [nextStepWithin, node_eq_ok_iff.mpr hd, hstep, Node.firstNext, hnext]

theorem Streams.nextStep_eq (h : r.Streams exit t) (hn : n ∈ r.live exit t) (hscan : r.Scan n res) :
    Lower.nextStep r n = .ok res := by
  refine hscan.nextStepWithin_eq h.toCarries hn ?_
  have hsize := h.length_le_size
  have hfuel := r.size_lt_walkFuel
  have hlength : (r.entry :: t.nodes ++ [exit]).length = t.nodes.length + 2 := by simp
  omega

/-- From every node of a stream the search for a step comes to an end. -/
theorem Carries.exists_scan (h : r.Carries exit t) (hn : n ∈ r.live exit t) :
    ∃ res, r.Scan n res := by
  set layout := r.entry :: t.nodes ++ [exit] with hlayout
  generalize hk : layout.length - layout.idxOf n = k
  induction k using Nat.strongRecOn generalizing n with
  | ind k ih =>
    obtain ⟨d, hd⟩ := h.exists_node hn
    have hkind := kindOf_eq hd
    cases hstep : d.kind.isStep with
    | true => exact ⟨_, .found hkind hstep⟩
    | false =>
      cases hnext : (r.nextOf n).head? with
      | none => exact ⟨_, .last hkind hstep hnext⟩
      | some m =>
        have hm := mem_of_head? hnext
        have hlt := h.idxOf_lt hn hm
        have hmem := h.next_mem hn hm
        have hidx := idxOf_lt_length_of_mem (mem_layout hmem)
        rw [← hlayout] at hlt hidx
        obtain ⟨res, hres⟩ := ih (layout.length - layout.idxOf m) (by omega) hmem rfl
        exact ⟨res, .pass hkind hstep hnext hres⟩

/-- The next step depends on the edges and on which nodes are steps. -/
theorem nextStep_congr (hsize : r'.nodes.size = r.nodes.size)
    (hnext : ∀ n, r'.nextOf n = r.nextOf n)
    (hstep : ∀ n, (r'.kindOf n).map NodeKind.isStep = (r.kindOf n).map NodeKind.isStep)
    (n : NodeId) : Lower.nextStep r' n = Lower.nextStep r n := by
  have hfuel : r'.walkFuel = r.walkFuel := by rw [walkFuel, hsize, walkFuel]
  rw [Lower.nextStep, Lower.nextStep, hfuel]
  generalize r.walkFuel = fuel
  generalize some n = start
  induction fuel generalizing start with
  | zero => cases start <;> rfl
  | succ fuel ih =>
    cases start with
    | none => rfl
    | some n =>
      by_cases hn : n < r.nodes.size
      · have hd := Array.getElem?_eq_getElem hn
        have hd' := Array.getElem?_eq_getElem (hsize ▸ hn : n < r'.nodes.size)
        have hkind := hstep n
        have hnext' := hnext n
        rw [kindOf_eq hd, kindOf_eq hd', map_some, map_some, some.injEq] at hkind
        rw [nextOf_eq hd, nextOf_eq hd'] at hnext'
        simp only [nextStepWithin, node_eq_ok_iff.mpr hd, node_eq_ok_iff.mpr hd', Attempt.ok_bind,
          hkind, Node.firstNext, hnext', ih]
      · have hd : r.nodes[n]? = none := Array.getElem?_eq_none (Nat.not_lt.mp hn)
        have hd' : r'.nodes[n]? = none := Array.getElem?_eq_none (hsize ▸ Nat.not_lt.mp hn)
        simp only [nextStepWithin, node, Arena.fetch, hd, hd']
        rfl

end Scan

/-- Where a jump goes that looks for a step from the given node on. -/
def destination (r : Routine) (n : NodeId) : Jump :=
  match Lower.nextStep r n with
  | .ok (some step) => .step step
  | _ => .terminal

/-- A node with its destination settled, if it is an open jump. -/
def settled (r : Routine) (n : NodeId) (d : Node) : Node :=
  match d.kind with
  | .goto guarded (.pending origin) =>
    { d with kind := .goto guarded (r.destination (origin.getD n)) }
  | _ => d

theorem settled_of_ne (h : ∀ guarded origin, d.kind ≠ .goto guarded (.pending origin)) :
    r.settled n d = d := by
  unfold settled
  split
  · rename_i guarded origin hkind
    exact absurd hkind (h guarded origin)
  · rfl

theorem settled_of_eq {guarded : Bool} {origin : Option NodeId}
    (h : d.kind = .goto guarded (.pending origin)) :
    r.settled n d = { d with kind := .goto guarded (r.destination (origin.getD n)) } := by
  simp only [settled, h]

theorem destination_ne_pending (r : Routine) (n : NodeId) (origin : Option NodeId) :
    r.destination n ≠ .pending origin := by
  unfold destination
  split <;> simp

/-- A routine in which some open jumps of another one are settled, among them those at the given
nodes. -/
structure Settles (r r' : Routine) (settledAt : List NodeId) : Prop where
  entry : r'.entry = r.entry
  mem : r'.mem = r.mem
  vars : r'.vars = r.vars
  size : r'.nodes.size = r.nodes.size
  next : ∀ n, r'.nextOf n = r.nextOf n
  prev : ∀ n, r'.prevOf n = r.prevOf n
  labels : ∀ n d, r.label n = some d →
    r'.label n = some (r.settled n d) ∨ r'.label n = some d ∧ n ∉ settledAt

namespace Settles

variable {r' : Routine} {ns ms : List NodeId}

theorem refl (r : Routine) : r.Settles r [] :=
  ⟨rfl, rfl, rfl, rfl, fun _ => rfl, fun _ => rfl, fun _ _ h => .inr ⟨h, by simp⟩⟩

variable (h : r.Settles r' ns)
include h

theorem mono (hsub : ms ⊆ ns) : r.Settles r' ms where
  entry := h.entry
  mem := h.mem
  vars := h.vars
  size := h.size
  next := h.next
  prev := h.prev
  labels n d hd := (h.labels n d hd).imp_right fun ⟨hlabel, hn⟩ =>
    ⟨hlabel, fun hmem => hn (hsub hmem)⟩

theorem label_of_ne (hd : r.label n = some d)
    (hne : ∀ guarded origin, d.kind ≠ .goto guarded (.pending origin)) : r'.label n = some d := by
  rcases h.labels n d hd with hlabel | hlabel
  · rw [hlabel, settled_of_ne hne]
  · exact hlabel.1

/-- A node that is settled may be counted as such. -/
theorem cons (hd : r.label n = some d) (hsettled : r'.label n = some (r.settled n d)) :
    r.Settles r' (n :: ns) where
  entry := h.entry
  mem := h.mem
  vars := h.vars
  size := h.size
  next := h.next
  prev := h.prev
  labels m d' hd' := by
    rcases h.labels m d' hd' with hlabel | ⟨hlabel, hmem⟩
    · exact .inl hlabel
    · by_cases hmn : m = n
      · subst hmn
        obtain rfl : d = d' := some.inj (hd.symm.trans hd')
        exact .inl hsettled
      · exact .inr ⟨hlabel, by simp [hmn, hmem]⟩

/-- What does not depend on where jumps go stays. -/
theorem map_kindOf {α : Type} {f : NodeKind → α}
    (hf : ∀ guarded jump jump', f (.goto guarded jump) = f (.goto guarded jump')) (n : NodeId) :
    (r'.kindOf n).map f = (r.kindOf n).map f := by
  cases hd : r.label n with
  | none =>
    have hlt : ¬ n < r.nodes.size := fun hlt => by simp [← label_isSome, hd] at hlt
    have hd' : r'.label n = none := by
      rw [← not_isSome_iff_eq_none, label_isSome, h.size]
      exact hlt
    simp [kindOf, hd, hd']
  | some d =>
    rcases h.labels n d hd with hlabel | ⟨hlabel, -⟩
    · simp only [kindOf, hlabel, hd, map_some, some.injEq]
      unfold settled
      split
      · rename_i hkind
        rw [hkind]
        exact hf _ _ _
      · rfl
    · simp [kindOf, hlabel, hd]

/-- The stream stays as it is. -/
theorem streams {exit : NodeId} {t : Strand} (hr : r.Streams exit t) : r'.Streams exit t where
  toCarries := hr.congr h.entry fun n _ => ⟨h.next n, h.prev n⟩
  shaped := hr.shaped.congr fun n _ => h.map_kindOf (fun _ _ _ => rfl) n
  entry_kind := by
    obtain ⟨name, sig, suspends, hkind⟩ := hr.entry_kind
    obtain ⟨d, hd, hdk⟩ := map_eq_some_iff.mp hkind
    refine ⟨name, sig, suspends, ?_⟩
    rw [h.entry, kindOf, h.label_of_ne hd (by simp [hdk]), map_some, hdk]
  exit_kind := by
    obtain ⟨d, hd, hdk⟩ := map_eq_some_iff.mp hr.exit_kind
    rw [h.entry, kindOf, h.label_of_ne hd (by simp [hdk]), map_some, hdk]

/-- Settling one more jump. -/
theorem alter {guarded : Bool} {origin : Option NodeId} (hd : r.label n = some d)
    (hkind : d.kind = .goto guarded (.pending origin)) :
    r.Settles (r'.alter n ({ · with kind := .goto guarded (r.destination (origin.getD n)) }))
    (n :: ns) where
  entry := h.entry
  mem := h.mem
  vars := h.vars
  size := by rw [size_alter, h.size]
  next m := by rw [nextOf_alter_of_eq (by intro d; rfl), h.next]
  prev m := by rw [prevOf_alter_of_eq (by intro d; rfl), h.prev]
  labels m d' hd' := by
    rw [label_alter (g := ({ · with kind := .goto guarded (r.destination (origin.getD n)) }))
      (by intro d; rfl)]
    split
    · rename_i hmn
      subst hmn
      obtain rfl : d = d' := some.inj (hd.symm.trans hd')
      rw [settled_of_eq hkind]
      rcases h.labels m d hd with hlabel | ⟨hlabel, -⟩
      · rw [hlabel, settled_of_eq hkind]
        exact .inl rfl
      · rw [hlabel]
        exact .inl rfl
    · rename_i hmn
      rcases h.labels m d' hd' with hlabel | ⟨hlabel, hmem⟩
      · exact .inl hlabel
      · exact .inr ⟨hlabel, by simp [hmn, hmem]⟩

end Settles

end Routine

namespace Lower

open Routine

variable {r : Routine} {exit n : NodeId} {t : Strand} {w : Work} {ns : List NodeId} {d : Node}
  {stop : Option NodeId} {fuel : Nat} {post : PUnit → Work → Prop}

/-- A jump gets the step that has been found for it. -/
theorem yields_settle {guarded : Bool} {origin : Option NodeId} {res : Option NodeId}
    (hres : nextStep w.routine (origin.getD n) = .ok res) (hn : n < w.routine.nodes.size)
    (hpost : ∀ w', w'.routine =
      w.routine.alter n ({ · with kind := .goto guarded (w.routine.destination (origin.getD n)) }) →
      post () w') :
    Yields (settle n guarded origin) w post := by
  simp only [settle, yields_bind, Pass.yields_ask, hres, Except.ok.injEq, exists_eq_left']
  cases res with
  | none | some step =>
    simp only [yields_bind, yields_pure, Pass.yields_lift, yields_setKind, Pass.yields_note]
    refine ⟨hn, hpost _ ?_⟩
    simp only [destination, hres]

/-- The walk past a node that is not a conditional with two arms. -/
theorem yields_settleWithin_cons {x : Option NodeId} (h : r.Streams exit t)
    (hsettles : r.Settles w.routine ns) (hd : r.label n = some d)
    (hpending : ∀ guarded origin, d.kind = .goto guarded (.pending origin) →
      origin.getD n ∈ r.live exit t)
    (hnext : r.nextOf n = x.toList) (hstop : some n ≠ stop)
    (hk : ∀ w', r.Settles w'.routine (n :: ns) → Yields (settleWithin fuel x stop) w' post) :
    Yields (settleWithin (fuel + 1) (some n) stop) w post := by
  have hhead : (r.nextOf n).head? = x := by rw [hnext]; cases x <;> rfl
  have hsecond : (r.nextOf n)[1]? = none := by rw [hnext]; cases x <;> rfl
  -- a node that needs no change
  have hskip : ∀ d', w.routine.label n = some d' → w.routine.label n = some (r.settled n d) →
      (∀ guarded origin, d'.kind ≠ .goto guarded (.pending origin)) →
      Yields (settleWithin (fuel + 1) (some n) stop) w post := by
    intro d' hd' hsettled hne
    simp only [settleWithin, hstop, if_false, yields_bind, Pass.yields_lift, yields_node,
      node_of_label hd', exists_some_eq, hsettles.next]
    split
    · rename_i hkind
      exact absurd hkind (hne _ _)
    · rename_i hfirst
      rw [hsecond] at hfirst
      cases hfirst
    · simp only [yields_bind, Pass.yields_lift, yields_firstNext, node_of_label hd',
        exists_some_eq, Node.firstNext, hsettles.next, hhead]
      exact hk w (hsettles.cons hd hsettled)
  by_cases hopen : ∃ guarded origin, d.kind = .goto guarded (.pending origin)
  · obtain ⟨guarded, origin, hkind⟩ := hopen
    rcases hsettles.labels n d hd with hlabel | ⟨hlabel, -⟩
    · refine hskip _ hlabel hlabel fun guarded' origin' heq => ?_
      rw [settled_of_eq hkind] at heq
      exact destination_ne_pending _ _ _ (NodeKind.goto.inj heq).2
    · obtain ⟨res, hscan⟩ := h.exists_scan (hpending guarded origin hkind)
      have hres : nextStep w.routine (origin.getD n) = .ok res :=
        (nextStep_congr hsettles.size hsettles.next (hsettles.map_kindOf fun _ _ _ => rfl) _).trans
          (h.nextStep_eq (hpending guarded origin hkind) hscan)
      simp only [settleWithin, hstop, if_false, yields_bind, Pass.yields_lift, yields_node,
        node_of_label hlabel, exists_some_eq, hkind]
      refine yields_settle hres (hsettles.size ▸ lt_of_label hd) fun w' hw' => ?_
      have hsettles' := hsettles.alter hd hkind
      rw [destination, ← nextStep_congr hsettles.size hsettles.next
        (hsettles.map_kindOf fun _ _ _ => rfl), ← destination, ← hw'] at hsettles'
      have hlt : n < w'.routine.nodes.size := hsettles'.size ▸ lt_of_label hd
      rw [yields_firstNext]
      refine ⟨_, Array.getElem?_eq_getElem hlt, ?_⟩
      rw [Node.firstNext, ← nextOf_eq (Array.getElem?_eq_getElem hlt), hsettles'.next, hhead]
      exact hk w' hsettles'
  · have hne : ∀ guarded origin, d.kind ≠ .goto guarded (.pending origin) :=
      fun guarded origin hkind => hopen ⟨guarded, origin, hkind⟩
    have hlabel := hsettles.label_of_ne hd hne
    exact hskip d hlabel (by rw [hlabel, settled_of_ne hne]) hne

/-- The walk at a conditional with two arms, the second arm first. -/
theorem yields_settleWithin_fork {x y c : NodeId} {suspends : Bool}
    (hsettles : r.Settles w.routine ns) (hd : r.label n = some d)
    (hkind : d.kind = .enter .cond ⟨c, suspends⟩) (hnext : r.nextOf n = [x, y])
    (hstop : some n ≠ stop) (hk : ∀ w', r.Settles w'.routine (n :: ns) →
      Yields (settleWithin fuel (some y) (some c)) w' fun _ w'' => w''.routine.nextOf n = [x, y] ∧
      Yields (settleWithin fuel (some x) stop) w'' post) :
    Yields (settleWithin (fuel + 1) (some n) stop) w post := by
  have hne : ∀ guarded origin, d.kind ≠ .goto guarded (.pending origin) := by simp [hkind]
  have hlabel := hsettles.label_of_ne hd hne
  have hsettled : w.routine.label n = some (r.settled n d) := by rw [hlabel, settled_of_ne hne]
  simp only [settleWithin, hstop, if_false, yields_bind, Pass.yields_lift, yields_node,
    node_of_label hlabel,
    exists_some_eq, hsettles.next, hnext, hkind, getElem?_cons_succ, getElem?_cons_zero]
  refine (hk w (hsettles.cons hd hsettled)).mono fun _ w' hw' => ?_
  obtain ⟨d', hd', hfirst⟩ := exists_firstNext hw'.1
  rw [yields_firstNext]
  refine ⟨d', hd', ?_⟩
  rw [hfirst]
  exact hw'.2

/-- The second walk settles every jump of a stream. -/
theorem yields_settleWithin (h : w.routine.Streams exit t)
    (hpending : ∀ n ∈ t.nodes, ∀ d guarded origin, w.routine.label n = some d →
      d.kind = .goto guarded (.pending origin) → origin.getD n ∈ w.routine.live exit t)
    (hfuel : t.nodes.length + 2 ≤ fuel)
    (hpost : ∀ w', w.routine.Settles w'.routine t.nodes → post () w') :
    Yields (settleWithin fuel (some w.routine.entry) none) w post := by
  obtain ⟨name, sig, suspends, hkind⟩ := h.entry_kind
  obtain ⟨dₑ, hdₑ, hkₑ⟩ := map_eq_some_iff.mp hkind
  obtain ⟨dₓ, hdₓ, hkₓ⟩ := map_eq_some_iff.mp h.exit_kind
  have hlast : w.routine.nextOf exit = [] := length_eq_zero_iff.mp h.exit_degrees.2
  have hopen : ∀ n ∈ w.routine.entry :: t.tour, ∀ d guarded origin, w.routine.label n = some d →
      d.kind = .goto guarded (.pending origin) → origin.getD n ∈ w.routine.live exit t := by
    refine forall_mem_cons.mpr ⟨fun d _ _ hd hk => ?_,
      fun n hn => hpending n (t.tour_perm.mem_iff.mp hn)⟩
    cases hdₑ.symm.trans hd
    simp [hkₑ] at hk
  obtain _ | fuel := fuel
  · omega
  refine yields_settleWithin_cons (x := some _) h (.refl _) hdₑ (by simp [hkₑ]) h.nextOf_entry
    (by simp) fun w₁ hsettles₁ => ?_
  refine Lays.yields_walk (m := 1) (fun fuel n stop => settleWithin fuel (some n) stop) some
    (fun l w' => w.routine.Settles w'.routine l) (w.routine.entry :: t.tour) some.inj
    (fun hpost => ?_)
    (fun hfull hnext hstop hsettles hk => ?_) (fun hfull hnext hkind hstop hsettles hk => ?_)
    h.toLays h.shaped h.nodup_nodes
    (by simp) (prefix_refl _) hsettles₁ (by omega) fun w₂ fuel₂ hfuel₂ hsettles₂ => ?_
  · rw [settleWithin.eq_def]
    simpa only [if_true, yields_pure] using hpost
  · obtain ⟨d, hd, -⟩ := exists_next hnext
    refine yields_settleWithin_cons (x := some _) h hsettles (label_eq hd)
      (hopen _ (hfull.subset (by simp)) _ · · (label_eq hd)) hnext hstop fun w' hsettles' =>
      hk w' (hsettles'.mono (by simp))
  · obtain ⟨d, hd, hkd⟩ := map_eq_some_iff.mp hkind
    refine yields_settleWithin_fork hsettles hd hkd hnext hstop fun w' hsettles' =>
      (hk w' (hsettles'.mono (by simp))).mono ?_
    rintro _ w'' ⟨⟨l', hl'⟩, hrest⟩
    exact ⟨(hl'.next _).trans hnext, hrest⟩
  obtain _ | fuel₂ := fuel₂
  · omega
  refine yields_settleWithin_cons (x := none) h hsettles₂ hdₓ (by simp [hkₓ]) hlast (by simp)
    fun w' hsettles' => ?_
  rw [settleWithin]
  exact hpost w' (hsettles'.mono fun n hn => by simp [t.tour_perm.mem_iff, hn])

end Lower

end CoroutineIR
