import CoroutineIR.Proofs.Landing
import CoroutineIR.Proofs.Lowered

/-!
# The lowering preserves behaviour
-/

namespace CoroutineIR

variable {r : Routine} {exit : NodeId} {t : Strand}

open Option Routine Strand NodeKind Lower

theorem Routine.branchArrival_of_arrives {goal : Branch} {dest : NodeId}
    (h : Arrives r.label goal.target dest) : (r.branchArrival goal).toOption = some dest := by
  obtain ⟨d, hd, harrives⟩ := h
  have hnode := node_eq_ok_iff.mpr (node_of_label hd)
  simp only [Routine.branchArrival, hnode]
  split at harrives <;> rename_i hloop
  · subst harrives
    simp [hloop, Except.toOption]
  · simp [hloop, harrives, Except.toOption]

theorem arrives_of_enter {label : NodeId → Option Node} {o c : NodeId} {d : Node} {form : Form}
    {suspends : Bool} (hd : label o = some d) (hkind : d.kind = .enter form ⟨c, suspends⟩) :
    Arrives label o (if form = .loop then o else c) := by
  refine ⟨d, hd, ?_⟩
  cases form <;> simp [hkind, isLoop, partner?]

namespace Pairing

variable {P : Pairing} {u : Strand} {n x z o c : NodeId} {d : Node}
  {dst dst' src src₁ dst₁ src₂ dst₂ : Port} {enclosing : List NodeId}

/-- A node, and the second half of it if it is a call, is executed alike by both routines. -/
def Agrees (P : Pairing) (n : NodeId) : Prop :=
  P.Alike (.before n) (.before n) ∧ ∀ f, P.split n f → P.Alike (.amid n) (.before f)

variable (hP : P.Lowers r u)
include hP

theorem agrees_of_alike (hd : P.left.label n = some d)
    (hwhole : d.kind.awaits = false) (halike : P.Alike (.before n) (.before n)) : P.Agrees n := by
  refine ⟨halike, fun f hsplit => ?_⟩
  obtain ⟨kind, hkind, hawaits⟩ := ((hP.split n f).mp hsplit).2.call
  obtain rfl := some.inj ((kindOf_of_label hd rfl).symm.trans hkind)
  simp [hwhole] at hawaits

/-- A branch that has become a jump. -/
theorem agrees_branch (hn : n ∈ u.nodes) {guarded : Bool} {goal : Branch} {dest : NodeId}
    (hold : P.left.label n = some d) (hkind : d.kind = .branch guarded goal)
    (hdest : Arrives P.left.label goal.target dest)
    (hnew : r.label n = some { d with kind := .goto guarded (.pending (some dest)) })
    (hlands : P.Lands r dest dest) (hmem : dest ∈ r.live P.exit u)
    (hx : P.left.nextOf n = [x]) (hz : P.right.nextOf n = [z])
    (hnext : P.Meets (.before x) (.before z)) : P.Agrees n := by
  have hright := hP.label n hn _ hnew
  rw [settled_of_eq rfl] at hright
  refine agrees_of_alike hP hold (by rw [hkind]; rfl)
    (alike_jump hold hright hkind rfl rfl ?_ fun e => ?_)
  · rw [hx, hz]
    exact hnext
  · rw [branchArrival_of_arrives hdest]
    exact hlands.meets_landing hP.streams hmem e

/-- A call that has been split in two. -/
theorem agrees_split {j s f : NodeId} {form first : CallForm} {sig : Signature} {name : String}
    (hkept : P.kept n) (hsub : ∀ m ∈ [n, j, s, f],
      m ∈ u.nodes) (hold : P.left.label n = some d) (hkind : d.kind = .call form sig)
    (hfirst : form.begun? = some first) (hsuspends : sig.suspends = true)
    (hnew : r.label n = some { d with kind := .call first sig, dest := none })
    (hjump : r.label j = some openJump) (hs : r.label s = some (.bare (.step name)))
    (hf : r.label f = some (.detached (.call .finish sig) d.dest d.ty [])) (hj : r.nextOf j = [s])
    (hx : P.left.nextOf n = [x]) (hn' : P.right.nextOf n = [j]) (hs' : P.right.nextOf s = [f])
    (hz : P.right.nextOf f = [z]) (hnext : P.Meets (.before x) (.before z)) : P.Agrees n := by
  simp only [List.forall_mem_cons] at hsub
  obtain ⟨hmn, hmj, hms, hmf, _⟩ := hsub
  have hscan : r.Scan j (some s) :=
    .pass (kindOf_of_label hjump rfl) rfl (by rw [hj, List.head?_cons])
      (.found (kindOf_of_label hs rfl) rfl)
  have hdest : r.destination j = .step s := by
    rw [Routine.destination, hP.streams.nextStep_eq (by simp [hmj]) hscan]
  have hkindj := hP.kindOf_jump hmj hjump
  rw [hdest] at hkindj
  have hhalves : P.left.Halves P.right n f :=
    ⟨⟨_, kindOf_of_label hold hkind, awaits_of_begun hfirst hsuspends⟩, j, s, hn', hkindj, hs'⟩
  constructor
  · refine alike_begin hold (hP.label_of_ne hmn hnew (by simp)) hkind hfirst hsuspends rfl rfl ?_
    rw [hn']
    exact ⟨_, .halves (.pass (passes_of_goto hkindj) (.pass (passes_of_next (hP.kindOf_step hms hs)
      rfl hs') (.refl f))) ((hP.split n f).mpr ⟨hkept, hhalves⟩)⟩
  · intro f' hsplit
    obtain ⟨j', s', hj', hgoto, hf'⟩ := ((hP.split n f').mp hsplit).2.second
    obtain rfl : j = j' := by simpa [hn'] using hj'
    obtain rfl : s = s' := by simpa [hkindj] using hgoto
    obtain rfl : f = f' := by simpa [hs'] using hf'
    refine alike_finish hold (hP.label_of_ne hmf hf (by simp [Node.detached])) hkind rfl rfl ?_
    rw [hx, hz]
    exact hnext

/-- The end of a region that has been kept. -/
theorem agrees_closer (hclose : P.left.kindOf c = some (.close o))
    (hsame : P.right.label c = P.left.label c) (hx : P.left.nextOf c = [x])
    (hz : P.right.nextOf c = [z]) (hnext : P.Meets (.before x) (.before z)) : P.Agrees c := by
  obtain ⟨d, hd, hkind⟩ := map_eq_some_iff.mp hclose
  refine agrees_of_alike hP hd (by rw [hkind]; rfl) (alike_of_label hd (hsame.trans hd)
    (by simp [hkind]) (by rw [hkind]; rfl) ?_ (by simp [hkind]) (by simp [hkind]))
  rw [hx, hz]
  exact hnext

/-- The start of a region that has been kept. -/
theorem agrees_opener {form : Form} {suspends : Bool}
    (hopen : P.left.kindOf o = some (.enter form ⟨c, suspends⟩))
    (hsame : P.right.label o = P.left.label o)
    (hnext : P.Meets (.toward (P.left.nextOf o).head?) (.toward (P.right.nextOf o).head?))
    (hother : P.Meets (.before ((P.left.nextOf o)[1]?.getD c))
      (.before ((P.right.nextOf o)[1]?.getD c))) : P.Agrees o := by
  obtain ⟨d, hd, hkind⟩ := map_eq_some_iff.mp hopen
  refine agrees_of_alike hP hd (by rw [hkind]; rfl) (alike_of_label hd (hsame.trans hd)
    (by simp [hkind]) (by rw [hkind]; rfl) hnext ?_ (by simp [hkind]))
  intro region hregion
  obtain ⟨_, rfl⟩ : form = .cond ∧ ⟨c, suspends⟩ = region := by simpa [hkind] using hregion
  exact hother

omit hP

/-- Branches to those of the given regions that do not suspend arrive alike. -/
def ArrivesAlike (P : Pairing) (enclosing : List NodeId) : Prop :=
  ∀ goal : Branch, goal.target ∈ enclosing → P.left.suspendsAt goal.target = false →
    P.Meets (.toward (P.left.branchArrival goal).toOption)
    (.toward (P.right.branchArrival goal).toOption)

theorem ArrivesAlike.cons {form : Form} {suspends : Bool}
    (h : P.ArrivesAlike enclosing) (hopen : P.left.kindOf o = some (.enter form ⟨c, suspends⟩))
    (hsame : P.right.label o = P.left.label o) (ho : P.kept o) (hc : P.kept c) :
    P.ArrivesAlike (o :: enclosing) := by
  intro goal hgoal hcalm
  rcases List.mem_cons.mp hgoal with rfl | hgoal
  · obtain ⟨d, hd, hkind⟩ := map_eq_some_iff.mp hopen
    rw [branchArrival_of_arrives (arrives_of_enter hd hkind),
      branchArrival_of_arrives (arrives_of_enter (hsame.trans hd) hkind)]
    split
    · exact meets_kept ho
    · exact meets_kept hc
  · exact h goal hgoal hcalm

theorem meets_entry (hkept : ∀ n ∈ t.nodes, P.kept n)
    (hmeets : P.Meets (.before dst.1) (.before dst'.1)) :
    P.Meets (.before (t.entryPort dst).1) (.before (t.entryPort dst').1) := by
  cases t with
  | done => exact hmeets
  | leaf | region | fork => exact meets_kept (hkept _ (by simp))

/-- What does not suspend runs as before, if control enters and leaves it alike. -/
theorem agrees_of_calm (hP : P.Lowers r u) {src' : Port} (h : P.left.Lays src t dst)
    (h' : P.right.Lays src' t dst') (hshaped : t.Shaped P.left.kindOf)
    (hfit : t.BranchesFit P.left.kindOf enclosing) (hcalm : ∀ n ∈ t.nodes, P.left.CalmAt n)
    (hkept : ∀ n ∈ t.nodes, P.kept n) (hsame : ∀ n ∈ t.nodes, P.right.label n = P.left.label n)
    (hplain : ∀ n ∈ t.nodes, ∀ guarded goal, P.left.kindOf n ≠ some (.goto guarded goal))
    (henv : P.ArrivesAlike enclosing) (hmeets : P.Meets (.before dst.1) (.before dst'.1)) :
    ∀ n ∈ t.nodes, P.Agrees n := by
  induction t generalizing enclosing src dst src' dst' with
  | done => simp
  | leaf n rest ih =>
    simp only [forall_leaf] at hcalm hkept hsame hplain ⊢
    refine ⟨?_,
      ih h.leaf_rest h'.leaf_rest hshaped.2 hfit.2 hcalm.2 hkept.2 hsame.2 hplain.2 henv hmeets⟩
    obtain ⟨⟨kind, hkind, hregion, -⟩, -⟩ := hshaped
    obtain ⟨d, hd, rfl⟩ := map_eq_some_iff.mp hkind
    have hwhole := not_awaits_of_calm (hcalm.1.suspension _ hkind)
    refine agrees_of_alike hP hd hwhole (alike_of_label hd (hsame.1.trans hd) ?_ hwhole ?_ ?_ ?_)
    · exact fun guarded goal hgoto => hplain.1 guarded goal (kindOf_of_label hd hgoto)
    · rw [h.nextOf_leaf, h'.nextOf_leaf]
      exact meets_entry hkept.2 hmeets
    · exact fun region hcond => by simp [hcond] at hregion
    · intro guarded goal hbranch
      have htarget := hfit.1 guarded goal (kindOf_of_label hd hbranch)
      exact henv goal (List.isSome_idxOf?.mp (by rw [htarget]; rfl))
        (hcalm.1.target guarded goal (kindOf_of_label hd hbranch))
  | region o c body rest ihb ihr =>
    simp only [forall_region] at hcalm hkept hsame hplain ⊢
    obtain ⟨⟨form, suspends, hopen⟩, hclose, hbody, hrest⟩ := hshaped
    refine ⟨agrees_opener hP hopen hsame.1 ?_ ?_, ?_, agrees_closer hP hclose hsame.2.2.1
      h.nextOf_closer h'.nextOf_closer (meets_entry hkept.2.2.2 hmeets), ?_⟩
    · rw [h.nextOf_opener, h'.nextOf_opener]
      exact meets_entry hkept.2.1 (meets_kept hkept.2.2.1)
    · rw [h.nextOf_opener, h'.nextOf_opener]
      exact meets_kept hkept.2.2.1
    · exact ihb h.region_body h'.region_body hbody hfit.1 hcalm.2.1 hkept.2.1 hsame.2.1 hplain.2.1
        (henv.cons hopen hsame.1 hkept.1 hkept.2.2.1) (meets_kept hkept.2.2.1)
    · exact ihr h.region_rest h'.region_rest hrest hfit.2 hcalm.2.2.2 hkept.2.2.2 hsame.2.2.2
        hplain.2.2.2 henv hmeets
  | fork o c first second rest iha ihb ihr =>
    simp only [forall_fork] at hcalm hkept hsame hplain ⊢
    obtain ⟨⟨suspends, hopen⟩, hclose, hfirst, hsecond, hrest⟩ := hshaped
    have henv' := henv.cons hopen hsame.1 hkept.1 hkept.2.2.2.1
    have hmeets' := meets_kept hkept.2.2.2.1
    refine ⟨agrees_opener hP hopen hsame.1 ?_ ?_, ?_, ?_, agrees_closer hP hclose hsame.2.2.2.1
      h.nextOf_join h'.nextOf_join (meets_entry hkept.2.2.2.2 hmeets), ?_⟩
    · rw [h.nextOf_fork, h'.nextOf_fork]
      exact meets_entry hkept.2.1 hmeets'
    · rw [h.nextOf_fork, h'.nextOf_fork]
      exact meets_entry hkept.2.2.1 hmeets'
    · exact iha h.fork_first h'.fork_first hfirst hfit.1 hcalm.2.1 hkept.2.1 hsame.2.1
        hplain.2.1 henv' hmeets'
    · exact ihb h.fork_second h'.fork_second hsecond hfit.2.1 hcalm.2.2.1 hkept.2.2.1 hsame.2.2.1
        hplain.2.2.1 henv' hmeets'
    · exact ihr h.fork_rest h'.fork_rest hrest hfit.2.2 hcalm.2.2.2.2 hkept.2.2.2.2 hsame.2.2.2.2
        hplain.2.2.2.2 henv hmeets

/-- The given regions suspend, and jumps to where branches to them arrive land there. -/
def LandsAlike (P : Pairing) (r : Routine) (u : Strand) (enclosing : List NodeId) : Prop :=
  ∀ target ∈ enclosing, P.left.suspendsAt target = true ∧
    ∀ dest, Arrives P.left.label target dest → P.Lands r dest dest ∧
    dest ∈ r.entry :: P.exit :: u.nodes

/-- One more region around. -/
theorem LandsAlike.cons {form : Form}
    (h : P.LandsAlike r u enclosing) (hopen : P.left.kindOf o = some (.enter form ⟨c, true⟩))
    (ho : o ∈ u.nodes) (hc : c ∈ u.nodes) (hhead : form = .loop → P.Lands r o o)
    (hend : P.Lands r c c) : P.LandsAlike r u (o :: enclosing) := by
  refine List.forall_mem_cons.mpr ⟨⟨?_, fun dest hdest => ?_⟩, h⟩
  · simp [suspendsAt, hopen, opensSuspending]
  · obtain ⟨d, hd, hdest⟩ := hdest
    have hkind : d.kind = .enter form ⟨c, true⟩ :=
      some.inj ((kindOf_of_label hd rfl).symm.trans hopen)
    by_cases hloop : form = .loop
    · obtain rfl : dest = o := by simpa [hkind, hloop, isLoop] using hdest
      exact ⟨hhead hloop, by simp [ho]⟩
    · obtain rfl : c = dest := by
        cases form <;> simp_all [isLoop, partner?]
      exact ⟨hend, by simp [hc]⟩

/-- No branch to an enclosing region that does not suspend exists, since all of them do. -/
theorem LandsAlike.arrivesAlike (h : P.LandsAlike r u enclosing) : P.ArrivesAlike enclosing := by
  intro goal hgoal hcalm
  simp [(h _ hgoal).1] at hcalm

/-- A node that opens or closes a region has the same label throughout. -/
theorem Lowers.label_end (hP : P.Lowers r u) (hn : n ∈ u.nodes) (hsame : r.label n = P.left.label n)
    (hplain : ∀ guarded goal, P.left.kindOf n ≠ some (.goto guarded goal)) :
    P.right.label n = P.left.label n := by
  cases hd : P.left.label n with
  | none =>
    have hlt := hP.streams.lt_size (n := n) (by simp [hn])
    rw [← label_isSome, hsame, hd] at hlt
    simp at hlt
  | some d =>
    rw [hd] at hsame
    exact hP.label_of_ne hn hsame fun guarded origin hkind =>
      hplain guarded _ (kindOf_of_label hd hkind)

/-- A node of a strand that is cut runs as before, whatever has been put behind it. -/
theorem agrees_of_turned (hP : P.Lowers r u) {b : Bool} {behind rest rest' v : Strand}
    (hturned : Turned P.left.label r.label n b behind) (h : P.left.Lays src (.leaf n rest) dst)
    (h₁ : r.Lays src₁ (.leaf n (behind.append rest')) dst₁)
    (h₂ : P.right.Lays src₂ (.leaf n (behind.append v)) dst₂)
    (hn : n ∈ u.nodes) (hbehind : behind.nodes ⊆ u.nodes) (hkept : P.kept n)
    (hfit : ∀ guarded goal, P.left.kindOf n = some (.branch guarded goal) →
      enclosing.idxOf? goal.target = some goal.depth)
    (hplain : ∀ guarded goal, P.left.kindOf n ≠ some (.goto guarded goal))
    (henv : P.LandsAlike r u enclosing)
    (hmeets : P.Meets (.before (rest.entryPort dst).1) (.before (v.entryPort dst₂).1))
    (hlands : b = false → P.Lands r (rest.entryPort dst).1 (rest'.entryPort dst₁).1) :
    P.Agrees n := by
  cases hturned with
  | @keep d hold hmove hnew =>
    have hjump : ∀ guarded goal, d.kind ≠ .goto guarded goal := fun guarded goal hkind =>
      hplain guarded goal (kindOf_of_label hold hkind)
    have hwhole := not_awaits_of_keep hmove
    have hright := hP.label_of_ne hn hnew fun guarded origin => hjump guarded _
    refine agrees_of_alike hP hold hwhole (alike_of_label hold hright hjump hwhole ?_ ?_ ?_)
    · rw [h.nextOf_leaf, h₂.nextOf_leaf]
      exact hmeets
    · intro region hkind
      simp only [hkind, moveAt, if_true] at hmove
      split at hmove <;> simp at hmove
    · intro guarded goal hkind
      simp [hkind, moveAt] at hmove
  | @yield j d hold hkind hnew hjump =>
    have hj : j ∈ u.nodes := hbehind (by simp)
    have hright := hP.label_of_ne hn hnew (by simp [hkind])
    refine agrees_of_alike hP hold (by rw [hkind]; rfl) (alike_of_label hold hright
      (by simp [hkind]) (by rw [hkind]; rfl) ?_ (by simp [hkind]) (by simp [hkind]))
    rw [h.nextOf_leaf, h₂.nextOf_leaf]
    exact ((hlands rfl).scan (kindOf_of_label hjump rfl) rfl h₁.leaf_rest.nextOf_leaf).meets_jump
      hP.streams (by simp [hj]) (hP.kindOf_jump hj hjump)
  | branch hold hkind hdest hnew =>
    have htarget := hfit _ _ (kindOf_of_label hold hkind)
    obtain ⟨hland, hmem⟩ := (henv _ (List.isSome_idxOf?.mp (by rw [htarget]; rfl))).2 _ hdest
    exact agrees_branch hP hn hold hkind hdest hnew hland hmem h.nextOf_leaf h₂.nextOf_leaf hmeets
  | split hold hkind hfirst hsuspends hnew hjump hs hf =>
    simp only [leaf_subset] at hbehind
    have h₂' := h₂.leaf_rest.leaf_rest
    exact agrees_split hP hkept (by simp [hn, hbehind]) hold hkind hfirst hsuspends hnew hjump hs hf
      h₁.leaf_rest.nextOf_leaf h.nextOf_leaf h₂.nextOf_leaf h₂'.nextOf_leaf
      h₂'.leaf_rest.nextOf_leaf hmeets

/-- Control in front of what is left of a strand that is cut into steps meets control in front of
the strand, if it does so behind, and where no step is open every jump to there lands. Then the
strand runs as before, if jumps out of it land. -/
theorem agrees_of_cut (hP : P.Lowers r u) {b : Bool} {t' : Strand}
    (hcut : Cut P.left.label r.label b t t') {parent : NodeId} (h : P.left.Lays src t dst)
    (h₁ : r.Lays src₁ t' dst₁) (h₂ : P.right.Lays src₂ (t'.dissolved r.kindOf) dst₂)
    (hsub : t'.nodes ⊆ u.nodes) (hshaped : t.Shaped P.left.kindOf)
    (hmarked : P.left.Marked (t.placed P.left.kindOf parent))
    (hplain : ∀ n ∈ t.nodes, ∀ guarded goal, P.left.kindOf n ≠ some (.goto guarded goal))
    (hkept : ∀ n ∈ t.kept P.left.kindOf, P.kept n)
    (hmeets : P.Meets (.before dst.1) (.before dst₂.1)) (hlands : P.Lands r dst.1 dst₁.1) :
    P.Meets (.before (t.entryPort dst).1) (.before ((t'.dissolved r.kindOf).entryPort dst₂).1) ∧
    (b = false → P.Lands r (t.entryPort dst).1 (t'.entryPort dst₁).1) ∧
    ∀ enclosing, t.BranchesFit P.left.kindOf enclosing → P.LandsAlike r u enclosing →
    ∀ n ∈ t.kept P.left.kindOf, P.Agrees n := by
  induction hcut generalizing parent src dst src₁ dst₁ src₂ dst₂ with
  | done => exact ⟨hmeets, fun _ => hlands, fun _ _ _ => by simp [Strand.kept]⟩
  | leaf hlead hturned _ ih =>
    rw [dissolved_append, hlead.woven.dissolved_eq, dissolved, dissolved_append,
      hturned.woven.dissolved_eq] at h₂ ⊢
    simp only [nodes_append, List.append_subset, leaf_subset] at hsub
    simp only [Strand.nodes, Strand.kept, List.forall_mem_cons] at hplain hkept ⊢
    obtain ⟨hfront, hfound⟩ := meets_of_stepAhead hP hlead hsub.1 h₂ (meets_kept hkept.1)
    replace h₁ := h₁.append_right
    replace h₂ := h₂.append_right
    obtain ⟨hnext, hnext', hrest⟩ :=
      ih h.leaf_rest h₁.leaf_rest.append_right h₂.leaf_rest.append_right hsub.2.2.2 hshaped.2
      hmarked.leaf_rest hplain.2 hkept.2 hmeets hlands
    exact ⟨hfront, hfound, fun enclosing hfit henv => ⟨agrees_of_turned hP hturned h h₁ h₂ hsub.2.1
      hsub.2.2.1 hkept.1 hfit.1 hplain.1 henv hnext hnext', hrest enclosing hfit.2 henv⟩⟩
  | @calm _ _ part rest _ hlead hcalm hnew _ ih =>
    obtain ⟨hshaped, hshapedRest⟩ := shaped_append.mp hshaped
    obtain ⟨o, _, _, _, -, -, ho, hport, -⟩ := hcalm.opens
    rw [hcalm.kept_append, List.forall_mem_append] at hkept ⊢
    obtain ⟨hcalm, hmarked⟩ := hmarked.calm_part hcalm hshaped
    rw [dissolved_append, hlead.woven.dissolved_eq, dissolved_append,
      dissolved_of_calmAt hnew hcalm] at h₂ ⊢
    simp only [nodes_append, List.append_subset] at hsub
    rw [nodes_append, List.forall_mem_append] at hplain
    obtain ⟨hfront, hfound⟩ :=
      meets_of_stepAhead hP hlead hsub.1 h₂ (by rw [hport]; exact meets_kept (hkept.1 o ho))
    replace h₁ := h₁.append_right
    replace h₂ := h₂.append_right
    obtain ⟨hnext, -, hrest⟩ := ih h.append_right h₁.append_right h₂.append_right hsub.2.2
      hshapedRest hmarked hplain.2 hkept.2 hmeets hlands
    rw [hport]
    refine ⟨hfront, hfound, fun enclosing hfit henv => ?_⟩
    obtain ⟨hfit, hfitRest⟩ := branchesFit_append.mp hfit
    exact ⟨agrees_of_calm hP h.append_left h₂.append_left hshaped hfit hcalm hkept.1
      (fun n hn => hP.label_end (hsub.2.1 hn) (hnew n hn) (hplain.1 n hn)) hplain.1
      henv.arrivesAlike hnext, hrest enclosing hfitRest henv⟩
  | @region b b' o c d form lead body body' tail rest rest' hentered hold hkind hnew hbody htail
      hrest ihb ihr =>
    have hopen := kindOf_of_label hold hkind
    have hopen' := kindOf_of_label ((hnew _ (by simp)).trans hold) hkind
    have hclose' : r.kindOf c = some (.close o) := by
      rw [kindOf, hnew c (by simp)]
      exact hshaped.2.1
    rw [dissolved_append, hentered.woven.dissolved_eq, dissolved, dissolved_append,
      htail.woven.dissolved_eq, dissolvesAt_of_enter hopen'] at h₂ ⊢
    rw [Strand.kept, dissolvesAt_of_enter hopen] at hkept ⊢
    simp only [nodes_append, List.append_subset, region_subset, and_assoc] at hsub
    rw [forall_region] at hplain
    obtain ⟨hsublead, ho, hsubbody, hsubtail, hc, hsubrest⟩ := hsub
    cases hentered with
    | dissolve hform hjump =>
      simp only [hform, ne_eq, not_false_eq_true, decide_true, Bool.and_self, if_true, append_assoc,
        List.forall_mem_append] at h₂ hkept ⊢
      have h₁' := h₁.append_right
      replace h₂ := h₂.append_right
      obtain ⟨hrestMeets, hrestLands, hrest⟩ :=
        ihr h.region_rest h₁'.region_rest h₂.append_right.append_right hsubrest
        hshaped.2.2.2 hmarked.region_rest hplain.2.2.2 hkept.2 hmeets hlands
      have hcloser :=
        lands_closer hshaped.2.1 hclose' h.nextOf_closer h₁'.nextOf_closer (hrestLands rfl)
      obtain ⟨htailMeets, htailLands⟩ :=
        meets_of_tail hP htail hsubtail h₁'.region_body.append_right
        (hrestMeets.pass_left (passes_of_next hshaped.2.1 rfl h.nextOf_closer)) hcloser
      obtain ⟨hbodyMeets, hbodyLands, hbody⟩ :=
        ihb h.region_body h₁'.region_body.append_left h₂.append_left hsubbody
        hshaped.2.2.1 hmarked.region_body hplain.2.1 hkept.1 htailMeets htailLands
      rw [← entryPort_append] at hbodyMeets
      have hopener := lands_opener hopen hform hopen' h.nextOf_opener
        (by rw [h₁'.nextOf_opener, entryPort_append]) (hbodyLands rfl)
      obtain ⟨hleadMeets, hleadLands⟩ := meets_of_jumpAhead hP hjump hsublead h₁
        (hbodyMeets.pass_left (passes_of_next hopen (isQuiet_enter hform) h.nextOf_opener))
        hopener
      exact ⟨hleadMeets, fun _ => hleadLands, fun enclosing hfit henv =>
        ⟨hbody _ hfit.1 (henv.cons hopen ho hc (fun _ => hopener) hcloser), hrest _ hfit.2 henv⟩⟩
    | descend hstep =>
      simp only [hopen, opensSuspending, region?, ne_eq, not_true_eq_false,
        decide_false, Bool.false_and,
        Bool.false_eq_true, if_false, any_some, if_true, List.cons_append, List.append_assoc,
        List.nil_append, List.forall_mem_cons, List.forall_mem_append] at h₂ hkept ⊢
      obtain ⟨hfront, hfound⟩ := meets_of_stepAhead hP hstep hsublead h₂ (meets_kept hkept.1)
      replace h₁ := h₁.append_right
      replace h₂ := h₂.append_right
      obtain ⟨hrestMeets, hrestLands, hrest⟩ := ihr h.region_rest h₁.region_rest h₂.region_rest
        hsubrest hshaped.2.2.2 hmarked.region_rest hplain.2.2.2 hkept.2.2.2 hmeets hlands
      have hcloser :=
        lands_closer hshaped.2.1 hclose' h.nextOf_closer h₁.nextOf_closer (hrestLands rfl)
      obtain ⟨htailMeets, htailLands⟩ :=
        meets_of_arm hP htail hsubtail h₁.region_body.append_right hkept.2.2.1 hcloser
      obtain ⟨hbodyMeets, -, hbody⟩ :=
        ihb h.region_body h₁.region_body.append_left h₂.region_body.append_left hsubbody
        hshaped.2.2.1 hmarked.region_body hplain.2.1 hkept.2.1 htailMeets htailLands
      refine ⟨hfront, hfound, fun enclosing hfit henv =>
        ⟨?_, hbody _ hfit.1 (henv.cons hopen ho hc (by simp) hcloser), ?_, hrest _ hfit.2 henv⟩⟩
      · refine agrees_opener hP hopen (hP.label_end ho (hnew o (by simp)) hplain.1) ?_ ?_
        · rw [h.nextOf_opener, h₂.nextOf_opener, entryPort_append]
          exact hbodyMeets
        · rw [h.nextOf_opener, h₂.nextOf_opener]
          exact meets_kept hkept.2.2.1
      · exact agrees_closer hP hshaped.2.1 (hP.label_end hc (hnew c (by simp)) hplain.2.2.1)
          h.nextOf_closer h₂.nextOf_closer hrestMeets
  | @fork b o c d lead first first' tail second second' tail' rest rest' hlead hold hkind hnew
      hfirst htail hsecond htail' hrest iha ihb ihr =>
    have hopen := kindOf_of_label hold hkind
    have hclose' : r.kindOf c = some (.close o) := by
      rw [kindOf, hnew c (by simp)]
      exact hshaped.2.1
    rw [dissolved_append, hlead.woven.dissolved_eq, dissolved, dissolved_append, dissolved_append,
      htail.woven.dissolved_eq, htail'.woven.dissolved_eq] at h₂ ⊢
    simp only [nodes_append, List.append_subset, fork_subset, and_assoc] at hsub
    simp only [Strand.kept, hopen, opensSuspending, region?, any_some, if_true, List.cons_append,
      List.append_assoc, List.nil_append, List.forall_mem_cons, List.forall_mem_append] at hkept ⊢
    rw [forall_fork] at hplain
    obtain ⟨hsublead, ho, hsubfirst, hsubtail, hsubsecond, hsubtail', hc, hsubrest⟩ := hsub
    obtain ⟨hfront, hfound⟩ := meets_of_stepAhead hP hlead hsublead h₂ (meets_kept hkept.1)
    replace h₁ := h₁.append_right
    replace h₂ := h₂.append_right
    obtain ⟨hrestMeets, hrestLands, hrest⟩ := ihr h.fork_rest h₁.fork_rest h₂.fork_rest hsubrest
      hshaped.2.2.2.2 hmarked.fork_rest hplain.2.2.2.2 hkept.2.2.2.2 hmeets hlands
    have hcloser := lands_closer hshaped.2.1 hclose' h.nextOf_join h₁.nextOf_join (hrestLands rfl)
    obtain ⟨htailMeets, htailLands⟩ :=
      meets_of_arm hP htail hsubtail h₁.fork_first.append_right hkept.2.2.2.1 hcloser
    obtain ⟨htailMeets', htailLands'⟩ :=
      meets_of_arm hP htail' hsubtail' h₁.fork_second.append_right hkept.2.2.2.1 hcloser
    obtain ⟨hfirstMeets, -, hfirst⟩ :=
      iha h.fork_first h₁.fork_first.append_left h₂.fork_first.append_left hsubfirst
      hshaped.2.2.1 hmarked.fork_first hplain.2.1 hkept.2.1 htailMeets htailLands
    obtain ⟨hsecondMeets, -, hsecond⟩ :=
      ihb h.fork_second h₁.fork_second.append_left h₂.fork_second.append_left hsubsecond
      hshaped.2.2.2.1 hmarked.fork_second hplain.2.2.1 hkept.2.2.1 htailMeets' htailLands'
    refine ⟨hfront, hfound, fun enclosing hfit henv => ?_⟩
    have henv' := henv.cons hopen ho hc (by simp) hcloser
    refine ⟨?_, hfirst _ hfit.1 henv', hsecond _ hfit.2.1 henv', ?_, hrest _ hfit.2.2 henv⟩
    · refine agrees_opener hP hopen (hP.label_end ho (hnew o (by simp)) hplain.1) ?_ ?_
      · rw [h.nextOf_fork, h₂.nextOf_fork, entryPort_append]
        exact hfirstMeets
      · rw [h.nextOf_fork, h₂.nextOf_fork]
        rwa [← entryPort_append] at hsecondMeets
    · exact agrees_closer hP hshaped.2.1 (hP.label_end hc (hnew c (by simp)) hplain.2.2.2.1)
        h.nextOf_join h₂.nextOf_join hrestMeets

end Pairing

/-! ### The whole routine -/

section Marks

variable {V : Type} {r' : Routine}

/-- Spreading marks at most adds a mark to a node. -/
theorem Routine.Spreads.node_eq (h : r.Spreads r') (n : NodeId) :
    r'.nodes[n]? = r.nodes[n]? ∨ r'.nodes[n]? = r.nodes[n]?.map Node.marked := by
  cases hd : r.label n with
  | none =>
    have hd' : r'.label n = none := by
      rcases h.labels n with heq | heq <;> simp [heq, hd]
    simp only [label, map_eq_none_iff] at hd hd'
    exact Or.inl (hd'.trans hd.symm)
  | some d =>
    rw [node_of_label hd]
    rcases h.labels n with heq | heq
    · rw [hd] at heq
      rw [node_of_label heq, h.next, h.prev]
      exact Or.inl rfl
    · rw [hd] at heq
      rw [node_of_label heq, h.next, h.prev]
      exact Or.inr rfl

/-- Marks play no role in a run. -/
theorem Routine.Spreads.advance_eq (h : r.Spreads r') (M : Interp V) (s : Machine V) :
    r'.advance M s = r.advance M s := by
  have hbranch : ∀ goal, (r'.branchArrival goal).toOption = (r.branchArrival goal).toOption := by
    intro goal
    unfold branchArrival Routine.node Arena.fetch
    rcases h.node_eq goal.target with heq | heq <;> rw [heq]
    cases r.nodes[goal.target]? with
    | none => rfl
    | some d =>
      obtain ⟨kind, ty, dest, args, next, prev⟩ := d
      cases kind with
      | enter form region => cases form <;> rfl
      | _ => rfl
  have hperform : ∀ n d, r'.perform M n d s = r.perform M n d s := by
    intro n d
    simp only [perform, hbranch]
  have hmarked : ∀ n (d : Node), r.perform M n d.marked s = r.perform M n d s := by
    intro n d
    obtain ⟨kind, ty, dest, args, next, prev⟩ := d
    cases kind with
    | enter form region => cases form <;> rfl
    | _ => rfl
  have hfinish : ∀ d : Node, d.marked.performFinish M s = d.performFinish M s := by
    intro d
    obtain ⟨kind, ty, dest, args, next, prev⟩ := d
    cases kind <;> rfl
  unfold advance
  cases s.point with
  | before n =>
    rcases h.node_eq n with heq | heq <;> simp only [heq]
    · simp only [hperform]
    · cases r.nodes[n]? with
      | none => rfl
      | some d => exact (hperform n d.marked).trans (hmarked n d)
  | amid n =>
    rcases h.node_eq n with heq | heq <;> simp only [heq]
    cases r.nodes[n]? with
    | none => rfl
    | some d => exact hfinish d
  | ended => rfl

theorem Routine.Spreads.execute_eq (h : r.Spreads r') (M : Interp V) (store : VarId → V) (k : ℕ) :
    r'.execute M store k = r.execute M store k := by
  have hstep : r'.advance M = r.advance M := funext (h.advance_eq M)
  rw [execute, execute, hstep, boot, boot, h.entry]

end Marks

theorem Routine.Streams.endsAt (h : r.Streams exit t) : r.EndsAt exit where
  close := ⟨_, h.exit_kind⟩
  last := List.length_eq_zero_iff.mp h.exit_degrees.2

theorem Routine.Streams.passes_entry (h : r.Streams exit t) :
    r.passes r.entry = some (t.entryPort (exit, 0)).1 := by
  obtain ⟨name, sig, suspends, hkind⟩ := h.entry_kind
  exact passes_of_next hkind rfl h.nextOf_entry

namespace Routine.Stages

variable {marked cut settled final : Routine} {t' tail : Strand}

/-- A routine with complete marks, next to what it is lowered to. -/
def pairing (marked final : Routine) (exit : NodeId) (t : Strand) : Pairing where
  left := marked
  right := final
  exit := exit
  kept n := n ∈ t.kept marked.kindOf
  split n f := n ∈ t.kept marked.kindOf ∧ marked.Halves final n f

theorem lowers (h : r.Stages marked cut settled final exit t t' tail) :
    (pairing marked final exit t).Lowers cut (t'.append tail) where
  streams := h.streams
  label _ hn _ hd := h.label_eq hn hd
  split _ _ := Iff.rfl

/-- The stages of the lowering keep what a routine does. -/
theorem holds (h : r.Stages marked cut settled final exit t t' tail) (hr : r.Coroutine exit t) :
    (pairing marked final exit t).Holds := by
  have hmarked := h.spreads.streams hr.toStreams
  have hfinal := h.final_streams
  set P := pairing marked final exit t
  have hsub : t'.nodes ⊆ (t'.append tail).nodes ∧ tail.nodes ⊆ (t'.append tail).nodes := by
    rw [nodes_append]
    exact List.append_subset.mp (List.Subset.refl _)
  have hexit : P.Lands cut exit exit :=
    .ending (.last h.streams.exit_kind rfl (by rw [h.streams.endsAt.last]; rfl)) (.refl exit)
  have htail : tail.dissolved cut.kindOf = tail := by
    have hleaves := h.leaves
    cases hleaves <;> rfl
  have hlays := hfinal.toLays
  rw [dissolved_append, htail] at hlays
  -- behind what the strand is cut into, the routine may have to leave its last step
  have hmeets : P.Meets (.before exit) (.before (Strand.done.entryPort (exit, 0)).1) :=
    ⟨0, .node (.refl _) (.refl _) .exit⟩
  obtain ⟨htailMeets, htailLands⟩ :=
    Pairing.meets_of_tail h.lowers h.leaves hsub.2 h.streams.append_right hmeets hexit
  rw [append_done] at htailMeets
  have henv : P.LandsAlike cut (t'.append tail) [marked.entry] := by
    refine List.forall_mem_singleton.mpr ⟨h.marked_suspends hr, fun dest hdest => ?_⟩
    obtain ⟨name, sig, suspends, hkind⟩ := hmarked.entry_kind
    obtain ⟨d, hd, hdest⟩ := hdest
    have hdefine := some.inj ((kindOf_of_label hd rfl).symm.trans hkind)
    obtain rfl : exit = dest := by
      simpa [hdefine, isLoop, partner?, region?] using hdest
    exact ⟨hexit, by simp [P, pairing]⟩
  obtain ⟨hmeetsEntry, -, hagrees⟩ :=
    Pairing.agrees_of_cut h.lowers h.cuts hmarked.toLays h.streams.append_left
    hlays.append_left hsub.1 hmarked.shaped h.marks (h.marked_no_goto hr) (fun _ hn => hn)
    htailMeets htailLands
  replace hagrees := hagrees _ (h.marked_fit hr) henv
  rw [← entryPort_append, ← htail, ← dissolved_append] at hmeetsEntry
  exact {
    exit_left := hmarked.endsAt
    exit_right := hfinal.endsAt
    entry := (hmeetsEntry.pass_left hmarked.passes_entry).pass_right hfinal.passes_entry
    kept_alike := fun n hn => (hagrees n hn).1
    split_alike := fun n f hsplit => (hagrees n hsplit.1).2 f hsplit }

/-- No call that waits for a coroutine is left in the stream. -/
theorem not_awaits (h : r.Stages marked cut settled final exit t t' tail) (hr : r.Coroutine exit t)
    {n : NodeId} (hn : n ∈ final.live exit ((t'.append tail).dissolved cut.kindOf)) :
    (final.kindOf n).any awaits = false := by
  simp only [live, List.mem_cons] at hn
  obtain rfl | rfl | hn := hn
  · obtain ⟨name, sig, suspends, hkind⟩ := h.final_streams.entry_kind
    rw [hkind]
    rfl
  · rw [h.final_streams.exit_kind]
    rfl
  replace hn := (h.streams.shaped.mem_dissolved.mp hn).1
  obtain ⟨d, hd, hwhole⟩ : ∃ d, cut.label n = some d ∧ d.kind.awaits = false := by
    obtain hmem | ⟨d, hd, hinserted⟩ := h.mem_or_inserted hn
    · exact not_awaits_of_cut h.cuts (h.spreads.streams hr.toStreams).shaped h.marks n hmem
    · exact ⟨d, hd, by cases hinserted <;> rfl⟩
  rw [kindOf, h.label_eq hn hd, map_some, any_some]
  rcases cut.settled_kind n d with hsame | ⟨guarded, origin, -, hjump⟩
  · rw [hsame, hwhole]
  · rw [hjump]
    rfl

end Routine.Stages

/-- Lowering succeeds, leaves no call that waits for a coroutine and keeps what a routine does:
every run of the one is followed by a run of the other that has executed the same nodes with the
same values, made the same calls and left the same store after each, and that is over if the first
one is. -/
theorem Lower.lowerToSteps_simulates {l : Lowering} {exit : NodeId} {t : Strand}
    (h : l.routine.Coroutine exit t) : Action.Yields lowerToSteps l fun _ l' =>
      (∃ live, l'.routine.liveNodes = .ok live ∧
        ∀ n ∈ live, (l'.routine.kindOf n).any NodeKind.awaits = false) ∧
      ∀ (V : Type) (M : Interp V) (store : VarId → V),
        (∀ k, ∃ k', (l.routine.execute M store k).seen = (l'.routine.execute M store k').seen ∧
          ((l.routine.execute M store k).point = .ended →
          (l'.routine.execute M store k').point = .ended)) ∧
        ∀ k', ∃ k, (l.routine.execute M store k).seen = (l'.routine.execute M store k').seen ∧
          ((l'.routine.execute M store k').point = .ended →
          (l.routine.execute M store k).point = .ended) := by
  refine yields_lowerToSteps h fun l' marked cut settled t' tail hstages =>
    ⟨?_, fun V M store => ?_⟩
  · obtain ⟨live, hlive, hperm⟩ := hstages.final_streams.liveNodes_eq
    exact ⟨live, hlive, fun n hn => hstages.not_awaits h (hperm.mem_iff.mp hn)⟩
  have hruns := (hstages.holds h).execute M store
  simpa only [Stages.pairing, hstages.spreads.execute_eq M store] using hruns

/-- A coroutine that calls another one in a loop, as long as the result says so, and yields in
between. -/
theorem Lower.lowerToSteps_simulates_loop :
    let callee : Signature := ⟨[], none, .coroutine⟩
    let calls : List Instruction :=
      [.tmp none, .loop, .call (some 1) callee [.var 1], .yieldNow, .branchIf (.var 1) 2,
        .close, .ret [.var 1]]
    ∃ r b' t, Build.finish (Build.play default calls (Build.define "main" default)).1 = .ok r b' ∧
      r.Coroutine 1 t ∧ ∀ l : Lowering, l.routine = r → Action.Yields lowerToSteps l fun _ l' =>
        (∃ live, l'.routine.liveNodes = .ok live ∧
          ∀ n ∈ live, (l'.routine.kindOf n).any awaits = false) ∧
        ∀ (V : Type) (M : Interp V) (store : VarId → V),
          (∀ k, ∃ k', (r.execute M store k).seen = (l'.routine.execute M store k').seen ∧
            ((r.execute M store k).point = .ended →
            (l'.routine.execute M store k').point = .ended)) ∧
          ∀ k', ∃ k, (r.execute M store k).seen = (l'.routine.execute M store k').seen ∧
            ((l'.routine.execute M store k').point = .ended →
            (r.execute M store k).point = .ended) := by
  intro callee calls
  obtain ⟨r, b', -, hfinish, hbuilt, -, hsuspends⟩ :=
    Build.exists_main calls (by decide) (fun r => r.suspends = .ok true) (by decide +kernel)
  obtain ⟨t, ht⟩ := hbuilt.coroutine hsuspends
  refine ⟨r, b', t, hfinish, ht, fun l hl => ?_⟩
  subst hl
  exact lowerToSteps_simulates ht

end CoroutineIR
