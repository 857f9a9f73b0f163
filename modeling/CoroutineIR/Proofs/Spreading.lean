import CoroutineIR.Proofs.Structure

/-!
# How marks of suspension spread

Before a routine is cut into steps, regions are marked as suspending until no branch to a suspending
region crosses one that is not. Marking changes nothing but the marks, it stops because every round
but the last marks a region that was not marked before, and at the end every region around something
that suspends, or that branches to a region that does, is marked.
-/

namespace CoroutineIR

open List Option CoroutineIR.Action Strand NodeKind Node

namespace Strand

/-- The nodes of a strand with the innermost regions around them and the targets of branches.
Closing nodes are left out. -/
def placed (kinds : NodeId → Option NodeKind) : NodeId → Strand → List Placement
  | _, done => []
  | parent, leaf n rest =>
    ⟨n, parent, ((kinds n).bind NodeKind.branch?).map Branch.target⟩ :: rest.placed kinds parent
  | parent, region o _ body rest =>
    ⟨o, parent, none⟩ :: body.placed kinds o ++ rest.placed kinds parent
  | parent, fork o _ first second rest =>
    ⟨o, parent, none⟩ :: first.placed kinds o ++ second.placed kinds o ++ rest.placed kinds parent

/-- Every node is placed at most once. -/
theorem placed_sublist (kinds : NodeId → Option NodeKind) (parent : NodeId) (t : Strand) :
    ((t.placed kinds parent).map Placement.node).Sublist t.nodes := by
  induction t generalizing parent with
  | done => exact Sublist.refl _
  | leaf n rest ih => exact (ih parent).cons_cons n
  | region o c body rest ihb ihr =>
    simp only [placed, cons_append, map_cons, map_append, nodes]
    exact ((ihb o).append ((ihr parent).cons c)).cons_cons o
  | fork o c first second rest iha ihb ihr =>
    simp only [placed, cons_append, map_cons, map_append, nodes]
    exact (((iha o).append (ihb o)).append ((ihr parent).cons c)).cons_cons o

/-- No branch to a region of `marks` crosses one that is not among them. -/
def Uncrossed (marks : NodeId → Prop) (kinds : NodeId → Option NodeKind) (enclosing : List NodeId)
    (t : Strand) : Prop :=
  t.Branching (fun around goal => marks goal.target →
    ∀ m ∈ around.takeWhile (· != goal.target), marks m) kinds enclosing

end Strand

/-- The regions around a node, innermost first, as far as they are placed. -/
inductive Ancestry (placed : List Placement) : NodeId → List NodeId → Prop
  | root {n : NodeId} (h : parentIn placed n = none) : Ancestry placed n []
  | under {n m : NodeId} {l : List NodeId} (h : parentIn placed n = some m)
    (hm : Ancestry placed m l) : Ancestry placed n (m :: l)

section Placed

variable {kinds : NodeId → Option NodeKind} {placed : List Placement} {p : Placement}
    {parent : NodeId} {t : Strand}

/-- A region is found around a node. -/
theorem parentIn_eq_some (hnodup : (placed.map Placement.node).Nodup) (hp : p ∈ placed) :
    parentIn placed p.node = some p.parent := by
  have hfind : placed.findRev? (fun q => q.node = p.node) = some p := by
    rw [findRev?_eq_find?_reverse]
    have hmem : p ∈ placed.reverse := mem_reverse.mpr hp
    cases hq : placed.reverse.find? fun q => q.node = p.node with
    | none =>
      have := find?_eq_none.mp hq p hmem
      simp at this
    | some q =>
      have hqmem := mem_reverse.mp (mem_of_find?_eq_some hq)
      have hnode := find?_some hq
      rw [inj_on_of_nodup_map hnodup hqmem hp (by simpa using hnode)]
  rw [parentIn, hfind]
  rfl

/-- A node has one line of regions around it. -/
theorem Ancestry.unique {n : NodeId} {l l' : List NodeId} (h : Ancestry placed n l)
    (h' : Ancestry placed n l') : l = l' := by
  induction h generalizing l' with
  | root hn =>
    cases h' with
    | root => rfl
    | under hn' => simp [hn] at hn'
  | under hn _ ih =>
    cases h' with
    | root hn' => simp [hn] at hn'
    | under hn' hm' =>
      obtain rfl := some.inj (hn.symm.trans hn')
      rw [ih hm']

/-- The region around one that lies between a node and a target lies there too, unless it is the
target. -/
theorem Ancestry.parent_mem {n m q target : NodeId} {l : List NodeId} (h : Ancestry placed n l)
    (hm : m ∈ l.takeWhile (· != target)) (hq : parentIn placed m = some q) :
    q = target ∨ q ∈ l.takeWhile (· != target) := by
  induction h with
  | root => simp at hm
  | @under n k l hn hk ih =>
    by_cases hkt : k = target
    · simp [hkt] at hm
    rw [takeWhile_cons_of_pos (by simpa using hkt), mem_cons] at hm ⊢
    rcases hm with rfl | hm
    · cases hk with
      | root hroot => simp [hroot] at hq
      | @under _ k' _ hparent =>
        obtain rfl : q = k' := some.inj (hq.symm.trans hparent)
        by_cases hqt : q = target
        · exact Or.inl hqt
        · exact Or.inr (Or.inr (by simp [hqt]))
    · exact (ih hm).imp_right Or.inr

/-- The regions around the branches of a part, told from the places of nodes. -/
theorem branching_iff_placed {P : List NodeId → NodeId → Prop} {l : List NodeId}
    (hplaced : ∀ p ∈ t.placed kinds parent, parentIn placed p.node = some p.parent)
    (hparent : Ancestry placed parent l) :
    t.Branching (fun around goal => P around goal.target) kinds (parent :: l) ↔
      ∀ p ∈ t.placed kinds parent, ∀ target ∈ p.target, ∃ around, Ancestry placed p.node around ∧
      P around target := by
  induction t generalizing parent l with
  | done => simp [Branching, Strand.placed]
  | leaf n rest ih =>
    simp only [Strand.placed, forall_mem_cons] at hplaced ⊢
    refine and_congr ⟨fun h target ht => ?_, fun h guarded goal hkind => ?_⟩ (ih hplaced.2 hparent)
    · obtain ⟨goal, hgoal, rfl⟩ := map_eq_some_iff.mp ht
      obtain ⟨kind, hkind, hbranch⟩ := bind_eq_some_iff.mp hgoal
      cases kind <;> simp at hbranch
      exact ⟨_, .under hplaced.1 hparent, h _ goal (hbranch ▸ hkind)⟩
    · obtain ⟨around, haround, hP⟩ := h goal.target (by simp [hkind])
      rwa [haround.unique (.under hplaced.1 hparent)] at hP
  | region o c body rest ihb ihr =>
    simp only [Strand.placed, cons_append, forall_mem_cons, forall_mem_append] at hplaced ⊢
    have hopener : Ancestry placed o (parent :: l) := .under hplaced.1 hparent
    simp [Branching, ihb hplaced.2.1 hopener, ihr hplaced.2.2 hparent]
  | fork o c first second rest iha ihb ihr =>
    simp only [Strand.placed, cons_append, forall_mem_cons, forall_mem_append] at hplaced ⊢
    have hopener : Ancestry placed o (parent :: l) := .under hplaced.1 hparent
    simp [Branching, iha hplaced.2.1.1 hopener, ihb hplaced.2.1.2 hopener,
      ihr hplaced.2.2 hparent, and_assoc]

/-- The regions around a branch are opened by nodes of the routine. -/
theorem Strand.Shaped.branching_opened {enclosing : List NodeId} {bound : Nat} (h : t.Shaped kinds)
    (hbound : enclosing.length + t.nodes.length ≤ bound)
    (hopen : ∀ m ∈ enclosing, ∃ kind region, kinds m = some kind ∧ kind.region? = some region) :
    t.Branching (fun around _ => around.length ≤ bound ∧
      ∀ m ∈ around, ∃ kind region, kinds m = some kind ∧
      kind.region? = some region) kinds enclosing := by
  induction t generalizing enclosing with
  | done => trivial
  | leaf n rest ih =>
    rw [Strand.nodes, length_cons] at hbound
    exact ⟨fun _ _ _ => ⟨by omega, hopen⟩, ih h.2 (by omega) hopen⟩
  | region o c body rest ihb ihr =>
    obtain ⟨⟨form, suspends, hkind⟩, -, hbody, hrest⟩ := h
    simp only [Strand.nodes, cons_append, length_cons, length_append] at hbound
    have hopens := forall_mem_cons.mpr ⟨⟨_, _, hkind, rfl⟩, hopen⟩
    exact ⟨ihb hbody (by rw [length_cons]; omega) hopens, ihr hrest (by omega) hopen⟩
  | fork o c first second rest iha ihb ihr =>
    obtain ⟨⟨suspends, hkind⟩, -, hfirst, hsecond, hrest⟩ := h
    simp only [Strand.nodes, cons_append, length_cons, length_append] at hbound
    have hopens := forall_mem_cons.mpr ⟨⟨_, _, hkind, rfl⟩, hopen⟩
    exact ⟨iha hfirst (by rw [length_cons]; omega) hopens,
      ihb hsecond (by rw [length_cons]; omega) hopens, ihr hrest (by omega) hopen⟩

end Placed

namespace Routine

variable {r : Routine}

/-- Whether the region opened by a node is marked as suspending. -/
def suspendsAt (r : Routine) (n : NodeId) : Bool := (r.kindOf n).any NodeKind.opensSuspending

theorem suspendsAt_iff {n : NodeId} : r.suspendsAt n = true ↔
    ∃ kind, r.kindOf n = some kind ∧ kind.opensSuspending = true := by
  unfold suspendsAt
  cases r.kindOf n <;> simp

/-- A routine that differs from another one at most in that more regions are marked as suspending.
-/
structure Spreads (r r' : Routine) : Prop where
  others : { r' with nodes := r.nodes } = r
  size : r'.nodes.size = r.nodes.size
  next : ∀ n, r'.nextOf n = r.nextOf n
  prev : ∀ n, r'.prevOf n = r.prevOf n
  labels : ∀ n, r'.label n = r.label n ∨ r'.label n = (r.label n).map Node.marked

namespace Spreads

variable {r₁ r₂ : Routine} {n : NodeId}

theorem refl (r : Routine) : r.Spreads r :=
  ⟨rfl, rfl, fun _ => rfl, fun _ => rfl, fun _ => Or.inl rfl⟩

variable (h : r.Spreads r₁)
include h

theorem entry : r₁.entry = r.entry := by rw [← h.others]

theorem mem : r₁.mem = r.mem := by rw [← h.others]

theorem vars : r₁.vars = r.vars := by rw [← h.others]

/-- Spreading twice. -/
theorem trans (h' : r₁.Spreads r₂) : r.Spreads r₂ where
  others := (congrArg (fun x : Routine => { x with nodes := r.nodes }) h'.others).trans h.others
  size := h'.size.trans h.size
  next n := (h'.next n).trans (h.next n)
  prev n := (h'.prev n).trans (h.prev n)
  labels n := by
    have htwice : ((r.label n).map Node.marked).map Node.marked = (r.label n).map Node.marked := by
      rw [Option.map_map]
      congr 1
      exact funext marked_marked
    rcases h.labels n with h₁ | h₁ <;> rcases h'.labels n with h₂ | h₂ <;> rw [h₂, h₁]
    · exact Or.inl rfl
    · exact Or.inr rfl
    · exact Or.inr rfl
    · exact Or.inr htwice

omit h in
theorem marked (r : Routine) (n : NodeId) : r.Spreads (r.alter n Node.marked) where
  others := rfl
  size := size_alter r n _
  next m := nextOf_alter_of_eq (by intro d; rfl)
  prev m := prevOf_alter_of_eq (by intro d; rfl)
  labels m := by
    rw [label_alter (g := Node.marked) (by intro d; rfl)]
    split
    · exact Or.inr rfl
    · exact Or.inl rfl

/-- Kinds stay the same but for the marks. -/
theorem kindOf_unmarked (n : NodeId) :
    (r₁.kindOf n).map NodeKind.unmarked = (r.kindOf n).map NodeKind.unmarked := by
  rcases h.labels n with heq | heq <;> rw [kindOf, kindOf, heq]
  simp only [Option.map_map]
  congr 1
  exact funext unmarked_marked

theorem suspendsAt (hn : r.suspendsAt n = true) : r₁.suspendsAt n = true := by
  rcases h.labels n with heq | heq
  · rwa [Routine.suspendsAt, kindOf, heq]
  · obtain ⟨kind, hkind, hopens⟩ := suspendsAt_iff.mp hn
    obtain ⟨d, hd, rfl⟩ := map_eq_some_iff.mp hkind
    rw [Routine.suspendsAt, kindOf, heq, hd]
    simp only [map_some, any_some, Node.marked]
    cases hk : d.kind <;> simp_all [opensSuspending]

theorem suspendsAt_eq_false (hn : r₁.suspendsAt n = false) : r.suspendsAt n = false := by
  rw [← Bool.not_eq_true] at hn ⊢
  exact mt h.suspendsAt hn

theorem exists_region (hn : ∃ kind region, r.kindOf n = some kind ∧ kind.region? = some region) :
    ∃ kind region, r₁.kindOf n = some kind ∧ kind.region? = some region := by
  obtain ⟨kind, region, hkind, hregion⟩ := hn
  obtain ⟨kind', hkind', hsame⟩ := exists_unmarked (hkind ▸ h.kindOf_unmarked n)
  have hregion' := congrArg region? hsame
  simp only [region?_unmarked, hregion, map_some, map_eq_some_iff] at hregion'
  obtain ⟨region', hregion', _⟩ := hregion'
  exact ⟨kind', region', hkind', hregion'⟩

/-- Only nodes that open a region change. -/
theorem label_iff {d : Node} (hregion : d.kind.region? = none) :
    r₁.label n = some d ↔ r.label n = some d := by
  have hmarked : ∀ e : Node, e.marked = d ↔ e = d := by
    intro e
    constructor
    · rintro rfl
      obtain ⟨kind, ty, dest, args, next, prev⟩ := e
      cases kind <;> simp_all [Node.marked]
    · rintro rfl
      obtain ⟨kind, ty, dest, args, next, prev⟩ := e
      cases kind <;> simp_all [Node.marked]
  rcases h.labels n with heq | heq <;> rw [heq]
  cases r.label n with
  | none => simp
  | some e => simp [hmarked]

theorem kindOf_iff {kind : NodeKind} (hregion : kind.region? = none) :
    r₁.kindOf n = some kind ↔ r.kindOf n = some kind := by
  simp only [kindOf, map_eq_some_iff]
  constructor <;> rintro ⟨d, hd, rfl⟩
  · exact ⟨d, (h.label_iff hregion).mp hd, rfl⟩
  · exact ⟨d, (h.label_iff hregion).mpr hd, rfl⟩

theorem streams {exit : NodeId} {t : Strand} (hr : r.Streams exit t) : r₁.Streams exit t where
  toCarries := hr.congr h.entry fun n _ => ⟨h.next n, h.prev n⟩
  shaped := hr.shaped.congr fun n _ => map_shape_of_unmarked (h.kindOf_unmarked n)
  entry_kind := by
    obtain ⟨name, sig, suspends, hkind⟩ := hr.entry_kind
    obtain ⟨kind, hkind', hsame⟩ := exists_unmarked (hkind ▸ h.kindOf_unmarked r.entry)
    obtain ⟨suspends', rfl⟩ := unmarked_eq_define hsame
    exact ⟨name, sig, suspends', h.entry ▸ hkind'⟩
  exit_kind := by
    rw [h.entry]
    exact (h.kindOf_iff rfl).mpr hr.exit_kind

/-- Marks play no role in where regions are placed. -/
theorem placed_eq (parent : NodeId) (t : Strand) :
    t.placed r₁.kindOf parent = t.placed r.kindOf parent := by
  have hbranch : ∀ n, (r₁.kindOf n).bind branch? = (r.kindOf n).bind branch? := by
    have hunmarked : ∀ kind : NodeKind, kind.unmarked.branch? = kind.branch? :=
      fun kind => by cases kind <;> rfl
    intro n
    have hsame := congrArg (Option.bind · branch?) (h.kindOf_unmarked n)
    simpa [bind_map, Function.comp_def, hunmarked] using hsame
  induction t generalizing parent with
  | done => rfl
  | leaf n rest ih => simp only [Strand.placed, hbranch, ih]
  | region o c body rest ihb ihr => simp only [Strand.placed, ihb, ihr]
  | fork o c first second rest iha ihb ihr => simp only [Strand.placed, iha, ihb, ihr]

end Spreads

/-- The regions `new` are marked. -/
structure Marks (r r' : Routine) (new : List NodeId) : Prop extends r.Spreads r' where
  suspendsAt_iff : ∀ m, r'.suspendsAt m = true ↔ m ∈ new ∨ r.suspendsAt m = true

/-- With every branch to a node of `marks` the regions between it and its target are in `marks`. -/
def Closed (marks : NodeId → Prop) (placed ps : List Placement) : Prop :=
  ∀ p ∈ ps, ∀ target ∈ p.target, ∃ around, Ancestry placed p.node around ∧
    (marks target → ∀ m ∈ around.takeWhile (· != target), marks m)

/-- The region around a branch to a marked one is marked. -/
theorem Closed.parent {marks : NodeId → Prop} {placed ps : List Placement}
    (h : Closed marks placed ps) {p : Placement} (hp : p ∈ ps) {target : NodeId}
    (ht : target ∈ p.target) (hparent : parentIn placed p.node = some p.parent)
    (hmark : marks target) : marks p.parent := by
  obtain ⟨around, hanc, hmarks⟩ := h p hp target ht
  cases hanc with
  | root hroot => simp [hroot] at hparent
  | @under _ q _ hq =>
    obtain rfl : p.parent = q := some.inj (hparent.symm.trans hq)
    by_cases heq : p.parent = target
    · exact heq ▸ hmark
    · exact hmarks hmark _ (by simp [heq])

/-- A region around one that suspends suspends. -/
def Raised (r : Routine) (placed : List Placement) : Prop :=
  ∀ p ∈ placed, r.suspendsAt p.node = true → r.suspendsAt p.parent = true

/-- A round of marking, and whether it marked a region that was not marked before. Only what has to
be is marked. -/
structure Marking (r r' : Routine) (placed : List Placement) (changed : Bool) :
    Prop extends r.Spreads r' where
  changed_iff : changed = true ↔ ∃ n, r'.suspendsAt n = true ∧ r.suspendsAt n = false
  raised : r.Raised placed → r'.Raised placed
  least : ∀ marks : NodeId → Prop, Closed marks placed placed →
    (∀ n, r.suspendsAt n = true → marks n) → ∀ n, r'.suspendsAt n = true → marks n

namespace Marking

variable {r₁ r₂ : Routine} {placed : List Placement} {changed more : Bool}

theorem refl (r : Routine) (placed : List Placement) : r.Marking r placed false where
  toSpreads := .refl r
  changed_iff := by simp
  raised := id
  least _ _ h := h

theorem trans (h : r.Marking r₁ placed changed) (h' : r₁.Marking r₂ placed more) :
    r.Marking r₂ placed (changed || more) where
  toSpreads := h.toSpreads.trans h'.toSpreads
  raised hraised := h'.raised (h.raised hraised)
  least marks hclosed hmarks := h'.least marks hclosed (h.least marks hclosed hmarks)
  changed_iff := by
    rw [Bool.or_eq_true, h.changed_iff, h'.changed_iff]
    constructor
    · rintro (⟨n, hn, hold⟩ | ⟨n, hn, hold⟩)
      · exact ⟨n, h'.toSpreads.suspendsAt hn, hold⟩
      · exact ⟨n, hn, h.toSpreads.suspendsAt_eq_false hold⟩
    · rintro ⟨n, hn, hold⟩
      by_cases hmid : r₁.suspendsAt n = true
      · exact Or.inl ⟨n, hmid, hold⟩
      · exact Or.inr ⟨n, hn, Bool.not_eq_true _ ▸ hmid⟩

/-- If nothing has changed, the same regions are marked. -/
theorem suspendsAt_of_unchanged (h : r.Marking r₁ placed false) {n : NodeId}
    (hn : r₁.suspendsAt n = true) : r.suspendsAt n = true := by
  by_contra hold
  have := h.changed_iff.mpr ⟨n, hn, Bool.not_eq_true _ ▸ hold⟩
  simp at this

end Marking

/-- The number of nodes that are not marked as suspending. -/
def calm (r : Routine) : Nat :=
    ((Finset.range r.nodes.size).filter fun n => r.suspendsAt n = false).card

/-- A round that changes something leaves fewer regions unmarked. -/
theorem Marking.calm_lt {r' : Routine} {placed : List Placement} (h : r.Marking r' placed true) :
    r'.calm < r.calm := by
  obtain ⟨n, hn, hold⟩ := h.changed_iff.mp rfl
  have hlt : n < r.nodes.size := by
    rw [← h.size]
    obtain ⟨kind, hkind, _⟩ := suspendsAt_iff.mp hn
    obtain ⟨d, hd, _⟩ := map_eq_some_iff.mp hkind
    exact lt_of_label hd
  rw [calm, calm, h.size]
  refine Finset.card_lt_card
    ((Finset.ssubset_iff_of_subset fun m hm => ?_).mpr ⟨n, by simp [hlt, hold], by simp [hn]⟩)
  rw [Finset.mem_filter] at hm ⊢
  exact ⟨hm.1, h.toSpreads.suspendsAt_eq_false hm.2⟩

end Routine

/-! ### The walk outwards -/

namespace Edit

open Routine

variable {r : Routine} {placed : List Placement} {n target : NodeId} {l : List NodeId}
    {post : Bool → Routine → Prop}

/-- A region is marked, and the answer says if it was not before. -/
theorem yields_markSuspending (hopen : ∃ kind region, r.kindOf n = some kind ∧
      kind.region? = some region) (hpost : ∀ r', r.Marks r' [n] → post (!r.suspendsAt n) r') :
    Yields (markSuspending n) r post := by
  obtain ⟨_, region, hkind, hregion⟩ := hopen
  obtain ⟨d, hd, rfl, _⟩ := node_of_kindOf hkind
  have hlt : n < r.nodes.size := (Array.getElem?_eq_some_iff.mp hd).1
  have hold : r.suspendsAt n = region.suspends := by
    rw [suspendsAt, hkind]
    simp [opensSuspending, hregion]
  rw [hold] at hpost
  simp only [markSuspending, yields_bind, yields_kind, hd, exists_some_eq, hregion,
    yields_changeNode, yields_pure]
  refine ⟨hlt, hpost _ ⟨.marked r n, fun m => ?_⟩⟩
  rw [mem_singleton, suspendsAt, kindOf, label_alter (g := Node.marked) (by intro d; rfl)]
  split
  · next heq =>
    rw [heq, label_eq hd]
    simp only [map_some, any_some, Node.marked, unlinked_kind, opensSuspending]
    cases hk : d.kind <;> simp_all
  · next hne => simp only [hne, false_or, suspendsAt, kindOf]

/-- The walk outwards marks every region up to the target, and says whether one of them was not
marked. -/
theorem yields_markUpTo (hanc : Ancestry placed n l) {fuel : Nat} (hfuel : l.length ≤ fuel)
    (hopen : ∀ m ∈ l, ∃ kind region, r.kindOf m = some kind ∧ kind.region? = some region)
    (hpost : ∀ r', r.Marks r' (l.takeWhile (· != target)) →
      post ((l.takeWhile (· != target)).any fun m => !r.suspendsAt m) r') :
    Yields (markUpTo placed target fuel (parentIn placed n)) r post := by
  induction hanc generalizing r fuel post with
  | root hn =>
    rw [hn, markUpTo.eq_def]
    exact yields_pure.mpr (hpost r ⟨.refl r, by simp⟩)
  | @under n m l hn _ ih =>
    rw [hn, markUpTo.eq_def]
    by_cases hm : m = target
    · simp only [if_pos hm, yields_pure]
      simp only [hm, takeWhile_cons, bne_self_eq_false, Bool.false_eq_true, if_false, any_nil]
        at hpost
      exact hpost r ⟨.refl r, by simp⟩
    obtain _ | fuel := fuel
    · simp at hfuel
    simp only [if_neg hm, yields_bind]
    refine yields_markSuspending (hopen m (by simp)) fun r₁ h₁ => ih (by simpa using hfuel)
      (fun k hk => h₁.exists_region (hopen k (by simp [hk]))) fun r₂ h₂ => yields_pure.mpr ?_
    rw [takeWhile_cons_of_pos (by simpa using hm)] at hpost
    generalize l.takeWhile (· != target) = new at h₂ hpost ⊢
    have hany : (!r.suspendsAt m || new.any fun k => !r₁.suspendsAt k) = (m :: new).any fun k =>
        !r.suspendsAt k := by
      rw [any_cons]
      cases hmark : r.suspendsAt m with
      | false => rfl
      | true =>
        refine congrArg _ (congrArg new.any (funext fun k => congrArg _ (Bool.eq_iff_iff.mpr ?_)))
        rw [h₁.suspendsAt_iff, mem_singleton]
        exact ⟨fun h => h.elim (fun heq => heq ▸ hmark) id, Or.inr⟩
    rw [hany]
    refine hpost r₂ ⟨h₁.toSpreads.trans h₂.toSpreads, fun k => ?_⟩
    simp only [h₂.suspendsAt_iff, h₁.suspendsAt_iff, mem_cons, not_mem_nil, or_false]
    tauto

end Edit

/-! ### Rounds -/

namespace Routine

/-- What marking relies on: every placed node has its parent, the regions around a branch are opened
by nodes of the routine, and branches go to nodes of the routine. -/
structure Nests (r : Routine) (placed : List Placement) : Prop where
  parent : ∀ p ∈ placed, parentIn placed p.node = some p.parent
  branch : ∀ p ∈ placed, ∀ target ∈ p.target, target < r.nodes.size ∧
    ∃ around, Ancestry placed p.node around ∧
    around.length ≤ r.walkFuel ∧ ∀ m ∈ around, ∃ kind region, r.kindOf m = some kind ∧
    kind.region? = some region

theorem Nests.spreads {r r' : Routine} {placed : List Placement} (h : r.Nests placed)
    (hspreads : r.Spreads r') : r'.Nests placed where
  parent := h.parent
  branch p hp target ht := by
    obtain ⟨hlt, around, hanc, hlength, hopen⟩ := h.branch p hp target ht
    refine ⟨hspreads.size.symm ▸ hlt, around, hanc, ?_,
      fun m hm => hspreads.exists_region (hopen m hm)⟩
    rwa [walkFuel, hspreads.size]

end Routine

namespace Edit

open Routine

variable {r : Routine} {placed : List Placement} {post : Bool → Routine → Prop}

variable (hnests : r.Nests placed)
include hnests

/-- The regions that a branch crosses are marked if its target is. -/
theorem yields_markCrossed {p : Placement} (hp : p ∈ placed)
    {target : NodeId} (htarget : target ∈ p.target)
    (hpost : ∀ changed r', r.Marking r' placed changed → (∃ around, Ancestry placed p.node around ∧
      (r.suspendsAt target = true → ∀ m ∈ around.takeWhile (· != target), r'.suspendsAt m = true)) →
      post changed r') : Yields (markCrossed placed p.node target) r post := by
  obtain ⟨hlt, around, hanc, hlength, hopen⟩ := hnests.branch p hp target htarget
  have hnode := Array.getElem?_eq_getElem hlt
  have hsuspends : r.suspendsAt target = r.nodes[target].kind.opensSuspending := by
    rw [suspendsAt, kindOf_eq hnode]
    rfl
  simp only [markCrossed, yields_bind, yields_kind, hnode, exists_some_eq, ← hsuspends]
  cases hmark : r.suspendsAt target with
  | false => exact yields_pure.mpr (hpost _ _ (.refl r placed) ⟨around, hanc, by simp [hmark]⟩)
  | true =>
    simp only [if_true, yields_bind, yields_get]
    refine yields_markUpTo hanc hlength hopen fun r' h' =>
      hpost _ r' ⟨h'.toSpreads, ?_, fun hraised q hq hnode => ?_,
      fun marks hclosed hmarks m hm =>
      ?_⟩ ⟨around, hanc, fun _ m hm => (h'.suspendsAt_iff m).mpr (Or.inl hm)⟩
    · simp only [List.any_eq_true, h'.suspendsAt_iff]
      constructor
      · rintro ⟨m, hm, hold⟩
        exact ⟨m, Or.inl hm, by simpa using hold⟩
      · rintro ⟨m, hm | hm, hold⟩
        · exact ⟨m, hm, by simp [hold]⟩
        · simp [hm] at hold
    · rcases (h'.suspendsAt_iff _).mp hnode with hnew | hold
      · rcases hanc.parent_mem hnew (hnests.parent q hq) with heq | hmem
        · exact heq ▸ h'.toSpreads.suspendsAt hmark
        · exact (h'.suspendsAt_iff _).mpr (Or.inl hmem)
      · exact h'.toSpreads.suspendsAt (hraised q hq hold)
    · rcases (h'.suspendsAt_iff m).mp hm with hnew | hold
      · obtain ⟨around', hanc', hclosed⟩ := hclosed p hp target htarget
        exact hclosed (hmarks target hmark) m (hanc'.unique hanc ▸ hnew)
      · exact hmarks m hold

/-- A round goes through all branches. If it changes nothing, no branch to a suspending region
crosses one that does not suspend. -/
theorem yields_markAllCrossed {ps : List Placement} (hps : ∀ p ∈ ps, p ∈ placed)
    (hpost : ∀ changed r', r.Marking r' placed changed →
      (changed = false → Closed (r'.suspendsAt · = true) placed ps) → post changed r') :
    Yields (markAllCrossed placed (ps.filterMap fun p => p.target.map fun t => (p.node, t))) r
    post := by
  induction ps generalizing r post with
  | nil => exact hpost _ _ (.refl r placed) fun _ p hp => absurd hp (by simp)
  | cons p ps ih =>
    obtain ⟨hp, hps⟩ := forall_mem_cons.mp hps
    cases htarget : p.target with
    | none =>
      simp only [filterMap_cons, htarget, map_none]
      refine ih hnests hps fun changed r' hmarking hclosed =>
        hpost changed r' hmarking fun hchanged => ?_
      exact forall_mem_cons.mpr ⟨by simp [htarget], hclosed hchanged⟩
    | some target =>
      simp only [filterMap_cons, htarget, map_some, markAllCrossed, yields_bind, yields_pure]
      refine yields_markCrossed hnests hp htarget fun changed r₁ hmarking hcrossed => ?_
      refine ih (hnests.spreads hmarking.toSpreads) hps fun more r₂ hmarking' hclosed => ?_
      refine hpost _ r₂ (hmarking.trans hmarking') fun hchanged => ?_
      obtain ⟨rfl, rfl⟩ : changed = false ∧ more = false := by simpa using hchanged
      refine forall_mem_cons.mpr ⟨fun t ht => ?_, hclosed rfl⟩
      obtain rfl : target = t := some.inj (htarget.symm.trans ht)
      obtain ⟨around, hanc, hmarked⟩ := hcrossed
      refine ⟨around, hanc, fun hsuspends m hm => hmarking'.suspendsAt (hmarked ?_ m hm)⟩
      exact hmarking.suspendsAt_of_unchanged (hmarking'.suspendsAt_of_unchanged hsuspends)

/-- Rounds end, as each one marks a region. -/
theorem yields_markUntilStable {fuel : Nat} (hfuel : r.calm < fuel) {post : PUnit → Routine → Prop}
    (hpost : ∀ r' changed, r.Marking r' placed changed →
      Closed (r'.suspendsAt · = true) placed placed → post () r') :
    Yields (markUntilStable placed (placed.filterMap fun p => p.target.map fun t => (p.node, t))
      fuel) r post := by
  induction fuel generalizing r post with
  | zero => omega
  | succ fuel ih =>
    simp only [markUntilStable, yields_bind]
    refine yields_markAllCrossed hnests (fun p hp => hp) fun changed r₁ hmarking hclosed => ?_
    cases changed with
    | false => exact hpost r₁ _ hmarking (hclosed rfl)
    | true =>
      have hcalm := hmarking.calm_lt
      exact ih (hnests.spreads hmarking.toSpreads) (by omega) fun r' _ hmarking' =>
        hpost r' _ (hmarking.trans hmarking')

end Edit

/-! ### The walk that places nodes -/

namespace Routine

variable {r : Routine} {exit : NodeId} {t : Strand}

/-- The walk places every region of a part. -/
theorem placementsWithin_eq {src dst : Port} (h : r.Lays src t dst) (hshaped : t.Shaped r.kindOf)
    (hdst : dst.1 ∉ t.nodes) (hnodup : t.nodes.Nodup) (fuel : Nat) (hfuel : t.nodes.length < fuel)
    (parent : NodeId) :
    r.placementsWithin fuel (some (t.entryPort dst).1) dst.1 parent =
    .ok (t.placed r.kindOf parent) := by
  refine h.walk_induction (motive := fun fuel dst t => ∀ parent,
    r.placementsWithin fuel (some (t.entryPort dst).1) dst.1 parent = .ok (t.placed r.kindOf
    parent)) (fun fuel dst parent => ?_) (fun hnode hne hregion _ hfirst hwalk parent => ?_)
    (fun hnode hne hkind hnext hend _ hfirst hinner hbehind parent => ?_)
    (fun hnode hne hkind hnext hend _ hfirst hthen helse hbehind parent => ?_) hshaped hdst hnodup
    fuel hfuel parent <;> rw [placementsWithin.eq_def]
  · simp [Strand.placed]
  · simp only [entryPort_leaf, if_neg hne, node_eq_ok_iff.mpr hnode, Attempt.ok_bind,
      hregion, hfirst, hwalk, Strand.placed, kindOf_eq hnode, Attempt.pure_eq_ok]
    rfl
  · simp only [entryPort_region, if_neg hne, node_eq_ok_iff.mpr hnode, hkind,
      region?, hnext, node_eq_ok_iff.mpr hend, hfirst, Attempt.ok_bind, mapM_cons,
      mapM_nil, hinner, hbehind, Attempt.pure_eq_ok, branch?, Strand.placed]
    simp
  · simp only [entryPort_fork, if_neg hne, node_eq_ok_iff.mpr hnode, hkind, region?,
      hnext, node_eq_ok_iff.mpr hend, hfirst, Attempt.ok_bind, mapM_cons, mapM_nil, hthen, helse,
      hbehind, Attempt.pure_eq_ok, branch?, Strand.placed]
    simp

namespace Streams

theorem placements_eq (h : r.Streams exit t) : r.placements = .ok (t.placed r.kindOf r.entry) := by
  obtain ⟨d, hnode, hfirst, hfuel⟩ := h.exists_walk
  simp only [placements, node_eq_ok_iff.mpr hnode, h.exit_eq, hfirst, Attempt.ok_bind]
  exact placementsWithin_eq h.toLays h.shaped h.exit_not_mem h.nodup_nodes _ hfuel r.entry

theorem parentIn_placed (h : r.Streams exit t) : ∀ p ∈ t.placed r.kindOf r.entry,
    parentIn (t.placed r.kindOf r.entry) p.node = some p.parent := fun _ hp =>
  parentIn_eq_some (h.nodup_nodes.sublist (t.placed_sublist r.kindOf r.entry)) hp

/-- No region is placed around the whole routine. -/
theorem ancestry_entry (h : r.Streams exit t) :
    Ancestry (t.placed r.kindOf r.entry) r.entry [] := by
  refine .root ?_
  simp only [parentIn, findRev?_eq_find?_reverse, map_eq_none_iff, find?_eq_none, mem_reverse,
    decide_eq_true_eq]
  exact fun p hp heq => h.entry_not_mem
    ((t.placed_sublist r.kindOf r.entry).subset (List.mem_map.mpr ⟨p, hp, heq⟩))

/-- The placements of a stream nest. -/
theorem nests (h : r.Streams exit t) (hfit : t.BranchesFit r.kindOf [r.entry]) :
    r.Nests (t.placed r.kindOf r.entry) := by
  obtain ⟨name, sig, suspends, hentry⟩ := h.entry_kind
  have hbound : [r.entry].length + t.nodes.length ≤ r.walkFuel := by
    have hsize := h.length_le_size
    have hfuel := r.size_lt_walkFuel
    rw [length_singleton]
    omega
  have hopened := h.shaped.branching_opened hbound fun m hm =>
    ⟨_, _, mem_singleton.mp hm ▸ hentry, rfl⟩
  refine ⟨h.parentIn_placed, fun p hp target ht => ?_⟩
  obtain ⟨around, hanc, hlength, hopen⟩ := (branching_iff_placed (P := fun around _ =>
    around.length ≤ r.walkFuel ∧ ∀ m ∈ around, ∃ kind region, r.kindOf m = some kind ∧
    kind.region? = some region) h.parentIn_placed h.ancestry_entry).mp hopened p hp target ht
  obtain ⟨around', hanc', hmem⟩ := (branching_iff_placed (P := fun around target => target ∈ around)
    h.parentIn_placed h.ancestry_entry).mp hfit.aims p hp target ht
  obtain ⟨kind, region, hkind, -⟩ := hopen target (hanc'.unique hanc ▸ hmem)
  obtain ⟨d, hd, -⟩ := map_eq_some_iff.mp hkind
  exact ⟨lt_of_label hd, around, hanc, hlength, hopen⟩

end Streams

theorem Streams.closed_iff (h : r.Streams exit t) {marks : NodeId → Prop} :
    Closed marks (t.placed r.kindOf r.entry) (t.placed r.kindOf r.entry) ↔
    t.Uncrossed marks r.kindOf [r.entry] :=
  (branching_iff_placed (P := fun around target => marks target →
    ∀ m ∈ around.takeWhile (· != target), marks m) h.parentIn_placed h.ancestry_entry).symm

end Routine

/-- Spreading marks succeeds, changes nothing but marks, and leaves no branch to a suspending region
that crosses one that is not marked. -/
theorem Edit.yields_spreadSuspension {r : Routine} {exit : NodeId} {t : Strand}
    (h : r.Streams exit t) (hfit : t.BranchesFit r.kindOf [r.entry]) {post : PUnit → Routine → Prop}
    (hpost : ∀ r' changed, r.Marking r' (t.placed r.kindOf r.entry) changed →
      Routine.Closed (r'.suspendsAt · = true) (t.placed r.kindOf r.entry)
      (t.placed r.kindOf r.entry) → post () r') :
    Yields Edit.spreadSuspension r post := by
  unfold Edit.spreadSuspension
  simp only [yields_bind, yields_ask, h.placements_eq, Except.ok.injEq, exists_eq_left', yields_get]
  have hcalm : r.calm ≤ r.nodes.size := (Finset.card_filter_le _ _).trans_eq (Finset.card_range _)
  have hfuel := r.size_lt_walkFuel
  exact yields_markUntilStable (h.nests hfit) (by omega) hpost

end CoroutineIR
