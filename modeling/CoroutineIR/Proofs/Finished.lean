import CoroutineIR.Proofs.Session
import CoroutineIR.Proofs.WellStructured
import Mathlib.Data.List.Pairwise

/-!
# Routines that the builder delivers

The builder marks every open region when it appends a suspension. Along a session all regions around
a suspension are therefore marked, and a routine that is finished is well structured; if it
suspends, it is a coroutine that can be cut into steps.
-/

namespace CoroutineIR

open List Option NodeKind

variable {vars : Nat} {d : Node} {calls : List Instruction}

/-- The nodes in the arms of an open region. -/
def Scope.arms (l : Scope) : List NodeId := l.first.elim [] Strand.nodes ++ l.sofar.nodes

/-- Every region around a suspension in an open region is marked. -/
structure Scope.Roused (l : Scope) (kinds : NodeId → Option NodeKind) : Prop where
  sofar : l.sofar.Roused kinds l.opener
  first : ∀ a ∈ l.first, a.Roused kinds l.opener

/-- The same for all open regions, and a region around a marked one is marked. -/
def Rousing (kinds : NodeId → Option NodeKind) : Scope → List Scope → Prop
  | inner, [] => inner.Roused kinds
  | inner, l :: outer =>
    inner.Roused kinds ∧
      ((kinds inner.opener).any NodeKind.opensSuspending →
      (kinds l.opener).any NodeKind.opensSuspending) ∧ Rousing kinds l outer

/-- Whether a node has neither operands nor a result. -/
def NodeKind.isMute : NodeKind → Bool
  | .define .. | .enter .block _ | .enter .loop _ | .close _ | .yield => true
  | _ => false

theorem NodeKind.isMute_of_isBracket {kind : NodeKind} (h : kind.isBracket = true) :
    kind.isMute = true := by
  unfold isBracket at h
  split at h <;> first | rfl | cases h

/-- A node as it stands before a routine with so many variables is cut into steps. Nodes that only
open or close a region have no operands, control passes through what has a destination, and storage
is declared for a variable. -/
structure Node.Fresh (vars : Nat) (d : Node) : Prop where
  plain : d.kind.isLowered = false
  mute : d.kind.isMute = true → d.args = [] ∧ d.dest = none
  result : d.dest.isSome = true → d.kind.isPlain = true
  storage : d.kind = .declare .storage → d.args = [] ∧ ∃ v, d.dest = some v ∧ v < vars

theorem Node.Fresh.mono {vars' : Nat} (h : d.Fresh vars) (hle : vars ≤ vars') : d.Fresh vars' where
  plain := h.plain
  mute := h.mute
  result := h.result
  storage hkind := by
    obtain ⟨hargs, v, hdest, hlt⟩ := h.storage hkind
    exact ⟨hargs, v, hdest, Nat.lt_of_lt_of_le hlt hle⟩

/-- A node without a destination. -/
theorem Node.Fresh.of_dest (hplain : d.kind.isLowered = false) (hdest : d.dest = none)
    (hmute : d.kind.isMute = true → d.args = []) (hdeclares : d.kind.isDeclaration = false) :
    d.Fresh vars :=
  ⟨hplain, fun h => ⟨hmute h, hdest⟩, by simp [hdest], fun h => by simp [h] at hdeclares⟩

/-- A node that control passes through. -/
theorem Node.Fresh.of_plain (hlowered : d.kind.isLowered = false) (hplain : d.kind.isPlain = true)
    (hdeclares : d.kind.isDeclaration = false) (hmute : d.kind.isMute = false) : d.Fresh vars where
  plain := hlowered
  mute h := absurd (hmute.symm.trans h) Bool.false_ne_true
  result _ := hplain
  storage hkind := by simp [hkind] at hdeclares

theorem Node.Fresh.marked (h : d.Fresh vars) : d.marked.Fresh vars := by
  obtain ⟨hplain, hmute, hresult, hstorage⟩ := h
  obtain ⟨kind, ty, dest, args, next, prev⟩ := d
  refine ⟨?_, fun hmarked => hmute ?_, fun hsome => ?_, fun hmarked => hstorage ?_⟩
  · cases kind <;> simp_all [Node.marked, isLowered]
  · cases kind with
    | enter form region => cases form <;> simp_all [Node.marked, isMute]
    | _ => simp_all [Node.marked, isMute]
  · have := hresult hsome
    cases kind <;> simp_all [Node.marked, NodeKind.isPlain]
  · cases kind <;> simp_all [Node.marked]

/-- Every region around a suspension is marked, and nothing has been cut into steps. -/
structure Outline.Roused (o : Outline) : Prop where
  scopes : Rousing o.kinds o.inner o.outer
  fresh : ∀ d ∈ o.contents, d.Fresh o.vars

section Rousing

variable {kinds kinds' : NodeId → Option NodeKind} {inner l : Scope} {outer : List Scope}

theorem Scope.Roused.mono (h : l.Roused kinds) (heq : ∀ n ∈ l.arms, kinds' n = kinds n)
    (hopener : (kinds l.opener).any opensSuspending →
      (kinds' l.opener).any opensSuspending) : l.Roused kinds' where
  sofar := h.sofar.mono (fun n hn => heq n (by simp [Scope.arms, hn])) hopener
  first a ha := (h.first a ha).mono (fun n hn => heq n (by
    rw [mem_def] at ha
    simp [Scope.arms, ha, hn])) hopener

variable (h : Rousing kinds inner outer)
include h

theorem Rousing.innermost : inner.Roused kinds := by
  cases outer with
  | nil => exact h
  | cons l outer => exact h.1

/-- New nodes do not matter. -/
theorem Rousing.congr (heq : ∀ n ∈ (inner :: outer).flatMap Scope.ids, kinds' n = kinds n) :
    Rousing kinds' inner outer := by
  have hscope : ∀ {l : Scope}, l.Roused kinds → (∀ n ∈ l.ids, kinds' n = kinds n) →
      l.Roused kinds' := by
    intro l hl hids
    refine hl.mono (fun n hn => hids n ?_) ?_
    · rw [Scope.ids]
      exact mem_cons_of_mem _ (mem_cons_of_mem _ hn)
    · rw [hids l.opener (by simp [Scope.ids])]
      exact id
  induction outer generalizing inner with
  | nil => exact hscope h fun n hn => heq n (by simp [hn])
  | cons l outer ih =>
    rw [flatMap_cons, forall_mem_append] at heq
    refine ⟨hscope h.1 heq.1, ?_, ih h.2.2 heq.2⟩
    rw [heq.1 inner.opener (by simp [Scope.ids]), heq.2 l.opener (by simp [Scope.ids])]
    exact h.2.1

/-- Marking all open regions does no harm. -/
theorem Rousing.marked (heq : ∀ l ∈ inner :: outer, ∀ n ∈ l.arms, kinds' n = kinds n)
    (hmarked : ∀ l ∈ inner :: outer, (kinds' l.opener).any opensSuspending) :
    Rousing kinds' inner outer := by
  induction outer generalizing inner with
  | nil => exact h.mono (heq inner (by simp)) fun _ => hmarked inner (by simp)
  | cons l outer ih =>
    rw [forall_mem_cons] at heq hmarked
    exact ⟨h.1.mono heq.1 fun _ => hmarked.1, fun _ => hmarked.2 l (by simp),
      ih h.2.2 heq.2 hmarked.2⟩

/-- The arm under construction exchanged. -/
theorem Rousing.withSofar {t : Strand} (ht : t.Roused kinds inner.opener) :
    Rousing kinds { inner with sofar := t } outer := by
  cases outer with
  | nil => exact ⟨ht, h.first⟩
  | cons l outer => exact ⟨⟨ht, h.1.first⟩, h.2⟩

end Rousing

namespace Outline

variable {o : Outline} {n : NodeId}

/-- A node in the arms of an open region opens none of the open regions. -/
theorem Coherent.arms_not_opened (h : o.Coherent) {l : Scope} (hl : l ∈ o.inner :: o.outer)
    (hn : n ∈ l.arms) : n ∉ o.opened := by
  obtain ⟨hids, hdisjoint⟩ := nodup_flatMap.mp h.nodup_ids
  intro hopened
  obtain ⟨m, hm, rfl⟩ := List.mem_map.mp hopened
  by_cases heq : m = l
  · subst heq
    have := (nodup_cons.mp (hids m hm)).1
    exact this (mem_cons_of_mem _ hn)
  · have hsymm : Std.Symm (Function.onFun List.Disjoint Scope.ids) := ⟨fun _ _ h _ ha hb => h hb ha⟩
    have hapart : List.Disjoint m.ids l.ids := hdisjoint.forall hm hl heq
    refine hapart (mem_cons_self ..) (?_ : m.opener ∈ l.ids)
    rw [Scope.ids]
    exact mem_cons_of_mem _ (mem_cons_of_mem _ hn)

/-- The opening node of an open region opens a region. -/
theorem Coherent.exists_region (h : o.Coherent) (hn : n ∈ o.opened) :
    ∃ kind region, o.kinds n = some kind ∧ kind.region? = some region := by
  have hopen : ∀ {inner : Scope} {outer : List Scope}, Nested o.kinds inner outer →
      ∀ n ∈ (inner :: outer).map Scope.opener, ∃ kind region, o.kinds n = some kind ∧
      kind.region? = some region := by
    intro inner outer
    induction outer generalizing inner with
    | nil =>
      intro hnested n hn
      obtain ⟨name, sig, suspends, hentry⟩ := h.entry_kind
      rw [map_singleton, mem_singleton, hnested.2.1] at hn
      exact ⟨_, _, hn ▸ hentry, rfl⟩
    | cons l outer ih =>
      rintro ⟨-, ⟨form, suspends, hkind, -⟩, hrest⟩ n hn
      rw [map_cons, mem_cons] at hn
      rcases hn with rfl | hn
      · exact ⟨_, _, hkind, rfl⟩
      · exact ih hrest n hn
  exact hopen h.nested n hn

/-- Every open region is marked. -/
theorem kinds_mark_of_mem (h : o.Coherent) (hn : n ∈ o.opened) :
    (o.mark.kinds n).any opensSuspending := by
  obtain ⟨kind, region, hkind, hregion⟩ := h.exists_region hn
  obtain ⟨d, hd, rfl⟩ := map_eq_some_iff.mp hkind
  simp only [kinds, mark, getElem?_mapIdx, hd, hn, if_true, map_some, any_some, Node.marked]
  cases hk : d.kind <;> simp_all [opensSuspending]

/-- It does not matter whether the open regions are marked before or after a node is added. -/
theorem mark_add (h : o.Coherent) (d : Node) : (o.add d).mark = o.mark.add d := by
  have hlt : o.contents.length ∉ o.opened := by
    intro hmem
    obtain ⟨l, hl, heq⟩ := List.mem_map.mp hmem
    have hlt := h.lt_length (mem_flatMap.mpr ⟨l, hl, mem_cons_self ..⟩)
    exact absurd heq (Nat.ne_of_lt hlt)
  have hopened : (o.add d).opened = o.opened := rfl
  rw [mark, hopened]
  simp [mark, add, mapIdx_append, hlt]

namespace Roused

theorem start (name : String) (sig : Signature) : (start name sig).Roused where
  scopes := ⟨trivial, by simp [Outline.start]⟩
  fresh := by
    simp only [Outline.start, forall_mem_cons]
    exact ⟨.of_dest rfl rfl (fun _ => rfl) rfl, .of_dest rfl rfl (fun _ => rfl) rfl, by simp⟩

variable (h : o.Roused) (hc : o.Coherent)
include h hc

/-- A node that suspends is added to a marked region. -/
theorem add (hfresh : d.Fresh o.vars)
    (hrouses : d.kind.rouses = true → (o.kinds o.inner.opener).any opensSuspending) :
    (o.add d).Roused := by
  have hold : ∀ n ∈ (o.inner :: o.outer).flatMap Scope.ids, (o.add d).kinds n = o.kinds n :=
    fun n hn => Coherent.kinds_append [d] (hc.lt_length hn)
  have hnew : (o.add d).kinds o.contents.length = some d.kind := by simp [Outline.add, kinds]
  have hscopes := h.scopes.congr hold
  refine ⟨hscopes.withSofar (Strand.roused_append.mpr ⟨hscopes.innermost.sofar, ?_, trivial⟩), ?_⟩
  · rw [hnew, hold o.inner.opener (by simp [Scope.ids])]
    exact hrouses
  · simp only [Outline.add, forall_mem_append, forall_mem_singleton]
    exact ⟨h.fresh, hfresh⟩

/-- All open regions marked. -/
theorem mark : o.mark.Roused where
  scopes := by
    refine h.scopes.marked (fun l hl n hn => ?_) fun l hl => ?_
    · simp [kinds, Outline.mark, getElem?_mapIdx, hc.arms_not_opened hl hn]
    · exact kinds_mark_of_mem hc (List.mem_map.mpr ⟨l, hl, rfl⟩)
  fresh d hd := by
    obtain ⟨n, hn, rfl⟩ := mem_mapIdx.mp hd
    have hfresh := h.fresh _ (getElem_mem hn)
    split
    · exact hfresh.marked
    · exact hfresh

/-- A suspension added, with the open regions marked. -/
theorem add_mark (hfresh : d.Fresh o.vars) : (o.add d).mark.Roused := by
  rw [mark_add hc]
  exact (h.mark hc).add hc.mark hfresh fun _ => kinds_mark_of_mem hc (mem_cons_self ..)

/-- A new region inside the others. -/
theorem enter (form : Form) (args : List Operand) (hargs : form ≠ .cond → args = []) :
    (o.enter form args).Roused where
  scopes := by
    have hold : ∀ n ∈ (o.inner :: o.outer).flatMap Scope.ids,
        (o.enter form args).kinds n = o.kinds n := fun n hn =>
      Coherent.kinds_append _ (hc.lt_length hn)
    have hopen : (o.enter form args).kinds o.contents.length =
        some (.enter form ⟨o.contents.length + 1, false⟩) := by
      simp [Outline.enter, kinds, Node.detached]
    refine ⟨⟨trivial, by simp [Outline.enter]⟩, ?_, h.scopes.congr hold⟩
    show ((o.enter form args).kinds o.contents.length).any opensSuspending → _
    rw [hopen]
    simp [opensSuspending]
  fresh := by
    simp only [Outline.enter, forall_mem_append, forall_mem_cons]
    refine ⟨h.fresh, .of_dest rfl rfl (fun hmute => hargs ?_) rfl,
      .of_dest rfl rfl (fun _ => rfl) rfl, by simp⟩
    rintro rfl
    simp [Node.detached, isMute] at hmute

omit hc in
/-- The second arm of a conditional. -/
theorem otherwise : o.otherwise.Roused where
  scopes := by
    have hinner :
        Scope.Roused { o.inner with first := some o.inner.sofar, sofar := .done } o.kinds :=
      ⟨trivial, by simpa using h.scopes.innermost.sofar⟩
    have hscopes := h.scopes
    show Rousing o.kinds { o.inner with first := some o.inner.sofar, sofar := .done } o.outer
    cases houter : o.outer with
    | nil => exact hinner
    | cons l outer =>
      rw [houter] at hscopes
      exact ⟨hinner, hscopes.2⟩
  fresh := h.fresh

/-- A closed region is marked if something in it suspends. -/
theorem close : o.close.Roused := by
  have hscopes := h.scopes
  have hnested := hc.nested
  unfold Outline.close
  cases houter : o.outer with
  | nil => exact h
  | cons l outer =>
    rw [houter] at hscopes hnested
    obtain ⟨hinner, hopener, hrest⟩ := hscopes
    obtain ⟨-, ⟨form, suspends, hkind, -⟩, -⟩ := hnested
    refine ⟨hrest.withSofar (Strand.roused_append.mpr ⟨hrest.innermost.sofar, ?_⟩), h.fresh⟩
    have hrouses : (o.kinds o.inner.opener).any rouses →
        (o.kinds l.opener).any opensSuspending := by
      intro hrouses
      refine hopener ?_
      simpa [hkind, rouses, isSuspension, awaits] using hrouses
    unfold Scope.closed
    cases hfirst : o.inner.first with
    | none => exact ⟨hrouses, hinner.sofar, trivial⟩
    | some a => exact ⟨hrouses, hinner.first a hfirst, hinner.sofar, trivial⟩

/-- A call that suspends marks the open regions. -/
theorem addCall (form : CallForm) (dest : Option VarId) (sig : Signature) (args : List Operand)
    (hform : (NodeKind.call form sig).isLowered = false) :
    (o.addCall form dest sig args).Roused := by
  have hfresh : (Node.detached (.call form sig) dest sig.result args).Fresh o.vars :=
    .of_plain hform rfl rfl rfl
  unfold Outline.addCall
  dsimp only
  split
  · exact h.add_mark hc hfresh
  · rename_i hwaits
    refine h.add hc hfresh fun hrouses => absurd ?_ hwaits
    cases form <;> simp_all [Node.detached, rouses, opensSuspending,
      isSuspension, awaits, isPlainCall]

/-- Every call to the builder keeps the marks complete. -/
theorem follow (i : Instruction) : (o.follow i).Roused := by
  have hcalm : ∀ {p : Prop}, false = true → p := fun h => absurd h Bool.false_ne_true
  cases i with
  | declare role ty name refCounted =>
    -- the node is made together with its variable
    have hold : Outline.Roused { o with vars := o.vars + 1 } :=
      ⟨h.scopes, fun d hd => (h.fresh d hd).mono (Nat.le_succ _)⟩
    have hcoherent : Outline.Coherent { o with vars := o.vars + 1 } :=
      ⟨hc.ids, hc.nested, hc.entry_kind, hc.exit_kind, fun d hd =>
        { hc.plain d
          hd with accesses_lt := fun a ha => Nat.lt_succ_of_lt ((hc.plain d hd).accesses_lt a ha) }⟩
    exact hold.add hcoherent ⟨rfl, hcalm, fun _ => rfl,
      fun _ => ⟨rfl, o.vars, rfl, Nat.lt_succ_self _⟩⟩ hcalm
  | tmp ty => exact ⟨h.scopes, fun d hd => (h.fresh d hd).mono (Nat.le_succ _)⟩
  | assign => exact h.add hc (.of_plain rfl rfl rfl rfl) hcalm
  | ret | branch | branchIf => exact h.add hc (.of_dest rfl rfl hcalm rfl) hcalm
  | call dest sig args => exact h.addCall hc .direct dest sig args rfl
  | callIndirect dest sig args => exact h.addCall hc .indirect dest sig args rfl
  | spawn sig args => exact h.addCall hc .spawn none sig args rfl
  | spawnIndirect dest sig args => exact h.addCall hc .spawnIndirect dest sig args rfl
  | yieldNow => exact h.add_mark hc (.of_dest rfl rfl (fun _ => rfl) rfl)
  | block | loop => exact h.enter hc _ _ fun _ => rfl
  | cond condition => exact h.enter hc _ _ fun hform => absurd rfl hform
  | otherwise => exact h.otherwise
  | close => exact h.close hc

end Roused

end Outline

/-- What every call to the builder keeps holds along a session. -/
theorem Builder.Represents.play_keeps {P : Outline → Prop}
    (hstep : ∀ {o : Outline} (i : Instruction), o.Coherent → P o → P (o.follow i)) {b : Builder}
    {o : Outline} (h : b.Represents o) (ho : P o) (types : Registry)
    (hscoped : Instruction.Scoped o.vars calls) :
    P ((Build.play types calls b).2.foldl Outline.follow o) := by
  induction calls generalizing b o with
  | nil => exact ho
  | cons i calls ih =>
    obtain ⟨hi, hrest⟩ := hscoped
    have hatomic := h.run_atomic types hi
    unfold Action.Atomic at hatomic
    unfold Build.play
    cases hrun : i.run types b with
    | ok u b' =>
      rw [hrun] at hatomic
      rw [← Outline.vars_follow] at hrest
      exact ih hatomic.1 (hstep i h.coherent ho) hrest
    | error e b' =>
      rw [hrun] at hatomic
      obtain rfl : b' = b := hatomic
      have hcreates : i.creates = 0 := by
        by_contra hne
        have := h.yields_run types hne
        simp [Action.Yields, hrun] at this
      rw [hcreates] at hrest
      exact ih h ho hrest

/-- A routine that a session with the builder delivers. -/
def Routine.Built (r : Routine) : Prop :=
  ∃ types name sig calls b', Instruction.Scoped 1 calls ∧
    Build.finish (Build.play types calls (Build.define name sig)).1 = .ok r b'

namespace Routine.Built

variable {r : Routine}

/-- What a session leaves behind, given something that every call keeps. -/
theorem exists_outline {P : Outline → Prop} (h : r.Built) (hstart : ∀ name sig, P (.start name sig))
    (hstep : ∀ {o : Outline} (i : Instruction), o.Coherent → P o → P (o.follow i)) :
    ∃ (b : Builder) (o : Outline), b.Represents o ∧ P o ∧ o.outer = [] ∧
      r.Tracks o.contents (o.inner.sofar.wires (0, 0) (1, 0)) o.vars := by
  obtain ⟨types, name, sig, calls, b', hscoped, hok⟩ := h
  have hdefine := Builder.Represents.define name sig
  obtain ⟨hrep, -⟩ := hdefine.play types hscoped
  exact ⟨_, _, hrep, hdefine.play_keeps hstep (hstart name sig) types hscoped,
    hrep.tracks_finish hok⟩

/-- A routine that the builder delivers is well structured, and its marks are complete. -/
theorem wellStructured (h : r.Built) : ∃ t, r.WellStructured 1 t ∧ t.Roused r.kindOf r.entry ∧
    ∀ n d, r.label n = some d → d.Fresh r.vars.size := by
  obtain ⟨b, o, hrep, hroused, houter, htracks⟩ :=
    h.exists_outline (P := Outline.Roused) .start fun i hc hr => hr.follow hc i
  have hkinds : r.kindOf = o.kinds := funext fun n => by rw [kindOf, htracks.labels]; rfl
  have hscopes := hroused.scopes
  have hnested := hrep.coherent.nested
  rw [houter] at hscopes hnested
  refine ⟨o.inner.sofar,
    ⟨(hrep.streams houter htracks).1, hrep.verify_eq_ok houter htracks⟩, ?_, ?_⟩
  · rw [hkinds, htracks.entry, ← hnested.2.1]
    exact hscopes.sofar
  · intro n d hd
    rw [htracks.labels] at hd
    exact htracks.vars ▸ hroused.fresh d (mem_of_getElem? hd)

/-- A routine that the builder delivers has no sub-expressions. -/
theorem flat {n : NodeId} {e : Node} (h : r.Built) (he : r.label n = some e) : e.Flat := by
  obtain ⟨b, o, hrep, -, -, htracks⟩ :=
    h.exists_outline (P := Outline.Roused) .start fun i hc hr => hr.follow hc i
  rw [htracks.labels] at he
  exact (hrep.coherent.plain e (mem_of_getElem? he)).flat

/-- No pass has found out anything about the variables of a routine that the builder delivers. -/
theorem untouched (h : r.Built) : r.Untouched := by
  obtain ⟨b, o, -, -, -, htracks⟩ :=
    h.exists_outline (P := Outline.Roused) .start fun i hc hr => hr.follow hc i
  exact htracks.untouched

/-- A routine that the builder delivers and that suspends is a coroutine. -/
theorem coroutine (h : r.Built) (hsuspends : r.suspends = .ok true) : ∃ t, r.Coroutine 1 t := by
  obtain ⟨t, hwell, hroused, hfresh⟩ := h.wellStructured
  refine ⟨t, hwell, hsuspends, fun n _ kind hkind => ?_, fun n _ d hd hbracket =>
    (hfresh n d hd).mute (isMute_of_isBracket hbracket), hroused⟩
  obtain ⟨d, hd, rfl⟩ := map_eq_some_iff.mp hkind
  exact (hfresh n d hd).plain

end Routine.Built

/-- A session that can be finished leaves a well-structured routine. What is asked of the routine
can be found out by playing the session. -/
theorem Build.exists_main (calls : List Instruction) (hscoped : Instruction.Scoped 1 calls)
    (P : Routine → Prop) [DecidablePred P]
    (h : Action.Yields finish (play default calls (define "main" default)).1 fun r _ =>
      decide (P r) = true) :
    ∃ r b' t, finish (play default calls (define "main" default)).1 = .ok r b' ∧ r.Built ∧
      r.WellStructured 1 t ∧ P r := by
  obtain ⟨r, b', hfinish, hr⟩ := Action.yields_iff_exists.mp h
  have hbuilt : r.Built := ⟨_, _, _, calls, b', hscoped, hfinish⟩
  obtain ⟨t, ht, -⟩ := hbuilt.wellStructured
  exact ⟨r, b', t, hfinish, hbuilt, ht, of_decide_eq_true hr⟩

end CoroutineIR
