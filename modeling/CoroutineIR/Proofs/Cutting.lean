import CoroutineIR.Proofs.Access
import CoroutineIR.Proofs.Dissolving
import CoroutineIR.Proofs.Machine
import Mathlib.Tactic.Set

/-!
# Cutting a stream into steps

What the first walk of the lowering makes of a strand. Suspensions end the open step; where no step
is open the next node of the stream opens one; blocks and loops that suspend are left for later, and
the branches to them have become jumps. The relation `Cut` says so for a strand and its successor,
and the walk is shown to succeed and to produce it.
-/

namespace CoroutineIR

open List Option CoroutineIR.Action Edit Strand

/-- A jump to the next step. -/
def openJump : Node := .bare (.goto false (.pending none))

namespace Lower

/-- The lowering splits the calls that control may be suspended in. -/
theorem firstHalf?_eq (form : CallForm) : firstHalf? form = form.begun? := by
  cases form <;> rfl

/-- A call that is kept in its step does not wait for a coroutine. -/
theorem not_awaits_of_keep {kind : NodeKind} (h : moveAt kind = .keep) : kind.awaits = false := by
  cases kind with
  | call form sig => cases form <;> simp_all [moveAt, firstHalf?, NodeKind.awaits]
  | _ => rfl

end Lower

/-- A node that the cut inserts. -/
inductive Node.Inserted : Node → Prop
  | jump : Inserted openJump
  | step (name : String) : Inserted (.bare (.step name))
  | finish (sig : Signature) (dest : Option VarId) (ty : Option Ty) :
    Inserted (.detached (.call .finish sig) dest ty [])

namespace Strand

/-- The nodes that neither open nor close a region. -/
def leaves : Strand → List NodeId
  | done => []
  | leaf n rest => n :: rest.leaves
  | region _ _ body rest => body.leaves ++ rest.leaves
  | fork _ _ first second rest => first.leaves ++ second.leaves ++ rest.leaves

theorem leaves_append (t u : Strand) : (t.append u).leaves = t.leaves ++ u.leaves := by
  induction t with
  | done => rfl
  | leaf n rest ih | region o c body rest _ ih | fork o c first second rest _ _ ih =>
    simp [leaves, ih]

theorem leaves_sublist (t : Strand) : t.leaves.Sublist t.nodes := by
  induction t with
  | done => exact Sublist.refl _
  | leaf n rest ih => exact ih.cons_cons n
  | region o c body rest ihb ihr => exact (ihb.append (ihr.cons c)).cons o
  | fork o c first second rest iha ihb ihr => exact ((iha.append ihb).append (ihr.cons c)).cons o

/-- What stands in front of a node so that a step is open there, given whether one is open before.
-/
inductive StepAhead (label : NodeId → Option Node) : Bool → Strand → Prop
  | opened : StepAhead label true done
  | opens {s : NodeId} {name : String} (h : label s = some (.bare (.step name))) :
    StepAhead label false (.leaf s done)

/-- A jump to the next step, or nothing. -/
inductive JumpAhead (label : NodeId → Option Node) : Strand → Prop
  | none : JumpAhead label done
  | jump {j : NodeId} (h : label j = some openJump) : JumpAhead label (.leaf j done)

/-- Where a branch to a region goes on: at the head of a loop, otherwise at the end of the region.
-/
def Arrives (old : NodeId → Option Node) (target dest : NodeId) : Prop :=
  ∃ d, old target = some d ∧ if d.kind.isLoop then dest = target else d.kind.partner? = some dest

/-- What stands behind a node after the cut, and whether a step is open there. -/
inductive Turned (old label : NodeId → Option Node) (n : NodeId) : Bool → Strand → Prop
  | keep {d : Node} (hold : old n = some d) (hmove : Lower.moveAt d.kind = .keep)
    (hnew : label n = some d) : Turned old label n true done
  | yield {j : NodeId} {d : Node} (hold : old n = some d) (hkind : d.kind = .yield) (hnew : label
    n = some d) (hjump : label j = some openJump) : Turned old label n false (.leaf j done)
  | branch {guarded : Bool} {goal : Branch} {dest : NodeId} {d : Node} (hold : old n = some d)
    (hkind : d.kind = .branch guarded goal) (hdest : Arrives old goal.target dest)
    (hnew : label n = some { d with kind := .goto guarded (.pending (some dest)) }) :
    Turned old label n guarded done
  | split {j s f : NodeId} {d : Node} {form first : CallForm} {sig : Signature} {name : String}
    (hold : old n = some d)
    (hkind : d.kind = .call form sig) (hfirst : form.begun? = some first)
    (hsuspends : sig.suspends = true)
    (hnew : label n = some { d with kind := .call first sig, dest := none })
    (hjump : label j = some openJump)
    (hs : label s = some (.bare (.step name)))
    (hf : label f = some (.detached (.call .finish sig) d.dest d.ty [])) :
    Turned old label n true (.leaf j (.leaf s (.leaf f done)))

/-- A region that does not suspend. -/
inductive Calm (old : NodeId → Option Node) : Strand → Prop
  | region {o c : NodeId} {d : Node} {form : Form} {body : Strand} (hold : old o = some d)
    (hkind : d.kind = .enter form ⟨c, false⟩) : Calm old (.region o c body done)
  | fork {o c : NodeId} {d : Node} {first second : Strand} (hold : old o = some d)
    (hkind : d.kind = .enter .cond ⟨c, false⟩) : Calm old (.fork o c first second done)

/-- A part that does not suspend starts with its region. -/
theorem Calm.opens {old : NodeId → Option Node} {part : Strand} (h : Calm old part) :
    ∃ o c d form, old o = some d ∧ d.kind = .enter form ⟨c, false⟩ ∧ o ∈ part.nodes ∧
      (∀ rest dst, (part.append rest).entryPort dst = (o, 0)) ∧
      ∀ {r : Routine} {src rest dst}, r.Lays src (part.append rest) dst →
      r.nextOf c = [(rest.entryPort dst).1] := by
  cases h with
  | region hold hkind =>
    exact ⟨_, _, _, _, hold, hkind, by simp, fun _ _ => rfl, fun h => h.nextOf_closer⟩
  | fork hold hkind =>
    exact ⟨_, _, _, _, hold, hkind, by simp, fun _ _ => rfl, fun h => h.nextOf_join⟩

/-- What stands in front of a region that suspends, and whether a step is open in it. A block or
loop is taken apart. -/
inductive Entered (label : NodeId → Option Node) (b : Bool) : Form → Bool → Strand → Prop
  | dissolve {form : Form} {lead : Strand} (hform : form ≠ .cond) (hlead : JumpAhead label lead) :
    Entered label b form false lead
  | descend {lead : Strand} (hlead : StepAhead label b lead) : Entered label b .cond true lead

/-- A strand and what it is cut into, part by part, given the labels before and after: its nodes,
the regions in it that do not suspend, and those that do. The flag says whether a step is open in
front of it. -/
inductive Cut (old label : NodeId → Option Node) : Bool → Strand → Strand → Prop
  | done (b : Bool) : Cut old label b .done .done
  | leaf {b b' n lead behind rest rest'} (hlead : StepAhead label b lead)
    (hturned : Turned old label n b' behind)
    (hrest : Cut old label b' rest rest') :
    Cut old label b (.leaf n rest) (lead.append (.leaf n (behind.append rest')))
  | calm {b lead part rest rest'} (hlead : StepAhead label b lead) (hcalm : Calm old part)
    (hnew : ∀ m ∈ part.nodes, label m = old m) (hrest : Cut old label true rest rest') :
    Cut old label b (part.append rest) (lead.append (part.append rest'))
  | region {b b' o c d form lead body body' tail rest rest'} (hlead : Entered label b form b' lead)
    (hold : old o = some d)
    (hkind : d.kind = .enter form ⟨c, true⟩) (hnew : ∀ m ∈ [o, c], label m = old m) (hbody : Cut old
    label b' body body') (htail : JumpAhead label tail) (hrest : Cut old label false rest rest') :
    Cut old label b (.region o c body rest) (lead.append (.region o c (body'.append tail) rest'))
  | fork {b o c d lead first first' tail second second' tail' rest rest'} (hlead : StepAhead label b
    lead) (hold : old o = some d) (hkind : d.kind = .enter .cond ⟨c, true⟩) (hnew : ∀ m ∈ [o, c],
    label m = old m) (hfirst : Cut old label true first first') (htail : JumpAhead label tail)
    (hsecond : Cut old label true second second') (htail' : JumpAhead label tail')
    (hrest : Cut old label false rest rest') : Cut old label b (.fork o c first second rest)
    (lead.append (.fork o c (first'.append tail) (second'.append tail') rest'))

section Congruence

variable {old label label' : NodeId → Option Node} {b : Bool} {t t' : Strand}

theorem StepAhead.congr (h : StepAhead label b t) (heq : ∀ m ∈ t.nodes, label' m = label m) :
    StepAhead label' b t := by
  cases h with
  | opened => exact .opened
  | opens hs => exact .opens ((heq _ (by simp)).trans hs)

theorem JumpAhead.congr (h : JumpAhead label t) (heq : ∀ m ∈ t.nodes, label' m = label m) :
    JumpAhead label' t := by
  cases h with
  | none => exact .none
  | jump hj => exact .jump ((heq _ (by simp)).trans hj)

/-- What has been put behind a node depends on its labels. -/
theorem Turned.congr {n : NodeId} (h : Turned old label n b t) (hn : label' n = label n)
    (heq : ∀ m ∈ t.nodes, label' m = label m) : Turned old label' n b t := by
  cases h with
  | keep hold hmove hnew => exact .keep hold hmove (hn.trans hnew)
  | yield hold hkind hnew hjump =>
    exact .yield hold hkind (hn.trans hnew) ((heq _ (by simp)).trans hjump)
  | branch hold hkind hdest hnew => exact .branch hold hkind hdest (hn.trans hnew)
  | split hold hkind hfirst hsuspends hnew hjump hs hf =>
    simp only [forall_leaf] at heq
    exact .split hold hkind hfirst hsuspends (hn.trans hnew) (heq.1.trans hjump) (heq.2.1.trans hs)
      (heq.2.2.1.trans hf)

theorem Entered.congr {form : Form} {b' : Bool} (h : Entered label b form b' t)
    (heq : ∀ m ∈ t.nodes, label' m = label m) : Entered label' b form b' t := by
  cases h with
  | dissolve hform hlead => exact .dissolve hform (hlead.congr heq)
  | descend hlead => exact .descend (hlead.congr heq)

/-- Only the labels of the nodes of the result matter. -/
theorem Cut.congr (h : Cut old label b t t') (heq : ∀ m ∈ t'.nodes, label' m = label m) :
    Cut old label' b t t' := by
  induction h with
  | done b => exact .done b
  | leaf hlead hturned _ ih =>
    simp only [nodes_append, forall_mem_append, forall_leaf] at heq
    exact .leaf (hlead.congr heq.1) (hturned.congr heq.2.1 heq.2.2.1) (ih heq.2.2.2)
  | calm hlead hcalm hnew _ ih =>
    simp only [nodes_append, forall_mem_append] at heq
    exact .calm (hlead.congr heq.1) hcalm (fun m hm => (heq.2.1 m hm).trans (hnew m hm))
      (ih heq.2.2)
  | region hlead hold hkind hnew _ htail _ ihb ihr =>
    simp only [nodes_append, forall_mem_append, forall_region] at heq
    obtain ⟨hl, ho, ⟨hbody, ht⟩, hc, hrest⟩ := heq
    exact .region (hlead.congr hl) hold hkind (by simpa [ho, hc] using hnew) (ihb hbody)
      (htail.congr ht) (ihr hrest)
  | fork hlead hold hkind hnew _ htail _ htail' _ iha ihb ihr =>
    simp only [nodes_append, forall_mem_append, forall_fork] at heq
    obtain ⟨hl, ho, ⟨hfirst, ht⟩, ⟨hsecond, ht'⟩, hc, hrest⟩ := heq
    exact .fork (hlead.congr hl) hold hkind (by simpa [ho, hc] using hnew) (iha hfirst)
      (htail.congr ht) (ihb hsecond) (htail'.congr ht') (ihr hrest)

end Congruence

section Outcome

variable {old label : NodeId → Option Node} {b : Bool} {t t' : Strand} {d : Node} {n m : NodeId}
    {ns : List NodeId} {form : Form}

/-- A chain of nodes that the cut inserts. -/
def Woven (label : NodeId → Option Node) : Strand → Prop
  | done => True
  | leaf n rest => (∃ d, label n = some d ∧ d.Inserted) ∧ rest.Woven label
  | _ => False

theorem StepAhead.woven (h : StepAhead label b t) : t.Woven label := by
  cases h with
  | opened => trivial
  | opens hs => exact ⟨⟨_, hs, .step _⟩, trivial⟩

theorem JumpAhead.woven (h : JumpAhead label t) : t.Woven label := by
  cases h with
  | none => trivial
  | jump hj => exact ⟨⟨_, hj, .jump⟩, trivial⟩

theorem Entered.woven {b' : Bool} (h : Entered label b form b' t) : t.Woven label := by
  cases h with
  | dissolve _ hlead => exact hlead.woven
  | descend hlead => exact hlead.woven

theorem Turned.woven (h : Turned old label n b t) : t.Woven label := by
  cases h with
  | keep | branch => trivial
  | yield _ _ _ hjump => exact ⟨⟨_, hjump, .jump⟩, trivial⟩
  | split _ _ _ _ _ hjump hs hf =>
    exact ⟨⟨_, hjump, .jump⟩, ⟨_, hs, .step _⟩, ⟨_, hf, .finish ..⟩, trivial⟩

theorem Woven.dissolved_eq {kinds : NodeId → Option NodeKind} (h : t.Woven label) :
    t.dissolved kinds = t := by
  induction t with
  | done => rfl
  | leaf n rest ih => rw [dissolved, ih h.2]
  | region | fork => cases h

theorem Woven.inserted (h : t.Woven label) : ∀ m ∈ t.nodes, ∃ d, label m = some d ∧ d.Inserted := by
  induction t with
  | done => simp
  | leaf n rest ih => exact forall_leaf.mpr ⟨h.1, ih h.2⟩
  | region | fork => cases h

/-- A node that neither opens nor closes a region. -/
def Single (label : NodeId → Option Node) (n : NodeId) : Prop :=
  ∃ kind, (label n).map Node.kind = some kind ∧ kind.region? = none ∧ kind.isClose = false

theorem Woven.shaped (h : t.Woven label) : t.Shaped fun n => (label n).map Node.kind := by
  induction t with
  | done => trivial
  | leaf n rest ih =>
    obtain ⟨⟨d, hd, hinserted⟩, hrest⟩ := h
    refine ⟨⟨d.kind, by simp [hd], ?_⟩, ih hrest⟩
    cases hinserted <;> exact ⟨rfl, rfl⟩
  | region | fork => cases h

theorem Turned.single (h : Turned old label n b t) (hold : Single old n) : Single label n := by
  cases h with
  | keep hold' _ hnew | yield hold' _ hnew =>
    rw [Single, hold', ← hnew] at hold
    exact hold
  | branch _ _ _ hnew | split _ _ _ _ hnew => exact ⟨_, by rw [hnew, map_some], rfl, rfl⟩

/-- What a strand is cut into has the kinds of its places. -/
theorem Cut.shaped (h : Cut old label b t t') (hshaped : t.Shaped fun n => (old n).map Node.kind) :
    t'.Shaped fun n => (label n).map Node.kind := by
  induction h with
  | done => trivial
  | leaf hlead hturned _ ih =>
    exact shaped_append.mpr ⟨hlead.woven.shaped, hturned.single hshaped.1,
      shaped_append.mpr ⟨hturned.woven.shaped, ih hshaped.2⟩⟩
  | calm hlead _ hnew _ ih =>
    obtain ⟨hpart, hrest⟩ := shaped_append.mp hshaped
    refine shaped_append.mpr ⟨hlead.woven.shaped,
      shaped_append.mpr ⟨hpart.congr fun n hn => ?_, ih hrest⟩⟩
    rw [hnew n hn]
  | region hlead _ _ hnew _ htail _ ihb ihr =>
    obtain ⟨ho, hc, hbody, hrest⟩ := hshaped
    simp only [forall_mem_cons] at hnew
    exact shaped_append.mpr
      ⟨hlead.woven.shaped, by simpa only [hnew.1] using ho, by simpa only [hnew.2.1] using hc,
      shaped_append.mpr ⟨ihb hbody, htail.woven.shaped⟩, ihr hrest⟩
  | fork hlead _ _ hnew _ htail _ htail' _ iha ihb ihr =>
    obtain ⟨ho, hc, hfirst, hsecond, hrest⟩ := hshaped
    simp only [forall_mem_cons] at hnew
    exact shaped_append.mpr
      ⟨hlead.woven.shaped, by simpa only [hnew.1] using ho, by simpa only [hnew.2.1] using hc,
      shaped_append.mpr ⟨iha hfirst, htail.woven.shaped⟩,
      shaped_append.mpr ⟨ihb hsecond, htail'.woven.shaped⟩, ihr hrest⟩

/-- No node gets lost, and every node of the result has been there before or is inserted. -/
theorem Cut.weaves (h : Cut old label b t t') :
    t.nodes ⊆ t'.nodes ∧ ∀ m ∈ t'.nodes, m ∈ t.nodes ∨ ∃ d, label m = some d ∧ d.Inserted := by
  induction h with
  | done => simp
  | leaf hlead hturned _ ih =>
    have hlead := hlead.woven.inserted
    have hbehind := hturned.woven.inserted
    grind [nodes, nodes_append]
  | calm hlead _ _ _ ih =>
    have hlead := hlead.woven.inserted
    grind [nodes, nodes_append]
  | region hlead _ _ _ _ htail _ ihb ihr =>
    have hlead := hlead.woven.inserted
    have htail := htail.woven.inserted
    grind [nodes, nodes_append]
  | fork hlead _ _ _ _ htail _ htail' _ iha ihb ihr =>
    have hlead := hlead.woven.inserted
    have htail := htail.woven.inserted
    have htail' := htail'.woven.inserted
    grind [nodes, nodes_append]

/-- The nodes of a strand stay as they are or are turned. -/
theorem Cut.turned (h : Cut old label b t t') (hn : n ∈ t.nodes) :
    label n = old n ∨ ∃ b behind, Turned old label n b behind := by
  induction h with
  | done => cases hn
  | leaf _ hturned _ ih =>
    rcases mem_cons.mp hn with rfl | hn
    · exact Or.inr ⟨_, _, hturned⟩
    · exact ih hn
  | calm _ _ hnew _ ih =>
    rw [nodes_append, mem_append] at hn
    exact hn.elim (fun hn => Or.inl (hnew n hn)) ih
  | region _ _ _ hnew _ _ _ ihb ihr =>
    rcases mem_region.mp hn with rfl | hn | rfl | hn
    · exact Or.inl (hnew n (by simp))
    · exact ihb hn
    · exact Or.inl (hnew n (by simp))
    · exact ihr hn
  | fork _ _ _ hnew _ _ _ _ _ iha ihb ihr =>
    rcases mem_fork.mp hn with rfl | hn | hn | rfl | hn
    · exact Or.inl (hnew n (by simp))
    · exact iha hn
    · exact ihb hn
    · exact Or.inl (hnew n (by simp))
    · exact ihr hn

/-- An open jump at a node either looks for a step from where it stands or from where a branch of
the original strand goes on. -/
def Traced (old label : NodeId → Option Node) (ns : List NodeId) (m : NodeId) : Prop :=
  ∀ d guarded dest, label m = some d → d.kind = .goto guarded (.pending (some dest)) →
    ∃ n ∈ ns, ∃ d' guarded' goal, old n = some d' ∧ d'.kind = .branch guarded' goal ∧
    Arrives old goal.target dest

theorem traced_of_inserted (h : ∃ d, label m = some d ∧ d.Inserted) : Traced old label ns m := by
  obtain ⟨d, hd, hinserted⟩ := h
  intro d' guarded dest hd' hkind
  obtain rfl := some.inj (hd.symm.trans hd')
  cases hinserted <;> cases hkind

/-- The open jumps of a strand that is cut have their origin in it. -/
theorem Cut.traced (h : Cut old label b t t') (hns : t.nodes ⊆ ns)
    (hold : ∀ m ∈ t.nodes, ∀ d guarded goal, old m = some d → d.kind ≠ .goto guarded goal) :
    ∀ m ∈ t'.nodes, Traced old label ns m := by
  intro m hm
  rcases h.weaves.2 m hm with hmem | hinserted
  · have hkept : label m = old m → Traced old label ns m := fun hnew d guarded dest hd hkind =>
      absurd hkind (hold m hmem d guarded _ (hnew ▸ hd))
    rcases h.turned hmem with hnew | ⟨b, behind, hturned⟩
    · exact hkept hnew
    cases hturned with
    | keep hold' _ hnew | yield hold' _ hnew => exact hkept (hnew.trans hold'.symm)
    | branch hold' hkind hdest hnew =>
      intro d' guarded' dest' hd' hkind'
      obtain rfl := some.inj (hnew.symm.trans hd')
      simp only [NodeKind.goto.injEq, Jump.pending.injEq, some.injEq] at hkind'
      exact ⟨m, hns hmem, _, _, _, hold', hkind, hkind'.2 ▸ hdest⟩
    | split _ _ _ _ hnew =>
      intro d' guarded dest hd' hkind
      obtain rfl := some.inj (hnew.symm.trans hd')
      cases hkind
  · exact traced_of_inserted hinserted

end Outcome

end Strand

/-! ### Nodes put into the stream -/

variable {r : Routine} {exit n m : NodeId} {C : Strand.Context} {t : Strand} {d : Node} {w : Wire}
    {slot : Nat} {free more : List NodeId} {post : PUnit → Routine → Prop}

namespace Strand.Context

theorem entry_mem_wires (C : Context) (src dst : Port) (t : Strand) :
    (C.source src, t.entryPort (C.target dst)) ∈ (C.plug t).wires src dst := by
  obtain ⟨before, behind, hwires⟩ := C.wires_plug src dst
  rw [hwires]
  have hmem := Strand.entry_mem_wires (C.source src) t (C.target dst)
  simp [hmem]

end Strand.Context

namespace Routine

/-- A routine that has more nodes than another one and differs otherwise at most in the labels of
the nodes `free` that open nothing. -/
structure Revises (r r' : Routine) (free : List NodeId) : Prop where
  entry : r'.entry = r.entry
  mem : r'.mem = r.mem
  size : r.nodes.size ≤ r'.nodes.size
  vars : r'.vars.size = r.vars.size
  tally : ∀ v access, r'.tally v access = r.tally v access
  detached : ∀ m < r.nodes.size, r.Detached m → r'.Detached m
  labels : ∀ m d, r.label m = some d → (m ∈ free → d.kind.region?.isSome) → r'.label m = some d

namespace Revises

variable {r₁ r₂ : Routine}

theorem refl (r : Routine) (free : List NodeId) : r.Revises r free :=
  ⟨rfl, rfl, Nat.le_refl _, rfl, fun _ _ => rfl, fun _ _ h => h, fun _ _ h _ => h⟩

theorem trans (h : r.Revises r₁ free) (h' : r₁.Revises r₂ more) : r.Revises r₂ (free ++ more) where
  entry := h'.entry.trans h.entry
  mem := h'.mem.trans h.mem
  size := Nat.le_trans h.size h'.size
  vars := h'.vars.trans h.vars
  tally v access := (h'.tally v access).trans (h.tally v access)
  detached m hm hd := h'.detached m (Nat.lt_of_lt_of_le hm h.size) (h.detached m hm hd)
  labels m d hm hfree :=
    h'.labels m d (h.labels m d hm fun hmem => hfree (mem_append_left _ hmem))
      fun hmem => hfree (mem_append_right _ hmem)

theorem mono (h : r.Revises r₁ free) (hsub : free ⊆ more) : r.Revises r₁ more :=
  { h with labels := fun m d hm hfree => h.labels m d hm fun hmem => hfree (hsub hmem) }

theorem label_eq (h : r.Revises r₁ free) (hm : m < r.nodes.size) (hfree : m ∉ free) :
    r₁.label m = r.label m := by
  obtain ⟨d, hd⟩ := isSome_iff_exists.mp (label_isSome.mpr hm)
  rw [hd, h.labels m d hd fun hmem => absurd hmem hfree]

end Revises

/-- The routine with a new node put on a wire. -/
def inserted (r : Routine) (w : Wire) (d : Node) : Routine := (r.withNew d).spliced w r.nodes.size

theorem label_inserted (hd : d.unlinked = d) (m : NodeId) :
    (r.inserted w d).label m = if m = r.nodes.size then some d else r.label m := by
  rw [inserted, label_spliced, label_withNew, hd]

theorem label_inserted_self (hd : d.unlinked = d) :
    (r.inserted w d).label r.nodes.size = some d := by
  rw [label_inserted hd, if_pos rfl]

/-- A node put on a wire changes no other one. -/
theorem revises_inserted (hd : d.unlinked = d) : r.Revises (r.inserted w d) [] where
  entry := rfl
  mem := rfl
  size := by simp [inserted]
  vars := rfl
  tally _ _ := rfl
  detached m hm hdetached := by
    refine (((hdetached.withNew hm d).alter ?_).alter ?_).alter ?_
    · exact fun e _ hnext hprev => ⟨by simp [hnext], hprev⟩
    · exact fun e _ hnext hprev => ⟨hnext, by simp [hprev]⟩
    · exact fun e heq => absurd heq (Nat.ne_of_lt hm)
  labels m d' hm _ := by
    rw [label_inserted hd, if_neg (Nat.ne_of_lt (lt_of_label hm)), hm]

/-- A node put on the wire into a part stands in front of it. -/
theorem Carries.inserted (h : r.Carries exit (C.plug t)) (hd : d.unlinked = d) :
    (r.inserted (C.source (r.entry, 0), t.entryPort (C.target (exit, 0))) d).Carries exit
      (C.plug (.leaf r.nodes.size t)) := by
  have hedges : d.next = [] ∧ d.prev = [] := by
    rw [← hd]
    exact ⟨rfl, rfl⟩
  apply (h.withNew d).spliced
  · exact fun hmem => Nat.lt_irrefl _ (h.lt_size hmem)
  · simp
  · rw [nextOf_withNew, if_pos rfl, hedges.1]
  · rw [prevOf_withNew, if_pos rfl, hedges.2]

end Routine

namespace Edit

open Routine

/-- A new node put in front of the part that is entered at the given slot. -/
theorem yields_insertBeforeSlot_new (h : r.Carries exit (C.plug t))
    (hport : t.entryPort (C.target (exit, 0)) = (n, slot)) :
    Yields (Edit.insertBeforeSlot n slot r.nodes.size) (r.withNew d) post ↔
      post () (r.inserted (C.source (r.entry, 0), t.entryPort (C.target (exit, 0))) d) := by
  have hw := C.entry_mem_wires (r.entry, 0) (exit, 0) t
  rw [hport] at hw ⊢
  exact yields_insertBeforeSlot ((h.withNew d).matched hw) (by simp)

/-- A new node put behind the given slot. -/
theorem yields_insertAfterSlot_new (h : r.Carries exit (C.plug t))
    (hport : C.source (r.entry, 0) = (n, slot)) :
    Yields (Edit.insertAfterSlot n slot r.nodes.size) (r.withNew d) post ↔ post ()
    (r.inserted (C.source (r.entry, 0), t.entryPort (C.target (exit, 0))) d) := by
  have hw := C.entry_mem_wires (r.entry, 0) (exit, 0) t
  rw [hport] at hw ⊢
  exact yields_insertAfterSlot ((h.withNew d).matched hw) (by simp)

end Edit

/-- The nodes of the front of a part are in the arena and not among those of the rest. -/
theorem Routine.Carries.front {front : Strand} (h : r.Carries exit (C.plug (front.append t))) :
    ∀ m ∈ front.nodes, m < r.nodes.size ∧ m ∉ t.nodes := by
  obtain ⟨hnodup, hlt⟩ := h.part_nodes
  rw [nodes_append] at hnodup hlt
  exact fun m hm => ⟨hlt m (by simp [hm]), fun hmt => (nodup_append.mp hnodup).2.2 m hm m hmt rfl⟩

/-- Labels in front of a part do not change with it. -/
theorem Routine.Carries.front_label {r' : Routine} {front : Strand}
    (h : r.Carries exit (C.plug (front.append t))) (hrev : r.Revises r' free)
    (hfree : free ⊆ t.nodes) :
    ∀ m ∈ front.nodes, r'.label m = r.label m := fun m hm =>
  hrev.label_eq (h.front m hm).1 fun hmem => (h.front m hm).2 (hfree hmem)

theorem Routine.revises_setKind (hd : r.label n = some d) (hregion : d.kind.region? = none)
    (kind : NodeKind) : r.Revises (r.alter n ({ · with kind })) [n] where
  entry := rfl
  mem := rfl
  size := by simp
  vars := rfl
  tally _ _ := rfl
  detached m _ hdetached := hdetached.alter_of_eq fun _ => ⟨rfl, rfl⟩
  labels m d' hm hfree := by
    have hne : m ≠ n := by
      rintro rfl
      rw [hd] at hm
      obtain rfl := some.inj hm
      simp [hregion] at hfree
    rw [label_alter (g := ({ · with kind })) (by intro d; rfl), if_neg hne, hm]

namespace Lower

open Routine

/-! ### The edits of the first walk -/

variable {l : Lowering}

/-- The step open at a node is the one open so far, or a new one in front of the node. -/
theorem yields_ensureStep (h : l.routine.Carries exit (C.plug t))
    (hn : t.entryPort (C.target (exit, 0)) = (n, 0)) (step : Option NodeId)
    {post : NodeId → Lowering → Prop}
    (hpost : ∀ s l' (lead : Strand), l'.routine.Carries exit (C.plug (lead.append t)) →
      l.routine.Revises l'.routine [] → Strand.StepAhead l'.routine.label step.isSome lead →
      post s l') : Yields (ensureStep step n) l post := by
  cases step with
  | some s => exact hpost s l .done h (.refl _ _) .opened
  | none =>
    simp only [ensureStep, openStepBefore, Edit.insertBefore, yields_bind,
      yields_get, yields_modify,
      Lower.yields_lift, yields_addNode, yields_pure, yields_insertBeforeSlot_new h hn]
    exact hpost _ _ (.leaf l.routine.nodes.size .done) (h.inserted rfl) (revises_inserted rfl)
      (.opens (label_inserted_self rfl))

/-- A jump in front of a node if a step is open there. -/
theorem yields_jumpBefore (h : r.Carries exit (C.plug t))
    (hn : t.entryPort (C.target (exit, 0)) = (n, slot))
    (hpost : ∀ j r', r'.Carries exit (C.plug (.leaf j t)) → r.Revises r' [] →
      r'.label j = some openJump → post () r') :
    Yields (addPendingJump >>= Edit.insertBeforeSlot n slot) r post := by
  simp only [addPendingJump, yields_bind, yields_addNode, yields_insertBeforeSlot_new h hn]
  exact hpost _ _ (h.inserted rfl) (revises_inserted rfl) (label_inserted_self rfl)

/-- A new node behind a node of the stream. -/
theorem yields_insertAfter_new (h : r.Carries exit (C.plug (.leaf n t))) (hd : d.unlinked = d)
    (hpost : ∀ r', r'.Carries exit (C.plug (.leaf n (.leaf r.nodes.size t))) → r.Revises r' [] →
      r'.label r.nodes.size = some d → post () r') :
    Yields (Edit.insertAfter n r.nodes.size) (r.withNew d) post := by
  have h' : r.Carries exit ((C.inside (.behind (.leaf n .done))).plug t) := h
  rw [Edit.insertAfter, yields_insertAfterSlot_new h' rfl]
  exact hpost _ (h'.inserted hd) (revises_inserted hd) (label_inserted_self hd)

/-- A step that is open where an arm ends is left by a jump, unless the routine has returned there.
-/
theorem yields_leaveStep {opener : NodeId} {dₒ : Node} (h : r.Carries exit (C.plug .done))
    (hn : C.target (exit, 0) = (n, slot)) (hopener : r.label opener = some dₒ)
    (hpost : ∀ r' tail, r'.Carries exit (C.plug tail) → r.Revises r' [] →
      Strand.JumpAhead r'.label tail → post () r') : Yields (leaveStep n opener slot) r post := by
  have hjoined := h.part.entry
  rw [entryPort_done, hn] at hjoined
  obtain ⟨hnext, hprev⟩ := hjoined
  have hlt := lt_of_prev hprev
  have hsrc := lt_of_next hnext
  have hjump : Yields (addPendingJump >>= Edit.insertBeforeSlot n slot) r post :=
    yields_jumpBefore (t := .done) h (by rw [entryPort_done, hn])
      fun j r' hcarries hrev hj => hpost r' (.leaf j .done) hcarries hrev (.jump hj)
  have hkeep : post () r := hpost r .done h (.refl _ _) .none
  rw [prevOf_eq (Array.getElem?_eq_getElem hlt)] at hprev
  unfold leaveStep
  simp only [yields_bind, yields_node, Array.getElem?_eq_getElem hlt, exists_some_eq,
    hprev, yields_kind, node_of_label hopener]
  split
  · exact hjump
  · rw [yields_bind, yields_kind]
    refine ⟨_, Array.getElem?_eq_getElem hsrc, ?_⟩
    rw [yields_bind, yields_pure]
    split
    · exact hjump
    · exact hkeep

/-- A branch goes on at the head of a loop, otherwise behind the region. -/
theorem yields_branchDestination {target : NodeId} (htarget : r.label target = some d)
    (hregion : d.kind.region?.isSome) {post : NodeId → Routine → Prop}
    (hpost : ∀ dest, (if d.kind.isLoop then dest = target else d.kind.partner? = some dest) →
      post dest r) : Yields (branchDestination target) r post := by
  simp only [branchDestination, yields_bind, yields_kind, node_of_label htarget, exists_some_eq]
  by_cases hloop : d.kind.isLoop = true
  · rw [if_pos hloop]
    exact hpost target (by rw [if_pos hloop])
  · rw [if_neg hloop]
    obtain ⟨region, hregion⟩ := isSome_iff_exists.mp hregion
    have hpartner : d.kind.partner? = some region.close := by
      cases hkind : d.kind <;> simp_all [NodeKind.partner?]
    rw [hpartner]
    exact hpost region.close (by rw [if_neg hloop, hpartner])

/-- The first half of a call takes its place, without a result. -/
theorem yields_begin {kind : NodeKind} (h : r.Carries exit t) (hd : r.label n = some d)
    (hwritten : ∀ v, d.dest = some v → 0 < r.writesOf v)
    (hpost : ∀ r', r'.Carries exit t → r'.entry = r.entry → r'.mem = r.mem →
      r'.nodes.size = r.nodes.size →
      r'.vars.size = r.vars.size → (∀ m, r.Detached m → r'.Detached m) →
      (∀ v access, r.tally v access = r'.tally v access +
      (d.dest.toList.map (·, Access.write)).count (v, access)) →
      (∀ m, r'.label m = if m = n then some { d with kind, dest := none } else r.label m) →
      post () r') :
    Yields (setDest n none >>= fun _ => setKind n kind) r post := by
  rw [yields_bind]
  refine yields_dropDest (node_of_label hd) hwritten fun r₁ hr₁ => ?_
  have hn : n < r₁.nodes.size := hr₁.nodes ▸ lt_of_label hd
  rw [yields_setKind, size_alter]
  have hdetached : ∀ m, r.Detached m → r₁.Detached m := fun m hm => by
    rwa [Detached, hr₁.nextOf_eq, hr₁.prevOf_eq] at hm
  refine ⟨hn, hpost _ ?_ hr₁.entry.symm hr₁.mem.symm ?_ hr₁.size.symm (fun m hm => ?_)
    hr₁.tally_eq fun m => ?_⟩
  · refine h.congr hr₁.entry.symm fun m _ => ⟨?_, ?_⟩
    · rw [nextOf_alter_of_eq (by intro d; rfl), nextOf_alter_of_eq (by intro d; rfl), hr₁.nextOf_eq]
    · rw [prevOf_alter_of_eq (by intro d; rfl), prevOf_alter_of_eq (by intro d; rfl), hr₁.prevOf_eq]
  · rw [size_alter, size_alter, hr₁.nodes]
  · refine Detached.alter_of_eq (Detached.alter_of_eq (hdetached m hm) ?_) ?_ <;>
      exact fun _ => ⟨rfl, rfl⟩
  · rw [label_alter (g := ({ · with kind })) (by intro d; rfl),
      label_alter (g := ({ · with dest := none })) (by intro d; rfl), ← hr₁.label_eq m]
    split
    · subst m
      simp [hd]
    · rfl

/-- A split call leaves its first half, a jump and its second half. -/
theorem yields_splitCall {first : CallForm} {sig : Signature}
    (h : r.Carries exit (C.plug (.leaf n t)))
    (hd : r.label n = some d) (hregion : d.kind.region? = none)
    (hwritten : ∀ v, d.dest = some v → 0 < r.writesOf v) {post : NodeId → Routine → Prop}
    (hpost : ∀ j f r', r'.Carries exit (C.plug (.leaf n (.leaf j (.leaf f t)))) → r.Revises r' [n] →
      r'.label n = some { d with kind := .call first sig, dest := none } → r'.label j = some
      openJump → r'.label f = some (.detached (.call .finish sig) d.dest d.ty []) → post f r') :
    Yields (splitCall n first sig) r post := by
  have hn : n < r.nodes.size := lt_of_label hd
  simp only [splitCall, yields_bind, yields_node, node_of_label hd, exists_some_eq]
  rw [← yields_bind (f := fun _ => setKind n (.call first sig))]
  refine yields_begin h hd hwritten fun r₁ h₁ hentry₁ hmem₁ hsize₁ hvars₁ hdetached₁
    htally₁ hlabel₁ => ?_
  have hn₁ : r₁.label n = some { d with kind := .call first sig, dest := none } := by
    rw [hlabel₁, if_pos rfl]
  simp only [addPendingJump, yields_addNode]
  refine yields_insertAfter_new h₁ rfl fun r₂ h₂ hrev₂ hjump₂ => ?_
  refine yields_insertAfter_new (C := C.inside (.behind (.leaf n .done))) h₂ rfl
    fun r₃ h₃ hrev₃ hsecond₃ => ?_
  have hrev : r₁.Revises r₃ [] := hrev₂.trans hrev₃
  obtain ⟨second, hnode, haccesses, hflat⟩ : ∃ second, r₃.nodes[r₂.nodes.size]? = some second ∧
      second.accesses = d.dest.toList.map (·, Access.write) ∧ second.Flat := by
    refine ⟨_, node_of_label hsecond₃, ?_, by simp [Node.Flat, Node.detached]⟩
    cases hdest : d.dest <;> simp [Node.accesses, Node.detached]
  refine yields_countNode hnode hflat ?_ fun r₄ hr₄ => ?_
  · intro a ha
    rw [haccesses] at ha
    obtain ⟨v, hv, rfl⟩ := List.mem_map.mp ha
    have hpos : 0 < r.tally v .write := hwritten v (by simpa using hv)
    obtain ⟨x, hx⟩ := exists_var_of_tally hpos
    have hlt : v < r.vars.size := (Array.getElem?_eq_some_iff.mp hx).1
    rwa [hrev.vars, hvars₁]
  · have hlabels : ∀ m d, r₁.label m = some d → r₄.label m = some d := fun m d hm => by
      rw [hr₄.label_eq]
      exact hrev.labels m d hm (by simp)
    refine hpost r₁.nodes.size r₂.nodes.size r₄ ?_ ?_ ?_ ?_ ?_
    · exact h₃.congr hr₄.entry fun m _ => ⟨hr₄.nextOf_eq m, hr₄.prevOf_eq m⟩
    · refine ⟨?_, ?_, ?_, ?_, fun v access => ?_, fun m hm hdetached => ?_, fun m d' hm hfree => ?_⟩
      · rw [hr₄.entry, hrev.entry, hentry₁]
      · rw [hr₄.mem, hrev.mem, hmem₁]
      · rw [hr₄.nodes, ← hsize₁]
        exact hrev.size
      · rw [hr₄.size, hrev.vars, hvars₁]
      · rw [hr₄.tally_eq, hrev.tally, haccesses, ← htally₁]
      · rw [Detached, hr₄.nextOf_eq, hr₄.prevOf_eq]
        exact hrev.detached m (hsize₁ ▸ hm) (hdetached₁ m hdetached)
      · have hne : m ≠ n := by
          rintro rfl
          rw [hd] at hm
          obtain rfl := some.inj hm
          simp [hregion] at hfree
        exact hlabels m d' (by rw [hlabel₁, if_neg hne, hm])
    · exact hlabels n _ hn₁
    · rw [hr₄.label_eq]
      exact hrev₃.labels _ _ hjump₂ (by simp)
    · rw [hr₄.label_eq]
      exact hsecond₃

end Lower

end CoroutineIR
