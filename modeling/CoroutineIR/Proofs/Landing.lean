import CoroutineIR.Proofs.Correspondence
import CoroutineIR.Proofs.Cutting
import CoroutineIR.Proofs.Settling
import CoroutineIR.Proofs.Spreading

/-!
# Where control lands

A routine before the lowering and the one it is lowered to are compared node by node. Control in
front of a strand of the one and in front of what the strand is cut into in the other meets at the
first node that both execute; and wherever no step is open, a jump that looks for a step from there
on finds one in front of that node. Hence a jump lands where the branch it replaces would have
arrived.
-/

namespace CoroutineIR

open Routine Strand NodeKind

/-- The nodes of a strand that are executed before and after the lowering: all but the two ends of
the regions that are taken apart. -/
def Strand.kept (kinds : NodeId → Option NodeKind) : Strand → List NodeId
  | done => []
  | leaf n rest => n :: rest.kept kinds
  | region o c body rest =>
    (if dissolvesAt kinds o then body.kept kinds
      else if (kinds o).any NodeKind.opensSuspending then o :: body.kept kinds ++ [c]
      else o :: body.nodes ++ [c]) ++ rest.kept kinds
  | fork o c first second rest =>
    (if (kinds o).any NodeKind.opensSuspending then o :: first.kept kinds ++ second.kept kinds ++
      [c] else o :: first.nodes ++ second.nodes ++ [c]) ++ rest.kept kinds

theorem Strand.Calm.kept_append {r : Routine} {part rest : Strand} (h : Calm r.label part) :
    (part.append rest).kept r.kindOf = part.nodes ++ rest.kept r.kindOf := by
  cases h with
  | region hold hkind =>
    have hopen := kindOf_of_label hold hkind
    simp [Strand.kept, dissolvesAt_of_enter hopen, hopen, opensSuspending]
  | fork hold hkind =>
    simp [Strand.kept, kindOf_of_label hold hkind, opensSuspending]

/-- A suspending call of one routine and its second half in another, which stands behind the jump
that follows the first half and the step the jump leads to. -/
structure Routine.Halves (r r' : Routine) (n f : NodeId) : Prop where
  call : ∃ kind, r.kindOf n = some kind ∧ kind.awaits = true
  second : ∃ j s, r'.nextOf n = [j] ∧ r'.kindOf j = some (.goto false (.step s)) ∧ r'.nextOf s = [f]

namespace Pairing

variable {P : Pairing} {r : Routine} {o x y : NodeId}

/-- The right routine is what is left of the left one after jumps are settled and regions dissolved,
starting from a routine that is cut into steps. -/
structure Lowers (P : Pairing) (r : Routine) (u : Strand) : Prop where
  streams : r.Streams P.exit u
  label : ∀ n ∈ u.nodes, ∀ d, r.label n = some d → P.right.label n = some (r.settled n d)
  split : ∀ n f, P.split n f ↔ P.kept n ∧ P.left.Halves P.right n f

/-- A jump that looks for a step from `y` on finds control where the left routine gets from `x`. -/
inductive Lands (P : Pairing) (r : Routine) (x y : NodeId) : Prop
  | step {s : NodeId} (hscan : r.Scan y (some s)) (hmeets : P.Meets (.before x) (.before s))
  | ending {i : ℕ} (hscan : r.Scan y none) (hlead : P.left.Leads x P.exit i)

section Lands

variable {u : Strand} {x' y' j : NodeId} {kind : NodeKind}

theorem Lands.pass_left (hpass : P.left.passes x = some x') (h : P.Lands r x' y) :
    P.Lands r x y := by
  cases h with
  | step hscan hmeets => exact .step hscan (hmeets.pass_left hpass)
  | ending hscan hlead => exact .ending hscan (.pass hpass hlead)

/-- A jump lands where it does from the next node. -/
theorem Lands.scan (hkind : r.kindOf y = some kind) (hstep : kind.isStep = false)
    (hnext : r.nextOf y = [y']) (h : P.Lands r x y') : P.Lands r x y := by
  have hhead : (r.nextOf y).head? = some y' := by rw [hnext, List.head?_cons]
  cases h with
  | step hscan hmeets => exact .step (.pass hkind hstep hhead hscan) hmeets
  | ending hscan hlead => exact .ending (.pass hkind hstep hhead hscan) hlead

variable (h : P.Lands r x y) (hr : r.Streams P.exit u) (hy : y ∈ r.live P.exit u)
include h hr hy

/-- The destination found is where control lands. -/
theorem Lands.destination : (∃ s, r.destination y = .step s ∧ P.Meets (.before x) (.before s)) ∨
      r.destination y = .terminal ∧ ∃ i, P.left.Leads x P.exit i := by
  cases h with
  | @step s hscan hmeets =>
    exact Or.inl ⟨s, by rw [Routine.destination, hr.nextStep_eq hy hscan], hmeets⟩
  | ending hscan hlead =>
    exact Or.inr ⟨by rw [Routine.destination, hr.nextStep_eq hy hscan], _, hlead⟩

theorem Lands.meets_landing (e : Node) : P.Meets (.before x) (e.landing (r.destination y)) := by
  rcases h.destination hr hy with ⟨s, hs, hmeets⟩ | ⟨hterminal, i, hlead⟩
  · rw [hs]
    exact hmeets
  · rw [hterminal]
    exact ⟨i + 1, .ending hlead⟩

/-- Control that is about to jump meets where it lands. -/
theorem Lands.meets_jump (hj : P.right.kindOf j = some (.goto false (r.destination y))) :
    P.Meets (.before x) (.before j) := by
  rcases h.destination hr hy with ⟨s, hs, hmeets⟩ | ⟨hterminal, i, hlead⟩
  · rw [hs] at hj
    exact hmeets.pass_right (passes_of_goto hj)
  · rw [hterminal] at hj
    exact ⟨i + 0, .node hlead (.refl j) (.jump hj)⟩

end Lands

namespace Lowers

variable {u : Strand} {n j : NodeId} {d : Node}

/-- A node that is no open jump stays. -/
theorem label_of_ne (hP : P.Lowers r u) (hn : n ∈ u.nodes) (hd : r.label n = some d)
    (hne : ∀ guarded origin, d.kind ≠ .goto guarded (.pending origin)) :
    P.right.label n = some d := by
  rw [hP.label n hn d hd, settled_of_ne hne]

theorem kindOf_step (hP : P.Lowers r u) (hn : n ∈ u.nodes) {name : String}
    (hd : r.label n = some (.bare (.step name))) : P.right.kindOf n = some (.step name) := by
  rw [kindOf, hP.label_of_ne hn hd (by simp [Node.bare, Node.detached])]
  rfl

theorem kindOf_jump (hP : P.Lowers r u) (hj : j ∈ u.nodes) (hd : r.label j = some openJump) :
    P.right.kindOf j = some (.goto false (r.destination j)) := by
  rw [kindOf, hP.label j hj _ hd, settled_of_eq rfl]
  rfl

end Lowers

section Ahead

variable {u v w : Strand} {b : Bool} {lead : Strand}
    {dst dst' src : Port}

/-- Behind an open step control meets at once, and a step that is opened is found by every jump to
it. -/
theorem meets_of_stepAhead (hP : P.Lowers r u) (hstep : StepAhead r.label b lead)
    (hsub : lead.nodes ⊆ u.nodes) {src' : Port} (hright : P.right.Lays src' (lead.append w) dst')
    (hmeets : P.Meets (.before x) (.before (w.entryPort dst').1)) :
    P.Meets (.before x) (.before ((lead.append w).entryPort dst').1) ∧
    (b = false → P.Lands r x ((lead.append v).entryPort dst).1) := by
  cases hstep with
  | opened => exact ⟨hmeets, nofun⟩
  | @opens s name hs =>
    have hmem : s ∈ u.nodes := hsub (by simp)
    have hmeets' :=
      hmeets.pass_right (passes_of_next (hP.kindOf_step hmem hs) rfl hright.nextOf_leaf)
    have hkind : r.kindOf s = some (.step name) := by
      rw [kindOf, hs]
      rfl
    exact ⟨hmeets', fun _ => .step (.found hkind rfl) hmeets'⟩

/-- A jump to the next step leads where control lands behind it. -/
theorem meets_of_jumpAhead (hP : P.Lowers r u) (hjump : JumpAhead r.label lead)
    (hsub : lead.nodes ⊆ u.nodes) (hcut : r.Lays src (lead.append v) dst)
    (hmeets : P.Meets (.before x) (.before (w.entryPort dst').1))
    (hlands : P.Lands r x (v.entryPort dst).1) :
    P.Meets (.before x) (.before ((lead.append w).entryPort dst').1) ∧
    P.Lands r x ((lead.append v).entryPort dst).1 := by
  cases hjump with
  | none => exact ⟨hmeets, hlands⟩
  | @jump j hj =>
    have hmem : j ∈ u.nodes := hsub (by simp)
    have hkind : r.kindOf j = some (.goto false (.pending none)) := by
      rw [kindOf, hj]
      rfl
    have hlands' : P.Lands r x j := hlands.scan hkind rfl hcut.nextOf_leaf
    exact ⟨hlands'.meets_jump hP.streams (by simp [hmem]) (hP.kindOf_jump hmem hj), hlands'⟩

/-- The same for the jump at the end of an arm. -/
theorem meets_of_tail (hP : P.Lowers r u) (hjump : JumpAhead r.label lead)
    (hsub : lead.nodes ⊆ u.nodes) (hcut : r.Lays src lead dst)
    (hmeets : P.Meets (.before x) (.before (w.entryPort dst').1))
    (hlands : P.Lands r x dst.1) : P.Meets (.before x)
    (.before ((lead.append w).entryPort dst').1) ∧ P.Lands r x (lead.entryPort dst).1 := by
  rw [← append_done lead] at hcut
  have h := meets_of_jumpAhead hP hjump hsub hcut hmeets hlands
  rwa [append_done] at h

/-- At the end of a conditional that both routines execute control meets in any case. -/
theorem meets_of_arm {c : NodeId} {slot : ℕ} (hP : P.Lowers r u) (htail : JumpAhead r.label lead)
    (hsub : lead.nodes ⊆ u.nodes) (hcut : r.Lays src lead (c, slot)) (hc : P.kept c)
    (hlands : P.Lands r c c) : P.Meets (.before c)
    (.before (lead.entryPort (c, slot)).1) ∧ P.Lands r c (lead.entryPort (c, slot)).1 := by
  have hmeets : P.Meets (.before c) (.before (Strand.done.entryPort (c, slot)).1) := meets_kept hc
  have h := meets_of_tail hP htail hsub hcut hmeets hlands
  rwa [append_done] at h

end Ahead

/-- Control lands at the end of a region that is left of a cut if it does so behind. -/
theorem lands_closer {c : NodeId} (hclose : P.left.kindOf c = some (.close o))
    (hclose' : r.kindOf c = some (.close o)) (hnext : P.left.nextOf c = [x])
    (hnext' : r.nextOf c = [y]) (hlands : P.Lands r x y) : P.Lands r c c :=
  (hlands.pass_left (passes_of_next hclose rfl hnext)).scan hclose' rfl hnext'

/-- Control lands at the start of a block or loop that is taken apart if it does so inside. -/
theorem lands_opener {form : Form} {region : Region}
    (hopen : P.left.kindOf o = some (.enter form region)) (hform : form ≠ .cond)
    (hopen' : r.kindOf o = some (.enter form region)) (hnext : P.left.nextOf o = [x])
    (hnext' : r.nextOf o = [y]) (hlands : P.Lands r x y) : P.Lands r o o :=
  (hlands.pass_left (passes_of_next hopen (isQuiet_enter hform) hnext)).scan
    hopen' rfl hnext'

end Pairing

end CoroutineIR
