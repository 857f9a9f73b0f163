import CoroutineIR.Proofs.Stream

/-!
# Streams made edge by edge

An edge that is made between two nodes takes the next free slot at both. If the wires of a strand
are made in the order in which they are laid out, every wire gets the slots it asks for, so the
stream carries the strand.
-/

namespace CoroutineIR

open Strand

namespace Routine

variable {ws : List Wire} {w : Wire}

/-- The edges of a routine are those of a list, made in the order of the list. -/
def Linked (r : Routine) (ws : List Wire) : Prop := ∀ n, r.Lists ws n

/-- The routine with two nodes joined by a new edge. -/
def joinedBy (r : Routine) (a b : NodeId) : Routine :=
  (r.alter a fun d => { d with next := d.next ++ [b] }).alter b fun d =>
    { d with prev := d.prev ++ [a] }

variable {r : Routine} {a b n : NodeId}

@[simp] theorem joinedBy_vars : (r.joinedBy a b).vars = r.vars := rfl

@[simp] theorem label_joinedBy : (r.joinedBy a b).label n = r.label n := by
  unfold joinedBy
  rw [label_alter_of_eq, label_alter_of_eq] <;> exact fun _ => rfl

theorem nextOf_joinedBy (ha : a < r.nodes.size) :
    (r.joinedBy a b).nextOf n = if n = a then r.nextOf n ++ [b] else r.nextOf n := by
  unfold joinedBy
  rw [nextOf_alter_of_eq (by intro d; rfl), nextOf_alter (g := (· ++ [b])) (by intro d; rfl) ha]

theorem prevOf_joinedBy (hb : b < r.nodes.size) :
    (r.joinedBy a b).prevOf n = if n = b then r.prevOf n ++ [a] else r.prevOf n := by
  unfold joinedBy
  rw [prevOf_alter (g := (· ++ [a])) (by intro d; rfl) (by simpa using hb),
    prevOf_alter_of_eq (by intro d; rfl)]

/-- A new edge is listed last. -/
theorem Linked.joinedBy (h : r.Linked ws) (hs : w.1.1 < r.nodes.size) (ht : w.2.1 < r.nodes.size) :
    (r.joinedBy w.1.1 w.2.1).Linked (ws ++ [w]) := by
  intro n
  rw [Lists, nextOf_joinedBy hs, prevOf_joinedBy ht, heads_append, Strand.tails_append,
    heads_cons, Strand.tails_cons, ← (h n).1, ← (h n).2]
  constructor
  · by_cases hn : n = w.1.1
    · simp [hn, heads, wiresFrom]
    · simp [hn, heads, wiresFrom]
  · by_cases hn : n = w.2.1
    · simp [hn, Strand.tails, wiresTo]
    · simp [hn, Strand.tails, wiresTo]

/-- A stream whose edges are the wires of a strand, made in the order of the layout, carries the
strand. -/
theorem Linked.carries {exit : NodeId} {t : Strand} (h : r.Linked (t.wires (r.entry, 0) (exit, 0)))
    (hnodup : (r.live exit t).Nodup) : r.Carries exit t :=
  carries_iff.mpr ⟨hnodup, fun n _ => h n⟩

end Routine

end CoroutineIR
