/-!
# Finite sets of small numbers

A set of natural numbers kept as the bits of one number. Two sets are equal exactly when they have
the same members, so the equality test of a fixpoint iteration is equality of numbers.
-/

namespace CoroutineIR

/-- A finite set of natural numbers. -/
structure BitSet where
  /-- Bit `n` is set exactly when `n` is a member. -/
  mask : Nat
deriving DecidableEq, Repr, Inhabited

namespace BitSet

/-- The set without members. -/
def empty : BitSet := ⟨0⟩

/-- Whether `n` is a member. -/
def contains (s : BitSet) (n : Nat) : Bool := s.mask.testBit n

/-- The set with `n` added. -/
def insert (s : BitSet) (n : Nat) : BitSet := ⟨s.mask ||| 1 <<< n⟩

/-- The set with `n` taken out. -/
def erase (s : BitSet) (n : Nat) : BitSet := ⟨s.mask ^^^ (s.mask &&& 1 <<< n)⟩

/-- The members of either set. -/
def union (s t : BitSet) : BitSet := ⟨s.mask ||| t.mask⟩

/-- The members below `bound`, ascending. -/
def members (s : BitSet) (bound : Nat) : List Nat := (List.range bound).filter s.contains

/-- The set of the members of a list. -/
def ofList (ns : List Nat) : BitSet := ns.foldl insert empty

@[simp] theorem contains_empty (n : Nat) : empty.contains n = false := by
  simp [empty, contains]

@[simp] theorem contains_insert (s : BitSet) (m n : Nat) :
    (s.insert m).contains n = (s.contains n || decide (m = n)) := by
  simp only [insert, contains, Nat.testBit_or, Nat.one_shiftLeft, Nat.testBit_two_pow]

@[simp] theorem contains_erase (s : BitSet) (m n : Nat) :
    (s.erase m).contains n = (s.contains n && !decide (m = n)) := by
  simp only [erase, contains, Nat.testBit_xor, Nat.testBit_and, Nat.one_shiftLeft,
    Nat.testBit_two_pow]
  cases s.mask.testBit n <;> cases decide (m = n) <;> rfl

@[simp] theorem contains_union (s t : BitSet) (n : Nat) :
    (s.union t).contains n = (s.contains n || t.contains n) := by
  simp [union, contains]

/-- Sets with the same members are equal. -/
theorem ext_contains {s t : BitSet} (h : ∀ n, s.contains n = t.contains n) : s = t := by
  cases s; cases t
  exact congrArg BitSet.mk (Nat.eq_of_testBit_eq h)

@[simp] theorem mem_members {s : BitSet} {bound n : Nat} :
    n ∈ s.members bound ↔ n < bound ∧ s.contains n = true := by
  simp [members]

end BitSet

end CoroutineIR
