import CoroutineIR.Outcome

/-!
# Sizes that fit a machine word

Sizes, offsets and counts are natural numbers below `2 ^ 64`. Sums and products that leave this
range, and remainders by zero, abort.
-/

namespace CoroutineIR.Size

variable {ε : Type}

/-- The first number that is not a size. -/
def limit : Nat := Nat.pow 2 64

/-- A number, if it is a size. -/
def checked (n : Nat) : Attempt ε Nat := if n < limit then .ok n else .abort .overflow

/-- The sum of two sizes. -/
def add (a b : Nat) : Attempt ε Nat := checked (a + b)

/-- The product of two sizes. -/
def mul (a b : Nat) : Attempt ε Nat := checked (a * b)

/-- The bytes to skip after `size` to reach a multiple of `align`. -/
def padding (size align : Nat) : Attempt ε Nat :=
  if align = 0 then .abort .zeroDivisor else .ok ((align - size % align) % align)

/-- The least multiple of `align` that is not below `size`. Zero stays zero for every alignment. -/
def roundUp (size align : Nat) : Attempt ε Nat :=
  if size = 0 then .ok 0
  else if align = 0 then .abort .zeroDivisor
  else mul align ((size + align - 1) / align)

theorem add_eq_ok_iff {a b c : Nat} :
    (add a b : Attempt ε Nat) = .ok c ↔ c = a + b ∧ a + b < limit := by
  unfold add checked
  split <;> simp_all [Attempt.abort, eq_comm]

theorem mul_eq_ok_iff {a b c : Nat} :
    (mul a b : Attempt ε Nat) = .ok c ↔ c = a * b ∧ a * b < limit := by
  unfold mul checked
  split <;> simp_all [Attempt.abort, eq_comm]

end CoroutineIR.Size
