import CoroutineIR.Outcome

/-!
# Arenas

A growing table whose rows are named by their position. Rows are never removed, so a position stays
valid once it has been handed out.
-/

namespace CoroutineIR

/-- A table whose rows are named by their position. -/
abbrev Arena (α : Type) := Array α

namespace Arena

variable {ε α : Type}

/-- The position the next row will get. -/
def nextId (rows : Arena α) : Nat := rows.size

/-- The positions in use. -/
def ids (rows : Arena α) : List Nat := List.range rows.size

/-- The row at a position, which must be in use. -/
def fetch (rows : Arena α) (id : Nat) : Attempt ε α := Attempt.present rows[id]?

/-- The rows with the one at `id`, which must be in use, replaced by its image. -/
def update (rows : Arena α) (id : Nat) (f : α → α) : Attempt ε (Arena α) :=
  if id < rows.size then .ok (rows.modify id f) else .abort .missing

/-- The first position whose row satisfies `p`. -/
def firstId? (rows : Arena α) (p : α → Bool) : Option Nat := rows.findIdx? p

/-- The last position whose row satisfies `p`. -/
def lastId? (rows : Arena α) (p : α → Bool) : Option Nat :=
  (ids rows).reverse.find? fun id => (rows[id]?).any p

theorem fetch_eq_ok_iff {rows : Arena α} {id : Nat} {a : α} :
    (fetch rows id : Attempt ε α) = .ok a ↔ rows[id]? = some a := by
  unfold fetch
  cases rows[id]? <;> simp [Attempt.present, Attempt.abort]

end Arena

end CoroutineIR
