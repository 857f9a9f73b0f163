/-!
# Stacks without repetition

A stack that holds each value at most once and remembers the order of insertion. It serves as the
stack of a depth-first search and as the worklist of an iteration, where pushing a value that is
already waiting must not schedule it twice.

Every push takes a new slot, and the position of the slot is recorded for the value. Taking a value
out of the middle only forgets its position, and the slot stays behind until everything above it has
been popped. The value may come back in a later slot, so several slots can hold it: the one that
counts is the one the recorded position points at.
-/

namespace CoroutineIR

variable {α : Type} [DecidableEq α]

namespace UniqueStack

/-- Recorded positions without that of `a`. -/
def forget (a : α) (positions : List (α × Nat)) : List (α × Nat) :=
  positions.filter fun p => p.1 ≠ a

/-- Recorded positions fit the slots: no value has two of them, and the slot holds the value. -/
structure Fits (slots : List α) (positions : List (α × Nat)) : Prop where
  distinct : (positions.map Prod.fst).Nodup
  holds : ∀ a n, positions.lookup a = some n → slots.reverse[n]? = some a

theorem lookup_forget (a b : α) (positions : List (α × Nat)) :
    (forget a positions).lookup b = if b = a then none else positions.lookup b := by
  induction positions with
  | nil => simp [forget]
  | cons p positions ih =>
    unfold forget at ih ⊢
    rw [List.filter_cons, List.lookup_cons]
    grind

theorem fits_nil : Fits ([] : List α) [] := ⟨List.Pairwise.nil, by simp⟩

namespace Fits

variable {slots : List α} {positions : List (α × Nat)} {a : α}

/-- A value without position gets the next slot. -/
theorem push (h : Fits slots positions) (ha : positions.lookup a = none) :
    Fits (a :: slots) ((a, slots.length) :: positions) where
  distinct := by
    refine List.nodup_cons.mpr ⟨fun hmem => ?_, h.distinct⟩
    obtain ⟨⟨b, n⟩, hb, rfl⟩ := List.mem_map.mp hmem
    simpa using List.lookup_eq_none_iff.mp ha _ hb
  holds b n hb := by
    rw [List.lookup_cons] at hb
    split at hb
    · simp_all
    · have hold := h.holds b n hb
      rw [List.reverse_cons, List.getElem?_append_left (List.getElem?_eq_some_iff.mp hold).1, hold]

/-- Only the topmost slot can hold a value that is recorded there. -/
theorem holds_below (h : Fits (a :: slots) positions) {b : α} {n : Nat}
    (hb : positions.lookup b = some n) (hne : b = a → n ≠ slots.length) :
    slots.reverse[n]? = some b := by
  have hold := h.holds b n hb
  rw [List.reverse_cons, List.getElem?_append] at hold
  split at hold
  · exact hold
  · simp only [List.length_reverse, List.getElem?_singleton] at hold
    split at hold
    · exact absurd (Option.some.inj hold).symm fun heq => hne heq (by simp_all; omega)
    · cases hold

/-- A slot on top that no position points at can be dropped. -/
theorem skip (h : Fits (a :: slots) positions) (hstale : positions.lookup a ≠ some slots.length) :
    Fits slots positions where
  distinct := h.distinct
  holds _ _ hb := h.holds_below hb fun heq hn => hstale (by rw [← heq, hb, hn])

theorem forget (h : Fits slots positions) (a : α) :
    Fits slots (UniqueStack.forget a positions) where
  distinct := (List.filter_sublist.map Prod.fst).nodup h.distinct
  holds b n hb := by
    rw [lookup_forget] at hb
    split at hb
    · cases hb
    · exact h.holds b n hb

/-- The topmost slot can be dropped together with the position of its value. -/
theorem drop (h : Fits (a :: slots) positions) : Fits slots (UniqueStack.forget a positions) := by
  refine (h.forget a).skip ?_
  simp [lookup_forget]

end Fits

end UniqueStack

/-- A stack that holds each value at most once. -/
structure UniqueStack (α : Type) [DecidableEq α] where
  /-- What has been pushed, topmost first, with values that have been taken out since. -/
  slots : List α
  /-- The slots of the values present, counted from the bottom. -/
  positions : List (α × Nat)
  fits : UniqueStack.Fits slots positions
deriving Repr

namespace UniqueStack

/-- The stack without slots. -/
def empty : UniqueStack α := ⟨[], [], fits_nil⟩

instance : Inhabited (UniqueStack α) := ⟨empty⟩

/-- The values in the slots that recorded positions point at, topmost first. -/
def liveIn (positions : List (α × Nat)) : List α → List α
  | [] => []
  | a :: rest =>
    if positions.lookup a = some rest.length then a :: liveIn positions rest
      else liveIn positions rest

/-- The values present, in the order of their slots. -/
def items (s : UniqueStack α) : List α := (liveIn s.positions s.slots).reverse

/-- The number of values present. -/
def size (s : UniqueStack α) : Nat := s.positions.length

/-- Whether no value is present. -/
def isEmpty (s : UniqueStack α) : Bool := s.positions.isEmpty

/-- Drop slots from the top until one is met that the position of its value points at. -/
def popFrom : (slots : List α) → (positions : List (α × Nat)) → Fits slots positions →
    Option α × UniqueStack α
  | [], positions, h => (none, ⟨[], positions, h⟩)
  | a :: rest, positions, h =>
    if hlive : positions.lookup a = some rest.length then (some a,
      ⟨rest, forget a positions, h.drop⟩)
    else popFrom rest positions (h.skip hlive)

/-- Take the value inserted last. An empty answer leaves no slots behind. -/
def pop (s : UniqueStack α) : Option α × UniqueStack α := popFrom s.slots s.positions s.fits

/-- The slot that holds `a`; the bottom slot has number zero. -/
def slotOf? (s : UniqueStack α) (a : α) : Option Nat := s.positions.lookup a

/-- Whether `a` is present. -/
def contains (s : UniqueStack α) (a : α) : Bool := (s.slotOf? a).isSome

/-- Put `a` on top unless it is present, and say whether it was new. -/
def insert (s : UniqueStack α) (a : α) : Bool × UniqueStack α :=
  if h : s.positions.lookup a = none then
    (true, ⟨a :: s.slots, (a, s.slots.length) :: s.positions, s.fits.push h⟩)
  else (false, s)

/-- Put `a` on top unless it is present. -/
def push (s : UniqueStack α) (a : α) : UniqueStack α := (s.insert a).2

/-- Push the values of a list, first to last. -/
def pushAll (s : UniqueStack α) (as : List α) : UniqueStack α := as.foldl push s

/-- The stack of the values of a list, first at the bottom. -/
def ofList (as : List α) : UniqueStack α := empty.pushAll as

/-- Take `a` out, wherever it is, and say which slot it held. -/
def erase (s : UniqueStack α) (a : α) : Option Nat × UniqueStack α :=
  (s.slotOf? a, ⟨s.slots, forget a s.positions, s.fits.forget a⟩)

@[simp] theorem items_empty : (empty : UniqueStack α).items = [] := rfl

/-- Only positions among the slots matter for what is present in them. -/
theorem liveIn_congr {positions positions' : List (α × Nat)} (slots : List α)
    (h : ∀ a n, n < slots.length → (positions.lookup a = some n ↔ positions'.lookup a = some n)) :
    liveIn positions slots = liveIn positions' slots := by
  induction slots with
  | nil => rfl
  | cons a slots ih =>
    have hrest := ih fun b n hn => h b n (Nat.lt_succ_of_lt hn)
    simp only [liveIn, hrest, h a slots.length (Nat.lt_succ_self _)]

/-- A value is present in slots if its recorded position is one of them and holds it. -/
theorem mem_liveIn {positions : List (α × Nat)} {slots : List α} {a : α} :
    a ∈ liveIn positions slots ↔ ∃ n, positions.lookup a = some n ∧ slots.reverse[n]? = some a := by
  induction slots with
  | nil => simp [liveIn]
  | cons b slots ih =>
    have htop : (b :: slots).reverse[slots.length]? = some b := by simp
    have hbelow (n : Nat) (hn : n ≠ slots.length) :
        (b :: slots).reverse[n]? = slots.reverse[n]? := by
      rw [List.reverse_cons, List.getElem?_append, List.length_reverse]
      split
      · rfl
      · rw [List.getElem?_eq_none (by simp; omega), List.getElem?_eq_none (by simp; omega)]
    have hlift : (∃ n, positions.lookup a = some n ∧ slots.reverse[n]? = some a) →
        ∃ n, positions.lookup a = some n ∧ (b :: slots).reverse[n]? = some a := by
      rintro ⟨n, hn, hslot⟩
      refine ⟨n, hn, (hbelow n ?_).trans hslot⟩
      rintro rfl
      simp at hslot
    rw [liveIn]
    split
    · rename_i hlive
      rw [List.mem_cons, ih]
      constructor
      · rintro (rfl | hmem)
        · exact ⟨_, hlive, htop⟩
        · exact hlift hmem
      · rintro ⟨n, hn, hslot⟩
        by_cases heq : n = slots.length
        · rw [heq, htop] at hslot
          exact Or.inl (Option.some.inj hslot).symm
        · exact Or.inr ⟨n, hn, (hbelow n heq).symm.trans hslot⟩
    · rename_i hstale
      refine ih.trans ⟨hlift, ?_⟩
      rintro ⟨n, hn, hslot⟩
      refine ⟨n, hn, (hbelow n ?_).symm.trans hslot⟩
      rintro rfl
      rw [htop, Option.some.injEq] at hslot
      exact hstale (hslot ▸ hn)

theorem mem_items {s : UniqueStack α} {a : α} : a ∈ s.items ↔ (s.slotOf? a).isSome := by
  rw [items, List.mem_reverse, mem_liveIn, slotOf?, Option.isSome_iff_exists]
  exact exists_congr fun n => and_iff_left_of_imp (s.fits.holds a n)

@[simp] theorem contains_eq (s : UniqueStack α) (a : α) : s.contains a = decide (a ∈ s.items) := by
  simp [contains, mem_items]

/-- Popping skips the slots on top that no position points at, so it takes the topmost value present
and keeps the others. -/
theorem popFrom_eq (slots : List α) (positions : List (α × Nat)) (h : Fits slots positions) :
    (popFrom slots positions h).1 = (liveIn positions slots).head? ∧
      (popFrom slots positions h).2.items = (liveIn positions slots).tail.reverse := by
  induction slots with
  | nil => exact ⟨rfl, rfl⟩
  | cons a slots ih =>
    unfold popFrom liveIn
    split
    · rename_i hlive
      refine ⟨rfl, congrArg List.reverse (liveIn_congr slots fun b n hn => ?_)⟩
      rw [lookup_forget]
      split
      · simp_all
        omega
      · rfl
    · exact ih _

@[simp] theorem pop_fst (s : UniqueStack α) : s.pop.1 = s.items.getLast? := by
  rw [items, List.getLast?_reverse]
  exact (popFrom_eq s.slots s.positions s.fits).1

@[simp] theorem items_pop (s : UniqueStack α) : s.pop.2.items = s.items.dropLast := by
  rw [items, items, List.dropLast_reverse]
  exact (popFrom_eq s.slots s.positions s.fits).2

/-- A push appends a new value and leaves the stack alone when the value is already waiting. -/
theorem items_push (s : UniqueStack α) (a : α) :
    (s.push a).items = if a ∈ s.items then s.items else s.items ++ [a] := by
  unfold push insert
  split
  · rename_i habsent
    have hold :
        liveIn ((a, s.slots.length) :: s.positions) s.slots = liveIn s.positions s.slots := by
      refine liveIn_congr s.slots fun b n hn => ?_
      grind
    rw [if_neg (by simp [mem_items, slotOf?, habsent])]
    simp [items, liveIn, hold]
  · rename_i hpresent
    rw [if_pos (mem_items.mpr (Option.isSome_iff_ne_none.mpr hpresent))]

/-- Taking a value out keeps the others in their order. -/
theorem items_erase (s : UniqueStack α) (a : α) :
    (s.erase a).2.items = s.items.filter (· != a) := by
  have hlive (slots : List α) :
      liveIn (forget a s.positions) slots = (liveIn s.positions slots).filter (· != a) := by
    induction slots with
    | nil => rfl
    | cons b slots ih =>
      simp only [liveIn, ih, lookup_forget]
      grind
  rw [items, items, List.filter_reverse, ← hlive]
  rfl

end UniqueStack

end CoroutineIR
