import CoroutineIR.Container.UniqueStack
import Mathlib.Data.List.Nodup

/-!
# Stacks without repetition as lists

Seen through the values present, a stack without repetition is a list to which new values are
appended. Slots that are left behind play no role: whatever has been taken out and put back in
between, what is on top and where a value sits is read off the list.
-/

namespace CoroutineIR.UniqueStack

open List

variable {α : Type} [DecidableEq α]

/-- The operations that change a stack. -/
inductive Operation (α : Type) where
  | insert (a : α)
  | push (a : α)
  | pop
  | erase (a : α)
  | extend (as : List α)
  /-- Start anew with the given values. -/
  | collect (as : List α)

/-- What an operation reports. -/
inductive Report (α : Type) where
  | nothing
  | inserted (isNew : Bool)
  | popped (top : Option α)
  | erased (slot : Option Nat)

/-- An operation on a stack. -/
def Operation.run (s : UniqueStack α) : Operation α → Report α × UniqueStack α
  | insert a => (.inserted (s.insert a).1, (s.insert a).2)
  | push a => (.nothing, s.push a)
  | pop => (.popped s.pop.1, s.pop.2)
  | erase a => (.erased (s.erase a).1, (s.erase a).2)
  | extend as => (.nothing, s.pushAll as)
  | collect as => (.nothing, ofList as)

/-- A list with a value behind it unless it is there. -/
def addTo (l : List α) (a : α) : List α := if a ∈ l then l else l ++ [a]

/-- The same operation on a plain list. -/
def Operation.apply (l : List α) : Operation α → List α
  | insert a | push a => addTo l a
  | pop => l.dropLast
  | erase a => l.erase a
  | extend as => as.foldl addTo l
  | collect as => as.foldl addTo []

/-- What the operation has to report, given the list: whether the value was absent, the last value,
whether the value was there. -/
def Operation.Reports (l : List α) : Operation α → Report α → Prop
  | insert a, report => report = .inserted (a ∉ l)
  | pop, report => report = .popped l.getLast?
  | erase a, report => ∃ slot, report = .erased slot ∧ (slot.isSome ↔ a ∈ l)
  | push _, report | extend _, report | collect _, report => report = .nothing

theorem items_pushAll (s : UniqueStack α) (as : List α) :
    (s.pushAll as).items = as.foldl addTo s.items := by
  induction as generalizing s with
  | nil => rfl
  | cons a as ih =>
    rw [foldl_cons, addTo, ← items_push]
    exact ih (s.push a)

/-- No value is present twice, since only one slot can be the recorded one. -/
theorem nodup_items (s : UniqueStack α) : s.items.Nodup := by
  refine nodup_reverse.mpr ?_
  generalize s.slots = slots
  induction slots with
  | nil => exact nodup_nil
  | cons a slots ih =>
    unfold liveIn
    split
    · rename_i hlive
      refine nodup_cons.mpr ⟨fun hmem => ?_, ih⟩
      obtain ⟨n, hn, hslot⟩ := mem_liveIn.mp hmem
      obtain rfl := Option.some.inj (hlive.symm.trans hn)
      simp at hslot
    · exact ih

/-- The values with a recorded position are those present. -/
theorem perm_items (s : UniqueStack α) : (s.positions.map Prod.fst).Perm s.items := by
  refine (perm_ext_iff_of_nodup s.fits.distinct s.nodup_items).mpr fun a => ?_
  rw [mem_items, slotOf?, lookup_isSome_iff, List.mem_map]
  exact exists_congr fun p => and_congr_right fun _ => by rw [beq_iff_eq, eq_comm]

/-- One operation on a stack. -/
theorem Operation.run_eq (s : UniqueStack α) (op : Operation α) :
    (op.run s).2.items = op.apply s.items ∧ op.Reports s.items (op.run s).1 := by
  cases op with
  | insert a =>
    refine ⟨items_push s a, congrArg Report.inserted ?_⟩
    have hiff : s.positions.lookup a = none ↔ a ∉ s.items := by
      rw [mem_items, slotOf?, Option.not_isSome_iff_eq_none]
    unfold UniqueStack.insert
    split <;> simp_all
  | push a => exact ⟨items_push s a, rfl⟩
  | pop => exact ⟨s.items_pop, congrArg Report.popped s.pop_fst⟩
  | erase a =>
    exact ⟨(s.items_erase a).trans (s.nodup_items.erase_eq_filter a).symm, _, rfl, mem_items.symm⟩
  | extend as => exact ⟨items_pushAll s as, rfl⟩
  | collect as => exact ⟨items_pushAll empty as, rfl⟩

/-- From any stack, operations lead to the list they lead to from its values. -/
theorem items_run (ops : List (Operation α)) (s : UniqueStack α) :
    (ops.foldl (fun s op => (op.run s).2) s).items = ops.foldl Operation.apply s.items := by
  induction ops generalizing s with
  | nil => rfl
  | cons op ops ih => rw [foldl_cons, foldl_cons, ih, (op.run_eq s).1]

/-- After any operations the values of a stack are those of the list the same operations lead to, in
its order and without repetition. Number, emptiness and membership are those of the list, the slot
of a value is known exactly if the value is there and holds it, and the next operation reports what
the list says. -/
theorem operations_refine_list (ops : List (Operation α)) :
    let s := ops.foldl (fun s op => (op.run s).2) empty
    let l := ops.foldl Operation.apply []
    s.items = l ∧ l.Nodup ∧ s.size = l.length ∧ s.isEmpty = l.isEmpty ∧
      (∀ a, s.contains a = decide (a ∈ l)) ∧ (∀ a, (s.slotOf? a).isSome ↔ a ∈ l) ∧
      (∀ a n, s.slotOf? a = some n → s.slots.reverse[n]? = some a) ∧
      ∀ op : Operation α, op.Reports l (op.run s).1 := by
  intro s l
  have hitems : s.items = l := items_run ops empty
  rw [← hitems]
  refine ⟨rfl, s.nodup_items, ?_, ?_, s.contains_eq,
    fun a => mem_items.symm, s.fits.holds, fun op => ?_⟩
  · simpa [size] using s.perm_items.length_eq
  · simpa [isEmpty] using s.perm_items.isEmpty_eq
  · exact (op.run_eq s).2

end CoroutineIR.UniqueStack
