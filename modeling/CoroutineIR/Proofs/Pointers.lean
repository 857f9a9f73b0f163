import CoroutineIR.Proofs.CachedLayout
import CoroutineIR.Proofs.Quest

/-!
# Pointers inside values

A value holds a pointer if it is one or contains one by value, at any depth. The search follows the
fields of records and skips the records it has met before, so it ends on records that contain
themselves.
-/

namespace CoroutineIR

/-- A pointer, or the scalar that is traced like one. -/
def Ty.isPointer : Ty → Bool
  | .scalar s => s = .ptr
  | .pointer _ _ => true
  | .record _ => false

namespace Registry

variable {reg : Registry} {ε : Type} {ty : Ty} {seen : List RecordId} {fuel : Nat}

/-- A type whose record, if it is one, is in the registry. -/
def Knows (reg : Registry) : Ty → Prop
  | .record id => id < reg.records.size
  | _ => True

instance (reg : Registry) : DecidablePred reg.Knows
  | .record id => inferInstanceAs (Decidable (id < reg.records.size))
  | .scalar _ | .pointer _ _ => isTrue trivial

/-- The fields of records have known types. -/
def Closed (reg : Registry) : Prop := ∀ record ∈ reg.records, ∀ f ∈ record.fields, reg.Knows f.ty

instance (reg : Registry) : Decidable reg.Closed :=
  inferInstanceAs (Decidable (∀ record ∈ reg.records, ∀ f ∈ record.fields, reg.Knows f.ty))

/-- A value of the type is a pointer or contains one by value. -/
inductive HoldsPointer (reg : Registry) : Ty → Prop
  | scalar : HoldsPointer reg (.scalar .ptr)
  | pointer (isConst : Bool) (elem : Ty) : HoldsPointer reg (.pointer isConst elem)
  | field {id : RecordId} {record : Record} {f : Field} (hrecord : reg.records[id]? = some record)
    (hf : f ∈ record.fields) (h : HoldsPointer reg f.ty) : HoldsPointer reg (.record id)

/-- A pointer is held along a chain of records. -/
theorem holdsPointer_iff_exists_chain : reg.HoldsPointer ty ↔ ty.isPointer = true ∨
    ∃ id inner record f, ty = .record id ∧ Relation.ReflTransGen reg.Holds id inner ∧
    reg.records[inner]? = some record ∧ f ∈ record.fields ∧ f.ty.isPointer = true := by
  have hself : ∀ {ty : Ty}, ty.isPointer = true → reg.HoldsPointer ty := by
    intro ty h
    cases ty with
    | scalar s =>
      obtain rfl : s = .ptr := by simpa [Ty.isPointer] using h
      exact .scalar
    | pointer isConst elem => exact .pointer isConst elem
    | record => cases h
  constructor
  · intro h
    induction h with
    | scalar | pointer => exact Or.inl rfl
    | @field id record f hrecord hf _ ih =>
      rcases ih with hptr | ⟨next, inner, record', f', hty, hchain, hrest⟩
      · exact Or.inr ⟨id, id, record, f, rfl, .refl, hrecord, hf, hptr⟩
      · exact Or.inr ⟨id, inner, record', f', rfl,
          .head ⟨record, hrecord, f, hf, hty⟩ hchain, hrest⟩
  · rintro (hptr | ⟨id, inner, record, f, rfl, hchain, hrecord, hf, hptr⟩)
    · exact hself hptr
    · induction hchain using Relation.ReflTransGen.head_induction_on with
      | refl => exact .field hrecord hf (hself hptr)
      | head hholds _ ih =>
        obtain ⟨r, hr, g, hg, hty⟩ := hholds
        exact .field hr hg (hty ▸ ih)

/-- The search for pointers: a pointer fails, and behind a record there are its fields. -/
def avoidance (reg : Registry) : Quest ε Ty RecordId where
  look
    | .scalar s => if s = .ptr then .failed else .met
    | .pointer _ _ => .failed
    | .record id => .asks id
  behind id := do return some ((← reg.record id).fields.map Field.ty)

/-- The search for pointers is a quest. -/
theorem avoidPointers_eq :
    (avoidPointers reg fuel ty seen : Attempt ε _) = reg.avoidance.pursue fuel ty seen := by
  have hall : ∀ (go : Ty → List RecordId → Attempt ε (Option (List RecordId))) tys seen,
      avoidAll go tys seen = Quest.pursueAll go tys seen := by
    intro go tys
    induction tys with
    | nil => exact fun _ => rfl
    | cons ty tys ih =>
      exact fun seen => bind_congr fun found => by cases found <;> [rfl; exact ih _]
  induction fuel using Nat.strongRecOn generalizing ty seen with
  | ind fuel ih =>
    cases ty with
    | scalar s => by_cases hs : s = .ptr <;> simp [avoidPointers, Quest.pursue, avoidance, hs]
    | pointer => cases fuel <;> rfl
    | record id =>
      cases fuel with
      | zero => rfl
      | succ fuel =>
        have hgo : (avoidPointers reg fuel : Ty → List RecordId → Attempt ε _) =
            reg.avoidance.pursue fuel :=
          funext fun _ => funext fun _ => ih fuel (Nat.lt_succ_self fuel)
        cases hr : (reg.record id : Attempt ε _) <;>
        simp [avoidPointers, Quest.pursue, avoidance, hr, hall, hgo]

theorem behind_avoidance {id : RecordId} {record : Record} (hr : reg.records[id]? = some record) :
    (reg.avoidance : Quest ε Ty RecordId).behind id = .ok (some (record.fields.map Field.ty)) :=
  Attempt.bind_eq_ok_iff.mpr ⟨_, Arena.fetch_eq_ok_iff.mpr hr, rfl⟩

/-- Types without pointers are sustained, and no others. -/
theorem sustains_avoidance : (reg.avoidance : Quest ε Ty RecordId).Sustains fun ty =>
    ¬reg.HoldsPointer ty := by
  intro ty hty
  cases ty with
  | scalar s =>
    have hs : s ≠ .ptr := fun heq => hty (heq ▸ .scalar)
    simp [avoidance, hs]
  | pointer isConst elem => exact absurd (.pointer isConst elem) hty
  | record id =>
    refine ⟨by simp [avoidance], fun key hkey found hfound => ?_⟩
    cases hkey
    obtain ⟨record, hr, hfound⟩ := Attempt.bind_eq_ok_iff.mp hfound
    cases hfound
    refine ⟨_, rfl, fun ty' hmem hholds => ?_⟩
    obtain ⟨f, hf, rfl⟩ := List.mem_map.mp hmem
    exact hty (.field (Arena.fetch_eq_ok_iff.mp hr) hf hholds)

/-- A search that has ended without a pointer has missed none. -/
theorem not_holdsPointer {S : Ty → Prop} (hS : (reg.avoidance : Quest ε Ty RecordId).Sustains S)
    (hty : S ty) : ¬reg.HoldsPointer ty := by
  intro hholds
  induction hholds with
  | scalar | pointer => exact (hS _ hty).1 rfl
  | field hr hf _ ih =>
    obtain ⟨tys, htys, hall⟩ := (hS _ hty).2 _ rfl _ (behind_avoidance hr)
    cases htys
    exact ih (hall _ (List.mem_map_of_mem hf))

/-- An answer about a type is right. -/
theorem holdsPointer_iff_of_hasPointers {b : Bool}
    (h : (reg.hasPointers ty : Attempt ε Bool) = .ok b) : b = true ↔ reg.HoldsPointer ty := by
  obtain ⟨out, hout, hb⟩ := Attempt.bind_eq_ok_iff.mp h
  obtain rfl := Except.ok.inj hb
  rw [avoidPointers_eq] at hout
  cases out with
  | none =>
    exact ⟨fun _ => not_not.mp fun hnot => sustains_avoidance.not_fails hnot hout, fun _ => rfl⟩
  | some seen =>
    obtain ⟨S, hS, hty, -⟩ := Quest.exists_sustains hout
    exact ⟨by simp, fun hholds => absurd hholds (not_holdsPointer hS hty)⟩

/-- Whether a value of a known type holds a pointer. -/
theorem hasPointers_eq (hreg : reg.Closed) (hty : reg.Knows ty) :
    ∃ b, (reg.hasPointers ty : Attempt ε Bool) = .ok b ∧ (b = true ↔ reg.HoldsPointer ty) := by
  obtain ⟨out, hout⟩ :
      ∃ out, reg.avoidance.pursue (reg.records.size + 1) ty [] = (.ok out : Attempt ε _) := by
    refine Quest.exists_pursue (P := reg.Knows) (Finset.range reg.records.size)
      (fun ty id hty hlook => ?_) hty (by simp)
    cases ty with
    | scalar s => by_cases hs : s = .ptr <;> simp [avoidance, hs] at hlook
    | pointer => cases hlook
    | record =>
      cases hlook
      have hr := Array.getElem?_eq_getElem hty
      refine ⟨Finset.mem_range.mpr hty, _, behind_avoidance hr, ?_⟩
      rintro _ ⟨⟩ _ hmem
      obtain ⟨f, hf, rfl⟩ := List.mem_map.mp hmem
      exact hreg _ (Array.mem_of_getElem? hr) f hf
  have hok : (reg.hasPointers ty : Attempt ε Bool) = .ok out.isNone := by
    rw [hasPointers, avoidPointers_eq, hout]
    rfl
  exact ⟨_, hok, holdsPointer_iff_of_hasPointers hok⟩

/-- In a registry whose fields have known types, the search ends for every known type. It finds a
pointer if and only if the type is one or a chain of fields that are records, through structures and
unions and however they contain each other, leads from the type to a field that is one. -/
theorem hasPointers_exact (hreg : reg.Closed) (hty : reg.Knows ty) :
    ∃ holds, (reg.hasPointers ty : Attempt ε Bool) = .ok holds ∧
      (holds = true ↔ ty.isPointer = true ∨
        ∃ id inner record f, ty = .record id ∧ Relation.ReflTransGen reg.Holds id inner ∧
          reg.records[inner]? = some record ∧ f ∈ record.fields ∧ f.ty.isPointer = true) := by
  obtain ⟨holds, h, hholds⟩ := hasPointers_eq (ε := ε) hreg hty
  exact ⟨holds, h, hholds.trans holdsPointer_iff_exists_chain⟩

/-- Two unions that contain each other; only behind the second one there is a pointer. -/
theorem hasPointers_exact_tangled :
    let reg : Registry :=
      ⟨{}, #[⟨none, [⟨"other", .record 1, 1⟩, ⟨"value", .scalar .addr, 1⟩], true, none, none⟩,
      ⟨none, [⟨"other", .record 0, 1⟩, ⟨"link", .scalar .ptr, 2⟩], true, none, none⟩]⟩
    reg.Closed ∧ reg.Knows (.record 0) ∧ reg.Holds 0 1 ∧
        (reg.hasPointers (.record 0) : Attempt TypeError Bool) = .ok true := by
  intro reg
  have hclosed : reg.Closed := by decide +kernel
  have hknows : reg.Knows (.record 0) := by decide +kernel
  have hholds : reg.Holds 0 1 := ⟨_, rfl, _, List.mem_cons_self, rfl⟩
  obtain ⟨holds, h, hiff⟩ := hasPointers_exact (ε := TypeError) hclosed hknows
  obtain rfl : holds = true :=
    hiff.mpr (Or.inr ⟨0, 1, _, ⟨"link", .scalar .ptr, 2⟩, rfl, .single hholds, rfl,
      .tail _ (.head _), rfl⟩)
  exact ⟨hclosed, hknows, hholds, h⟩

end Registry

end CoroutineIR
