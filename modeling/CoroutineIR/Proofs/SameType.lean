import CoroutineIR.Proofs.Pointers
import Mathlib.Data.Finset.Prod
import Mathlib.Data.List.Forall2

/-!
# Types with the same structure

Records may refer to themselves through pointers, so a type can be seen as an infinite tree. Two
types have the same structure if some relation says so of them and is borne out by everything that
is seen of the types it relates. The comparison takes a pair of records that it meets again to have
the same structure and decides just this.
-/

namespace CoroutineIR

open List Arena

/-- The type behind all pointers. -/
def Ty.pointee : Ty → Ty
  | .pointer _ elem => elem.pointee
  | ty => ty

theorem Ty.pointee_peel (a b : Ty) : (a.peel b).1.pointee = a.pointee ∧
    (a.peel b).2.pointee = b.pointee := by
  fun_induction Ty.peel a b with
  | case1 _ a _ b ih => exact ih
  | case2 => exact ⟨rfl, rfl⟩

namespace Registry

variable {reg : Registry} {ε : Type} {a b c : Ty} {R : Ty → Ty → Prop} {fuel : Nat}
    {assumed : Assumed}

theorem knows_of_pointee (h : reg.Knows a.pointee) : reg.Knows a := by
  cases a with
  | scalar | pointer => trivial
  | record => exact h

/-- Everything that is seen of two types at once bears out that they have the same structure, if `R`
can be relied on for what is inside of them. -/
inductive Agrees (reg : Registry) (R : Ty → Ty → Prop) : Ty → Ty → Prop
  | scalar (s : Scalar) : Agrees reg R (.scalar s) (.scalar s)
  | pointer {isConst isConst' : Bool} {a b : Ty} (h : R a b) :
    Agrees reg R (.pointer isConst a) (.pointer isConst' b)
  | same (id : RecordId) : Agrees reg R (.record id) (.record id)
  | records {i j : RecordId} {left right : Record} (hleft : reg.records[i]? = some left)
    (hright : reg.records[j]? = some right)
    (h : List.Forall₂ R (left.fields.map Field.ty) (right.fields.map Field.ty)) :
    Agrees reg R (.record i) (.record j)

/-- Whatever the relation says is borne out. -/
def BornOut (reg : Registry) (R : Ty → Ty → Prop) : Prop := ∀ a b, R a b → reg.Agrees R a b

/-- The greatest relation that is borne out. -/
def Same (reg : Registry) (a b : Ty) : Prop := ∃ R, reg.BornOut R ∧ R a b

theorem Agrees.mono {S : Ty → Ty → Prop} (h : reg.Agrees R a b) (himp : ∀ a b, R a b → S a b) :
    reg.Agrees S a b := by
  cases h with
  | scalar s => exact .scalar s
  | pointer h => exact .pointer (himp _ _ h)
  | same id => exact .same id
  | records hleft hright h => exact .records hleft hright (h.imp himp)

theorem bornOut_same (reg : Registry) : reg.BornOut reg.Same := by
  rintro a b ⟨R, hR, hab⟩
  exact (hR a b hab).mono fun _ _ h => ⟨R, hR, h⟩

theorem Same.refl (reg : Registry) (a : Ty) : reg.Same a a := by
  refine ⟨Eq, ?_, rfl⟩
  rintro a _ rfl
  cases a with
  | scalar s => exact .scalar s
  | pointer => exact .pointer rfl
  | record id => exact .same id

theorem Same.symm (h : reg.Same a b) : reg.Same b a := by
  refine ⟨fun a b => reg.Same b a, fun a b hba => ?_, h⟩
  cases bornOut_same reg b a hba with
  | scalar s => exact .scalar s
  | pointer h => exact .pointer h
  | same id => exact .same id
  | records hleft hright h => exact .records hright hleft h.flip

/-- Being the same type is transitive. -/
theorem Same.trans (h : reg.Same a b) (h' : reg.Same b c) : reg.Same a c := by
  refine ⟨fun a c => ∃ b, reg.Same a b ∧ reg.Same b c, ?_, b, h, h'⟩
  rintro a c ⟨b, hab, hbc⟩
  cases bornOut_same reg a b hab with
  | scalar s => exact (bornOut_same reg _ _ hbc).mono fun _ _ h => ⟨_, .refl reg _, h⟩
  | pointer h =>
    cases bornOut_same reg _ c hbc with
    | pointer h' => exact .pointer ⟨_, h, h'⟩
  | same id => exact (bornOut_same reg _ _ hbc).mono fun _ _ h => ⟨_, .refl reg _, h⟩
  | records hleft hright h =>
    cases bornOut_same reg _ c hbc with
    | same => exact .records hleft hright (h.imp fun _ _ h => ⟨_, h, .refl reg _⟩)
    | records hmiddle hlast h' =>
      obtain rfl := Option.mem_unique hright hmiddle
      rw [forall₂_iff_get] at h h'
      refine .records hleft hlast (forall₂_iff_get.mpr ⟨h.1.trans h'.1, fun i hi hk => ?_⟩)
      exact ⟨_, h.2 i hi (h.1 ▸ hi), h'.2 i (h.1 ▸ hi) hk⟩

/-- The pointers inside of types with the same structure are in the same places. -/
theorem Same.holdsPointer (h : reg.Same a b) (hholds : reg.HoldsPointer a) :
    reg.HoldsPointer b := by
  induction hholds generalizing b with
  | scalar =>
    cases bornOut_same reg _ b h
    exact .scalar
  | pointer =>
    cases bornOut_same reg _ b h
    exact .pointer _ _
  | @field id record f hrecord hf hholds ih =>
    cases bornOut_same reg _ b h with
    | same => exact .field hrecord hf hholds
    | records hleft hright h =>
      obtain rfl := Option.mem_unique hrecord hleft
      obtain ⟨i, hi, hty⟩ := mem_iff_getElem.mp (List.mem_map_of_mem (f := Field.ty) hf)
      rw [forall₂_iff_get] at h
      obtain ⟨g, hg, hty'⟩ := List.mem_map.mp (getElem_mem (h.1 ▸ hi))
      exact .field hright hg (ih (hty ▸ hty' ▸ h.2 i hi (h.1 ▸ hi)))

/-- The comparison as a search -/
def comparison (reg : Registry) : Quest ε (Ty × Ty) (RecordId × RecordId) where
  look pair :=
    match pair.1.peel pair.2 with
    | (.scalar s, .scalar t) => if s = t then .met else .failed
    | (.record i, .record j) => if i = j then .met else .asks (i, j)
    | _ => .failed
  behind key := do
    let left := (← reg.record key.1).fields
    let right := (← reg.record key.2).fields
    return if left.length = right.length then some ((left.map Field.ty).zip (right.map Field.ty))
      else none

/-- The comparison is a quest. -/
theorem compareAssuming_eq :
    (compareAssuming reg fuel a b assumed : Attempt ε _) =
    reg.comparison.pursue fuel (a, b) assumed := by
  have hall : ∀ (go : Ty → Ty → Assumed → Attempt ε (Option Assumed)) pairs assumed,
      comparePairs go pairs assumed = Quest.pursueAll (fun pair => go pair.1 pair.2)
      pairs assumed := by
    intro go pairs
    induction pairs with
    | nil => exact fun _ => rfl
    | cons pair pairs ih =>
      exact fun assumed => bind_congr fun found => by cases found <;> [rfl; exact ih _]
  induction fuel using Nat.strongRecOn generalizing a b assumed with
  | ind fuel ih =>
    rw [compareAssuming.eq_def, Quest.pursue.eq_def]
    simp only [comparison]
    rcases Ty.peel a b with ⟨s | _ | i, t | _ | j⟩
    · by_cases hst : s = t <;> simp [hst]
    all_goals try rfl
    by_cases hij : i = j
    · simp [hij]
    cases fuel with
    | zero => simp [hij]
    | succ fuel =>
      have hgo :
          (fun pair => compareAssuming reg fuel pair.1 pair.2 : Ty × Ty → Assumed → Attempt ε _) =
          reg.comparison.pursue fuel := funext fun _ => funext fun _ =>
          ih fuel (Nat.lt_succ_self fuel)
      simp only [hij, false_or, if_false, hall, hgo, bind_assoc]
      refine if_congr Iff.rfl rfl (bind_congr fun left => bind_congr fun right => ?_)
      by_cases hlength : left.fields.length = right.fields.length <;> simp [hlength]
      rfl

theorem behind_comparison {i j : RecordId} {left right : Record}
    (hleft : reg.records[i]? = some left) (hright : reg.records[j]? = some right) :
    (reg.comparison : Quest ε _ _).behind (i, j) =
    .ok (if left.fields.length = right.fields.length then some
      ((left.fields.map Field.ty).zip (right.fields.map Field.ty)) else none) :=
  Attempt.bind_eq_ok_iff.mpr ⟨_, fetch_eq_ok_iff.mpr hleft,
    Attempt.bind_eq_ok_iff.mpr ⟨_, fetch_eq_ok_iff.mpr hright, rfl⟩⟩

/-- What a relation that is borne out says of the types behind common pointers. -/
theorem BornOut.peel (hR : reg.BornOut R) (h : R a b) : (∃ s, a.peel b = (.scalar s, .scalar s)) ∨
    ∃ i j, a.peel b = (.record i, .record j) ∧ reg.Agrees R (.record i) (.record j) := by
  induction a generalizing b with
  | scalar s =>
    cases hR _ b h
    exact Or.inl ⟨s, rfl⟩
  | record i =>
    have hagrees := hR _ b h
    cases b with
    | scalar | pointer => cases hagrees
    | record j => exact Or.inr ⟨i, j, rfl, hagrees⟩
  | pointer isConst elem ih =>
    cases hR _ b h with
    | pointer helem => exact ih helem

/-- A relation that is borne out never lets the comparison fail. -/
theorem BornOut.sustains (hR : reg.BornOut R) :
    (reg.comparison : Quest ε _ _).Sustains fun pair => R pair.1 pair.2 := by
  intro pair h
  rcases hR.peel h with ⟨s, hpeel⟩ | ⟨i, j, hpeel, hagrees⟩
  · simp [comparison, hpeel]
  · by_cases hij : i = j
    · simp [comparison, hpeel, hij]
    · refine ⟨by simp [comparison, hpeel, hij], fun key hkey found hfound => ?_⟩
      obtain rfl : (i, j) = key := by simpa [comparison, hpeel, hij] using hkey
      cases hagrees with
      | same => exact absurd rfl hij
      | records hleft hright h =>
        rw [behind_comparison hleft hright, if_pos (by simpa using h.length_eq)] at hfound
        cases hfound
        exact ⟨_, rfl, fun _ hmem => (forall₂_iff_zip.mp h).2 hmem⟩

/-- Pairs that never let the comparison fail are the same. -/
theorem same_of_sustains {S : Ty × Ty → Prop} (hS : (reg.comparison : Quest ε _ _).Sustains S)
    (hfound : ∀ pair, S pair → ∀ key, (reg.comparison : Quest ε _ _).look pair = .asks key →
      ∃ found, (reg.comparison : Quest ε _ _).behind key = .ok found) (h : S (a, b)) :
      reg.Same a b := by
  refine ⟨fun a b => ∃ pair, S pair ∧
    (reg.comparison : Quest ε _ _).look pair = reg.comparison.look (a, b), ?_, _, h, rfl⟩
  rintro a b ⟨pair, hpair, hlook⟩
  obtain ⟨hnot, hasks⟩ := hS pair hpair
  replace hfound := hfound pair hpair
  rw [hlook] at hnot hasks hfound
  rcases a with s | ⟨_, a⟩ | i <;> rcases b with t | ⟨_, b⟩ | j <;> try exact absurd rfl hnot
  · obtain rfl : s = t := by simpa [comparison, Ty.peel] using hnot
    exact .scalar s
  · exact .pointer ⟨pair, hpair, hlook⟩
  · by_cases hij : i = j
    · exact hij ▸ .same i
    · obtain ⟨found, hbehind⟩ := hfound (i, j) (if_neg hij)
      obtain ⟨goals, rfl, hgoals⟩ := hasks (i, j) (if_neg hij) _ hbehind
      obtain ⟨left, hleft, hbehind⟩ := Attempt.bind_eq_ok_iff.mp hbehind
      obtain ⟨right, hright, hbehind⟩ := Attempt.bind_eq_ok_iff.mp hbehind
      refine .records (fetch_eq_ok_iff.mp hleft) (fetch_eq_ok_iff.mp hright) ?_
      replace hbehind := Except.ok.inj hbehind
      split at hbehind
      · cases hbehind
        exact forall₂_iff_zip.mpr ⟨by simpa using ‹_›, fun hmem => ⟨_, hgoals _ hmem, rfl⟩⟩
      · cases hbehind

/-- An answer about two types is right. -/
theorem same_iff_of_sameType {same : Bool} (h : (reg.sameType a b : Attempt ε Bool) = .ok same) :
    same = true ↔ reg.Same a b := by
  obtain ⟨out, hout, hsame⟩ := Attempt.bind_eq_ok_iff.mp h
  obtain rfl := Except.ok.inj hsame
  rw [compareAssuming_eq] at hout
  cases out with
  | none =>
    refine ⟨by simp, ?_⟩
    rintro ⟨R, hR, hab⟩
    exact absurd hout (hR.sustains.not_fails hab)
  | some =>
    obtain ⟨S, hS, hab, hfound⟩ := Quest.exists_sustains hout
    exact ⟨fun _ => same_of_sustains hS hfound hab, fun _ => rfl⟩

/-- The comparison of types that only mention records of the registry ends. Each pair of records is
compared once. -/
theorem exists_sameType (hreg : ∀ record ∈ reg.records, ∀ f ∈ record.fields, reg.Knows f.ty.pointee)
    (ha : reg.Knows a.pointee) (hb : reg.Knows b.pointee) :
    ∃ same, (reg.sameType a b : Attempt ε Bool) = .ok same := by
  let keys := Finset.range reg.records.size ×ˢ Finset.range reg.records.size
  obtain ⟨out, hout⟩ :
      ∃ out, reg.comparison.pursue reg.pairFuel (a, b) [] = (.ok out : Attempt ε _) := by
    refine Quest.exists_pursue (P := fun pair => reg.Knows pair.1.pointee ∧ reg.Knows
      pair.2.pointee) keys (fun pair key hknown hlook => ?_) ⟨ha, hb⟩ (by simp [keys, pairFuel])
    obtain ⟨i, j, hpeel, rfl⟩ : ∃ i j, pair.1.peel pair.2 = (.record i, .record j) ∧
        key = (i, j) := by
      simp only [comparison] at hlook
      rcases hpeel : pair.1.peel pair.2 with ⟨s | _ | i, t | _ | j⟩ <;>
        rw [hpeel] at hlook <;> grind
    obtain ⟨hi, hj⟩ := Ty.pointee_peel pair.1 pair.2
    rw [← hi, ← hj, hpeel] at hknown
    have hleft := Array.getElem?_eq_getElem hknown.1
    have hright := Array.getElem?_eq_getElem hknown.2
    refine ⟨Finset.mem_product.mpr ⟨Finset.mem_range.mpr hknown.1, Finset.mem_range.mpr hknown.2⟩,
      _, behind_comparison hleft hright, ?_⟩
    intro goals hgoals pair hpair
    split at hgoals
    · cases hgoals
      obtain ⟨hf, hg⟩ := of_mem_zip hpair
      obtain ⟨f, hf, hty⟩ := List.mem_map.mp hf
      obtain ⟨g, hg, hty'⟩ := List.mem_map.mp hg
      exact ⟨hty ▸ hreg _ (Array.mem_of_getElem? hleft) f hf,
        hty' ▸ hreg _ (Array.mem_of_getElem? hright) g hg⟩
    · cases hgoals
  exact ⟨out.isSome, by rw [sameType, compareAssuming_eq, hout]; rfl⟩

/-- In a registry whose fields only mention its own records: having the same structure is the
greatest relation that is borne out. The comparison of types that only mention records of the
registry ends, and says whether they have the same structure. So it is reflexive, symmetric and
transitive, and types it finds the same hold pointers together or not at all. -/
theorem sameType_greatest
    (hreg : ∀ record ∈ reg.records, ∀ f ∈ record.fields, reg.Knows f.ty.pointee) :
    (reg.BornOut reg.Same ∧ ∀ R, reg.BornOut R → ∀ a b, R a b → reg.Same a b) ∧
    ∀ a b c, reg.Knows a.pointee → reg.Knows b.pointee → reg.Knows c.pointee →
      (∃ same, (reg.sameType a b : Attempt ε Bool) = .ok same ∧ (same = true ↔ reg.Same a b)) ∧
      (reg.sameType a a : Attempt ε Bool) = .ok true ∧
      (reg.sameType b a : Attempt ε Bool) = reg.sameType a b ∧
      ((reg.sameType a b : Attempt ε Bool) = .ok true →
        (reg.sameType b c : Attempt ε Bool) = .ok true →
        (reg.sameType a c : Attempt ε Bool) = .ok true) ∧
      ((reg.sameType a b : Attempt ε Bool) = .ok true →
        ∃ holds, (reg.hasPointers a : Attempt ε Bool) = .ok holds ∧
          (reg.hasPointers b : Attempt ε Bool) = .ok holds) := by
  refine ⟨⟨bornOut_same reg, fun R hR a b h => ⟨R, hR, h⟩⟩, fun a b c ha hb hc => ?_⟩
  have hanswer : ∀ a b, reg.Knows a.pointee → reg.Knows b.pointee →
      ∃ same, (reg.sameType a b : Attempt ε Bool) = .ok same ∧ (same = true ↔ reg.Same a b) :=
      fun a b ha hb => by
    obtain ⟨same, h⟩ := exists_sameType (ε := ε) hreg ha hb
    exact ⟨same, h, same_iff_of_sameType h⟩
  have hiff : ∀ a b, reg.Knows a.pointee → reg.Knows b.pointee →
      ((reg.sameType a b : Attempt ε Bool) = .ok true ↔ reg.Same a b) := fun a b ha hb => by
    obtain ⟨same, h, hsame⟩ := hanswer a b ha hb
    rw [h, ← hsame, Except.ok.injEq]
  refine ⟨hanswer a b ha hb, (hiff a a ha ha).mpr (.refl reg a), ?_,
    fun hab hbc => ?_, fun hab => ?_⟩
  · obtain ⟨same, h, hsame⟩ := hanswer a b ha hb
    obtain ⟨same', h', hsame'⟩ := hanswer b a hb ha
    rw [h, h', Except.ok.injEq, Bool.eq_iff_iff, hsame, hsame']
    exact ⟨.symm, .symm⟩
  · exact (hiff a c ha hc).mpr (((hiff a b ha hb).mp hab).trans ((hiff b c hb hc).mp hbc))
  · have hsame := (hiff a b ha hb).mp hab
    have hclosed : reg.Closed := fun record hrecord f hf =>
      knows_of_pointee (hreg record hrecord f hf)
    obtain ⟨holds, h, hholds⟩ := hasPointers_eq (ε := ε) hclosed (knows_of_pointee ha)
    obtain ⟨holds', h', hholds'⟩ := hasPointers_eq (ε := ε) hclosed (knows_of_pointee hb)
    obtain rfl : holds = holds' := by
      rw [Bool.eq_iff_iff, hholds, hholds']
      exact ⟨hsame.holdsPointer, hsame.symm.holdsPointer⟩
    exact ⟨holds, h, h'⟩

/-- A list that goes on to itself, and two that go on to each other: different ways to write the
same infinite type. -/
theorem sameType_greatest_lists :
    let node (next : RecordId) : Record :=
      ⟨none, [⟨"value", .scalar .i32, 1⟩, ⟨"next", .pointer false (.record next), 1⟩],
        false, none, none⟩
    let reg : Registry := ⟨{}, #[node 0, node 2, node 1]⟩
    (∀ record ∈ reg.records, ∀ f ∈ record.fields, reg.Knows f.ty.pointee) ∧ reg.Same (.record 0)
      (.record 1) ∧ (reg.sameType (.record 1) (.record 0) : Attempt TypeError Bool) = .ok true := by
  intro node reg
  have hreg : ∀ record ∈ reg.records, ∀ f ∈ record.fields, reg.Knows f.ty.pointee := by
    decide +kernel
  obtain ⟨-, hall⟩ := sameType_greatest (ε := TypeError) hreg
  have hsame : (reg.sameType (.record 0) (.record 1) : Attempt TypeError Bool) = .ok true := by
    decide +kernel
  obtain ⟨⟨same, h, hiff⟩, -, hsymm, -⟩ :=
    hall (.record 0) (.record 1) (.record 2) (by decide +kernel) (by decide +kernel)
      (by decide +kernel)
  obtain rfl : same = true := Except.ok.inj (h.symm.trans hsame)
  exact ⟨hreg, hiff.mp rfl, hsymm.trans hsame⟩

end Registry

end CoroutineIR
