import CoroutineIR.Proofs.CachedLayout

/-!
# Records that contain themselves

Laying out a record follows its fields by value and notes on the way which records it is inside of.
The fuel suffices because these are different records of the registry. A record that is met again
contains itself, since each of the noted records contains the one that is laid out. Where no record
contains itself nothing is refused, and what is kept for a record shows that none does.
-/

namespace CoroutineIR.Registry

open Relation TypeOperation

variable {α : Type} {reg reg' : Registry} {id inner : RecordId} {l : RecordLayout} {fuel : Nat}
    {inProgress : List RecordId}

/-- Following fields by value from a record, one comes to a record that contains itself. -/
def Tangled (reg : Registry) (id : RecordId) : Prop :=
    ∃ inner, ReflTransGen reg.Holds id inner ∧ reg.Contains inner inner

theorem Memoizes.holds (h : reg.Memoizes reg') (hholds : reg.Holds id inner) :
    reg'.Holds id inner := by
  obtain ⟨r, hr, hf⟩ := hholds
  obtain ⟨_, hr', -⟩ := h.kept hr
  exact ⟨_, hr', hf⟩

/-- What a record contains is computed with less fuel. -/
theorem exists_computed_of_contains (h : reg.Contains id inner)
    (hl : reg.computed fuel id = some l) : ∃ k < fuel, ∃ li, reg.computed k inner = some li := by
  have hstep : ∀ {id inner fuel l}, reg.Holds id inner → reg.computed fuel id = some l →
      ∃ k < fuel, ∃ li, reg.computed k inner = some li := by
    intro id inner fuel l hholds hl
    obtain ⟨r, hr, f, hf, hty⟩ := hholds
    cases fuel with
    | zero => cases hl
    | succ k =>
      rw [computed, hr] at hl
      exact ⟨k, Nat.lt_succ_self k, exists_layout_of_assemble hl hf hty⟩
  induction h with
  | single hholds => exact hstep hholds hl
  | tail _ hholds ih =>
    obtain ⟨k, hk, li, hli⟩ := ih
    obtain ⟨j, hj, hlast⟩ := hstep hholds hli
    exact ⟨j, Nat.lt_trans hj hk, hlast⟩

/-- A record that has been laid out does not contain itself. -/
theorem Consistent.not_tangled (hc : reg.Consistent) (hl : reg.layout? id = some l) :
    ¬reg.Tangled id := by
  rintro ⟨inner, hreach, hself⟩
  obtain ⟨li, hli⟩ : ∃ li, reg.layout? inner = some li := by
    rcases reflTransGen_iff_eq_or_transGen.mp hreach with rfl | hcontains
    · exact ⟨l, hl⟩
    · exact hc.contains hl hcontains
  obtain ⟨fuel, hfuel⟩ := hc.computed hli
  -- each round through the record takes away fuel
  clear hli
  induction fuel using Nat.strongRecOn generalizing li with
  | ind fuel ih =>
    obtain ⟨k, hk, lk, hlk⟩ := exists_computed_of_contains hself hfuel
    exact ih k hk lk hlk

/-! ### Faults -/

/-- If the action ends with a fault, `blame` holds of it. -/
def Faults (x : TypeAction α) (reg : Registry) (blame : Fault TypeError → Prop) : Prop :=
    ∀ e reg', x reg = .error e reg' → blame e

/-- What laying out a record may end with: a size that gets too large, or a record inside it that
contains itself. -/
def Refuses (reg : Registry) (id : RecordId) (e : Fault TypeError) : Prop :=
  e = .aborted .overflow ∨
    ∃ inner, e = .refused (.recursiveByValue inner) ∧ ReflTransGen reg.Holds id inner ∧
    reg.Contains inner inner

/-- Laying a record out only fails for the reasons it may be refused for. -/
theorem faults_layOutWithin (hint : 0 < reg.target.intSize) (hptr : 0 < reg.target.ptrSize)
    (hrange : ∀ outer inner, reg.Holds outer inner → inner < reg.records.size) (hc : reg.Consistent)
    (hid : id < reg.records.size) (hfuel : reg.records.size < fuel + inProgress.length) (hnodup :
      inProgress.Nodup) (hpath : ∀ p ∈ inProgress, p < reg.records.size ∧ reg.Contains p id) :
    Faults (layOutWithin fuel inProgress id) reg (reg.Refuses id) := by
  intro e reg' hrun
  have hsettles := settles_layOutWithin (.refl reg) hc hfuel hnodup hpath
  unfold Settles at hsettles
  rw [hrun] at hsettles
  obtain rfl | ⟨-, hzero⟩ | ⟨inner, hreach, ⟨-, hout⟩ | ⟨rfl, hself⟩⟩ := hsettles.1.2
  · exact Or.inl rfl
  · exact absurd ⟨hint, hptr⟩ hzero
  · have hlt : inner < reg.records.size := by
      cases hreach with
      | refl => exact hid
      | tail _ hholds => exact hrange _ inner hholds
    exact absurd hlt (Nat.not_lt.mpr hout)
  · exact Or.inr ⟨inner, rfl, hreach, hself⟩

/-- Whatever operations have led to a registry in which all records that are mentioned are there,
for a target without empty integers and addresses: unless a size gets too large, laying out a record
is refused as recursive if and only if following its fields by value one can come to a record that
contains itself, and otherwise it delivers the layout computed from the definitions. If it fails, no
layout is kept of a record from which one can come to such a record. -/
theorem layOut_refuses_iff (target : Target) (ops : List TypeOperation)
    (hint : 0 < target.intSize) (hptr : 0 < target.ptrSize)
    (hreg : reg = ops.foldl leaves (empty target)) (hid : id < reg.records.size)
    (hrange : ∀ r ∈ reg.records, ∀ f ∈ r.fields, ∀ inner ∈ f.ty.record?, inner < reg.records.size)
    (hfits : ∀ reg', layOut id reg ≠ .error (.aborted .overflow) reg') :
    ((∃ inner reg', layOut id reg = .error (.refused (.recursiveByValue inner)) reg') ↔
      reg.Tangled id) ∧
    ((∃ l reg', layOut id reg = .ok l reg' ∧
      ∃ fuel, ∀ more ≥ fuel, reg.computed more id = some l) ↔ ¬reg.Tangled id) ∧
    ∀ e reg', layOut id reg = .error e reg' →
      ∀ other l, reg'.layout? other = some l → ¬reg'.Tangled other := by
  subst hreg
  have hgoes := goesOn_foldl ⟨.refl _, consistent_empty target⟩ ops
  have hholds : ∀ outer inner, (ops.foldl leaves (empty target)).Holds outer inner →
      inner < (ops.foldl leaves (empty target)).records.size := by
    rintro outer inner ⟨r, hr, f, hf, hty⟩
    exact hrange r (Array.mem_of_getElem? hr) f hf inner (by rw [hty]; rfl)
  have hfaults : Faults (layOut id) _ (Refuses (ops.foldl leaves (empty target)) id) :=
    faults_layOutWithin (hgoes.target.symm ▸ hint) (hgoes.target.symm ▸ hptr) hholds
      hgoes.consistent hid (Nat.lt_succ_self _) .nil (by simp)
  have hsettles := lays_layOut id _ hgoes.consistent
  unfold Settles at hsettles
  cases hrun : layOut id (ops.foldl leaves (empty target)) with
  | ok l reg' =>
    obtain ⟨hm, hc, hkept, -⟩ := kept_of_layOut hrun
    have hnot : ¬(ops.foldl leaves (empty target)).Tangled id := by
      rintro ⟨inner, hreach, hself⟩
      exact hc.not_tangled hkept ⟨inner, ReflTransGen.mono (fun _ _ => hm.holds) _ _ hreach,
        TransGen.mono (fun _ _ => hm.holds) _ _ hself⟩
    obtain ⟨fuel, hfuel⟩ := hc.computed hkept
    rw [hm.computed_eq] at hfuel
    exact ⟨⟨(by rintro ⟨_, _, h⟩; cases h), fun ht => absurd ht hnot⟩,
      ⟨fun _ => hnot, fun _ => ⟨l, reg', rfl, fuel,
      fun more hmore => computed_mono hfuel hmore⟩⟩, by rintro _ _ h; cases h⟩
  | error e reg' =>
    rw [hrun] at hsettles
    obtain rfl | ⟨inner, rfl, htangled⟩ := hfaults e reg' hrun
    · exact absurd hrun (hfits reg')
    · have ht : (ops.foldl leaves (empty target)).Tangled id := ⟨inner, htangled⟩
      refine ⟨⟨fun _ => ht, fun _ => ⟨inner, reg', rfl⟩⟩,
        ⟨(by rintro ⟨_, _, h, -⟩; cases h), fun h => absurd ht h⟩, ?_⟩
      rintro _ _ h other l hl
      cases h
      exact hsettles.2.not_tangled hl

/-- Two structures that contain each other, and a third one that contains a fourth one twice and has
pointers to the others. -/
theorem layOut_refuses_iff_shared :
    let ops : List TypeOperation :=
      (List.replicate 4 (.declare none false)) ++ [.addField 0 ⟨"other", .record 1, 1⟩,
      .addField 1 ⟨"other", .record 0, 1⟩, .addField 2 ⟨"left", .record 3, 2⟩,
      .addField 2 ⟨"right", .record 3, 1⟩,
      .addField 2 ⟨"next", .pointer false (.record 0), 1⟩,
      .addField 3 ⟨"up", .pointer true (.record 2), 1⟩]
    let reg := ops.foldl leaves (empty {})
    reg.Tangled 0 ∧ ∃ l reg', layOut 2 reg = .ok l reg' ∧ ¬reg.Tangled 2 := by
  intro ops reg
  have hfirst : reg.Holds 0 1 :=
    ⟨⟨none, [⟨"other", .record 1, 1⟩], false, none, none⟩, by decide +kernel, _, .head _, rfl⟩
  have hsecond : reg.Holds 1 0 :=
    ⟨⟨none, [⟨"other", .record 0, 1⟩], false, none, none⟩, by decide +kernel, _, .head _, rfl⟩
  have hyields : (layOut 2).Yields reg fun l _ => l.size = 32 := by decide +kernel
  obtain ⟨l, reg', hlaid, -⟩ := Action.yields_iff_exists.mp hyields
  have hrefused : (∃ inner reg', layOut 2 reg = .error (.refused (.recursiveByValue inner)) reg') ↔
      reg.Tangled 2 :=
    (layOut_refuses_iff {} ops (by decide) (by decide) rfl (by decide +kernel) (by decide +kernel)
      fun _ h => by cases hlaid.symm.trans h).1
  refine ⟨⟨0, .refl, .tail (.single hfirst) hsecond⟩, l, reg', hlaid, fun ht => ?_⟩
  obtain ⟨_, _, h⟩ := hrefused.mpr ht
  cases hlaid.symm.trans h

end CoroutineIR.Registry
