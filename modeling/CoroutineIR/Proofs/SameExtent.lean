import CoroutineIR.Proofs.SameType
import CoroutineIR.Proofs.FieldLookup

/-!
# The room that types with the same structure take up

The structure of a record is made up of the types of its fields. It leaves out how many elements a
field has and whether the fields lie behind each other or on top of each other, and both decide how
much room the record takes up. Types with the same structure take up the same room if the records in
the same places agree in this as well.
-/

namespace CoroutineIR.Registry

open List Option CoroutineIR.Action TypeOperation

variable {reg reg' : Registry} {a b ty : Ty} {i j : RecordId} {l l' m m' : RecordLayout}
  {e e' : Nat × Nat} {target : Target} {lay lay' : RecordId → Option RecordLayout} {isUnion : Bool}
  {fields others : List Field} {fuel fuel' n : Nat}

/-- Two records stand in the same place of two types, reached through fields only. -/
inductive Meets (reg : Registry) : Ty → Ty → RecordId → RecordId → Prop
  | here (i j : RecordId) : Meets reg (.record i) (.record j) i j
  | field {i j i' j' : RecordId} {left right : Record} {f g : Field} (hleft : reg.records[i]? = some
    left) (hright : reg.records[j]? = some right) (hfields : (f, g) ∈ left.fields.zip right.fields)
    (h : Meets reg f.ty g.ty i' j') : Meets reg (.record i) (.record j) i' j'

/-- Both records lay out their fields in the same way, and the fields of structures have the same
numbers of elements. -/
def Alike (left right : Record) : Prop :=
  left.isUnion = right.isUnion ∧
    (left.isUnion = false → left.fields.map Field.count = right.fields.map Field.count)

/-- Different records that stand in the same place are alike. -/
def AlikeWithin (reg : Registry) (a b : Ty) : Prop :=
  ∀ i j left right, reg.Meets a b i j → i ≠ j → reg.records[i]? = some left →
    reg.records[j]? = some right → Alike left right

/-- Fields of the same extents give the same size and alignment. -/
theorem assemble_congr (h : Forall₂ (fun f g => (∀ e e', extent target lay f.ty = some e → extent
        target lay' g.ty = some e' → e = e') ∧ (isUnion = false → f.count = g.count)) fields others)
      (hsize : l.size = m.size) (halign : l.align = m.align)
      (hl : assemble target lay isUnion fields l = some l')
      (hm : assemble target lay' isUnion others m = some m') :
      l'.size = m'.size ∧ l'.align = m'.align := by
  induction h generalizing l m with
  | nil =>
    obtain rfl := some.inj hl
    obtain rfl := some.inj hm
    exact ⟨hsize, halign⟩
  | @cons f g _ _ hfield _ ih =>
    obtain ⟨e, he, hl⟩ := bind_eq_some_iff.mp hl
    obtain ⟨e', he', hm⟩ := bind_eq_some_iff.mp hm
    obtain rfl := hfield.1 e e' he he'
    refine ih ?_ ?_ hl hm <;> cases isUnion <;> simp [withField, hsize, halign, hfield.2]

/-- The induction is on the depth to which the records of the first type are nested. -/
theorem Same.extent_eq (h : reg.Same a b) (halike : reg.AlikeWithin a b)
    (he : extent reg.target (reg.computed fuel) a = some e)
    (he' : extent reg.target (reg.computed fuel') b = some e') : e = e' := by
  induction fuel generalizing a b e e' fuel' with
  | zero =>
    cases bornOut_same reg a b h with
    | scalar | pointer => exact mem_unique he he'
    | same | records => cases he
  | succ fuel ih =>
    cases bornOut_same reg a b h with
    | scalar | pointer => exact mem_unique he he'
    | same => exact extent_unique he he'
    | @records i j left right hleft hright hfields =>
      by_cases hij : i = j
      · subst hij
        exact extent_unique he he'
      obtain ⟨l, hl, rfl⟩ := map_eq_some_iff.mp he
      obtain _ | fuel' := fuel'
      · cases he'
      obtain ⟨m, hm, rfl⟩ := map_eq_some_iff.mp he'
      obtain ⟨hunion, hcounts⟩ := halike i j left right (.here i j) hij hleft hright
      rw [computed, hleft, bind_some] at hl
      rw [computed, hright, bind_some, ← hunion] at hm
      have hroom : l.size = m.size ∧ l.align = m.align := by
        refine assemble_congr (forall₂_iff_zip.mpr ⟨by simpa using hfields.length_eq,
          fun {f g} hfg => ?_⟩) rfl rfl hl hm
        have hzip : ∀ {α : Type} (part : Field → α),
            (part f, part g) ∈ (left.fields.map part).zip (right.fields.map part) :=
          fun part => by
            rw [zip_map]
            exact List.mem_map_of_mem (f := Prod.map part part) hfg
        refine ⟨fun e e' => ih ((forall₂_iff_zip.mp hfields).2 (hzip Field.ty)) fun i' j' left'
          right' hmeets => ?_, fun hstruct => ?_⟩
        · exact halike i' j' left' right' (.field hleft hright hfg hmeets)
        · have hcounts := hcounts hstruct
          rw [← forall₂_eq_eq_eq] at hcounts
          exact (forall₂_iff_zip.mp hcounts).2 (hzip Field.count)
      rw [hroom.1, hroom.2]

/-! ### Asking for a size and for an alignment -/

theorem settles_sizeOf (hc : reg.Consistent) (ty : Ty) : Settles (sizeOf ty) reg
    (fun n _ => ∃ fuel align, extent reg.target (reg.computed fuel) ty = some (n, align)) fun _ =>
    True := by
  refine (settles_sizeVia hc (lays_all reg ty)).imp (fun n reg' hm hc' hn => ?_) fun _ h => h
  obtain ⟨align, hn⟩ := hn
  obtain ⟨fuel, hfuel⟩ := exists_fuel_of_extent (fun _ _ hl => hc'.computed hl) hn
  rw [hm.target, hm.computed_eq] at hfuel
  exact ⟨fuel, align, hfuel⟩

/-- After any operations: types that the comparison finds the same, and whose records in the same
places are alike, have equal sizes and equal alignments wherever these can be found out. -/
theorem sameType_extents_agree (target : Target) (ops : List TypeOperation)
    (hreg : reg = ops.foldl leaves (empty target))
    (hsame : (reg.sameType a b : Attempt TypeError Bool) = .ok true)
    (halike : reg.AlikeWithin a b) :
    (∀ m n reg₁ reg₂, sizeOf a reg = .ok m reg₁ → sizeOf b reg = .ok n reg₂ → m = n) ∧
    ∀ m n reg₁ reg₂, alignOf a reg = .ok m reg₁ → alignOf b reg = .ok n reg₂ → m = n := by
  have hc : reg.Consistent :=
    hreg ▸ (goesOn_foldl ⟨.refl _, consistent_empty target⟩ ops).consistent
  have h : reg.Same a b := (same_iff_of_sameType hsame).mp rfl
  refine ⟨fun m n reg₁ reg₂ ha hb => ?_, fun m n reg₁ reg₂ ha hb => ?_⟩
  · obtain ⟨-, -, _, _, ha⟩ := (settles_sizeOf hc a).ends.of_ok ha
    obtain ⟨-, -, _, _, hb⟩ := (settles_sizeOf hc b).ends.of_ok hb
    exact congrArg Prod.fst (h.extent_eq halike ha hb)
  · obtain ⟨-, -, _, _, ha⟩ := (settles_alignVia hc (lays_all reg a)).ends.of_ok ha
    obtain ⟨-, -, _, _, hb⟩ := (settles_alignVia hc (lays_all reg b)).ends.of_ok hb
    exact congrArg Prod.snd (h.extent_eq halike ha hb)

/-- Two structures that are declared in different places and are alike. -/
theorem sameType_extents_agree_arrays :
    let ops : List TypeOperation := [.declare none false, .declare none false,
      .addField 0 ⟨"x", .scalar .i32, 4⟩, .addField 1 ⟨"y", .scalar .i32, 4⟩]
    let reg := ops.foldl leaves (empty {})
    (reg.sameType (.record 0) (.record 1) : Attempt TypeError Bool) = .ok true ∧
      reg.AlikeWithin (.record 0) (.record 1) ∧
      ∃ n reg₁ reg₂, sizeOf (.record 0) reg = .ok 16 reg₁ ∧
      sizeOf (.record 1) reg = .ok n reg₂ ∧ 16 = n := by
  intro ops reg
  have hsame : (reg.sameType (.record 0) (.record 1) : Attempt TypeError Bool) = .ok true := by
    decide +kernel
  have hzero : reg.records[0]? = some ⟨none, [⟨"x", .scalar .i32, 4⟩], false, none, none⟩ := by
    decide +kernel
  have hone : reg.records[1]? = some ⟨none, [⟨"y", .scalar .i32, 4⟩], false, none, none⟩ := by
    decide +kernel
  have halike : reg.AlikeWithin (.record 0) (.record 1) := by
    intro i j left right hmeets _ hleft hright
    cases hmeets with
    | here =>
      cases hzero.symm.trans hleft
      cases hone.symm.trans hright
      exact ⟨rfl, fun _ => rfl⟩
    | field hleft hright hfields h =>
      cases hzero.symm.trans hleft
      cases hone.symm.trans hright
      cases mem_singleton.mp hfields
      cases h
  have hyields : (sizeOf (.record 0)).Yields reg fun n _ => n = 16 := by decide +kernel
  have hyields' : (sizeOf (.record 1)).Yields reg fun _ _ => True := by decide +kernel
  obtain ⟨_, reg₁, hsize, rfl⟩ := yields_iff_exists.mp hyields
  obtain ⟨n, reg₂, hsize', -⟩ := yields_iff_exists.mp hyields'
  exact ⟨hsame, halike, n, reg₁, reg₂, hsize, hsize',
    (sameType_extents_agree {} ops rfl hsame halike).1 _ n reg₁ reg₂ hsize hsize'⟩

/-- Two structures with a field of the same type, once with one element and once with four. Their
types are the same and their sizes are not. -/
theorem sameType_sizes_differ :
    let ops : List TypeOperation := [.declare none false, .declare none false,
      .addField 0 ⟨"x", .scalar .i32, 1⟩, .addField 1 ⟨"x", .scalar .i32, 4⟩]
    let reg := ops.foldl leaves (empty {})
    (reg.sameType (.record 0) (.record 1) : Attempt TypeError Bool) = .ok true ∧
      (∃ reg', sizeOf (.record 0) reg = .ok 4 reg') ∧
      ∃ reg', sizeOf (.record 1) reg = .ok 16 reg' := by
  intro ops reg
  have hsmall : (sizeOf (.record 0)).Yields reg fun n _ => n = 4 := by decide +kernel
  have hlarge : (sizeOf (.record 1)).Yields reg fun n _ => n = 16 := by decide +kernel
  obtain ⟨_, reg₁, hsmall, rfl⟩ := yields_iff_exists.mp hsmall
  obtain ⟨_, reg₂, hlarge, rfl⟩ := yields_iff_exists.mp hlarge
  exact ⟨by decide +kernel, ⟨reg₁, hsmall⟩, reg₂, hlarge⟩

end CoroutineIR.Registry
