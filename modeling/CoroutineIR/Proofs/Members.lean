import CoroutineIR.Proofs.Placement

/-!
# The members of a record

Following fields by value, through any depth and into any element of an array, one comes to the
scalars and pointers of a record. On a target with sizes that are powers of two every alignment is
one as well, so the alignment of a field divides the one of its record, and every member lies at a
multiple of its own alignment. In a union only one element of each field is accounted for.
-/

namespace CoroutineIR.Registry

open List

variable {reg reg' : Registry} {id : RecordId} {l l' : RecordLayout} {r : Record} {f g : Field}
  {fields : List Field} {target : Target} {lay : RecordId → Option RecordLayout}
  {isUnion : Bool} {ty leaf : Ty} {e : Nat × Nat} {i o place align base : Nat}

/-- A field of a record and where it starts. The fields of a union start at zero, as does the first
one of a structure. Every other one starts at the next multiple of its alignment behind the elements
of the field in front of it. -/
inductive FieldAt (reg : Registry) (r : Record) : Nat → Field → Nat → Prop
  | overlapping {i : Nat} {f : Field} (hunion : r.isUnion = true) (hf : r.fields[i]? = some f) :
    FieldAt reg r i f 0
  | first {f : Field} (hstruct : r.isUnion = false) (hf : r.fields[0]? = some f) :
    FieldAt reg r 0 f 0
  | next {i : Nat} {g f : Field} {o stride align : Nat} (hg : FieldAt reg r i g o)
      (hstruct : r.isUnion = false)
      (hstride : strideOf g.ty reg = .ok stride reg) (hf : r.fields[i + 1]? = some f)
      (halign : alignOf f.ty reg = .ok align reg) :
      FieldAt reg r (i + 1) f (alignUp (o + g.count * stride) align)

/-- What is found at a place of a value when fields are followed by value. -/
inductive StandsAt (reg : Registry) : Ty → Nat → Ty → Prop
  | whole (ty : Ty) : StandsAt reg ty 0 ty
  | element {id : RecordId} {r : Record} {i k o size align place : Nat} {f : Field} {leaf : Ty}
      (hr : reg.records[id]? = some r) (hf : reg.FieldAt r i f o) (hk : k < f.count)
      (hsize : sizeOf f.ty reg = .ok size reg)
      (halign : alignOf f.ty reg = .ok align reg) (hleaf : StandsAt reg f.ty place leaf) :
      StandsAt reg (.record id) (o + k * alignUp size align + place) leaf

/-! ### Where fields start -/

/-- Fields are assembled in their order. -/
theorem assemble_append (xs ys : List Field) (l : RecordLayout) :
    assemble target lay isUnion (xs ++ ys) l =
    (assemble target lay isUnion xs l).bind (assemble target lay isUnion ys) := by
  induction xs generalizing l with
  | nil => rfl
  | cons f rest ih =>
    rw [cons_append, assemble, assemble, Option.bind_assoc]
    exact Option.bind_congr fun e _ => ih _

/-- What stands in front of a field has been assembled, and the field has been placed behind it. -/
theorem exists_front_of_assemble (h : assemble target lay isUnion fields l = some l')
    (hf : fields[i]? = some f) : ∃ li e, assemble target lay isUnion (fields.take i) l = some li ∧
    extent target lay f.ty = some e ∧ assemble target lay isUnion (fields.drop (i + 1))
    (withField isUnion li f e.1 e.2) = some l' := by
  obtain ⟨hlt, rfl⟩ := List.getElem?_eq_some_iff.mp hf
  rw [← take_append_drop i fields, drop_eq_getElem_cons hlt, assemble_append] at h
  obtain ⟨li, hli, h⟩ := Option.bind_eq_some_iff.mp h
  obtain ⟨e, he, h⟩ := Option.bind_eq_some_iff.mp h
  exact ⟨li, e, hli, he, h⟩

section Kept

variable (hc : reg.Consistent) (hr : reg.records[id]? = some r) (hl : r.layout = some l)
include hc hr hl

/-- A field of a structure starts at the next multiple of its alignment behind what has been
assembled in front of it. -/
theorem fieldAt_alignUp (hstruct : r.isUnion = false) {li : RecordLayout}
    (hli : assemble reg.target reg.layout? false (r.fields.take i) blank = some li)
    (hf : r.fields[i]? = some f)
    (he : extent reg.target reg.layout? f.ty = some e) :
    reg.FieldAt r i f (alignUp li.size e.2) := by
  have hspaced := hc.spaced hr hl hstruct
  have hpos : ∀ {g : Field} {e}, g ∈ r.fields → extent reg.target reg.layout? g.ty = some e →
      0 < e.2 ∧ alignUp e.1 e.2 < Size.limit := by
    intro g e hg he
    obtain ⟨e', he', hroom⟩ := hspaced g hg
    rwa [Option.some.inj (he.symm.trans he')]
  induction i generalizing f e li with
  | zero =>
    obtain rfl := Option.some.inj hli
    have halign := (hpos (mem_of_getElem? hf) he).1
    rw [blank, alignUp, Nat.zero_add, Nat.div_eq_of_lt (by omega), Nat.zero_mul]
    exact .first hstruct hf
  | succ i ih =>
    obtain ⟨g, hg⟩ : ∃ g, r.fields[i]? = some g := by
      have hlt := (List.getElem?_eq_some_iff.mp hf).1
      exact ⟨_, getElem?_eq_getElem (by omega)⟩
    rw [take_add_one, hg, Option.toList_some, assemble_append] at hli
    obtain ⟨lg, hlg, hli⟩ := Option.bind_eq_some_iff.mp hli
    obtain ⟨d, hd, hli⟩ := Option.bind_eq_some_iff.mp hli
    obtain rfl := Option.some.inj hli
    obtain ⟨hdpos, hdlt⟩ := hpos (mem_of_getElem? hg) hd
    exact .next (ih hlg hg hd) hstruct (strideOf_of_extent hc hd hdpos hdlt) hf
      (alignOf_of_extent hc he)

/-- Every field of a record that is laid out starts somewhere, and the last one of its name where
the layout says. -/
theorem exists_fieldAt (hf : r.fields[i]? = some f) :
    ∃ o, reg.FieldAt r i f o ∧
    ((∀ j g, i < j → r.fields[j]? = some g → g.name ≠ f.name) → l.offset? f.name = some o) := by
  obtain ⟨li, e, hli, he, hrest⟩ := exists_front_of_assemble (hc.assembled hr hl) hf
  have hlast : (∀ j g, i < j → r.fields[j]? = some g → g.name ≠ f.name) →
      l.offset? f.name = (withField r.isUnion li f e.1 e.2).offset? f.name := by
    intro hlater
    refine offset?_of_assemble hrest fun hname => ?_
    obtain ⟨g, hg, heq⟩ := List.mem_map.mp hname
    obtain ⟨k, hk⟩ := mem_iff_getElem?.mp hg
    rw [getElem?_drop] at hk
    exact hlater _ g (by omega) hk heq
  cases hunion : r.isUnion with
  | true =>
    rw [hunion] at hlast
    exact ⟨0, .overlapping hunion hf,
      fun h => (hlast h).trans ((offset?_placeAt ..).trans (if_pos rfl))⟩
  | false =>
    rw [hunion] at hli hlast
    exact ⟨_, fieldAt_alignUp hc hr hl hunion hli hf he,
      fun h => (hlast h).trans ((offset?_placeAt ..).trans (if_pos rfl))⟩

end Kept

theorem FieldAt.dvd (h : reg.FieldAt r i f o)
    (halign : alignOf f.ty reg = .ok align reg) : align ∣ o := by
  cases h with
  | overlapping | first => exact Nat.dvd_zero _
  | next _ _ _ _ halign' =>
    cases halign.symm.trans halign'
    exact Nat.dvd_mul_left ..

/-! ### Alignments that are powers of two -/

theorem dvd_max_of_isPowerOfTwo {a b : Nat} (ha : a.isPowerOfTwo) (hb : b.isPowerOfTwo) :
    (max a b).isPowerOfTwo ∧ a ∣ max a b ∧ b ∣ max a b := by
  obtain ⟨j, rfl⟩ := ha
  obtain ⟨k, rfl⟩ := hb
  have hdvd : ∀ {j k : Nat}, 2 ^ j ≤ 2 ^ k → 2 ^ j ∣ 2 ^ k := fun h =>
    Nat.pow_dvd_pow 2 ((Nat.pow_le_pow_iff_right (by decide)).mp h)
  rcases Nat.le_total (2 ^ j) (2 ^ k) with h | h
  · rw [Nat.max_eq_right h]
    exact ⟨⟨k, rfl⟩, hdvd h, Nat.dvd_refl _⟩
  · rw [Nat.max_eq_left h]
    exact ⟨⟨j, rfl⟩, Nat.dvd_refl _, hdvd h⟩

/-- The alignment of what has been assembled is a multiple of the alignments it is made up of. -/
theorem align_of_assemble (h : assemble target lay isUnion fields l = some l')
    (hl : l.align.isPowerOfTwo)
    (hfields : ∀ ty e, extent target lay ty = some e → e.2.isPowerOfTwo) : l'.align.isPowerOfTwo ∧
    l.align ∣ l'.align ∧ ∀ f ∈ fields, ∃ e, extent target lay f.ty = some e ∧ e.2 ∣ l'.align := by
  induction fields generalizing l with
  | nil =>
    obtain rfl := Option.some.inj h
    exact ⟨hl, Nat.dvd_refl _, by simp⟩
  | cons f rest ih =>
    obtain ⟨e, he, hrest⟩ := Option.bind_eq_some_iff.mp h
    obtain ⟨hpow, hold, hnew⟩ := dvd_max_of_isPowerOfTwo hl (hfields _ e he)
    have heq : (withField isUnion l f e.1 e.2).align = max l.align e.2 := by cases isUnion <;> rfl
    obtain ⟨hpow', hdvd, hrest⟩ := ih hrest (by rwa [heq])
    rw [heq] at hdvd
    exact ⟨hpow', Nat.dvd_trans hold hdvd,
      forall_mem_cons.mpr ⟨⟨e, he, Nat.dvd_trans hnew hdvd⟩, hrest⟩⟩

/-- Every alignment is a power of two. -/
theorem extent_isPowerOfTwo (hint : target.intSize.isPowerOfTwo)
    (hptr : target.ptrSize.isPowerOfTwo) (hlay : ∀ id l, lay id = some l → l.align.isPowerOfTwo)
    (he : extent target lay ty = some e) : e.2.isPowerOfTwo := by
  cases ty with
  | scalar s =>
    rw [← Option.some.inj he]
    have hpow : ∀ k, (2 ^ k).isPowerOfTwo := fun k => ⟨k, rfl⟩
    cases s
    case addr | ptr => exact hptr
    case int | sint => exact hint
    case i8 | s8 => exact hpow 0
    case i16 | s16 => exact hpow 1
    case i32 | s32 | f32 => exact hpow 2
    case i64 | s64 | f64 => exact hpow 3
  | pointer =>
    rw [← Option.some.inj he]
    exact hptr
  | record id =>
    obtain ⟨l, hl, rfl⟩ := Option.map_eq_some_iff.mp he
    exact hlay id l hl

section PowerOfTwo

variable (hint : reg.target.intSize.isPowerOfTwo) (hptr : reg.target.ptrSize.isPowerOfTwo)
include hint hptr

theorem computed_isPowerOfTwo {fuel : Nat} (h : reg.computed fuel id = some l) :
    l.align.isPowerOfTwo := by
  induction fuel generalizing id l with
  | zero => cases h
  | succ fuel ih =>
    obtain ⟨r, -, hl⟩ := Option.bind_eq_some_iff.mp h
    exact (align_of_assemble hl ⟨0, rfl⟩ fun _ _ => extent_isPowerOfTwo hint hptr fun _ _ => ih).1

/-- A member lies at a multiple of its alignment wherever the value it is a member of does. -/
theorem StandsAt.dvd (h : reg.StandsAt ty place leaf) (hc : reg.Consistent)
    (he : extent reg.target reg.layout? ty = some e) (hleaf : alignOf leaf reg = .ok align reg)
    (hbase : e.2 ∣ base) : align ∣ base + place := by
  have hpow : ∀ ty e, extent reg.target reg.layout? ty = some e → e.2.isPowerOfTwo := fun _ _ =>
    extent_isPowerOfTwo hint hptr fun _ _ hl => by
      obtain ⟨fuel, hfuel⟩ := hc.computed hl
      exact computed_isPowerOfTwo hint hptr hfuel
  induction h generalizing e base with
  | whole ty =>
    cases hleaf.symm.trans (alignOf_of_extent hc he)
    exact hbase
  | @element id r i k o size a place f leaf hr hf _ _ halign _ ih =>
    obtain ⟨l, hl, rfl⟩ := Option.map_eq_some_iff.mp he
    obtain ⟨s, hs, hl⟩ := layout?_eq_some_iff.mp hl
    obtain rfl := Option.some.inj (hs.symm.trans hr)
    have hmem : f ∈ s.fields := by cases hf <;> exact mem_of_getElem? ‹_›
    obtain ⟨d, hd, hdvd⟩ := (align_of_assemble (hc.assembled hr hl) ⟨0, rfl⟩ hpow).2.2 f hmem
    cases halign.symm.trans (alignOf_of_extent hc hd)
    have hstart : d.2 ∣ o + k * alignUp size d.2 :=
      Nat.dvd_add (hf.dvd halign) (Nat.dvd_mul_left_of_dvd (Nat.dvd_mul_left ..) k)
    rw [← Nat.add_assoc]
    exact ih hd hleaf (Nat.dvd_add (Nat.dvd_trans hdvd hbase) hstart)

end PowerOfTwo

open TypeOperation

/-- Whatever operations have led to a registry for a target with sizes that are powers of two: when
a record is laid out, everything found by following its fields by value, into any element, lies at a
multiple of its own alignment if the record lies at a multiple of its. Each record on the way is
laid out, and each of its fields has a place, which for the last field of its name is the offset in
the layout. -/
theorem layOut_aligns_members (target : Target) (ops : List TypeOperation)
    (hint : target.intSize.isPowerOfTwo) (hptr : target.ptrSize.isPowerOfTwo)
    (hlaid : layOut id (ops.foldl leaves (empty target)) = .ok l reg') :
    (∀ place leaf align base, reg'.StandsAt (.record id) place leaf →
      alignOf leaf reg' = .ok align reg' → l.align ∣ base → align ∣ base + place) ∧
    ∀ inner r, Relation.ReflTransGen reg'.Holds id inner → reg'.records[inner]? = some r →
      ∃ li, r.layout = some li ∧ ∀ i f, r.fields[i]? = some f →
        ∃ o size align, reg'.FieldAt r i f o ∧ sizeOf f.ty reg' = .ok size reg' ∧
          alignOf f.ty reg' = .ok align reg' ∧
          ((∀ j g, i < j → r.fields[j]? = some g → g.name ≠ f.name) →
            li.offset? f.name = some o) := by
  obtain ⟨-, hc, hkept, rfl⟩ := kept_of_layOut hlaid
  refine ⟨fun place leaf align base hplace halign hbase => ?_, fun inner r hreach hr => ?_⟩
  · exact hplace.dvd hint hptr hc (Option.map_eq_some_iff.mpr ⟨l, hkept, rfl⟩) halign hbase
  · obtain ⟨li, hli⟩ : ∃ li, reg'.layout? inner = some li := by
      rcases Relation.reflTransGen_iff_eq_or_transGen.mp hreach with rfl | hcontains
      · exact ⟨l, hkept⟩
      · exact hc.contains hkept hcontains
    obtain ⟨s, hs, hlayout⟩ := layout?_eq_some_iff.mp hli
    obtain rfl := Option.some.inj (hr.symm.trans hs)
    refine ⟨li, hlayout, fun i f hf => ?_⟩
    obtain ⟨o, ho, hlast⟩ := exists_fieldAt hc hr hlayout hf
    obtain ⟨-, e, -, he, -⟩ := exists_front_of_assemble (hc.assembled hr hlayout) hf
    exact ⟨o, e.1, e.2, ho, sizeOf_of_extent he, alignOf_of_extent hc he, hlast⟩

/-- The integer in the second element of an array of structures, in a union inside a structure that
lies at address 24. -/
theorem layOut_aligns_members_array :
    let ops : List TypeOperation := [.declare none false, .declare none true, .declare none false,
      .addField 0 ⟨"value", .scalar .int, 1⟩, .addField 0 ⟨"flag", .scalar .i8, 1⟩,
      .addField 1 ⟨"next", .pointer false (.record 2), 1⟩,
      .addField 1 ⟨"items", .record 0, 2⟩, .addField 2 ⟨"choice", .record 1, 1⟩]
    ∃ l reg', layOut 2 (ops.foldl leaves (empty {})) = .ok l reg' ∧ l.align ∣ 24 ∧
      reg'.StandsAt (.record 2) 8 (.scalar .int) ∧ 4 ∣ 24 + 8 := by
  intro ops
  let records : Array Record := #[
    ⟨none, [⟨"value", .scalar .int, 1⟩, ⟨"flag", .scalar .i8, 1⟩], false, none,
    some ⟨5, 4, [("flag", 4), ("value", 0)]⟩⟩,
    ⟨none, [⟨"next", .pointer false (.record 2), 1⟩, ⟨"items", .record 0, 2⟩], true, none,
    some ⟨8, 8, [("items", 0), ("next", 0)]⟩⟩,
    ⟨none, [⟨"choice", .record 1, 1⟩], false, none, some ⟨8, 8, [("choice", 0)]⟩⟩]
  have hyields : (layOut 2).Yields (ops.foldl leaves (empty {})) fun l reg' =>
      l.align = 8 ∧ reg'.target = {} ∧ reg'.records = records := by decide +kernel
  obtain ⟨l, ⟨_, _⟩, hlaid, halign, rfl, rfl⟩ := Action.yields_iff_exists.mp hyields
  have hvalue : StandsAt ⟨{}, records⟩ (.record 0) (0 + 0 * alignUp 4 4 + 0) (.scalar .int) :=
    .element (f := ⟨"value", .scalar .int, 1⟩) rfl (.first rfl rfl) Nat.zero_lt_one
      rfl rfl (.whole _)
  have hitem : StandsAt ⟨{}, records⟩ (.record 1) (0 + 1 * alignUp 5 4 + 0) (.scalar .int) :=
    .element rfl (.overlapping (i := 1) rfl rfl) Nat.one_lt_two rfl rfl hvalue
  have hplace : StandsAt ⟨{}, records⟩ (.record 2) (0 + 0 * alignUp 8 8 + 8) (.scalar .int) :=
    .element rfl (.first rfl rfl) Nat.zero_lt_one rfl rfl hitem
  have hbase : l.align ∣ 24 := by rw [halign]; decide
  exact ⟨l, _, hlaid, hbase, hplace,
    (layOut_aligns_members {} ops ⟨2, rfl⟩ ⟨3, rfl⟩ hlaid).1 8 _ 4 24 hplace rfl hbase⟩

/-! ### Unions -/

/-- In a union one element of each field is accounted for. -/
theorem size_of_assemble (size : Field → Nat) (h : assemble target lay true fields l = some l')
    (hsize : ∀ f ∈ fields, ∃ align, extent target lay f.ty = some (size f, align)) :
    l'.size = fields.foldl (fun most f => max most (size f)) l.size := by
  induction fields generalizing l with
  | nil => rw [Option.some.inj h, foldl_nil]
  | cons f rest ih =>
    rw [forall_mem_cons] at hsize
    obtain ⟨⟨align, hf⟩, hsize⟩ := hsize
    obtain ⟨e, he, hrest⟩ := Option.bind_eq_some_iff.mp h
    obtain rfl := Option.some.inj (hf.symm.trans he)
    exact ih hrest hsize

theorem le_foldl_max_iff {size : Field → Nat} {n least : Nat} :
    n ≤ fields.foldl (fun most f => max most (size f)) least ↔
    n ≤ least ∨ ∃ f ∈ fields, n ≤ size f := by
  induction fields generalizing least with
  | nil => simp
  | cons f rest ih =>
    simp only [foldl_cons, ih, mem_cons, exists_eq_or_imp]
    rw [← or_assoc]
    exact or_congr_left (by omega)

/-- Whatever operations have led to a registry: when a union is laid out, its size is the largest
size of one element of a field. So a field of one element fits, and one of several elements if and
only if some field has an element at least as large as all of them together. -/
theorem layOut_union_size (target : Target) (ops : List TypeOperation)
    (hrecord : (ops.foldl leaves (empty target)).records[id]? = some r) (hunion : r.isUnion = true)
    (hlaid : layOut id (ops.foldl leaves (empty target)) = .ok l reg') :
    ∃ size : Field → Nat, l.size = r.fields.foldl (fun most f => max most (size f)) 0 ∧
      ∀ f ∈ r.fields, sizeOf f.ty reg' = .ok (size f) reg' ∧
      ∀ stride, strideOf f.ty reg' = .ok stride reg' →
        ((f.count - 1) * stride + size f ≤ l.size ↔
        ∃ g ∈ r.fields, (f.count - 1) * stride + size f ≤ size g) := by
  obtain ⟨hm, hc, hkept, rfl⟩ := kept_of_layOut hlaid
  obtain ⟨layout, hr, -⟩ := hm.kept hrecord
  obtain ⟨s, hs, hl⟩ := layout?_eq_some_iff.mp hkept
  obtain rfl := Option.some.inj (hs.symm.trans hr)
  have hassembled := hc.assembled hs hl
  simp only [hunion] at hassembled
  let size : Field → Nat := fun f => ((extent reg'.target reg'.layout? f.ty).getD (0, 0)).1
  have hextent :
      ∀ f ∈ r.fields, ∃ align, extent reg'.target reg'.layout? f.ty = some (size f, align) := by
    intro f hf
    obtain ⟨i, hi⟩ := mem_iff_getElem?.mp hf
    obtain ⟨-, e, -, he, -⟩ := exists_front_of_assemble hassembled hi
    exact ⟨e.2, by simp only [size, he, Option.getD_some]⟩
  have hmax := size_of_assemble size hassembled hextent
  refine ⟨size, hmax, fun f hf => ?_⟩
  obtain ⟨align, he⟩ := hextent f hf
  refine ⟨sizeOf_of_extent (e := (size f, align)) he, fun stride _ => ?_⟩
  rw [hmax, le_foldl_max_iff]
  exact ⟨fun h => h.elim (fun hzero => ⟨f, hf, Nat.le_trans hzero (Nat.zero_le _)⟩) fun hfits =>
    hfits, Or.inr⟩

/-- A byte and four of them beside a number. -/
theorem layOut_union_size_bytes :
    let fields : List Field :=
      [⟨"low", .scalar .i8, 1⟩, ⟨"bytes", .scalar .i8, 4⟩, ⟨"word", .scalar .i32, 1⟩]
    let ops : List TypeOperation := .declare none true :: fields.map (.addField 0)
    ∃ l reg', layOut 0 (ops.foldl leaves (empty {})) = .ok l reg' ∧ ∃ size : Field → Nat,
      l.size = fields.foldl (fun most f => max most (size f)) 0 ∧
      ∀ f ∈ fields, sizeOf f.ty reg' = .ok (size f) reg' := by
  intro fields ops
  have hrecord : (ops.foldl leaves (empty {})).records[0]? =
    some ⟨none, fields, true, none, none⟩ := by decide +kernel
  have hyields : (layOut 0).Yields (ops.foldl leaves (empty {})) fun l _ =>
    l.size = 4 := by decide +kernel
  obtain ⟨l, reg', hlaid, -⟩ := Action.yields_iff_exists.mp hyields
  obtain ⟨size, hmax, hsize⟩ := layOut_union_size {} ops hrecord rfl hlaid
  exact ⟨l, reg', hlaid, size, hmax, fun f hf => (hsize f hf).1⟩

/-- A union of four bytes for two numbers of four bytes each. -/
theorem layOut_union_cuts_array :
    let field : Field := ⟨"pair", .scalar .i32, 2⟩
    let ops : List TypeOperation := [.declare none true, .addField 0 field]
    ∃ l reg' size stride, layOut 0 (ops.foldl leaves (empty {})) = .ok l reg' ∧
      sizeOf field.ty reg' = .ok size reg' ∧
      strideOf field.ty reg' = .ok stride reg' ∧ l.size < (field.count - 1) * stride + size := by
  intro field ops
  have hyields : (layOut 0).Yields (ops.foldl leaves (empty {})) fun l _ =>
    l.size = 4 := by decide +kernel
  obtain ⟨l, reg', hlaid, hsize⟩ := Action.yields_iff_exists.mp hyields
  obtain ⟨-, hc, -, -⟩ := kept_of_layOut hlaid
  have hstride : strideOf field.ty reg' = .ok 4 reg' :=
    strideOf_of_extent (e := (4, 4)) hc rfl (by decide) (by decide)
  exact ⟨l, reg', 4, 4, hlaid, rfl, hstride, by rw [hsize]; decide⟩

end CoroutineIR.Registry
