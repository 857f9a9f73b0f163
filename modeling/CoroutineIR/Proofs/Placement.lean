import CoroutineIR.Proofs.CachedLayout

/-!
# Where the fields of a structure lie

The fields of a structure are packed. Each one starts at the first multiple of its alignment that is
not in front of the end of the field before it, so the gap between the two is smaller than that
alignment, for alignments of any kind.
-/

namespace CoroutineIR

open List Option

theorem alignUp_spec (size : Nat) {align : Nat} (halign : 0 < align) :
    align ∣ alignUp size align ∧ size ≤ alignUp size align ∧ alignUp size align < size + align := by
  have hpadding := Nat.mod_lt (align - size % align) halign
  refine ⟨Nat.dvd_mul_left .., ?_⟩
  rw [← add_padding_eq_alignUp halign]
  omega

namespace Registry

variable {reg reg' : Registry} {id : RecordId} {l l' : RecordLayout} {r : Record} {f g : Field}
  {fields before behind : List Field} {target : Target} {lay : RecordId → Option RecordLayout}
  {ty : Ty} {e : Nat × Nat} {offset align stride : Field → Nat} {start stop : Nat}

/-- Fields packed from `start` to `stop`. -/
def Packed (offset align stride : Field → Nat) : Nat → List Field → Nat → Prop
  | start, [], stop => stop = start
  | start, f :: rest, stop => offset f = alignUp start (align f) ∧
    Packed offset align stride (offset f + f.count * stride f) rest stop

namespace Packed

/-- A field starts behind the one in front of it. -/
theorem adjacent (h : Packed offset align stride start (before ++ f :: g :: behind) stop) :
    offset g = alignUp (offset f + f.count * stride f) (align g) := by
  induction before generalizing start with
  | nil => exact h.2.1
  | cons _ _ ih => exact ih h.2

theorem exists_start (h : Packed offset align stride start fields stop) (hf : f ∈ fields) :
    ∃ end', offset f = alignUp end' (align f) := by
  induction fields generalizing start with
  | nil => cases hf
  | cons g rest ih =>
    rcases mem_cons.mp hf with rfl | hf
    · exact ⟨start, h.1⟩
    · exact ih h.2 hf

/-- The last field reaches to the end. -/
theorem stop_eq (h : Packed offset align stride start fields stop) :
    stop = fields.getLast?.elim start fun f => offset f + f.count * stride f := by
  induction fields generalizing start with
  | nil => exact h
  | cons f rest ih =>
    rw [ih h.2, getLast?_cons]
    cases rest.getLast? <;> rfl

end Packed

/-! ### What is assembled is packed -/

theorem offset?_placeAt (l : RecordLayout) (name other : String) (n : Nat) :
    (placeAt l name n).offset? other = if other = name then some n else l.offset? other := by
  have hkeeps : ∀ offsets : List (String × Nat), other ≠ name →
      (offsets.filter (·.1 ≠ name)).lookup other = offsets.lookup other := by
    intro offsets hne
    induction offsets with
    | nil => rfl
    | cons p offsets ih => by_cases hp : p.1 = name <;> grind
  by_cases heq : other = name
  · simp [placeAt, RecordLayout.offset?, heq]
  · simpa [placeAt, RecordLayout.offset?, lookup_cons, beq_false_of_ne heq,
      heq] using hkeeps l.offsets heq

/-- Fields of other names leave an offset as it is. -/
theorem offset?_of_assemble {name : String} {isUnion : Bool}
    (h : assemble target lay isUnion fields l = some l') (hname : name ∉ fields.map Field.name) :
    l'.offset? name = l.offset? name := by
  induction fields generalizing l with
  | nil => rw [some.inj h]
  | cons f rest ih =>
    simp only [map_cons, mem_cons, not_or] at hname
    obtain ⟨e, -, hrest⟩ := bind_eq_some_iff.mp h
    refine (ih hrest hname.2).trans ?_
    cases isUnion <;> exact (offset?_placeAt l f.name name _).trans (if_neg hname.1)

/-- The fields of a structure are packed, and its alignment is the largest of theirs. -/
theorem packed_of_assemble (offset align stride : Field → Nat)
    (h : assemble target lay false fields l = some l') (hnames : (fields.map Field.name).Nodup)
    (halign : ∀ f ∈ fields, ∃ size, extent target lay f.ty = some (size, align f) ∧
      stride f = alignUp size (align f))
    (hoffset : ∀ f ∈ fields, offset f = (l'.offset? f.name).getD 0) :
    Packed offset align stride l.size fields l'.size ∧
    (∀ f ∈ fields, l'.offset? f.name = some (offset f)) ∧
      l'.align = fields.foldl (fun most f => max most (align f)) l.align := by
  induction fields generalizing l with
  | nil =>
    obtain rfl := some.inj h
    exact ⟨rfl, by simp, rfl⟩
  | cons f rest ih =>
    simp only [map_cons, nodup_cons] at hnames
    simp only [forall_mem_cons] at halign hoffset ⊢
    obtain ⟨e, he, hrest⟩ := bind_eq_some_iff.mp h
    obtain ⟨⟨size, hextent, hstride⟩, halign⟩ := halign
    obtain rfl := some.inj (he.symm.trans hextent)
    have hplaced : l'.offset? f.name = some (alignUp l.size (align f)) := by
      rw [offset?_of_assemble hrest hnames.1]
      exact (offset?_placeAt l f.name f.name _).trans (if_pos rfl)
    have hstart : offset f = alignUp l.size (align f) := by rw [hoffset.1, hplaced, getD_some]
    obtain ⟨hpacked, hoffsets, hlargest⟩ := ih hrest hnames.2 halign hoffset.2
    refine ⟨⟨hstart, ?_⟩, ⟨hplaced.trans (by rw [hstart]), hoffsets⟩, hlargest⟩
    rw [hstart, hstride]
    exact hpacked

/-! ### Asking for what is kept -/

theorem layOut_of_layout? (hl : reg.layout? id = some l) : layOut id reg = .ok l reg := by
  obtain ⟨r, hr, hl⟩ := layout?_eq_some_iff.mp hl
  have hrecord := recordNow_eq_ok hr
  have hstart : layOut id reg = layOutWithin reg.chainFuel [] id reg := rfl
  simp [hstart, layOutWithin, chainFuel, bind, EStateM.bind, hrecord, hl, pure, EStateM.pure]

theorem sizeOf_of_extent (he : extent reg.target reg.layout? ty = some e) :
    sizeOf ty reg = .ok e.1 reg := by
  cases ty with
  | scalar | pointer => rw [← some.inj he]; rfl
  | record id =>
    obtain ⟨l, hl, rfl⟩ := map_eq_some_iff.mp he
    simp [sizeOf, sizeVia, bind, EStateM.bind, layOut_of_layout? hl, pure, EStateM.pure]

/-- The alignment of a type that is laid out. -/
theorem alignOf_of_extent (hc : reg.Consistent) (he : extent reg.target reg.layout? ty = some e) :
    alignOf ty reg = .ok e.2 reg := by
  cases ty with
  | scalar | pointer => rw [← some.inj he]; rfl
  | record id =>
    obtain ⟨l, hl, rfl⟩ := map_eq_some_iff.mp he
    obtain ⟨r, hr, hlayout⟩ := layout?_eq_some_iff.mp hl
    have hrecord := recordNow_eq_ok hr
    cases hempty : r.fields.isEmpty with
    | true =>
      -- the layout that is kept is the blank one
      have hblank := hc.assembled hr hlayout
      rw [List.isEmpty_iff.mp hempty, assemble] at hblank
      rw [← some.inj hblank]
      simp [alignOf, alignVia, bind, EStateM.bind, hrecord, hempty, pure, EStateM.pure, blank]
    | false =>
      simp [alignOf, alignVia, bind, EStateM.bind, hrecord, hempty, layOut_of_layout? hl,
        pure, EStateM.pure]

/-- The stride of a type that is laid out. -/
theorem strideOf_of_extent (hc : reg.Consistent) (he : extent reg.target reg.layout? ty = some e)
    (hpos : 0 < e.2) (hlt : alignUp e.1 e.2 < Size.limit) :
    strideOf ty reg = .ok (alignUp e.1 e.2) reg := by
  have hround := (Size.roundUp_eq_ok_iff (ε := TypeError) hpos).mpr ⟨rfl, hlt⟩
  simp [strideOf, bind, EStateM.bind, sizeOf_of_extent he, alignOf_of_extent hc he, hround]

open TypeOperation

/-- Whatever operations have led to a registry: when a structure whose fields have distinct names is
laid out, every field starts at a multiple of its alignment, the first one at zero, and behind each
field there is less space left than the alignment of the next one. The structure ends with its last
field, and its alignment is the largest one of its fields. -/
theorem layOut_packs_fields (target : Target) (ops : List TypeOperation)
    (hrecord : (ops.foldl leaves (empty target)).records[id]? = some r)
    (hstruct : r.isUnion = false) (hnames : (r.fields.map Field.name).Nodup)
    (hlaid : layOut id (ops.foldl leaves (empty target)) = .ok l reg') :
    ∃ offset align stride : Field → Nat,
      (∀ f ∈ r.fields, l.offset? f.name = some (offset f) ∧ alignOf f.ty reg' = .ok (align f) reg' ∧
        strideOf f.ty reg' = .ok (stride f) reg' ∧ align f ∣ offset f) ∧
      (∀ f, r.fields.head? = some f → offset f = 0) ∧
      (∀ before f g behind, r.fields = before ++ f :: g :: behind →
        offset f + f.count * stride f ≤ offset g ∧
        offset g - (offset f + f.count * stride f) < align g) ∧
      l.size = r.fields.getLast?.elim 0 (fun f => offset f + f.count * stride f) ∧
      l.align = r.fields.foldl (fun most f => max most (align f)) 1 := by
  have hc := (goesOn_foldl ⟨.refl _, consistent_empty target⟩ ops).consistent
  have hsettles := lays_layOut id _ hc
  unfold Settles at hsettles
  rw [hlaid] at hsettles
  obtain ⟨hm, hc', hkept⟩ := hsettles
  obtain ⟨layout, hrecord', -⟩ := hm.kept hrecord
  obtain ⟨s, hs, hl⟩ := layout?_eq_some_iff.mp hkept
  obtain rfl := some.inj (hs.symm.trans hrecord')
  have hassembled := hc'.assembled hs hl
  have hspaced := hc'.spaced hs hl hstruct
  simp only [hstruct] at hassembled hspaced
  let extentOf : Field → Nat × Nat := fun f => (extent reg'.target reg'.layout? f.ty).getD (0, 0)
  have hextent : ∀ f ∈ r.fields, extent reg'.target reg'.layout? f.ty = some (extentOf f) ∧
      0 < (extentOf f).2 ∧ alignUp (extentOf f).1 (extentOf f).2 < Size.limit := by
    intro f hf
    obtain ⟨e, he, hpos, hlt⟩ := hspaced f hf
    have heq : extentOf f = e := by simp only [extentOf, he, getD_some]
    rw [heq]
    exact ⟨he, hpos, hlt⟩
  obtain ⟨hpacked, hoffsets, hlargest⟩ := packed_of_assemble (fun f => (l.offset? f.name).getD 0)
    (fun f => (extentOf f).2) (fun f => alignUp (extentOf f).1 (extentOf f).2) hassembled hnames
    (fun f hf => ⟨_, (hextent f hf).1, rfl⟩) fun _ _ => rfl
  refine ⟨_, _, _, fun f hf => ?_, fun f hf => ?_, fun before f g behind hsplit => ?_,
    hpacked.stop_eq, hlargest⟩
  · obtain ⟨he, hpos, hlt⟩ := hextent f hf
    obtain ⟨end', hstart⟩ := hpacked.exists_start hf
    refine ⟨hoffsets f hf, alignOf_of_extent hc' he, strideOf_of_extent hc' he hpos hlt, ?_⟩
    rw [hstart]
    exact (alignUp_spec _ hpos).1
  · obtain ⟨rest, hrest⟩ := head?_eq_some_iff.mp hf
    rw [hrest] at hpacked
    obtain ⟨hdvd, -, hlt⟩ := alignUp_spec 0 (hextent f (by simp [hrest])).2.1
    rw [Nat.zero_add] at hlt
    exact hpacked.1.trans (Nat.eq_zero_of_dvd_of_lt hdvd hlt)
  · have hg : g ∈ r.fields := by simp [hsplit]
    rw [hsplit] at hpacked
    obtain ⟨-, hle, hlt⟩ := alignUp_spec _ (hextent g hg).2.1
    rw [← hpacked.adjacent] at hle hlt
    exact ⟨hle, by omega⟩

/-- On a target with integers of three bytes, a byte, two structures, a structure without fields and
no integer at all. -/
theorem layOut_packs_fields_mixed :
    let fields : List Field := [⟨"head", .scalar .i8, 1⟩, ⟨"body", .record 0, 2⟩,
      ⟨"mark", .record 2, 5⟩, ⟨"tail", .scalar .int, 0⟩]
    let ops : List TypeOperation :=
      [.declare (some "inner") false, .declare (some "outer") false, .declare none false,
      .addField 0 ⟨"value", .scalar .int, 1⟩,
      .addField 0 ⟨"flag", .scalar .i8, 1⟩] ++ fields.map (.addField 1)
    let reg := ops.foldl leaves (empty ⟨3, 8⟩)
    let l : RecordLayout := ⟨15, 3, [("tail", 15), ("mark", 15), ("body", 3), ("head", 0)]⟩
    (fields.map Field.name).Nodup ∧ ∃ reg', layOut 1 reg = .ok l reg' ∧
      ∃ offset align stride : Field → Nat,
        (∀ f ∈ fields, l.offset? f.name = some (offset f) ∧ alignOf f.ty reg' = .ok (align f) reg' ∧
          strideOf f.ty reg' = .ok (stride f) reg' ∧ align f ∣ offset f) ∧
        l.size = fields.getLast?.elim 0 (fun f => offset f + f.count * stride f) := by
  intro fields ops reg l
  have hnames : (fields.map Field.name).Nodup := by decide
  have hrecord : reg.records[1]? = some ⟨some "outer", fields, false, none, none⟩ := by
    decide +kernel
  have hyields : (layOut 1).Yields reg fun l' _ => l' = l := by decide +kernel
  obtain ⟨l', reg', hlaid, rfl⟩ := Action.yields_iff_exists.mp hyields
  obtain ⟨offset, align, stride, hplaced, -, -, hsize, -⟩ :=
    layOut_packs_fields ⟨3, 8⟩ ops hrecord rfl hnames hlaid
  exact ⟨hnames, _, hlaid, offset, align, stride, hplaced, hsize⟩

end Registry

end CoroutineIR
