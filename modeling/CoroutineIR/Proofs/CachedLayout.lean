import CoroutineIR.Proofs.Outcome
import CoroutineIR.Type.Layout
import Mathlib.Data.List.Perm.Subperm
import Mathlib.Logic.Relation

/-!
# Layouts that are kept

A record is laid out once, while others may still gain fields. What is kept stays right because a
record that has been laid out is frozen together with everything it contains by value. The layout a
record ought to have is computed here from the definitions alone, field by field, and every
operation on the registry is shown to keep to it.
-/

namespace CoroutineIR

open List Option Arena

/-- The least multiple of `align` that is not below `size`. -/
def alignUp (size align : Nat) : Nat := (size + align - 1) / align * align

/-- Padding fills up to the next multiple of the alignment. -/
theorem add_padding_eq_alignUp {size align : Nat} (halign : 0 < align) :
    size + (align - size % align) % align = alignUp size align := by
  obtain ⟨q, m, hm, rfl⟩ : ∃ q m, m < align ∧ size = align * q + m :=
    ⟨size / align, size % align, Nat.mod_lt _ halign, (Nat.div_add_mod ..).symm⟩
  rw [alignUp, Nat.mul_add_mod, Nat.mod_eq_of_lt hm,
    show align * q + m + align - 1 = align * q + (m + align - 1) by omega,
    Nat.mul_add_div halign, Nat.add_mul, Nat.mul_comm q align, Nat.add_assoc]
  rcases Nat.eq_zero_or_pos m with rfl | hpos
  · rw [Nat.sub_zero, Nat.mod_self, Nat.zero_add, Nat.div_eq_of_lt (by omega), Nat.zero_mul]
  · rw [Nat.mod_eq_of_lt (by omega : align - m < align),
      Nat.div_eq_of_lt_le (k := 1) (by omega) (by omega)]
    omega

namespace Size

variable {ε : Type} {size align n : Nat}

theorem padding_eq_ok (h : (padding size align : Attempt ε Nat) = .ok n) :
    0 < align ∧ size + n = alignUp size align := by
  unfold padding at h
  split at h
  · cases h
  · rename_i hne
    obtain rfl := Except.ok.inj h
    exact ⟨Nat.pos_of_ne_zero hne, add_padding_eq_alignUp (Nat.pos_of_ne_zero hne)⟩

/-- Rounding up only fails where sizes end. -/
theorem roundUp_eq_ok_iff (halign : 0 < align) :
    (roundUp size align : Attempt ε Nat) = .ok n ↔ n = alignUp size align ∧ n < limit := by
  unfold roundUp
  split
  · rename_i hzero
    have hup : alignUp size align = 0 := by
      rw [hzero, alignUp, Nat.zero_add, Nat.div_eq_of_lt (by omega : align - 1 < align),
        Nat.zero_mul]
    rw [hup, Except.ok.injEq, eq_comm]
    exact ⟨fun hn => ⟨hn, by rw [hn]; decide⟩, And.left⟩
  · rw [if_neg (by omega), mul_eq_ok_iff, alignUp, Nat.mul_comm]
    exact and_congr_right fun hn => by rw [hn]

end Size

namespace Registry

variable {α β : Type} {reg reg' reg'' : Registry} {id inner : RecordId} {l l' : RecordLayout}
  {r : Record} {f : Field} {fields : List Field} {target : Target}
  {lay lay' : RecordId → Option RecordLayout} {isUnion : Bool} {fuel fuel' : Nat}
  {change : Record → Record} {blame : Fault TypeError → Prop}

/-- The size and the alignment of a type, given the layouts of records. -/
def extent (target : Target) (lay : RecordId → Option RecordLayout) : Ty → Option (Nat × Nat)
  | .scalar s => some (s.size target, s.align target)
  | .pointer _ _ => some (target.ptrSize, target.ptrSize)
  | .record id => (lay id).map fun l => (l.size, l.align)

/-- A layout with one more field. In a union it starts at zero, in a structure at the next multiple
of its alignment. -/
def withField (isUnion : Bool) (l : RecordLayout) (f : Field) (size align : Nat) : RecordLayout :=
  if isUnion then
    { placeAt l f.name 0 with size := max l.size size, align := max l.align align }
  else
    { placeAt l f.name (alignUp l.size align) with
      size := alignUp l.size align + f.count * alignUp size align
      align := max l.align align }

/-- Fields placed in or behind a layout, given the layouts of records. -/
def assemble (target : Target) (lay : RecordId → Option RecordLayout) (isUnion : Bool) :
    List Field → RecordLayout → Option RecordLayout
  | [], l => some l
  | f :: rest, l => (extent target lay f.ty).bind fun e =>
    assemble target lay isUnion rest (withField isUnion l f e.1 e.2)

/-- The type has an extent, and the distance between its elements is a size. -/
def Spaced (target : Target) (lay : RecordId → Option RecordLayout) (ty : Ty) : Prop :=
  ∃ e, extent target lay ty = some e ∧ 0 < e.2 ∧ alignUp e.1 e.2 < Size.limit

/-- The layout of a record without fields. -/
def blank : RecordLayout := ⟨0, 1, []⟩

/-- The layout is made up of others, and the fields of a structure have room for their elements. -/
structure Arranged (target : Target) (lay : RecordId → Option RecordLayout) (isUnion : Bool)
    (fields : List Field) (l : RecordLayout) : Prop where
  assembled : assemble target lay isUnion fields blank = some l
  spaced : isUnion = false → ∀ f ∈ fields, Spaced target lay f.ty

/-- The layout of a record, computed from the definitions that the registry holds. Nothing that is
kept is looked at. -/
def computed (reg : Registry) : Nat → RecordId → Option RecordLayout
  | 0, _ => none
  | fuel + 1, id => reg.records[id]?.bind fun r =>
    assemble reg.target (reg.computed fuel) r.isUnion r.fields blank

/-- The layout that is kept for a record. -/
def layout? (reg : Registry) (id : RecordId) : Option RecordLayout :=
    reg.records[id]?.bind Record.layout

/-- A record has another one as a field. -/
def Holds (reg : Registry) (id inner : RecordId) : Prop :=
  ∃ r, reg.records[id]? = some r ∧ ∃ f ∈ r.fields, f.ty = .record inner

/-- A record contains another one by value, at any depth. -/
def Contains (reg : Registry) : RecordId → RecordId → Prop := Relation.TransGen reg.Holds

theorem layout?_eq_some_iff : reg.layout? id = some l ↔
    ∃ r, reg.records[id]? = some r ∧ r.layout = some l :=
  bind_eq_some_iff

/-! ### The computation -/

theorem extent_mono {ty : Ty} {e : Nat × Nat}
    (h : ∀ id l, ty = .record id → lay id = some l → lay' id = some l)
    (he : extent target lay ty = some e) : extent target lay' ty = some e := by
  cases ty with
  | scalar | pointer => exact he
  | record id =>
    obtain ⟨l, hl, rfl⟩ := map_eq_some_iff.mp he
    exact map_eq_some_iff.mpr ⟨l, h id l rfl hl, rfl⟩

theorem Spaced.mono {ty : Ty} (hs : Spaced target lay ty)
    (h : ∀ id l, lay id = some l → lay' id = some l) : Spaced target lay' ty := by
  obtain ⟨e, he, hpos, hlt⟩ := hs
  exact ⟨e, extent_mono (fun id l _ => h id l) he, hpos, hlt⟩

/-- Layouts that are given in addition change nothing. -/
theorem assemble_mono (h : ∀ f ∈ fields, ∀ id l, f.ty = .record id → lay id = some l →
      lay' id = some l) (hl : assemble target lay isUnion fields l = some l') :
    assemble target lay' isUnion fields l = some l' := by
  induction fields generalizing l with
  | nil => exact hl
  | cons f rest ih =>
    obtain ⟨e, he, hrest⟩ := bind_eq_some_iff.mp hl
    rw [assemble, extent_mono (h f mem_cons_self) he]
    exact ih (fun f hf => h f (mem_cons_of_mem _ hf)) hrest

theorem Arranged.mono (ha : Arranged target lay isUnion fields l)
    (h : ∀ id l, lay id = some l → lay' id = some l) : Arranged target lay' isUnion fields l :=
  ⟨assemble_mono (fun _ _ id l _ => h id l) ha.assembled,
    fun hstruct f hf => (ha.spaced hstruct f hf).mono h⟩

/-- What a record holds has been given a layout. -/
theorem exists_layout_of_assemble (hl : assemble target lay isUnion fields l = some l')
    (hf : f ∈ fields) (hty : f.ty = .record inner) : ∃ li, lay inner = some li := by
  induction fields generalizing l with
  | nil => cases hf
  | cons g rest ih =>
    obtain ⟨e, he, hrest⟩ := bind_eq_some_iff.mp hl
    rcases mem_cons.mp hf with rfl | hf
    · rw [hty, extent] at he
      obtain ⟨li, hli, -⟩ := map_eq_some_iff.mp he
      exact ⟨li, hli⟩
    · exact ih hrest hf

/-- More fuel keeps a finished answer. -/
theorem computed_mono (h : reg.computed fuel id = some l) (hle : fuel ≤ fuel') :
    reg.computed fuel' id = some l := by
  induction fuel generalizing fuel' id l with
  | zero => cases h
  | succ fuel ih =>
    obtain _ | fuel' := fuel'
    · omega
    obtain ⟨r, hr, hl⟩ := bind_eq_some_iff.mp h
    rw [computed, hr]
    exact assemble_mono (fun _ _ _ _ _ hinner => ih hinner (Nat.le_of_succ_le_succ hle)) hl

theorem extent_unique {ty : Ty} {e e' : Nat × Nat}
    (h : extent target (reg.computed fuel) ty = some e)
    (h' : extent target (reg.computed fuel') ty = some e') : e = e' :=
  mem_unique (extent_mono (fun _ _ _ hl => computed_mono hl (Nat.le_max_left ..)) h)
    (extent_mono (fun _ _ _ hl => computed_mono hl (Nat.le_max_right ..)) h')

/-- What is made up of layouts that can be computed can be computed. -/
theorem exists_fuel_of_extent {ty : Ty} {e : Nat × Nat} (hlay : ∀ id l, lay id = some l →
      ∃ fuel, reg.computed fuel id = some l) (he : extent target lay ty = some e) :
    ∃ fuel, extent target (reg.computed fuel) ty = some e := by
  cases ty with
  | scalar | pointer => exact ⟨0, he⟩
  | record inner =>
    obtain ⟨li, hli, rfl⟩ := map_eq_some_iff.mp he
    obtain ⟨fuel, hfuel⟩ := hlay inner li hli
    exact ⟨fuel, map_eq_some_iff.mpr ⟨li, hfuel, rfl⟩⟩

/-- One amount of fuel serves all fields. -/
theorem exists_fuel_of_assemble (hlay : ∀ id l, lay id = some l →
      ∃ fuel, reg.computed fuel id = some l) (hl : assemble target lay isUnion fields l = some l') :
    ∃ fuel, assemble target (reg.computed fuel) isUnion fields l = some l' := by
  induction fields generalizing l with
  | nil => exact ⟨0, hl⟩
  | cons f rest ih =>
    obtain ⟨e, he, hrest⟩ := bind_eq_some_iff.mp hl
    obtain ⟨k, hk⟩ := ih hrest
    obtain ⟨j, hj⟩ := exists_fuel_of_extent hlay he
    refine ⟨max j k, ?_⟩
    rw [assemble, extent_mono (fun _ _ _ h => computed_mono h (Nat.le_max_left j k)) hj]
    exact assemble_mono (fun _ _ _ _ _ h => computed_mono h (Nat.le_max_right j k)) hk

/-! ### Layouts that are kept -/

/-- Every layout that is kept is made up of other ones that are kept, and is the one computed from
the definitions. -/
structure Consistent (reg : Registry) : Prop where
  arranged : ∀ {id : RecordId} {r : Record} {l}, reg.records[id]? = some r → r.layout = some l →
    Arranged reg.target reg.layout? r.isUnion r.fields l
  computed : ∀ {id l}, reg.layout? id = some l → ∃ fuel, reg.computed fuel id = some l

section Arranged

variable (hc : reg.Consistent) (hr : reg.records[id]? = some r) (hl : r.layout = some l)
include hc hr hl

theorem Consistent.assembled : assemble reg.target reg.layout? r.isUnion r.fields blank = some l :=
    (hc.arranged hr hl).assembled

theorem Consistent.spaced (hstruct : r.isUnion = false) :
    ∀ f ∈ r.fields, Spaced reg.target reg.layout? f.ty :=
  (hc.arranged hr hl).spaced hstruct

end Arranged

/-- A change after which every record that was laid out is still there as it was, except for the
record it extends. -/
structure Freezes (reg reg' : Registry) : Prop where
  target : reg'.target = reg.target
  frozen : ∀ {id : RecordId} {r : Record} {l}, reg.records[id]? = some r → r.layout = some l →
    ∃ r' : Record, reg'.records[id]? = some r' ∧ r'.fields = r.fields ∧ r'.isUnion = r.isUnion ∧
    r'.layout = some l

theorem Freezes.refl (reg : Registry) : reg.Freezes reg := ⟨rfl, fun hr hl => ⟨_, hr, rfl, rfl, hl⟩⟩

theorem Freezes.trans (h : reg.Freezes reg') (h' : reg'.Freezes reg'') : reg.Freezes reg'' := by
  refine ⟨h'.target.trans h.target, fun hr hl => ?_⟩
  obtain ⟨r', hr', hfields, hunion, hl'⟩ := h.frozen hr hl
  obtain ⟨r'', hr'', hfields', hunion', hl''⟩ := h'.frozen hr' hl'
  exact ⟨r'', hr'', hfields'.trans hfields, hunion'.trans hunion, hl''⟩

theorem Freezes.layout? (h : reg.Freezes reg') (hl : reg.layout? id = some l) :
    reg'.layout? id = some l := by
  obtain ⟨r, hr, hl⟩ := layout?_eq_some_iff.mp hl
  obtain ⟨r', hr', -, -, hl'⟩ := h.frozen hr hl
  exact layout?_eq_some_iff.mpr ⟨r', hr', hl'⟩

/-- What a record that is laid out holds is laid out. -/
theorem Consistent.holds (hc : reg.Consistent) (hl : reg.layout? id = some l)
    (hholds : reg.Holds id inner) : ∃ li, reg.layout? inner = some li := by
  obtain ⟨r, hr, hl⟩ := layout?_eq_some_iff.mp hl
  obtain ⟨r', hr', f, hf, hty⟩ := hholds
  obtain rfl := some.inj (hr.symm.trans hr')
  exact exists_layout_of_assemble (hc.assembled hr hl) hf hty

/-- What a record that is laid out contains is laid out. -/
theorem Consistent.contains (hc : reg.Consistent) (hl : reg.layout? id = some l)
    (hcontains : reg.Contains id inner) : ∃ li, reg.layout? inner = some li := by
  induction hcontains with
  | single hholds => exact hc.holds hl hholds
  | tail _ hholds ih =>
    obtain ⟨lm, hlm⟩ := ih
    exact hc.holds hlm hholds

/-- The layouts of records that are laid out are still computed after the change. -/
theorem Freezes.computed (h : reg.Freezes reg') (hc : reg.Consistent) (hl : reg.layout? id = some l)
    (hcomputed : reg.computed fuel id = some l') : reg'.computed fuel id = some l' := by
  induction fuel generalizing id l l' with
  | zero => cases hcomputed
  | succ fuel ih =>
    obtain ⟨r, hr, hcomputed⟩ := bind_eq_some_iff.mp hcomputed
    obtain ⟨s, hs, hlayout⟩ := layout?_eq_some_iff.mp hl
    obtain rfl := some.inj (hr.symm.trans hs)
    obtain ⟨r', hr', hfields, hunion, -⟩ := h.frozen hr hlayout
    rw [Registry.computed, hr', bind_some, hfields, hunion, h.target]
    refine assemble_mono (fun f hf inner li hty hinner => ?_) hcomputed
    obtain ⟨_, hkept⟩ := hc.holds hl ⟨r, hr, f, hf, hty⟩
    exact ih hkept hinner

/-- A change that lays out no record leaves what is kept consistent. -/
theorem Freezes.consistent (h : reg.Freezes reg') (hc : reg.Consistent)
    (hold : ∀ id l, reg'.layout? id = some l → reg.layout? id = some l) : reg'.Consistent where
  arranged {id r' l} hr' hl' := by
    obtain ⟨r, hr, hl⟩ :=
      layout?_eq_some_iff.mp (hold id l (layout?_eq_some_iff.mpr ⟨r', hr', hl'⟩))
    obtain ⟨s, hs, hfields, hunion, -⟩ := h.frozen hr hl
    obtain rfl := some.inj (hr'.symm.trans hs)
    rw [hfields, hunion, h.target]
    exact (hc.arranged hr hl).mono fun _ _ => h.layout?
  computed {id l} hl' := by
    obtain ⟨fuel, hfuel⟩ := hc.computed (hold id l hl')
    exact ⟨fuel, h.computed hc (hold id l hl') hfuel⟩

/-! ### Laying out -/

/-- A change that does nothing but to keep further layouts. -/
structure Memoizes (reg reg' : Registry) : Prop where
  target : reg'.target = reg.target
  size : reg'.records.size = reg.records.size
  kept : ∀ {id : RecordId} {r : Record}, reg.records[id]? = some r →
    ∃ layout, reg'.records[id]? = some { r with layout } ∧ ∀ l, r.layout = some l → layout = some l

namespace Memoizes

theorem refl (reg : Registry) : reg.Memoizes reg :=
    ⟨rfl, rfl, fun {_ r} hr => ⟨r.layout, hr, fun _ hl => hl⟩⟩

theorem trans (h : reg.Memoizes reg') (h' : reg'.Memoizes reg'') : reg.Memoizes reg'' := by
  refine ⟨h'.target.trans h.target, h'.size.trans h.size, fun hr => ?_⟩
  obtain ⟨o, hr', ho⟩ := h.kept hr
  obtain ⟨o', hr'', ho'⟩ := h'.kept hr'
  exact ⟨o', hr'', fun l hl => ho' l (ho l hl)⟩

theorem freezes (h : reg.Memoizes reg') : reg.Freezes reg' := by
  refine ⟨h.target, fun hr hl => ?_⟩
  obtain ⟨o, hr', ho⟩ := h.kept hr
  exact ⟨_, hr', rfl, rfl, ho _ hl⟩

/-- The computation does not look at what is kept. -/
theorem computed_eq (h : reg.Memoizes reg') (fuel : Nat) :
    reg'.computed fuel = reg.computed fuel := by
  induction fuel with
  | zero => rfl
  | succ fuel ih =>
    funext id
    rw [computed, computed, ih, h.target]
    cases hr : reg.records[id]? with
    | none =>
      have hr' : reg'.records[id]? = none := by
        rw [Array.getElem?_eq_none_iff] at hr ⊢
        rwa [h.size]
      rw [hr', bind_none]
    | some r =>
      obtain ⟨o, hr', -⟩ := h.kept hr
      rw [hr', bind_some, bind_some]

end Memoizes

/-- However the action ends, it has done nothing but to keep further layouts, and what is kept is
consistent. If it delivers a value, `post` holds of the value and of the registry reached. If it
ends with a fault, `blame` holds of that. -/
def Settles (x : TypeAction α) (reg : Registry) (post : α → Registry → Prop)
    (blame : Fault TypeError → Prop) : Prop :=
  match x reg with
  | .ok a reg' => reg.Memoizes reg' ∧ reg'.Consistent ∧ post a reg'
  | .error e reg' => (reg.Memoizes reg' ∧ blame e) ∧ reg'.Consistent

section Settles

variable {x : TypeAction α} {g : α → TypeAction β} {post post' : α → Registry → Prop}
    {goal : β → Registry → Prop}

/-- What comes second starts from what has been kept so far. -/
theorem Settles.bind (hx : Settles x reg post blame)
    (hg : ∀ a reg', reg.Memoizes reg' → reg'.Consistent → post a reg' →
      Settles (g a) reg' goal blame) : Settles (x >>= g) reg goal blame := by
  unfold Settles at hx ⊢
  simp only [Bind.bind, EStateM.bind]
  cases hrun : x reg with
  | ok a reg₁ =>
    rw [hrun] at hx
    obtain ⟨h, hc, hpost⟩ := hx
    have hrest := hg a reg₁ h hc hpost
    unfold Settles at hrest
    simp only
    cases hrun' : g a reg₁ with
    | ok b reg₂ =>
      rw [hrun'] at hrest
      exact ⟨h.trans hrest.1, hrest.2⟩
    | error e reg₂ =>
      rw [hrun'] at hrest
      exact hrest.imp_left (And.imp_left h.trans)
  | error e reg₁ =>
    rw [hrun] at hx
    exact hx

theorem Settles.imp {blame' : Fault TypeError → Prop} (hx : Settles x reg post blame)
    (h : ∀ a reg', reg.Memoizes reg' → reg'.Consistent → post a reg' →
      post' a reg') (hblame : ∀ e, blame e → blame' e) : Settles x reg post' blame' := by
  unfold Settles at hx ⊢
  cases hrun : x reg with
  | ok a reg' =>
    rw [hrun] at hx
    exact ⟨hx.1, hx.2.1, h a reg' hx.1 hx.2.1 hx.2.2⟩
  | error e reg' =>
    rw [hrun] at hx
    exact hx.imp_left (And.imp_right (hblame e))

variable (hc : reg.Consistent)
include hc

theorem settles_pure {a : α} (h : post a reg) : Settles (pure a : TypeAction α) reg post blame :=
  ⟨.refl reg, hc, h⟩

theorem settles_throw {e : Fault TypeError} (hblame : blame e) :
    Settles (throw e : TypeAction α) reg post blame :=
  ⟨⟨.refl reg, hblame⟩, hc⟩

theorem settles_toAction {a : Attempt TypeError α} (hblame : ∀ e, a = .error e → blame e) :
    Settles (a.toAction : TypeAction α) reg (fun v reg' => a = .ok v ∧ reg' = reg) blame := by
  cases a with
  | ok v => exact ⟨.refl reg, hc, rfl, rfl⟩
  | error e => exact settles_throw hc (hblame e rfl)

/-- Fetching a record changes nothing. -/
theorem settles_recordNow (id : RecordId)
    (hblame : reg.records.size ≤ id → blame (.aborted .missing)) :
    Settles (recordNow id) reg (fun r reg' => reg.records[id]? = some r ∧ reg' = reg) blame := by
  have hask : Settles (recordNow id) reg (fun r reg' =>
      (reg.record id : Attempt TypeError Record) = .ok r ∧ reg' = reg) blame := by
    refine settles_toAction hc fun e he => ?_
    cases hr : reg.records[id]? with
    | none =>
      simp only [record, fetch, hr] at he
      cases he
      exact hblame (Array.getElem?_eq_none_iff.mp hr)
    | some r => cases (fetch_eq_ok_iff.mpr hr).symm.trans he
  exact hask.imp (fun r reg' _ _ h => ⟨fetch_eq_ok_iff.mp h.1, h.2⟩) fun _ h => h

end Settles

/-- No type has alignment zero if integers and pointers have a size. -/
theorem extent_pos {ty : Ty} {e : Nat × Nat} (hint : 0 < reg.target.intSize)
    (hptr : 0 < reg.target.ptrSize) (hc : reg.Consistent)
    (he : extent reg.target reg.layout? ty = some e) : 0 < e.2 := by
  have hgrows : ∀ {fields : List Field} {isUnion : Bool} {l l' : RecordLayout},
      assemble reg.target reg.layout? isUnion fields l = some l' → l.align ≤ l'.align := by
    intro fields isUnion l l' h
    induction fields generalizing l with
    | nil => exact Nat.le_of_eq (by rw [some.inj h])
    | cons f rest ih =>
      obtain ⟨e, -, hrest⟩ := bind_eq_some_iff.mp h
      have hmax : l.align ≤ (withField isUnion l f e.1 e.2).align := by
        cases isUnion <;> exact Nat.le_max_left ..
      exact Nat.le_trans hmax (ih hrest)
  cases ty with
  | scalar s =>
    rw [← some.inj he]
    cases s <;> first | exact hptr | exact hint | exact Nat.succ_pos _
  | pointer =>
    rw [← some.inj he]
    exact hptr
  | record id =>
    obtain ⟨l, hl, rfl⟩ := map_eq_some_iff.mp he
    obtain ⟨r, hr, hl⟩ := layout?_eq_some_iff.mp hl
    exact hgrows (hc.assembled hr hl)

/-- The record in a type, if it is one, is laid out such that a layout that is delivered is kept,
and `blame` holds of the faults that this ends with, also if the record is not there. -/
def Lays (lay : RecordId → TypeAction RecordLayout) (reg : Registry) (ty : Ty)
    (blame : Fault TypeError → Prop) : Prop :=
  ∀ id, ty = .record id → (reg.records.size ≤ id → blame (.aborted .missing)) ∧ ∀ reg', reg.Memoizes
    reg' → reg'.Consistent → Settles (lay id) reg' (fun l reg'' => reg''.layout? id = some l) blame

theorem Lays.mono {lay : RecordId → TypeAction RecordLayout} {ty : Ty} (h : Lays lay reg ty blame)
    (hm : reg.Memoizes reg') : Lays lay reg' ty blame := fun id hid =>
  ⟨hm.size ▸ (h id hid).1, fun reg'' hm' => (h id hid).2 reg'' (hm.trans hm')⟩

section Placing

variable {layOut : RecordId → TypeAction RecordLayout} {ty : Ty} {size align : Nat}
    (hc : reg.Consistent)
include hc

/-- The size of a type is that of its extent. -/
theorem settles_sizeVia (hlay : Lays layOut reg ty blame) : Settles (sizeVia layOut ty) reg
    (fun size reg' => ∃ align, extent reg'.target reg'.layout? ty = some (size, align)) blame := by
  cases ty with
  | scalar s | pointer => exact ⟨.refl reg, hc, _, rfl⟩
  | record id =>
    refine ((hlay id rfl).2 reg (.refl reg) hc).bind fun l reg' _ hc' hl =>
      settles_pure hc' ⟨l.align, ?_⟩
    rw [extent, hl, map_some]

/-- The alignment is found out without laying out a record that has no fields. -/
theorem settles_alignVia (hlay : Lays layOut reg ty blame) : Settles (alignVia layOut ty) reg
    (fun align _ => ∃ fuel size, extent reg.target (reg.computed fuel) ty = some (size, align))
    blame := by
  cases ty with
  | scalar | pointer => exact ⟨.refl reg, hc, 0, _, rfl⟩
  | record id =>
    refine (settles_recordNow hc id (hlay id rfl).1).bind fun r reg' _ _ hr => ?_
    obtain ⟨hr, rfl⟩ := hr
    split
    · rename_i hempty
      refine settles_pure hc ⟨1, 0, ?_⟩
      rw [extent, computed, hr, bind_some, List.isEmpty_iff.mp hempty]
      rfl
    · refine ((hlay id rfl).2 _ (.refl _) hc).bind fun l reg₁ hm hc' hl => settles_pure hc' ?_
      obtain ⟨fuel, hfuel⟩ := hc'.computed hl
      exact ⟨fuel, l.size, by rw [extent, ← hm.computed_eq, hfuel, map_some]⟩

omit hc in
theorem align_eq {later : Registry} {e : Nat × Nat}
    (h : ∃ fuel size, extent reg.target (reg.computed fuel) ty = some (size, align))
    (hm : reg.Memoizes later) (hc : later.Consistent)
    (he : extent later.target later.layout? ty = some e) : e.2 = align := by
  obtain ⟨fuel, size, h⟩ := h
  obtain ⟨fuel', h'⟩ := exists_fuel_of_extent (fun _ _ hl => hc.computed hl) he
  rw [hm.target, hm.computed_eq] at h'
  rw [extent_unique h' h]

omit hc in
/-- A field placed behind the others, in multiples of its alignment. -/
theorem placeBehind_eq_ok (h : placeBehind l f size align = .ok l') :
    l' = withField false l f size align ∧ 0 < align ∧ alignUp size align < Size.limit := by
  simp only [placeBehind, Attempt.bind_eq_ok_iff] at h
  obtain ⟨pad, hpad, offset, hoffset, stride, hstride, bytes, hbytes, total, htotal, hl'⟩ := h
  obtain ⟨halign, hpadded⟩ := Size.padding_eq_ok hpad
  obtain ⟨rfl, hlt⟩ := (Size.roundUp_eq_ok_iff halign).mp hstride
  obtain ⟨rfl, -⟩ := Size.add_eq_ok_iff.mp hoffset
  obtain ⟨rfl, -⟩ := Size.mul_eq_ok_iff.mp hbytes
  obtain ⟨rfl, -⟩ := Size.add_eq_ok_iff.mp htotal
  rw [← Except.ok.inj hl', hpadded]
  exact ⟨rfl, halign, hlt⟩

omit hc in
/-- A field is placed unless a size gets too large or its alignment is zero. -/
theorem placeBehind_eq_error {e : Fault TypeError} (h : placeBehind l f size align = .error e) :
    e = .aborted .overflow ∨ align = 0 ∧ e = .aborted .zeroDivisor := by
  let Fits {α : Type} (x : Attempt TypeError α) : Prop :=
    ∀ e, x = .error e → e = .aborted .overflow ∨ align = 0 ∧ e = .aborted .zeroDivisor
  have hbind : ∀ {α β : Type} {x : Attempt TypeError α} {f : α → Attempt TypeError β}, Fits x →
      (∀ a, Fits (f a)) → Fits (x >>= f) := by
    intro α β x f hx hf e h
    cases x with
    | ok a => exact hf a e h
    | error e' => exact hx e (by cases h; rfl)
  have hchecked : ∀ n, Fits (Size.checked n : Attempt TypeError Nat) := by
    intro n e h
    unfold Size.checked at h
    split at h <;> cases h
    exact Or.inl rfl
  have hpadding : Fits (Size.padding l.size align : Attempt TypeError Nat) := by
    intro e h
    unfold Size.padding at h
    split at h <;> cases h
    exact Or.inr ⟨‹_›, rfl⟩
  have hround : Fits (Size.roundUp size align : Attempt TypeError Nat) := by
    intro e h
    unfold Size.roundUp at h
    split at h
    · cases h
    · split at h
      · cases h
        exact Or.inr ⟨‹_›, rfl⟩
      · exact hchecked _ e h
  exact hbind hpadding (fun _ => hbind (hchecked _) fun _ => hbind hround fun _ =>
      hbind (hchecked _) fun _ =>
    hbind (hchecked _) fun _ e h => by cases h) e h

variable (hlay : ∀ f ∈ fields, Lays layOut reg f.ty blame)
include hlay

/-- The fields of a structure are placed one behind the other. -/
theorem settles_placeInOrder (hover : blame (.aborted .overflow))
    (hzero : blame (.aborted .zeroDivisor) ∨ 0 < reg.target.intSize ∧
      0 < reg.target.ptrSize) (l : RecordLayout) :
    Settles (placeInOrder layOut fields l) reg (fun l' reg' => assemble reg'.target reg'.layout?
      false fields l = some l' ∧ ∀ f ∈ fields, Spaced reg'.target reg'.layout? f.ty) blame := by
  induction fields generalizing reg l with
  | nil => exact settles_pure hc ⟨rfl, by simp⟩
  | cons f rest ih =>
    rw [forall_mem_cons] at hlay
    refine (settles_sizeVia hc hlay.1).bind fun size reg₁ hm₁ hc₁ hsize => ?_
    obtain ⟨a, hsize⟩ := hsize
    refine (settles_alignVia hc₁ (hlay.1.mono hm₁)).bind fun align reg₂ hm₂ hc₂ halign => ?_
    have hm := hm₁.trans hm₂
    rw [← hm.target] at hzero
    have hextent : extent reg₂.target reg₂.layout? f.ty = some (size, a) := by
      rw [hm₂.target]
      exact extent_mono (fun _ _ _ => hm₂.freezes.layout?) hsize
    obtain rfl : a = align := align_eq halign hm₂ hc₂ hextent
    refine (settles_toAction hc₂ fun e he => ?_).bind fun l₁ reg₃ _ _ hplaced => ?_
    · obtain rfl | ⟨rfl, rfl⟩ := placeBehind_eq_error he
      · exact hover
      · exact hzero.resolve_right fun hpos => Nat.lt_irrefl 0 (extent_pos hpos.1 hpos.2 hc₂ hextent)
    · obtain ⟨hplaced, rfl⟩ := hplaced
      obtain ⟨rfl, hpos, hlt⟩ := placeBehind_eq_ok hplaced
      refine (ih hc₂ (fun f hf => (hlay.2 f hf).mono hm) hzero _).imp
        (fun l' reg₄ hm₄ _ hrest => ?_) fun _ h => h
      rw [← hm₄.target] at hextent
      replace hextent := extent_mono (fun _ _ _ => hm₄.freezes.layout?) hextent
      refine ⟨?_, forall_mem_cons.mpr ⟨⟨_, hextent, hpos, hlt⟩, hrest.2⟩⟩
      rw [assemble, hextent, bind_some]
      exact hrest.1

/-- The fields of a union are placed at its start. -/
theorem settles_placeOverlapping (l : RecordLayout) :
    Settles (placeOverlapping layOut fields l) reg (fun l' reg' => ∀ align, ∃ align',
      assemble reg'.target reg'.layout? true fields { l with align } =
      some { l' with align := align' }) blame := by
  induction fields generalizing reg l with
  | nil => exact settles_pure hc fun align => ⟨align, rfl⟩
  | cons f rest ih =>
    rw [forall_mem_cons] at hlay
    refine (settles_sizeVia hc hlay.1).bind fun size reg₁ hm₁ hc₁ hsize => ?_
    obtain ⟨a, hsize⟩ := hsize
    refine (settles_alignVia hc₁ (hlay.1.mono hm₁)).bind fun _ reg₂ hm₂ hc₂ _ => ?_
    refine (ih hc₂ (fun f hf => (hlay.2 f hf).mono (hm₁.trans hm₂)) _).imp
      (fun l' reg₃ hm₃ _ hrest align => ?_) fun _ h => h
    obtain ⟨align', hrest⟩ := hrest (max align a)
    refine ⟨align', ?_⟩
    have hm := hm₂.trans hm₃
    rw [assemble, hm.target, extent_mono (fun _ _ _ => hm.freezes.layout?) hsize,
      bind_some, ← hm.target]
    exact hrest

/-- The alignment of a union is the largest one of its fields. -/
theorem settles_maxAlign (least : Nat) :
    Settles (maxAlign layOut fields least) reg (fun align reg' => ∀ l l' : RecordLayout,
      assemble reg'.target reg'.layout? true fields { l with align := least } = some l' →
      l'.align = align) blame := by
  induction fields generalizing reg least with
  | nil => exact settles_pure hc fun l l' hl => by rw [← some.inj hl]
  | cons f rest ih =>
    rw [forall_mem_cons] at hlay
    refine (settles_alignVia hc hlay.1).bind fun align reg₁ hm₁ hc₁ halign => ?_
    refine (ih hc₁ (fun f hf => (hlay.2 f hf).mono hm₁) _).imp
      (fun m reg₂ hm₂ hc₂ hrest l l' hl => ?_) fun _ h => h
    obtain ⟨e, he, hl⟩ := bind_eq_some_iff.mp hl
    rw [← align_eq halign (hm₁.trans hm₂) hc₂ he] at hrest
    exact hrest (withField true { l with align := least } f e.1 e.2) l' hl

omit hlay in
/-- Arranging the fields of a record gives its layout. -/
theorem settles_arrange (hlay : ∀ f ∈ r.fields, Lays layOut reg f.ty blame)
    (hover : blame (.aborted .overflow)) (hzero : blame (.aborted .zeroDivisor) ∨
      0 < reg.target.intSize ∧ 0 < reg.target.ptrSize) : Settles (arrange layOut r) reg
    (fun l reg' => Arranged reg'.target reg'.layout? r.isUnion r.fields l) blame := by
  unfold arrange
  cases r.isUnion with
  | true =>
    refine (settles_placeOverlapping hc hlay ⟨0, 1, []⟩).bind fun l reg₁ hm₁ hc₁ hplaced => ?_
    refine (settles_maxAlign hc₁ (fun f hf => (hlay f hf).mono hm₁) 1).bind
      fun m reg₂ hm₂ hc₂ hmax => settles_pure hc₂ ?_
    obtain ⟨m', hplaced⟩ := hplaced 1
    have hassembled := assemble_mono (fun _ _ _ _ _ => hm₂.freezes.layout?) hplaced
    rw [← hm₂.target] at hassembled
    obtain rfl : m' = m := hmax ⟨0, 1, []⟩ _ hassembled
    exact ⟨hassembled, by simp⟩
  | false =>
    exact (settles_placeInOrder hc hlay hover hzero ⟨0, 1, []⟩).imp
      (fun _ _ _ _ h => ⟨h.1, fun _ => h.2⟩) fun _ h => h

end Placing

theorem changeRecord_eq (hr : reg.records[id]? = some r) (change : Record → Record) :
    changeRecord id change reg = .ok () { reg with records := reg.records.modify id change } := by
  have hlt : id < reg.records.size := (Array.getElem?_eq_some_iff.mp hr).1
  simp only [changeRecord, Action.ask, withRecord, Arena.update, if_pos hlt, bind,
    EStateM.bind, Except.bind]
  rfl

theorem getElem?_modify (hr : reg.records[id]? = some r) (change : Record → Record)
    (other : RecordId) : (reg.records.modify id change)[other]? = if other = id then some (change r)
    else reg.records[other]? := by
  rw [Array.getElem?_modify]
  by_cases heq : other = id
  · simp [heq, hr]
  · simp [heq, Ne.symm heq]

/-- Keeping the layout that a record has been found to have. -/
theorem settles_keepLayout (hc : reg.Consistent) (hr : reg.records[id]? = some r)
    (hl : Arranged reg.target reg.layout? r.isUnion r.fields l) :
    Settles (changeRecord id fun r => { r with layout := some l }) reg
    (fun _ reg' => reg'.layout? id = some l) blame := by
  have hget := getElem?_modify hr fun r => { r with layout := some l }
  have hm : reg.Memoizes
      { reg with records := reg.records.modify id fun r => { r with layout := some l } } := by
    refine ⟨rfl, Array.size_modify .., fun {other s} hs => ?_⟩
    by_cases heq : other = id
    · subst heq
      obtain rfl := some.inj (hr.symm.trans hs)
      refine ⟨some l, by simp [hget], fun l' hl' => ?_⟩
      -- a layout that has been kept in the meantime is the same
      exact hl.assembled.symm.trans (hc.assembled hr hl')
    · exact ⟨s.layout, by simp [hget, heq, hs], fun _ hl' => hl'⟩
  have hkept :
      layout? { reg with records := reg.records.modify id fun r => { r with layout := some l } }
      id = some l := by
    simp [layout?, hget]
  unfold Settles
  rw [changeRecord_eq hr]
  refine ⟨hm, ⟨fun {other s l'} hs hl' => ?_, fun {other l'} hl' => ?_⟩, hkept⟩
  · rw [hget] at hs
    refine Arranged.mono ?_ fun _ _ => hm.freezes.layout?
    split at hs
    · obtain rfl := some.inj hs
      obtain rfl := some.inj hl'
      exact hl
    · exact hc.arranged hs hl'
  · by_cases heq : other = id
    · subst heq
      obtain rfl := some.inj (hkept.symm.trans hl')
      obtain ⟨fuel, hfuel⟩ :
          ∃ fuel, assemble reg.target (reg.computed fuel) r.isUnion r.fields blank = some l :=
        exists_fuel_of_assemble (fun _ _ h => hc.computed h) hl.assembled
      refine ⟨fuel + 1, ?_⟩
      rw [hm.computed_eq, computed, hr]
      exact hfuel
    · have hl : reg.layout? other = some l' := by simpa [layout?, hget, heq] using hl'
      obtain ⟨fuel, hfuel⟩ := hc.computed hl
      exact ⟨fuel, by rw [hm.computed_eq, hfuel]⟩

/-- What laying out a record may end with: a size that gets too large, an alignment of zero, or a
record that is not there or contains itself and is met on following fields by value. -/
def Fails (reg : Registry) (id : RecordId) (e : Fault TypeError) : Prop :=
  e = .aborted .overflow ∨
    (e = .aborted .zeroDivisor ∧ ¬(0 < reg.target.intSize ∧ 0 < reg.target.ptrSize)) ∨
    ∃ inner, Relation.ReflTransGen reg.Holds id inner ∧ (e = .aborted .missing ∧
    reg.records.size ≤ inner ∨ e = .refused (.recursiveByValue inner) ∧ reg.Contains inner inner)

/-- Laying out a record keeps the layout it delivers. The records in progress are different records
of the registry, and each of them contains the one that is laid out. -/
theorem settles_layOutWithin {reg₀ : Registry} {inProgress : List RecordId}
    (hm : reg₀.Memoizes reg) (hc : reg.Consistent)
    (hfuel : reg₀.records.size < fuel + inProgress.length) (hnodup : inProgress.Nodup)
    (hpath : ∀ p ∈ inProgress, p < reg₀.records.size ∧ reg₀.Contains p id) :
    Settles (layOutWithin fuel inProgress id) reg (fun l reg' => reg'.layout? id = some l)
    (reg₀.Fails id) := by
  induction fuel generalizing reg inProgress id with
  | zero =>
    have hsub : inProgress ⊆ List.range reg₀.records.size :=
      fun p hp => mem_range.mpr (hpath p hp).1
    have hle := (subperm_of_subset hnodup hsub).length_le
    rw [length_range] at hle
    omega
  | succ fuel ih =>
    have hmissing (hout : reg.records.size ≤ id) : reg₀.Fails id (.aborted .missing) :=
      Or.inr (Or.inr ⟨id, .refl, Or.inl ⟨rfl, hm.size ▸ hout⟩⟩)
    refine (settles_recordNow hc id hmissing).bind fun r reg' _ _ hr => ?_
    obtain ⟨hr, rfl⟩ := hr
    split
    · rename_i l hl
      exact settles_pure hc (layout?_eq_some_iff.mpr ⟨r, hr, hl⟩)
    · split
      · rename_i hmet
        exact settles_throw hc (Or.inr (Or.inr ⟨id, .refl, Or.inr ⟨rfl, (hpath id hmet).2⟩⟩))
      · rename_i hnew
        have hid : id < reg₀.records.size := hm.size ▸ (Array.getElem?_eq_some_iff.mp hr).1
        have hr₀ := Array.getElem?_eq_getElem hid
        obtain ⟨o, hkept, -⟩ := hm.kept hr₀
        obtain rfl := some.inj (hkept.symm.trans hr)
        have hzero : reg₀.Fails id (.aborted .zeroDivisor) ∨ 0 < reg'.target.intSize ∧
            0 < reg'.target.ptrSize := by
          rw [hm.target, or_iff_not_imp_right]
          exact fun hpos => Or.inr (Or.inl ⟨rfl, hpos⟩)
        refine (settles_arrange hc (fun f hf inner hty => ?_) (Or.inl rfl) hzero).bind
          fun l reg₁ hm₁ hc₁ hl => ?_
        · have hholds : reg₀.Holds id inner := ⟨_, hr₀, f, hf, hty⟩
          have hback : ∀ e, reg₀.Fails inner e → reg₀.Fails id e := fun e =>
            Or.imp_right (Or.imp_right fun ⟨j, hreach, hj⟩ => ⟨j, hreach.head hholds, hj⟩)
          refine ⟨fun hout => hback _ (Or.inr
            (Or.inr ⟨inner, .refl, Or.inl ⟨rfl, hm.size ▸ hout⟩⟩)), fun reg₁ hm₁ hc₁ => ?_⟩
          exact (ih (hm.trans hm₁) hc₁ (by rw [length_cons]; omega) (nodup_cons.mpr ⟨hnew, hnodup⟩)
            (forall_mem_cons.mpr ⟨⟨hid, .single hholds⟩, fun p hp =>
            ⟨(hpath p hp).1, (hpath p hp).2.tail hholds⟩⟩)).imp (fun _ _ _ _ h => h) hback
        · obtain ⟨o, hr₁, -⟩ := hm₁.kept hr
          exact (settles_keepLayout hc₁ hr₁ hl).bind fun _ reg₂ _ hc₂ hkept =>
            settles_pure hc₂ hkept

theorem lays_layOut (id : RecordId) (reg : Registry) (hc : reg.Consistent) :
    Settles (layOut id) reg (fun l reg' => reg'.layout? id = some l) (reg.Fails id) :=
  settles_layOutWithin (.refl reg) hc (Nat.lt_succ_self _) .nil (by simp)

theorem lays_all (reg : Registry) (ty : Ty) : Lays layOut reg ty fun _ => True := fun id _ =>
  ⟨fun _ => trivial,
    fun reg' _ hc => (lays_layOut id reg' hc).imp (fun _ _ _ _ h => h) fun _ _ => trivial⟩

/-! ### Operations on the registry -/

/-- The registry has gone on from `reg`: what was laid out there is frozen, and what is kept now is
consistent. -/
structure GoesOn (reg reg' : Registry) : Prop extends reg.Freezes reg' where
  consistent : reg'.Consistent

theorem GoesOn.next (h : reg.GoesOn reg') (h' : reg'.Freezes reg'')
    (hold : ∀ id l, reg''.layout? id = some l → reg'.layout? id = some l) : reg.GoesOn reg'' :=
  ⟨h.toFreezes.trans h', h'.consistent h.consistent hold⟩

/-- What settles goes on from any registry. -/
theorem Settles.keeps {x : TypeAction α} {post : Registry → α → Registry → Prop}
    {blame : Registry → Fault TypeError → Prop}
    (h : ∀ reg : Registry, reg.Consistent → Settles x reg (post reg) (blame reg)) :
    x.Keeps reg.GoesOn := by
  intro reg₁ h₁
  have hx := h reg₁ h₁.consistent
  unfold Settles at hx
  cases hrun : x reg₁ with
  | ok a reg₂ =>
    rw [hrun] at hx
    exact ⟨h₁.toFreezes.trans hx.1.freezes, hx.2.1⟩
  | error e reg₂ =>
    rw [hrun] at hx
    exact ⟨h₁.toFreezes.trans hx.1.1.freezes, hx.2⟩

/-- Changing a record that has not been laid out, or only which record it extends. -/
theorem GoesOn.modify (h : reg.GoesOn reg') (hr : reg'.records[id]? = some r)
    (hlayout : (change r).layout = r.layout) (hfrozen : r.layout.isSome = true →
      (change r).fields = r.fields ∧ (change r).isUnion = r.isUnion) :
    reg.GoesOn { reg' with records := reg'.records.modify id change } := by
  have hget := getElem?_modify hr change
  refine h.next ⟨rfl, fun {other s l} hs hl => ?_⟩ fun other l hl => ?_
  · by_cases heq : other = id
    · subst heq
      obtain rfl := some.inj (hr.symm.trans hs)
      obtain ⟨hfields, hunion⟩ := hfrozen (by rw [hl]; rfl)
      exact ⟨change r, by simp [hget], hfields, hunion, hlayout.trans hl⟩
    · exact ⟨s, by simp [hget, heq, hs], rfl, rfl, hl⟩
  · obtain ⟨r', hr', hl'⟩ := layout?_eq_some_iff.mp hl
    rw [hget] at hr'
    split at hr'
    · rename_i heq
      obtain rfl := some.inj hr'
      exact layout?_eq_some_iff.mpr ⟨r, heq ▸ hr, hlayout.symm.trans hl'⟩
    · exact layout?_eq_some_iff.mpr ⟨r', hr', hl'⟩

open CoroutineIR.Action

theorem keeps_declare (name : Option String) (isUnion : Bool) :
    (declare name isUnion).Keeps reg.GoesOn := by
  refine keeps_get.bind fun _ => (keeps_modify fun reg' h => ?_).bind fun _ => keeps_pure _
  refine h.next ⟨rfl, fun {id r l} hr hl => ⟨r, ?_, rfl, rfl, hl⟩⟩ fun id l hl => ?_
  · have hlt := (Array.getElem?_eq_some_iff.mp hr).1
    simp [Array.getElem?_push, hr, Nat.ne_of_lt hlt]
  · obtain ⟨r, hr, hl⟩ := layout?_eq_some_iff.mp hl
    simp only [Array.getElem?_push] at hr
    split at hr
    · obtain rfl := some.inj hr
      cases hl
    · exact layout?_eq_some_iff.mpr ⟨r, hr, hl⟩

/-- A change of a record that is not laid out. -/
theorem keeps_changeRecord (h : ∀ reg' r, reg.GoesOn reg' → reg'.records[id]? = some r →
    reg.GoesOn { reg' with records := reg'.records.modify id change }) :
    (changeRecord id change).Keeps reg.GoesOn := by
  intro reg' hreg'
  cases hr : reg'.records[id]? with
  | none =>
    have hlt : ¬id < reg'.records.size := by simpa using hr
    simp only [changeRecord, Action.ask, withRecord, Arena.update, if_neg hlt, bind,
      EStateM.bind, Except.bind]
    exact hreg'
  | some r =>
    rw [changeRecord_eq hr]
    exact h reg' r hreg' hr

theorem recordNow_eq_ok (hr : reg.records[id]? = some r) :
    (recordNow id : TypeAction Record) reg = .ok r reg := by
  simp [recordNow, Action.ask, record, fetch, hr, Attempt.present]

/-- A field is only added to a record that is not laid out. -/
theorem keeps_addField (id : RecordId) (field : Field) : (addField id field).Keeps reg.GoesOn := by
  intro reg' hreg'
  cases hr : reg'.records[id]? with
  | none =>
    have hmissing : addField id field reg' = .error (.aborted .missing) reg' := by
      simp [addField, recordNow, Action.ask, record, fetch, hr, Attempt.present,
        Attempt.abort, bind, EStateM.bind]
    rw [hmissing]
    exact hreg'
  | some r =>
    have hrecord := recordNow_eq_ok hr
    cases hl : r.isLaidOut with
    | true =>
      have hrefused : addField id field reg' = .error (.refused (.alreadyLaidOut id)) reg' := by
        simp only [addField, bind, EStateM.bind, hrecord, hl, if_true]
        rfl
      rw [hrefused]
      exact hreg'
    | false =>
      have hadded : addField id field reg' =
          .ok r.fields.length { reg' with
            records := reg'.records.modify id
              fun r => { r with fields := r.fields ++ [field] } } := by
        have hchange := changeRecord_eq hr fun r => { r with fields := r.fields ++ [field] }
        simp [addField, bind, EStateM.bind, hrecord, hl, hchange, pure, EStateM.pure]
      rw [hadded]
      exact hreg'.modify hr rfl fun hlaid => absurd (hl.symm.trans hlaid) Bool.false_ne_true

theorem keeps_recordNow (id : RecordId) : (recordNow id).Keeps reg.GoesOn := keeps_ask _

theorem keeps_layOut (id : RecordId) : (layOut id).Keeps reg.GoesOn :=
    Settles.keeps (lays_layOut id)

theorem keeps_sizeOf (ty : Ty) : (sizeOf ty).Keeps reg.GoesOn :=
  Settles.keeps fun _ hc => settles_sizeVia hc (lays_all _ ty)

theorem keeps_alignOf (ty : Ty) : (alignOf ty).Keeps reg.GoesOn :=
  Settles.keeps fun _ hc => settles_alignVia hc (lays_all _ ty)

theorem keeps_fieldOffsetWithin (fuel : Nat) (id : RecordId) (name : String) :
    (fieldOffsetWithin fuel id name).Keeps reg.GoesOn := by
  induction fuel generalizing id with
  | zero => exact keeps_throw _
  | succ fuel ih =>
    refine (keeps_layOut id).bind fun l => ?_
    split
    · exact keeps_pure _
    · refine (keeps_recordNow id).bind fun r => ?_
      split
      · exact ih _
      · exact keeps_throw _

end Registry

/-- An operation on a registry. -/
inductive TypeOperation where
  | declare (name : Option String) (isUnion : Bool)
  | addField (id : RecordId) (field : Field)
  | addFieldsOf (id source : RecordId)
  | extend (id base : RecordId)
  | layOut (id : RecordId)
  | sizeOf (ty : Ty)
  | alignOf (ty : Ty)
  | strideOf (ty : Ty)
  | fieldOffset (id : RecordId) (name : String)

namespace TypeOperation

variable {reg reg' : Registry}

/-- The operation without its answer. -/
def run : TypeOperation → TypeAction Unit
  | declare name isUnion => do let _ ← Registry.declare name isUnion
  | addField id field => do let _ ← Registry.addField id field
  | addFieldsOf id source => Registry.addFieldsOf id source
  | extend id base => Registry.extend id base
  | layOut id => do let _ ← Registry.layOut id
  | sizeOf ty => do let _ ← Registry.sizeOf ty
  | alignOf ty => do let _ ← Registry.alignOf ty
  | strideOf ty => do let _ ← Registry.strideOf ty
  | fieldOffset id name => do let _ ← Registry.fieldOffset id name

/-- The registry that an operation leaves, whether it delivers an answer or not. -/
def leaves (reg : Registry) (op : TypeOperation) : Registry :=
  match op.run reg with
  | .ok _ reg' => reg'
  | .error _ reg' => reg'

open CoroutineIR.Action Registry

/-- Every operation goes on from the layouts kept so far. -/
theorem keeps_run (op : TypeOperation) (reg : Registry) : op.run.Keeps reg.GoesOn := by
  cases op with
  | declare name isUnion => exact (keeps_declare name isUnion).bind fun _ => keeps_pure _
  | addField id field => exact (keeps_addField id field).bind fun _ => keeps_pure _
  | addFieldsOf id source =>
    exact (keeps_recordNow source).bind fun _ => keeps_forM fun f _ =>
      (keeps_addField id f).bind fun _ => keeps_pure _
  | extend id base =>
    exact keeps_changeRecord fun _ _ h hr => h.modify hr rfl fun _ => ⟨rfl, rfl⟩
  | layOut id => exact (keeps_layOut id).bind fun _ => keeps_pure _
  | sizeOf ty => exact (keeps_sizeOf ty).bind fun _ => keeps_pure _
  | alignOf ty => exact (keeps_alignOf ty).bind fun _ => keeps_pure _
  | strideOf ty =>
    exact ((keeps_sizeOf ty).bind fun _ => (keeps_alignOf ty).bind fun _ => keeps_toAction _).bind
      fun _ => keeps_pure _
  | fieldOffset id name =>
    exact (keeps_get.bind fun _ => keeps_fieldOffsetWithin _ id name).bind fun _ => keeps_pure _

/-- One operation. -/
theorem goesOn_leaves (h : reg.GoesOn reg') (op : TypeOperation) : reg.GoesOn (leaves reg' op) := by
  have hrun := keeps_run op reg reg' h
  unfold leaves
  cases hend : op.run reg' with
  | ok _ reg'' | error _ reg'' =>
    rw [hend] at hrun
    exact hrun

/-- A sequence of operations. -/
theorem goesOn_foldl (h : reg.GoesOn reg') (ops : List TypeOperation) :
    reg.GoesOn (ops.foldl leaves reg') := by
  induction ops generalizing reg' with
  | nil => exact h
  | cons op ops ih => exact ih (goesOn_leaves h op)

end TypeOperation

namespace Registry

open TypeOperation

theorem consistent_empty (target : Target) : (empty target).Consistent := by
  have hnone : ∀ id : RecordId, (empty target).records[id]? = none := fun id => by simp [empty]
  refine ⟨fun hr _ => ?_, fun hl => ?_⟩
  · rw [hnone] at hr
    cases hr
  · rw [layout?, hnone] at hl
    cases hl

/-- What is known once a record has been laid out, whatever operations have led to the registry. -/
theorem kept_of_layOut {target : Target} {ops : List TypeOperation}
    {id : RecordId} {l : RecordLayout} {reg' : Registry}
    (hlaid : layOut id (ops.foldl leaves (empty target)) = .ok l reg') :
    (ops.foldl leaves (empty target)).Memoizes reg' ∧ reg'.Consistent ∧ reg'.layout? id = some l ∧
    reg'.target = target := by
  have hgoes := goesOn_foldl ⟨.refl _, consistent_empty target⟩ ops
  have hsettles := lays_layOut id _ hgoes.consistent
  unfold Settles at hsettles
  rw [hlaid] at hsettles
  exact ⟨hsettles.1, hsettles.2.1, hsettles.2.2, hsettles.1.target.trans hgoes.target⟩

/-- Whatever operations have led to a registry: a layout that is kept is the one that is computed
from the definitions of the registry alone, whatever the record contains by value is laid out as
well, and no further operations change the fields of the record or its layout. Laying out a record
keeps the layout it delivers. -/
theorem layouts_stay_computed (target : Target) (ops later : List TypeOperation) :
    let reg := ops.foldl leaves (empty target)
    (∀ id r l, reg.records[id]? = some r → r.layout = some l →
      (∃ fuel, ∀ more ≥ fuel, reg.computed more id = some l) ∧
      (∀ inner, reg.Contains id inner → ∃ r', reg.records[inner]? = some r' ∧ r'.isLaidOut = true) ∧
      ∃ r', (later.foldl leaves reg).records[id]? = some r' ∧ r'.fields = r.fields ∧
        r'.isUnion = r.isUnion ∧ r'.layout = some l) ∧
    ∀ id l reg', layOut id reg = .ok l reg' →
      ∃ r', reg'.records[id]? = some r' ∧ r'.layout = some l := by
  intro reg
  have hc : reg.Consistent := (goesOn_foldl ⟨.refl _, consistent_empty target⟩ ops).consistent
  refine ⟨fun id r l hr hl => ⟨?_, fun inner hcontains => ?_, ?_⟩, fun id l reg' hok => ?_⟩
  · obtain ⟨fuel, hfuel⟩ := hc.computed (layout?_eq_some_iff.mpr ⟨r, hr, hl⟩)
    exact ⟨fuel, fun more hmore => computed_mono hfuel hmore⟩
  · obtain ⟨li, hli⟩ := hc.contains (layout?_eq_some_iff.mpr ⟨r, hr, hl⟩) hcontains
    obtain ⟨r', hr', hlayout⟩ := layout?_eq_some_iff.mp hli
    exact ⟨r', hr', by rw [Record.isLaidOut, hlayout]; rfl⟩
  · exact (goesOn_foldl ⟨.refl reg, hc⟩ later).frozen hr hl
  · have hlaid := lays_layOut id reg hc
    unfold Settles at hlaid
    rw [hok] at hlaid
    exact layout?_eq_some_iff.mp hlaid.2.2

/-- A structure with an array of another one and with a structure without fields. Once it has been
laid out, neither of the two it contains gains fields. -/
theorem layouts_stay_computed_nested :
    let fields : List Field :=
      [⟨"head", .scalar .i8, 1⟩, ⟨"body", .record 0, 2⟩, ⟨"mark", .record 2, 1⟩]
    let ops : List TypeOperation :=
      [.declare (some "inner") false, .declare (some "outer") false, .declare none false,
      .addField 0 ⟨"value", .scalar .i64, 1⟩] ++ fields.map (.addField 1) ++ [.layOut 1]
    let later : List TypeOperation := [.addField 0 ⟨"late", .scalar .i8, 1⟩,
      .addField 2 ⟨"late", .scalar .i8, 1⟩, .extend 1 2, .addFieldsOf 1 0, .sizeOf (.record 2)]
    let reg := ops.foldl leaves (empty {})
    let l : RecordLayout := ⟨24, 8, [("mark", 24), ("body", 8), ("head", 0)]⟩
    reg.records[1]? = some ⟨some "outer", fields, false, none, some l⟩ ∧ reg.Contains 1 2 ∧
      (∃ fuel, ∀ more ≥ fuel, reg.computed more 1 = some l) ∧
      (∃ r', reg.records[2]? = some r' ∧ r'.isLaidOut = true) ∧
      ∃ r', (later.foldl leaves reg).records[1]? = some r' ∧ r'.fields = fields ∧
      r'.isUnion = false ∧ r'.layout = some l := by
  intro fields ops later reg l
  have hrecord : reg.records[1]? = some ⟨some "outer", fields, false, none, some l⟩ := by
    decide +kernel
  have hcontains : reg.Contains 1 2 :=
    .single ⟨_, hrecord, ⟨"mark", .record 2, 1⟩, by simp [fields], rfl⟩
  obtain ⟨hcomputed, hinner, hstays⟩ := (layouts_stay_computed {} ops later).1 1 _ l hrecord rfl
  exact ⟨hrecord, hcontains, hcomputed, hinner 2 hcontains, hstays⟩

end Registry

end CoroutineIR
