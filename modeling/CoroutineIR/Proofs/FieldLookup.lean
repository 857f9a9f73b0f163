import CoroutineIR.Proofs.Members

/-!
# Looking up fields

The position and the type of a field are looked up in the record itself, where the first field of
the name is taken. The offset is looked up in the layouts of the record and of those it extends, one
after another, and there the last field of the name counts. The look-ups describe the same field
where the record itself has one field of the name.
-/

namespace CoroutineIR.Registry

open List Option CoroutineIR.Action TypeOperation Arena

variable {reg reg₀ reg' : Registry} {id base : RecordId} {l : RecordLayout}
  {r s : Record} {f : Field} {name : String} {lineage rest : List (RecordId × Record)}
  {i o fuel : Nat} {fields : List Field} {x : TypeAction α} {post : α → Registry → Prop}

/-- A record and those it extends, up to one that extends no other. -/
inductive Lineage (reg : Registry) : RecordId → List (RecordId × Record) → Prop
  | root {id : RecordId} {r : Record} (hr : reg.records[id]? = some r) (hbase : r.base = none) :
    Lineage reg id [(id, r)]
  | step {id base : RecordId} {r : Record} {rest : List (RecordId × Record)}
      (hr : reg.records[id]? = some r)
      (hbase : r.base = some base) (hrest : Lineage reg base rest) :
      Lineage reg id ((id, r) :: rest)

/-- The first field of a name. -/
def FirstNamed (fields : List Field) (name : String) (i : Nat) (f : Field) : Prop :=
  fields[i]? = some f ∧ f.name = name ∧ ∀ j g, j < i → fields[j]? = some g → g.name ≠ name

/-- The last field of a name. -/
def LastNamed (fields : List Field) (name : String) (i : Nat) (f : Field) : Prop :=
  fields[i]? = some f ∧ f.name = name ∧ ∀ j g, i < j → fields[j]? = some g → g.name ≠ name

/-- No field has the name. -/
def Lacks (r : Record) (name : String) : Prop := ∀ f ∈ r.fields, f.name ≠ name

/-! ### The lineage of a record -/

namespace Lineage

/-- A record has one line of ancestors. -/
theorem unique (h : reg.Lineage id lineage) {lineage' : List (RecordId × Record)}
    (h' : reg.Lineage id lineage') : lineage = lineage' := by
  induction h generalizing lineage' with
  | root hr hbase =>
    cases h' with
    | root hr' => rw [some.inj (hr.symm.trans hr')]
    | step hr' hbase' =>
      obtain rfl := some.inj (hr.symm.trans hr')
      cases hbase.symm.trans hbase'
  | step hr hbase _ ih =>
    cases h' with
    | root hr' hbase' =>
      obtain rfl := some.inj (hr.symm.trans hr')
      cases hbase.symm.trans hbase'
    | step hr' hbase' hrest' =>
      obtain rfl := some.inj (hr.symm.trans hr')
      obtain rfl := some.inj (hbase.symm.trans hbase')
      rw [ih hrest']

/-- An ancestor has a line of its own that is no longer. -/
theorem exists_of_mem (h : reg.Lineage id lineage) {p : RecordId × Record} (hp : p ∈ lineage) :
    reg.records[p.1]? = some p.2 ∧ ∃ lineage', reg.Lineage p.1 lineage' ∧
    lineage'.length ≤ lineage.length := by
  induction h with
  | root hr hbase =>
    obtain rfl := mem_singleton.mp hp
    exact ⟨hr, _, .root hr hbase, Nat.le_refl _⟩
  | step hr hbase hrest ih =>
    rcases mem_cons.mp hp with rfl | hp
    · exact ⟨hr, _, .step hr hbase hrest, Nat.le_refl _⟩
    · obtain ⟨hr', lineage', hlineage', hle⟩ := ih hp
      exact ⟨hr', lineage', hlineage', Nat.le_succ_of_le hle⟩

/-- A record that occurred twice would have two lineages. -/
theorem nodup (h : reg.Lineage id lineage) : (lineage.map Prod.fst).Nodup := by
  induction h with
  | root => simp
  | step hr hbase hrest ih =>
    refine nodup_cons.mpr ⟨fun hmem => ?_, ih⟩
    obtain ⟨p, hp, rfl⟩ := List.mem_map.mp hmem
    obtain ⟨-, lineage', hlineage', hle⟩ := hrest.exists_of_mem hp
    rw [← (step hr hbase hrest).unique hlineage', length_cons] at hle
    omega

/-- A line of ancestors is no longer than the registry. -/
theorem length_le (h : reg.Lineage id lineage) : lineage.length ≤ reg.records.size := by
  have hsub : lineage.map Prod.fst ⊆ List.range reg.records.size := by
    intro j hj
    obtain ⟨p, hp, rfl⟩ := List.mem_map.mp hj
    exact mem_range.mpr (Array.getElem?_eq_some_iff.mp (h.exists_of_mem hp).1).1
  simpa using (subperm_of_subset h.nodup hsub).length_le

end Lineage

/-! ### Fields of a name -/

/-- Of the fields of a name one is the last. -/
theorem exists_lastNamed (h : ∃ f ∈ fields, f.name = name) : ∃ i f, LastNamed fields name i f := by
  induction fields with
  | nil => simp at h
  | cons g rest ih =>
    by_cases hrest : ∃ f ∈ rest, f.name = name
    · obtain ⟨i, f, hf, hname, hlast⟩ := ih hrest
      refine ⟨i + 1, f, hf, hname, fun j k hj hk => ?_⟩
      obtain ⟨j, rfl⟩ : ∃ n, j = n + 1 := ⟨j - 1, by omega⟩
      exact hlast j k (by omega) hk
    · have hg : g.name = name := by simpa [hrest] using h
      refine ⟨0, g, rfl, hg, fun j k hj hk heq => hrest ⟨k, ?_, heq⟩⟩
      obtain ⟨j, rfl⟩ : ∃ n, j = n + 1 := ⟨j - 1, by omega⟩
      exact mem_of_getElem? hk

theorem FieldAt.congr (h : reg.FieldAt s i f o) (hfields : s.fields = r.fields)
    (hunion : s.isUnion = r.isUnion) : reg.FieldAt r i f o := by
  induction h with
  | overlapping hu hf => exact .overlapping (hunion ▸ hu) (hfields ▸ hf)
  | first hs hf => exact .first (hunion ▸ hs) (hfields ▸ hf)
  | next _ hs hstride hf halign ih => exact .next ih (hunion ▸ hs) hstride (hfields ▸ hf) halign

/-- The layout of a record knows the names of its fields, each with the place of the last field of
the name. -/
theorem offset?_cases (hc : reg.Consistent) (hr : reg.records[id]? = some r)
    (hl : r.layout = some l) (name : String) : Lacks r name ∧ l.offset? name = none ∨
    ∃ i f o, LastNamed r.fields name i f ∧ reg.FieldAt r i f o ∧ l.offset? name = some o := by
  by_cases hname : ∃ f ∈ r.fields, f.name = name
  · obtain ⟨i, f, hf, rfl, hlast⟩ := exists_lastNamed hname
    obtain ⟨o, ho, hoffset⟩ := exists_fieldAt hc hr hl hf
    exact Or.inr ⟨i, f, o, ⟨hf, rfl, hlast⟩, ho, hoffset hlast⟩
  · refine Or.inl ⟨fun f hf heq => hname ⟨f, hf, heq⟩, ?_⟩
    exact offset?_of_assemble (hc.assembled hr hl) (by simpa using hname)

/-! ### Look-ups -/

section Own

variable (hr : reg.records[id]? = some r)
include hr

theorem fieldIndex_eq : reg.fieldIndex id name = Attempt.orRefuse (.unknownField id name)
    (r.fieldIndex? name) := by
  simp [fieldIndex, record, fetch, hr, Attempt.present]

/-- Position and type are those of the first field of the name. -/
theorem fieldIndex_of_firstNamed (h : FirstNamed r.fields name i f) :
    reg.fieldIndex id name = .ok i ∧ reg.fieldType id name = .ok f.ty := by
  obtain ⟨hf, rfl, hfirst⟩ := h
  obtain ⟨hlt, rfl⟩ := List.getElem?_eq_some_iff.mp hf
  have hindex : reg.fieldIndex id r.fields[i].name = .ok i := by
    have hfound : r.fieldIndex? r.fields[i].name = some i := findIdx?_eq_some_iff_getElem.mpr
      ⟨hlt, beq_self_eq_true _, fun j hj => by simpa using hfirst j _ hj (getElem?_eq_getElem _)⟩
    rw [fieldIndex_eq hr, hfound]
    rfl
  refine ⟨hindex, ?_⟩
  simp [fieldType, hindex, record, fetch, hr, hf, Attempt.present]

/-- Position and type are refused without a field of the name. -/
theorem fieldIndex_of_lacks (h : Lacks r name) :
    reg.fieldIndex id name = .error (.refused (.unknownField id name)) ∧
      reg.fieldType id name = .error (.refused (.unknownField id name)) := by
  have hindex : reg.fieldIndex id name = .error (.refused (.unknownField id name)) := by
    have hnone : r.fieldIndex? name = none :=
      findIdx?_eq_none_iff.mpr fun f hf => beq_false_of_ne (h f hf)
    rw [fieldIndex_eq hr, hnone]
    rfl
  exact ⟨hindex, by simp [fieldType, hindex]⟩

end Own

theorem Settles.ends {blame : Fault TypeError → Prop} (h : Settles x reg post blame) :
    x.Ends reg (fun a reg' => reg.Memoizes reg' ∧ reg'.Consistent ∧ post a reg') fun e =>
    ∃ reg', x reg = .error e reg' := by
  unfold Settles at h
  unfold Ends
  cases hx : x reg with
  | ok a reg' => rwa [hx] at h
  | error e reg' => exact ⟨reg', rfl⟩

/-- The offset is the place of the last field of the name in the first record of the lineage that
has one. -/
def Locates (lineage : List (RecordId × Record)) (name : String) (o : Nat)
    (reg : Registry) : Prop :=
  ∃ before j s after i f, lineage = before ++ (j, s) :: after ∧ (∀ p ∈ before, Lacks p.2 name) ∧
    LastNamed s.fields name i f ∧ reg.FieldAt s i f o

/-- If the record itself has a field of the name, its offset is looked up. -/
theorem Locates.own (h : Locates ((id, r) :: rest) name o reg)
    (hlast : LastNamed r.fields name i f) : reg.FieldAt r i f o := by
  obtain ⟨before, j, s, after, k, g, heq, hbefore, ⟨hg, hname, hlast'⟩, hat⟩ := h
  cases before with
  | nil =>
    cases heq
    obtain rfl : i = k := by
      rcases Nat.lt_trichotomy i k with hlt | heq | hlt
      · exact absurd hname (hlast.2.2 k g hlt hg)
      · exact heq
      · exact absurd hlast.2.1 (hlast' i f hlt hlast.1)
    obtain rfl := some.inj (hlast.1.symm.trans hg)
    exact hat
  | cons p before =>
    cases heq
    exact absurd hlast.2.1 (hbefore _ mem_cons_self f (mem_of_getElem? hlast.1))

/-- The look-up fails because no record of the lineage has a field of the name, or as laying out the
first record that may have one does, with the layouts that are kept by then. -/
def Misses (reg : Registry) (lineage : List (RecordId × Record)) (name : String)
    (e : Fault TypeError) : Prop :=
  (∃ j, e = .refused (.unknownField j name) ∧ ∀ p ∈ lineage, Lacks p.2 name) ∨
    ∃ before p after reg₁ reg₂, lineage = before ++ p :: after ∧ (∀ q ∈ before, Lacks q.2 name) ∧
      reg.Memoizes reg₁ ∧ layOut p.1 reg₁ = .error e reg₂

/-- A look-up in one record, and in the one it extends if no field has the name. -/
theorem ends_fieldOffsetWithin_succ (hr : reg₀.records[id]? = some r) (hm : reg₀.Memoizes reg)
    (hc : reg.Consistent) (hgo : Lacks r name → ∀ reg₁, reg₀.Memoizes reg₁ → reg₁.Consistent →
      (r.base.elim (throw (.refused (.unknownField id name))) fun base => fieldOffsetWithin fuel
      base name).Ends reg₁ (Locates ((id, r) :: rest) name) (reg₀.Misses ((id, r) :: rest) name)) :
    (fieldOffsetWithin (fuel + 1) id name).Ends reg (Locates ((id, r) :: rest) name)
    (reg₀.Misses ((id, r) :: rest) name) := by
  refine ends_bind.mpr (((lays_layOut id reg hc).ends.imp fun e he => ?_).mono ?_)
  · obtain ⟨reg₂, he⟩ := he
    exact Or.inr ⟨[], _, rest, reg, reg₂, rfl, by simp, hm, he⟩
  rintro l reg₁ ⟨hm₁, hc₁, hl⟩
  obtain ⟨layout, hr₁, -⟩ := (hm.trans hm₁).kept hr
  obtain ⟨s, hs, hlayout⟩ := layout?_eq_some_iff.mp hl
  obtain rfl := some.inj (hs.symm.trans hr₁)
  obtain ⟨hlacks, hnone⟩ | ⟨i, f, o, hlast, ho, hsome⟩ := offset?_cases hc₁ hs hlayout name
  · have hend := hgo hlacks reg₁ (hm.trans hm₁) hc₁
    rw [hnone]
    refine ends_bind.mpr (ends_toAction (fun s hs' => ?_) fun e he => ?_)
    · obtain rfl := some.inj (hs.symm.trans (fetch_eq_ok_iff.mp hs'))
      cases hbase : r.base with
      | none | some base =>
        rw [hbase] at hend
        exact hend
    · simp [record, fetch, hs, Attempt.present] at he
  · rw [hsome]
    exact ⟨[], id, r, rest, i, f, rfl, by simp, hlast, ho.congr rfl rfl⟩

/-- The offset is looked up along the ancestors. -/
theorem ends_fieldOffsetWithin (h : reg₀.Lineage id lineage) (hm : reg₀.Memoizes reg)
    (hc : reg.Consistent) (hfuel : lineage.length ≤ fuel) :
    (fieldOffsetWithin fuel id name).Ends reg (Locates lineage name)
    (reg₀.Misses lineage name) := by
  induction h generalizing reg fuel with
  | @root id r hr hbase =>
    obtain ⟨fuel, rfl⟩ : ∃ k, fuel = k + 1 := ⟨fuel - 1, by rw [length_singleton] at hfuel; omega⟩
    refine ends_fieldOffsetWithin_succ hr hm hc fun hlacks reg₁ _ _ => ?_
    rw [hbase]
    exact Or.inl ⟨id, rfl, forall_mem_cons.mpr ⟨hlacks, by simp⟩⟩
  | @step id base r rest hr hbase hrest ih =>
    obtain ⟨fuel, rfl⟩ : ∃ k, fuel = k + 1 := ⟨fuel - 1, by rw [length_cons] at hfuel; omega⟩
    refine ends_fieldOffsetWithin_succ hr hm hc fun hlacks reg₁ hm₁ hc₁ => ?_
    rw [hbase]
    refine ((ih hm₁ hc₁ (Nat.le_of_succ_le_succ hfuel)).mono fun o reg₂ hfound => ?_).imp
      fun e hmiss => ?_
    · obtain ⟨before, j, s, after, i, f, rfl, hbefore, hat⟩ := hfound
      exact ⟨(id, r) :: before, j, s, after, i, f, rfl, forall_mem_cons.mpr ⟨hlacks, hbefore⟩, hat⟩
    · obtain ⟨j, rfl, hnone⟩ | ⟨before, p, after, reg₂, reg₃, rfl, hbefore, hlay⟩ := hmiss
      · exact Or.inl ⟨j, rfl, forall_mem_cons.mpr ⟨hlacks, hnone⟩⟩
      · exact Or.inr ⟨_ :: before, p, after, reg₂, reg₃, rfl,
          forall_mem_cons.mpr ⟨hlacks, hbefore⟩, hlay⟩

/-- Whatever operations have led to a registry: for a record whose lineage comes to an end, the
position and the type that are looked up are those of the first field of the name in the record
itself, and both look-ups fail if it has none. The offset that is looked up is the place of the last
field of the name in the first record of the lineage that has one. That look-up fails as unknown
only if no record of the lineage has a field of the name, and otherwise only where laying out a
record fails before a field of the name is found. If the record itself has exactly one field of the
name, the offset is the place of the field whose position and type are found. -/
theorem lookups_describe (target : Target) (ops : List TypeOperation)
    (hreg : reg = ops.foldl leaves (empty target)) (hlineage : reg.Lineage id ((id, r) :: rest))
    (name : String) :
    (∀ i f, FirstNamed r.fields name i f →
      reg.fieldIndex id name = .ok i ∧ reg.fieldType id name = .ok f.ty) ∧
    (Lacks r name → reg.fieldIndex id name = .error (.refused (.unknownField id name)) ∧
      reg.fieldType id name = .error (.refused (.unknownField id name))) ∧
    (fieldOffset id name).Ends reg (Locates ((id, r) :: rest) name)
      (reg.Misses ((id, r) :: rest) name) ∧
    ∀ i f o reg', FirstNamed r.fields name i f → LastNamed r.fields name i f →
      fieldOffset id name reg = .ok o reg' → reg.fieldIndex id name = .ok i ∧
      reg.fieldType id name = .ok f.ty ∧ reg'.FieldAt r i f o := by
  subst hreg
  have hr := (hlineage.exists_of_mem mem_cons_self).1
  have hc := (goesOn_foldl ⟨.refl _, consistent_empty target⟩ ops).consistent
  have hends : (fieldOffset id name).Ends _ (Locates ((id, r) :: rest) name)
      (Misses _ ((id, r) :: rest) name) :=
    ends_fieldOffsetWithin hlineage (.refl _) hc (Nat.le_succ_of_le hlineage.length_le)
  refine ⟨fun i f => fieldIndex_of_firstNamed hr, fieldIndex_of_lacks hr, hends,
    fun i f o reg' hfirst hlast hok => ?_⟩
  obtain ⟨hindex, htype⟩ := fieldIndex_of_firstNamed hr hfirst
  exact ⟨hindex, htype, (hends.of_ok hok).own hlast⟩

/-- A structure that extends another one, and a name that only the other one has. -/
theorem lookups_describe_derived :
    let fields : List Field := [⟨"kind", .scalar .i8, 1⟩, ⟨"value", .scalar .i32, 1⟩]
    let ops : List TypeOperation := [.declare none false, .declare none false,
      .addField 0 ⟨"key", .scalar .i64, 1⟩, .extend 1 0] ++ fields.map (.addField 1)
    let reg := ops.foldl leaves (empty {})
    let lineage := [(1, ⟨none, fields, false, some 0, none⟩),
      (0, ⟨none, [⟨"key", .scalar .i64, 1⟩], false, none, none⟩)]
    reg.Lineage 1 lineage ∧ reg.fieldIndex 1 "value" = .ok 1 ∧
      reg.fieldType 1 "value" = .ok (.scalar .i32) ∧
      reg.fieldIndex 1 "key" = .error (.refused (.unknownField 1 "key")) ∧
      (fieldOffset 1 "key").Ends reg (Locates lineage "key") (reg.Misses lineage "key") := by
  intro fields ops reg lineage
  have hlineage : reg.Lineage 1 lineage :=
    .step (by decide +kernel) rfl (.root (by decide +kernel) rfl)
  have hfirst : FirstNamed fields "value" 1 ⟨"value", .scalar .i32, 1⟩ := by
    refine ⟨rfl, rfl, fun j g hj hg => ?_⟩
    obtain rfl : j = 0 := by omega
    cases hg
    decide
  have hlacks : Lacks ⟨none, fields, false, some 0, none⟩ "key" := by simp [Lacks, fields]
  obtain ⟨hown, -, -⟩ := lookups_describe {} ops rfl hlineage "value"
  obtain ⟨-, hmissing, hoffset, -⟩ := lookups_describe {} ops rfl hlineage "key"
  exact ⟨hlineage, (hown 1 _ hfirst).1, (hown 1 _ hfirst).2, (hmissing hlacks).1, hoffset⟩

/-- An inherited field has an offset and no position, and of two fields of one name the offset is
the one of the second and the position and the type are those of the first. -/
theorem lookups_disagree :
    let ops : List TypeOperation :=
      [.declare none false, .declare none false, .addField 0 ⟨"key", .scalar .i64, 1⟩, .extend 1 0,
      .addField 1 ⟨"kind", .scalar .i8, 1⟩, .addField 1 ⟨"kind", .scalar .i32, 1⟩]
    let reg := ops.foldl leaves (empty {})
    (∃ reg', fieldOffset 1 "key" reg = .ok 0 reg') ∧ reg.fieldIndex 1 "key" =
      .error (.refused (.unknownField 1 "key")) ∧ (∃ reg', fieldOffset 1 "kind" reg = .ok 4 reg') ∧
      reg.fieldIndex 1 "kind" = .ok 0 ∧ reg.fieldType 1 "kind" = .ok (.scalar .i8) := by
  intro ops reg
  have hdelivers : ∀ {name : String} {n : Nat}, (fieldOffset 1 name).Yields reg (fun o _ => o = n) →
      ∃ reg', fieldOffset 1 name reg = .ok n reg' := by
    intro name n hyields
    obtain ⟨_, reg', hok, rfl⟩ := yields_iff_exists.mp hyields
    exact ⟨reg', hok⟩
  have hr : reg.records[1]? =
      some ⟨none, [⟨"kind", .scalar .i8, 1⟩, ⟨"kind", .scalar .i32, 1⟩], false, some 0, none⟩ := by
      decide +kernel
  have hfirst : reg.fieldIndex 1 "kind" = .ok 0 ∧ reg.fieldType 1 "kind" = .ok (.scalar .i8) :=
    fieldIndex_of_firstNamed hr ⟨rfl, rfl, fun j _ hj => absurd hj (Nat.not_lt_zero j)⟩
  exact ⟨hdelivers (by decide +kernel), (fieldIndex_of_lacks hr (by simp [Lacks])).1,
    hdelivers (by decide +kernel), hfirst⟩

end CoroutineIR.Registry
