import CoroutineIR.Proofs.TreeBuilding

/-!
# The order of effects in trees

Operands are evaluated from left to right, each before the node that takes it. A definition that is
moved is evaluated behind the nodes between it and its reader and behind the operands of the reader
in front of it. Reads of memory may change places that way. Calls and writes keep their places if
none of them is moved past anything.
-/

namespace CoroutineIR

variable {stream π : List NodeId} {b : NodeId}

open List Option CoroutineIR.Action

/-- What a node does besides delivering a value. -/
inductive Effect where
  | call
  | write
  | read
deriving DecidableEq, Repr

/-- The effect of a node, if it has one. -/
def NodeKind.effect? : NodeKind → Option Effect
  | .call _ _ => some .call
  | .op .store | .op .setMember | .op .memcpy | .op .memmove | .op .free | .op .freeArr | .op
      .decref | .op .unlock =>
    some .write
  | .op .load => some .read
  | _ => none

/-- Lists that differ in the order of neighbours that may change places. -/
inductive Exchanged {α : Type} (R : α → α → Prop) : List α → List α → Prop
  | refl (l : List α) : Exchanged R l l
  | swap {a b : α} (h : R a b) (l : List α) : Exchanged R (a :: b :: l) (b :: a :: l)
  | cons {l l' : List α} (a : α) (h : Exchanged R l l') : Exchanged R (a :: l) (a :: l')
  | trans {l l' l'' : List α} (h : Exchanged R l l') (h' : Exchanged R l' l'') : Exchanged R l l''

namespace Exchanged

variable {α : Type} {R Q : α → α → Prop} {l l' : List α}

variable (h : Exchanged R l l')
include h

theorem append_left (k : List α) : Exchanged R (k ++ l) (k ++ l') := by
  induction k with
  | nil => exact h
  | cons a k ih => exact .cons a ih

theorem append_right (k : List α) : Exchanged R (l ++ k) (l' ++ k) := by
  induction h with
  | refl l => exact .refl _
  | swap hab l => exact .swap hab _
  | cons a _ ih => exact .cons a ih
  | trans _ _ ih ih' => exact ih.trans ih'

theorem mem_iff {a : α} : a ∈ l ↔ a ∈ l' := by
  induction h with
  | refl => rfl
  | swap => simp only [mem_cons, or_left_comm]
  | cons _ _ ih => simp only [mem_cons, ih]
  | trans _ _ ih ih' => exact ih.trans ih'

theorem mono (himp : ∀ a ∈ l, ∀ b ∈ l, R a b → Q a b) : Exchanged Q l l' := by
  induction h with
  | refl l => exact .refl l
  | swap hab l => exact .swap (himp _ (by simp) _ (by simp) hab) l
  | cons a _ ih => exact .cons a (ih fun x hx y hy => himp x (by simp [hx]) y (by simp [hy]))
  | trans h _ ih ih' =>
    exact (ih himp).trans (ih' fun x hx y hy => himp x (h.mem_iff.mpr hx) y (h.mem_iff.mpr hy))

/-- Nothing changes if no two different members may change places. -/
theorem eq_of_rigid (hrigid : ∀ a ∈ l, ∀ b ∈ l, R a b → a = b) : l' = l := by
  induction h with
  | refl => rfl
  | swap hab l => rw [hrigid _ (by simp) _ (by simp) hab]
  | cons a _ ih => rw [ih fun x hx y hy => hrigid x (by simp [hx]) y (by simp [hy])]
  | trans h _ ih ih' =>
    obtain rfl := ih hrigid
    exact ih' hrigid

omit h

/-- Lists all of whose members may change places. -/
theorem append_comm (h : ∀ a ∈ l, ∀ b ∈ l', R a b) : Exchanged R (l ++ l') (l' ++ l) := by
  induction l with
  | nil => rw [append_nil, nil_append]; exact .refl _
  | cons a l ih =>
    rw [forall_mem_cons] at h
    have hone : ∀ (k rest : List α), (∀ b ∈ k, R a b) →
        Exchanged R (a :: k ++ rest) (k ++ a :: rest) := by
      intro k rest hk
      induction k with
      | nil => exact .refl _
      | cons b k ihk =>
        rw [forall_mem_cons] at hk
        exact (Exchanged.swap hk.1 _).trans (.cons b (ihk hk.2))
    exact (Exchanged.cons a (ih h.2)).trans (hone l' l h.1)

end Exchanged

theorem filter_snoc_of_mem (hb : b ∈ stream) :
    (π ++ [b]).filter (· ∈ stream) = π.filter (· ∈ stream) ++ [b] := by
  rw [filter_append, filter_cons_of_pos (by simpa using hb), filter_nil]

theorem filter_snoc_of_not_mem (hb : b ∉ stream) :
    (π ++ [b]).filter (· ∈ stream) = π.filter (· ∈ stream) := by
  rw [filter_append, filter_cons_of_neg (by simpa using hb), filter_nil, append_nil]

namespace Routine

variable {r r' : Routine} {exit n m d p s x y : NodeId} {t t' : Strand} {ms : List NodeId}
  {v : VarId} {i k k' : Nat} {reader e : Node} {assigned : List VarId} {a b : Routine × Strand}

/-- The effect of a node, if it has one. -/
def effectOf (r : Routine) (n : NodeId) : Option Effect := (r.kindOf n).bind NodeKind.effect?

/-- The nodes evaluated for a node, operands from left to right before the node that takes them. -/
def evaluatedWithin (r : Routine) : Nat → NodeId → List NodeId
  | 0, _ => []
  | fuel + 1, n => (r.label n).elim [] fun e =>
    (e.args.flatMap fun arg => arg.node?.elim [] (evaluatedWithin r fuel)) ++ [n]

/-- The nodes with an effect among those evaluated for a node of the stream. -/
def effects (r : Routine) (n : NodeId) : List NodeId :=
  (r.evaluatedWithin r.nestFuel n).filter fun m => (r.effectOf m).isSome

/-- The nodes control may have been at, from the entry to the last one. -/
inductive Walk (r : Routine) : List NodeId → NodeId → Prop
  | start : Walk r [r.entry] r.entry
  | step {π : List NodeId} {a b : NodeId} (h : Walk r π a) (holds : Bool)
    (hb : r.follow a holds = some b) : Walk r (π ++ [b]) b

theorem Walk.extend {path : List NodeId} {a : NodeId} (h : r.Walk π a)
    (hpath : List.IsChain (fun a b => r.follow a true = some b) (a :: path)) :
    r.Walk (π ++ path) ((a :: path).getLast (cons_ne_nil _ _)) := by
  induction path generalizing π a with
  | nil => simpa using h
  | cons b path ih =>
    rw [isChain_cons_cons] at hpath
    simpa using ih (h.step true hpath.1) hpath.2

/-- A walk stays in the stream. -/
theorem WellStructured.walk_mem {a : NodeId} (h : r.WellStructured exit t)
    (hwalk : r.Walk π a) : a ∈ r.live exit t ∧ ∀ m ∈ π, m ∈ r.live exit t := by
  induction hwalk with
  | start => simp
  | step hwalk holds hb ih =>
    have hmem := h.follow_mem ih.1 hb
    refine ⟨hmem, fun m hm => ?_⟩
    rcases mem_append.mp hm with hm | hm
    · exact ih.2 m hm
    · rwa [mem_singleton.mp hm]

/-- Effects whose order may change when what is not in `stream` has been moved: one of them is
moved, and the other one is moved too or does not block reordering. -/
def Loose (r : Routine) (stream : List NodeId) (x y : NodeId) : Prop :=
  (x ∉ stream ∨ y ∉ stream) ∧ (x ∉ stream ∨ (r.kindOf x).any NodeKind.blocksReordering = false) ∧
    (y ∉ stream ∨ (r.kindOf y).any NodeKind.blocksReordering = false)

section Evaluated

/-- What is evaluated for a node only depends on the operands of these nodes. -/
theorem evaluatedWithin_congr (h : r.nestedWithin k n = .ok ms) (hk : k ≤ k')
    (hargs : ∀ x ∈ ms, (r'.label x).map Node.args = (r.label x).map Node.args) :
    r'.evaluatedWithin k' n = r.evaluatedWithin k n := by
  induction k generalizing n ms k' with
  | zero => simp [nestedWithin] at h
  | succ k ih =>
    obtain ⟨k', rfl⟩ : ∃ j, k' = j + 1 := ⟨k' - 1, by omega⟩
    obtain ⟨e, -, he, -⟩ := nestedWithin_succ_eq_ok_iff.mp h
    have hsame := hargs n (mem_nestedWithin h)
    rw [label_eq he] at hsame
    obtain ⟨e', he', hsame⟩ := map_eq_some_iff.mp hsame
    simp only [evaluatedWithin, label_eq he, he', elim_some, hsame]
    congr 1
    refine flatMap_congr fun arg harg => ?_
    cases arg with
    | lit | var => rfl
    | node m =>
      obtain ⟨below, hbelow, hsub⟩ := nestedWithin_arg h (label_eq he) harg
      exact ih hbelow (Nat.le_of_succ_le_succ hk) fun x hx => hargs x (mem_of_mem_tail (hsub hx))

/-- What is evaluated is nested. -/
theorem mem_evaluatedWithin (h : r.nestedWithin k n = .ok ms)
    (hm : m ∈ r.evaluatedWithin k n) : m ∈ ms := by
  induction k generalizing n ms with
  | zero => simp [nestedWithin] at h
  | succ k ih =>
    obtain ⟨e, -, he, -⟩ := nestedWithin_succ_eq_ok_iff.mp h
    simp only [evaluatedWithin, label_eq he, elim_some, mem_append, mem_flatMap, mem_singleton]
      at hm
    rcases hm with ⟨arg, harg, hm⟩ | rfl
    · cases arg with
      | lit | var => simp at hm
      | node x =>
        obtain ⟨below, hbelow, hsub⟩ := nestedWithin_arg h (label_eq he) harg
        exact mem_of_mem_tail (hsub (ih hbelow hm))
    · exact mem_nestedWithin h

/-- The effects of an operand. -/
def operandEffects (r : Routine) (arg : Operand) : List NodeId := arg.node?.elim [] r.effects

/-- The effects of a node are those of its operands and its own. -/
theorem effects_eq (h : r.nested n = .ok ms) (he : r.label n = some e) :
    r.effects n = e.args.flatMap r.operandEffects ++
    (if (r.effectOf n).isSome then [n] else []) := by
  have hwithin : r.evaluatedWithin (r.nestFuel + 1) n = r.evaluatedWithin r.nestFuel n :=
    evaluatedWithin_congr h (Nat.le_succ _) fun _ _ => rfl
  rw [effects, ← hwithin, evaluatedWithin, he, elim_some, filter_append, filter_flatMap]
  congr 1
  · refine flatMap_congr fun arg _ => ?_
    cases arg <;> rfl
  · rw [filter_singleton]
    cases (r.effectOf n).isSome <;> rfl

/-- The effects of a tree depend on its nodes. -/
theorem effects_congr (h : r.nested n = .ok ms) (hsize : r'.nodes.size = r.nodes.size)
    (hkinds : ∀ x, r'.kindOf x = r.kindOf x)
    (hargs : ∀ x ∈ ms, (r'.label x).map Node.args = (r.label x).map Node.args) :
    r'.effects n = r.effects n := by
  have hfuel : r'.nestFuel = r.nestFuel := by rw [nestFuel, hsize, nestFuel]
  rw [effects, effects, hfuel, evaluatedWithin_congr h (Nat.le_refl _) hargs]
  refine filter_congr fun x _ => ?_
  rw [effectOf, effectOf, hkinds]

theorem mem_effects (h : r.nested n = .ok ms) (hm : m ∈ r.effects n) :
    m ∈ ms ∧ (r.effectOf m).isSome := by
  obtain ⟨hm, heffect⟩ := mem_filter.mp hm
  exact ⟨mem_evaluatedWithin h hm, heffect⟩

end Evaluated

/-- Control has left the definition `d` and has not come to its reader `n` yet. -/
def Due (r : Routine) (v : VarId) (assigned : List VarId) (d n a : NodeId) : Prop :=
  Relation.ReflTransGen (r.Trails v assigned d) d a ∧ Relation.TransGen (r.Trails v assigned d) a n

namespace Inlines

variable {a b : NodeId} {holds : Bool}

theorem isPlain_def (h : r.Inlines r' exit t t' n i v d reader e assigned p s) :
    ∃ kind, r.kindOf d = some kind ∧ kind.isPlain = true :=
  ⟨e.kind, kindOf_of_label h.defines.label rfl, h.defines.plain⟩

/-- From the definition and the nodes it passes control goes on to the next one of them, or to the
reader. -/
theorem next_of_due (h : r.Inlines r' exit t t' n i v d reader e assigned p s)
    (hr : r.WellStructured exit t) (hdue : r.Due v assigned d n a) (hmem : a ∈ r.live exit t)
    (hb : r.follow a holds = some b) : b ≠ d ∧ (b = n ∨ r.Due v assigned d n b) := by
  obtain ⟨c, hstep, hahead⟩ := Relation.TransGen.head'_iff.mp hdue.2
  obtain ⟨kind, hkind, hplain⟩ : ∃ kind, r.kindOf a = some kind ∧ kind.isPlain = true := by
    rcases hstep.2.2 with rfl | ha
    · exact h.isPlain_def
    · exact (Option.any_eq_true _ _).mp ha.plain
  have hc := (hr.back_of_trails hahead h.mem).1
  have hnext := hr.mem_nextOf hc (m := a) (by simp [hstep.1])
  obtain ⟨-, k, -, hk⟩ := hr.plain_edges (hr.mem_of_plain hmem hkind hplain) hkind hplain
  rw [follow_plain hkind hplain, hk, head?_cons, some.injEq] at hb
  rw [hk, hb, mem_singleton] at hnext
  subst hnext
  refine ⟨?_,
    (Relation.reflTransGen_iff_eq_or_transGen.mp hahead).imp Eq.symm (⟨hdue.1.tail hstep, ·⟩)⟩
  rintro rfl
  exact Nat.not_le_of_lt (hstep.back hr.toCarries hc).2 (hr.back_of_trails hdue.1 hmem).2

section

variable (h : r.Inlines r' exit t t' n i v d reader e assigned p s)
include h

/-- Control goes from the definition to the node behind it. -/
theorem follow_def (holds : Bool) : r.follow d holds = some s := by
  obtain ⟨kind, hkind, hplain⟩ := h.isPlain_def
  rw [follow_plain hkind hplain, h.bypasses.nextOf, head?_cons]

variable (hr : r.WellStructured exit t)
include hr

/-- Where control comes to in what is left. -/
theorem follow_new (ha : a ∈ r'.live exit t') (holds : Bool) :
    r'.follow a holds = (r.follow a holds).map fun k => if k = d then s else k := by
  obtain ⟨kind, hkind, hplain⟩ := h.isPlain_def
  exact h.bypasses.follow hr hkind hplain ha holds

theorem mem_new_iff (ha : a ∈ r.live exit t) : a ∈ r'.live exit t' ↔ a ≠ d :=
  ⟨h.bypasses.ne_of_mem hr, h.bypasses.mem_new ha⟩

/-- A walk with the definition left out is a walk of what is left. -/
theorem walk_new (hwalk : r.Walk π a) (ha : a ≠ d) :
    r'.Walk (π.filter (· ∈ r'.live exit t')) a := by
  -- at the definition the walk of what is left still waits in front of it
  suffices hboth : (a ≠ d → r'.Walk (π.filter (· ∈ r'.live exit t')) a) ∧
      (a = d → ∃ b holds, r'.Walk (π.filter (· ∈ r'.live exit t')) b ∧
      r'.follow b holds = some s) from
    hboth.1 ha
  clear ha
  induction hwalk with
  | start =>
    have hentry : r.entry ∈ r'.live exit t' := by simp [h.bypasses.entry]
    refine ⟨fun _ => ?_, fun heq => absurd heq (h.bypasses.ne_of_mem hr hentry)⟩
    rw [filter_cons_of_pos (by simpa using hentry), filter_nil, ← h.bypasses.entry]
    exact .start
  | @step π a b hwalk holds hb ih =>
    have hmem := (hr.walk_mem hwalk).1
    by_cases had : a = d
    · obtain ⟨c, holds', hc, hfollow⟩ := ih.2 had
      rw [had, h.follow_def, some.injEq] at hb
      subst hb
      have hs : s ∈ r'.live exit t' :=
        (h.mem_new_iff hr (hr.follow_mem h.def_mem (h.follow_def true))).mpr (h.bypasses.next_ne hr)
      refine ⟨fun _ => ?_, fun heq => absurd heq (h.bypasses.next_ne hr)⟩
      rw [filter_snoc_of_mem hs]
      exact hc.step holds' hfollow
    · have hfollow := h.follow_new hr ((h.mem_new_iff hr hmem).mpr had) holds
      rw [hb, map_some] at hfollow
      have hbmem := h.mem_new_iff hr (hr.follow_mem hmem hb)
      refine ⟨fun hne => ?_, fun heq => ?_⟩
      · rw [filter_snoc_of_mem (hbmem.mpr hne)]
        rw [if_neg hne] at hfollow
        exact (ih.1 had).step holds hfollow
      · rw [filter_snoc_of_not_mem fun hin => hbmem.mp hin heq]
        rw [if_pos heq] at hfollow
        exact ⟨a, holds, ih.1 had, hfollow⟩

/-- Every walk of what is left comes from one that passes the definition where it stood. -/
theorem walk_old (hr' : r'.WellStructured exit t') (hwalk : r'.Walk π a) :
    ∃ π₀, r.Walk π₀ a ∧ π₀.filter (· ∈ r'.live exit t') = π := by
  induction hwalk with
  | start =>
    refine ⟨[r.entry], ?_, ?_⟩
    · rw [h.bypasses.entry]
      exact .start
    · rw [filter_cons_of_pos (by simp [h.bypasses.entry]), filter_nil, h.bypasses.entry]
  | @step π a b hwalk holds hb ih =>
    obtain ⟨π₀, hwalk₀, hfilter⟩ := ih
    have hmem := (hr'.walk_mem hwalk).1
    have hbmem := hr'.follow_mem hmem hb
    rw [h.follow_new hr hmem, map_eq_some_iff] at hb
    obtain ⟨k, hk, rfl⟩ := hb
    by_cases hkd : k = d
    · subst hkd
      rw [if_pos rfl] at hbmem ⊢
      refine ⟨π₀ ++ [k] ++ [s], (hwalk₀.step holds hk).step true (h.follow_def true), ?_⟩
      rw [filter_snoc_of_mem hbmem,
        filter_snoc_of_not_mem fun hin => h.bypasses.ne_of_mem hr hin rfl, hfilter]
    · rw [if_neg hkd] at hbmem ⊢
      refine ⟨π₀ ++ [k], hwalk₀.step holds hk, ?_⟩
      rw [filter_snoc_of_mem hbmem, hfilter]

omit hr

/-- What is evaluated for a node other than the reader stays. -/
theorem effects_other (hms : r.nested m = .ok ms) (hnot : n ∉ ms) : r'.effects m = r.effects m := by
  refine effects_congr hms h.bypasses.size h.bypasses.kinds fun x hx => ?_
  by_cases hxd : x = d
  · rw [hxd, h.label_def, h.defines.label]
    rfl
  · rw [h.label_of_ne hxd fun heq => hnot (heq ▸ hx)]

end

/-- The effects of the operands of a node are among those below it. -/
theorem mem_operandEffects (hr : r.WellStructured exit t) (hm : m ∈ r.live exit t) {em : Node}
    (hem : r.label m = some em) {arg : Operand} (harg : arg ∈ em.args)
    (hx : x ∈ r.operandEffects arg) : x ∈ r.below m := by
  cases arg with
  | lit | var => simp [operandEffects] at hx
  | node k =>
    obtain ⟨hnested, hbelow⟩ := (nested_eq_ok_iff hem).mp (hr.nested_eq hm)
    obtain ⟨ms, hms⟩ := hnested k harg
    have hx' := (mem_effects (nested_eq_below hms) hx).1
    rw [(List.cons.inj hbelow).2]
    exact mem_exprs harg hx'

variable (h : r.Inlines r' exit t t' n i v d reader e assigned p s) (hr : r.WellStructured exit t)
include h hr

/-- The reader evaluates what it did, and the definition in its place. -/
theorem effects_reader (hr' : r'.WellStructured exit t') :
      ∃ before after, r.effects n = before ++ after ∧
      r'.effects n = before ++ (r.effects d ++ after) ∧ ∀ x ∈ before, x ∈ r.below n := by
  obtain ⟨before, after, hargs, hset⟩ := h.exists_args
  have hn' := h.bypasses.mem_new h.mem h.ne.symm
  have hstays : ∀ arg ∈ reader.args, r'.operandEffects arg = r.operandEffects arg := by
    intro arg harg
    cases arg with
    | lit | var => rfl
    | node m =>
      obtain ⟨ms, hms⟩ := ((nested_eq_ok_iff h.label).mp (hr.nested_eq h.mem)).1 m harg
      have hbelow := ((nested_eq_ok_iff h.label).mp (hr.nested_eq h.mem)).2
      refine h.effects_other (nested_eq_below hms) fun hn => not_mem_nested (hr.nested_eq h.mem) ?_
      rw [(List.cons.inj hbelow).2]
      exact mem_exprs harg hn
  have hmoved : r'.operandEffects (Tree.replacement d e) = r.effects d := by
    have hd := hr.nested_eq h.def_mem
    rcases replacement_cases d e with hrep | ⟨x, hrep, hkind, hlit⟩
    · rw [hrep]
      exact h.effects_other hd (hr.not_mem_of_ne h.def_mem h.mem h.ne)
    · rw [hrep, effects_eq hd h.defines.label, hlit, effectOf, kindOf, h.defines.label,
        map_some, hkind]
      rfl
  have hflat :
      ∀ args ⊆ reader.args, args.flatMap r'.operandEffects = args.flatMap r.operandEffects := by
    intro args hsub
    exact flatMap_congr fun arg harg => hstays arg (hsub harg)
  refine ⟨before.flatMap r.operandEffects,
    after.flatMap r.operandEffects ++ (if (r.effectOf n).isSome then [n] else []), ?_,
    ?_, fun x hx => ?_⟩
  · rw [effects_eq (hr.nested_eq h.mem) h.label, hargs, flatMap_append, flatMap_cons,
      List.append_assoc]
    rfl
  · rw [effects_eq (hr'.nested_eq hn') h.label_reader, hset, effectOf, h.bypasses.kinds, ← effectOf,
      flatMap_append, flatMap_cons, hmoved, hflat before (by simp [hargs]),
      hflat after fun x hx => by simp [hargs, hx], List.append_assoc, List.append_assoc]
  · obtain ⟨arg, harg, hx⟩ := mem_flatMap.mp hx
    exact mem_operandEffects hr h.mem h.label (by simp [hargs, harg]) hx

/-- The definition and what is nested in it are no longer in the stream. -/
theorem moved_of_mem (hx : x ∈ r.effects d) : x ∉ r'.live exit t' := by
  intro hin
  rcases mem_cons.mp (mem_effects (hr.nested_eq h.def_mem) hx).1 with heq | hbelow
  · exact h.bypasses.ne_of_mem hr hin heq
  · exact hr.not_mem_below h.def_mem (h.bypasses.mem_old hin) hbelow

open Classical in
/-- What is evaluated along a walk, with the effects of the definition as long as they are still
due. -/
theorem order_pending (hr' : r'.WellStructured exit t') (hleads : r.ComesFrom v assigned d n)
    (hwalk : r.Walk π a) : Exchanged (r'.Loose (r'.live exit t')) (π.flatMap r.effects)
    ((π.filter (· ∈ r'.live exit t')).flatMap r'.effects ++
      if r.Due v assigned d n a then r.effects d else []) := by
  have hother : ∀ c ∈ r.live exit t, c ≠ n → r'.effects c = r.effects c := fun c hc hcn =>
    h.effects_other (hr.nested_eq hc) (hr.not_mem_of_ne hc h.mem hcn)
  have hpassed : ∀ c ∈ r.live exit t, r.Passes v assigned c → ∀ x ∈ r.effects d, ∀ y ∈ r.effects c,
      r'.Loose (r'.live exit t') x y := by
    intro c hc hpasses x hx y hy
    have hmoved := h.moved_of_mem hr hx
    have hstill := hpasses.still _ (hr.nested_eq hc) y (mem_effects (hr.nested_eq hc) hy).1
    rw [← h.bypasses.kinds] at hstill
    exact ⟨Or.inl hmoved, Or.inl hmoved, Or.inr hstill⟩
  induction hwalk with
  | start =>
    have hentry : r.entry ∈ r'.live exit t' := by simp [h.bypasses.entry]
    have hfirst : ¬r.ComesFrom v assigned d r.entry := fun hlast => by
      obtain ⟨b, -, hprev, -⟩ := Relation.TransGen.tail'_iff.mp hlast
      have hnone := hr.entry_degrees.1
      rw [inDegree, hprev] at hnone
      cases hnone
    have hfar : ¬r.Due v assigned d n r.entry := fun hdue =>
      (Relation.reflTransGen_iff_eq_or_transGen.mp hdue.1).elim
        (h.bypasses.ne_of_mem hr hentry) hfirst
    have hne : r.entry ≠ n := fun heq => hfirst (heq ▸ hleads)
    rw [filter_cons_of_pos (by simpa using hentry), filter_nil, if_neg hfar, append_nil,
      flatMap_singleton, flatMap_singleton, hother _ (by simp) hne]
    exact .refl _
  | @step π a c hwalk holds hc ih =>
    have hmem := (hr.walk_mem hwalk).1
    have hcmem := hr.follow_mem hmem hc
    -- control comes from the node in front as long as the effects are due, and to the reader
    have hback : r.ComesFrom v assigned d c → Relation.ReflTransGen (r.Trails v assigned d) c n →
        r.Due v assigned d n a := by
      intro hcomes hahead
      obtain ⟨b, hrest, hstep⟩ := Relation.TransGen.tail'_iff.mp hcomes
      obtain rfl := hstep.eq_of_follow hr hmem hc
      exact ⟨hrest, .head' hstep hahead⟩
    rw [flatMap_append, flatMap_singleton]
    refine (ih.append_right (r.effects c)).trans ?_
    by_cases hcd : c = d
    · -- the definition is met: from here on its effects are due
      have hfar : ¬r.Due v assigned d n a := fun hdue => (h.next_of_due hr hdue hmem hc).1 hcd
      rw [if_neg hfar, append_nil, filter_snoc_of_not_mem fun hin =>
        h.bypasses.ne_of_mem hr hin hcd, hcd, if_pos ⟨.refl, hleads⟩]
      exact .refl _
    · have hin := h.bypasses.mem_new hcmem hcd
      rw [filter_snoc_of_mem hin, flatMap_append, flatMap_singleton, List.append_assoc,
        List.append_assoc]
      refine Exchanged.append_left ?_ _
      by_cases hdue : r.Due v assigned d n c
      · -- a node is passed
        obtain ⟨b, hstep, hahead⟩ := Relation.TransGen.head'_iff.mp hdue.2
        have hcn : c ≠ n := by
          rintro rfl
          exact Nat.not_le_of_lt (hstep.back hr.toCarries (hr.back_of_trails hahead h.mem).1).2
            (hr.back_of_trails hahead h.mem).2
        have hcomes := (Relation.reflTransGen_iff_eq_or_transGen.mp hdue.1).resolve_left hcd
        rw [if_pos (hback hcomes hdue.2.to_reflTransGen), if_pos hdue, hother c hcmem hcn]
        exact .append_comm (hpassed c hcmem (hstep.2.2.resolve_left hcd))
      · rw [if_neg hdue, append_nil]
        by_cases hcn : c = n
        · -- the reader is met, where the definition is evaluated now
          subst hcn
          obtain ⟨before, after, hold, hnew, hbelow⟩ := h.effects_reader hr hr'
          rw [if_pos (hback hleads .refl), hold, hnew, ← List.append_assoc, ← List.append_assoc]
          refine Exchanged.append_right (.append_comm fun x hx y hy => ?_) _
          have hx' := h.moved_of_mem hr hx
          have hy' : y ∉ r'.live exit t' := fun hin =>
            hr.not_mem_below h.mem (h.bypasses.mem_old hin) (hbelow y hy)
          exact ⟨Or.inl hx', Or.inl hx', Or.inl hy'⟩
        · have hfar : ¬r.Due v assigned d n a := fun hdue' =>
            (h.next_of_due hr hdue' hmem hc).2.elim hcn hdue
          rw [if_neg hfar, hother c hcmem hcn, nil_append]
          exact .refl _

end Inlines

/-- The walks of `r'` are those of `r` with the nodes that are no longer in the stream skipped, and
effects are met in the same order up to those that are loose. A walk is looked at where control does
not just pass through. -/
structure KeepsOrder (r r' : Routine) (stream : List NodeId) : Prop where
  walks : ∀ π a, r.Walk π a → a ∈ stream → r'.Walk (π.filter (· ∈ stream)) a
  walks_back : ∀ π a, r'.Walk π a → ∃ π₀, r.Walk π₀ a ∧ π₀.filter (· ∈ stream) = π
  order : ∀ π a, r.Walk π a → (r.kindOf a).any NodeKind.isPlain = false →
    Exchanged (r.Loose stream) (π.flatMap r.effects) ((π.filter (· ∈ stream)).flatMap r'.effects)

theorem Loose.mono {stream' : List NodeId} (h : r.Loose stream x y)
    (hkinds : ∀ m, r'.kindOf m = r.kindOf m) (hsub : stream' ⊆ stream) : r'.Loose stream' x y := by
  refine ⟨h.1.imp (mt (hsub ·)) (mt (hsub ·)), ?_, ?_⟩
  · rw [hkinds]
    exact h.2.1.imp_left (mt (hsub ·))
  · rw [hkinds]
    exact h.2.2.imp_left (mt (hsub ·))

/-- Moving one definition. -/
theorem Inlines.keepsOrder (h : r.Inlines r' exit t t' n i v d reader e assigned p s)
    (hr : r.WellStructured exit t) (hr' : r'.WellStructured exit t')
    (hlanding : r.isLandingAt n = false) : r.KeepsOrder r' (r'.live exit t') where
  walks π a hwalk ha := h.walk_new hr hwalk (h.bypasses.ne_of_mem hr ha)
  walks_back π a hwalk := h.walk_old hr hr' hwalk
  order π a hwalk ha := by
    have hfar : ¬r.Due v assigned d n a := fun hdue => by
      obtain ⟨b, hstep, -⟩ := Relation.TransGen.head'_iff.mp hdue.2
      rcases hstep.2.2 with rfl | hpasses
      · obtain ⟨kind, hkind, hplain⟩ := h.isPlain_def
        simp [hkind, hplain] at ha
      · simp [hpasses.plain] at ha
    have horder := h.order_pending hr hr' (h.leads hlanding) hwalk
    rw [if_neg hfar, append_nil] at horder
    exact horder.mono fun x _ y _ hloose =>
      hloose.mono (fun m => (h.bypasses.kinds m).symm) fun _ hm => hm

/-- Moving definitions one after another. -/
theorem keepsOrder_of_inlinings (h : Inlinings exit a b) (ha : a.1.Treelike exit a.2) :
    a.1.KeepsOrder b.1 (b.1.live exit b.2) := by
  induction h with
  | refl =>
    have hall : ∀ π c, a.1.Walk π c → π.filter (· ∈ a.1.live exit a.2) = π := fun π c hwalk =>
      filter_eq_self.mpr fun m hm => decide_eq_true ((ha.walk_mem hwalk).2 m hm)
    refine ⟨fun π c hwalk _ => ?_, fun π c hwalk => ⟨π, hwalk, hall π c hwalk⟩,
      fun π c hwalk _ => ?_⟩
    · rwa [hall π c hwalk]
    · rw [hall π c hwalk]
      exact .refl _
  | @tail b c hrun hstep ih =>
    have hb : b.1.Treelike exit b.2 := Inlinings.treelike hrun ha
    have hkinds : ∀ m, b.1.kindOf m = a.1.kindOf m := Inlinings.kinds_eq hrun
    obtain ⟨_, _, _, _, _, _, _, _, _, hinlines⟩ := hstep
    have hone := hinlines.keepsOrder hb.toWellStructured
      (hinlines.wellStructured hb.toWellStructured) (hinlines.not_landing hb)
    have hsub : (c.1.live exit c.2) ⊆ b.1.live exit b.2 := fun m hm => hinlines.bypasses.mem_old hm
    have hfilter : ∀ π : List NodeId, (π.filter (· ∈ b.1.live exit b.2)).filter
        (· ∈ c.1.live exit c.2) = π.filter (· ∈ c.1.live exit c.2) := by
      intro π
      rw [List.filter_filter]
      refine filter_congr fun x _ => ?_
      rw [Bool.and_eq_left_iff_imp, decide_eq_true_eq, decide_eq_true_eq]
      exact (hsub ·)
    refine ⟨fun π m hwalk hm => ?_, fun π m hwalk => ?_, fun π m hwalk hm => ?_⟩
    · rw [← hfilter]
      exact hone.walks _ m (ih.walks π m hwalk (hsub hm)) hm
    · obtain ⟨π₁, hwalk₁, rfl⟩ := hone.walks_back π m hwalk
      obtain ⟨π₀, hwalk₀, rfl⟩ := ih.walks_back π₁ m hwalk₁
      exact ⟨π₀, hwalk₀, (hfilter π₀).symm⟩
    · have hmem : m ∈ b.1.live exit b.2 := by
        obtain ⟨hm', -⟩ := ha.walk_mem hwalk
        obtain ⟨e, he⟩ := ha.exists_node hm'
        rw [kindOf_eq he, any_some] at hm
        exact Inlinings.mem_of_not_plain hrun hm' (kindOf_eq he) hm
      have hold := (ih.order π m hwalk hm).mono fun x _ y _ hloose =>
        hloose.mono (fun _ => rfl) hsub
      have hnew :=
          (hone.order _ m (ih.walks π m hwalk hmem) (by rwa [hkinds])).mono fun x _ y _ hloose =>
        hloose.mono (fun k => (hkinds k).symm) fun _ hk => hk
      rw [hfilter] at hnew
      exact hold.trans hnew

/-- Whatever is moved is a definition of a variable read once. -/
theorem moved_of_inlinings (h : Inlinings exit a b) (ha : a.1.WellStructured exit a.2)
    (hn : n ∈ a.1.live exit a.2) (hmoved : n ∉ b.1.live exit b.2) :
    ∃ v, a.1.destOf n = some v ∧ a.1.readsOf v = 1 ∧
    ∀ sig, a.1.kindOf n ≠ some (.call .finish sig) := by
  obtain ⟨gone, hgathers⟩ := h.exists_gathers ha
  obtain ⟨v, m, i, e, hmoved⟩ := hgathers.moved n (hgathers.mem_gone h.entry_eq hn hmoved)
  exact ⟨v, hmoved.dest, hmoved.once, hmoved.not_finish⟩

/-- No call and no write of memory can be moved or passed. The second half of a call stays where it
is anyway. -/
def Steady (r : Routine) (stream : List NodeId) : Prop :=
  ∀ n ∈ stream, ∀ kind, r.kindOf n = some kind → kind.effect? = some .call ∨
    kind.effect? = some .write →
    kind.blocksReordering = true ∧ ∀ v, r.destOf n = some v → r.readsOf v = 1 →
    ∃ sig, kind = .call .finish sig

/-- Without sub-expressions a node has its own effect. -/
theorem WellStructured.mem_effects_flat (h : r.WellStructured exit t) (hn : n ∈ r.live exit t)
    (hflat : ∀ e, r.label n = some e → ∀ arg ∈ e.args, arg.node? = none) (hm : m ∈ r.effects n) :
    m = n ∧ (r.effectOf n).isSome := by
  obtain ⟨d, hd⟩ := h.exists_node hn
  have hone := Routine.nested_eq hd fun arg harg => hflat _ (label_eq hd) arg harg
  obtain ⟨hmem, heffect⟩ := mem_effects hone hm
  obtain rfl := mem_singleton.mp hmem
  exact ⟨rfl, heffect⟩

/-- If nothing but reads can be moved or passed, nothing but reads changes places. -/
theorem Loose.reads (h : r.Loose stream x y) (hsteady : r.Steady (r.live exit t))
    (hmoved : ∀ n ∈ r.live exit t, n ∉ stream →
      ∃ v, r.destOf n = some v ∧ r.readsOf v = 1 ∧ ∀ sig, r.kindOf n ≠ some (.call .finish sig))
    (hx : x ∈ r.live exit t) (hxe : (r.effectOf x).isSome) (hy : y ∈ r.live exit t)
    (hye : (r.effectOf y).isSome) : r.effectOf x = some .read ∧ r.effectOf y = some .read := by
  have hone : ∀ n ∈ r.live exit t, (r.effectOf n).isSome →
      n ∉ stream ∨ (r.kindOf n).any NodeKind.blocksReordering = false →
      r.effectOf n = some .read := by
    intro n hn heffect hfree
    obtain ⟨effect, heffect⟩ := isSome_iff_exists.mp heffect
    obtain ⟨kind, hkind, hk⟩ := bind_eq_some_iff.mp heffect
    by_contra hnot
    have hheavy : kind.effect? = some .call ∨ kind.effect? = some .write := by
      cases effect with
      | call => exact Or.inl hk
      | write => exact Or.inr hk
      | read => exact absurd heffect hnot
    obtain ⟨hblocks, hkept⟩ := hsteady n hn kind hkind hheavy
    rcases hfree with hgone | hpassed
    · obtain ⟨v, hdest, honce, hfinish⟩ := hmoved n hn hgone
      obtain ⟨sig, rfl⟩ := hkept v hdest honce
      exact hfinish sig hkind
    · rw [hkind, any_some, hblocks] at hpassed
      cases hpassed
  exact ⟨hone x hx hxe h.2.1, hone y hy hye h.2.2⟩

end Routine

namespace Tree

open Routine

/-- Two reads of memory. -/
def BothRead (r : Routine) (x y : NodeId) : Prop :=
    r.effectOf x = some .read ∧ r.effectOf y = some .read

/-- Building trees leaves the effects along every walk in place, but for those that are loose: one
of them is moved and the other is moved too or does not block reordering. If no call and no write of
memory can be moved or passed, only reads change places. -/
theorem buildTrees_keepsOrder {w : Work} {exit : NodeId} {t : Strand}
    (hr : w.routine.WellStructured exit t)
    (hflat : ∀ n ∈ w.routine.entry :: exit :: t.nodes, ∀ e, w.routine.label n = some e →
      ∀ arg ∈ e.args, arg.node? = none)
    (hlandings : ∀ n ∈ w.routine.entry :: exit :: t.nodes, ∀ e, w.routine.label n = some e →
      e.kind.isLanding = true → e.args = []) :
    Yields buildTrees w fun _ w' => ∃ t', w'.routine.WellStructured exit t' ∧
      t'.nodes.Sublist t.nodes ∧
      w.routine.KeepsOrder w'.routine (w'.routine.entry :: exit :: t'.nodes) ∧
      (w.routine.Steady (w.routine.entry :: exit :: t.nodes) → ∀ π a, w.routine.Walk π a →
        (w.routine.kindOf a).any NodeKind.isPlain = false →
        Exchanged (BothRead w.routine) (π.flatMap w.routine.effects)
          ((π.filter (· ∈ w'.routine.entry :: exit :: t'.nodes)).flatMap w'.routine.effects)) := by
  have htree : w.routine.Treelike exit t := by
    refine ⟨hr, hlandings, fun n hn m hm => ?_⟩
    obtain ⟨d, hd⟩ := hr.exists_node hn
    have hone := Routine.nested_eq hd fun arg harg => hflat n hn _ (label_eq hd) arg harg
    rw [below, hone] at hm
    simp [Except.toOption] at hm
  refine (yields_buildTrees hr).mono fun _ w' hbuilt => ?_
  obtain ⟨t', hrun⟩ := hbuilt
  have hkeeps : w.routine.KeepsOrder w'.routine (w'.routine.entry :: exit :: t'.nodes) :=
    keepsOrder_of_inlinings hrun htree
  refine ⟨t', hrun.wellStructured hr, hrun.sublist, hkeeps, fun hsteady π a hwalk ha => ?_⟩
  have hmem : ∀ x ∈ π.flatMap w.routine.effects, x ∈ w.routine.entry :: exit :: t.nodes ∧
      (w.routine.effectOf x).isSome := by
    intro x hx
    obtain ⟨n, hn, hx⟩ := mem_flatMap.mp hx
    have hn := (hr.walk_mem hwalk).2 n hn
    obtain ⟨rfl, heffect⟩ := hr.mem_effects_flat hn (hflat n hn) hx
    exact ⟨hn, heffect⟩
  refine (hkeeps.order π a hwalk ha).mono fun x hx y hy hloose => ?_
  exact hloose.reads hsteady (fun n hn hgone => moved_of_inlinings hrun hr hn hgone) (hmem x hx).1
    (hmem x hx).2 (hmem y hy).1 (hmem y hy).2

/-- The arguments of a call are loaded in the other order than they are passed: the loads change
places. -/
theorem buildTrees_keepsOrder_loads :
    let callee : Signature := ⟨[.scalar .i32, .scalar .i32], none, .default⟩
    let calls : List Instruction := [.tmp (some (.scalar .i32)), .tmp (some (.scalar .i32)),
      .assign (some 1) .load (.scalar .i32) [.lit (.int 0)],
      .assign (some 2) .load (.scalar .i32) [.lit (.int 4)], .call none callee [.var 2, .var 1]]
    ∃ r b' t, Build.finish (Build.play default calls (Build.define "main" default)).1 = .ok r b' ∧
      r.WellStructured 1 t ∧
      (∀ n ∈ r.entry :: 1 :: t.nodes, ∀ e, r.label n = some e → ∀ arg ∈ e.args, arg.node? = none) ∧
      (∀ n ∈ r.entry :: 1 :: t.nodes, ∀ e, r.label n = some e → e.kind.isLanding = true →
        e.args = []) ∧
      r.Steady (r.entry :: 1 :: t.nodes) ∧ r.Walk [0, 2, 3, 4, 1] 1 ∧
      Yields buildTrees ⟨r, #[]⟩ fun _ w' => ∃ t', w'.routine.WellStructured 1 t' ∧
        [0, 2, 3, 4, 1].flatMap r.effects = [2, 3, 4] ∧
        [0, 4, 1].flatMap w'.routine.effects = [3, 2, 4] ∧
        Exchanged (BothRead r) ([0, 2, 3, 4, 1].flatMap r.effects)
          (([0, 2, 3, 4, 1].filter (· ∈ w'.routine.entry :: 1 :: t'.nodes)).flatMap
            w'.routine.effects) := by
  intro callee calls
  obtain ⟨r, b', t, hfinish, -, ht, hlabels, hentry, hpath, hexit, hold, hnew⟩ :=
    Build.exists_main calls (by decide) (fun r =>
      (∀ n e, r.label n = some e → (e.kind.isLanding = true → e.args.isEmpty = true) ∧
        (∀ arg ∈ e.args, arg.node? = none) ∧
        (e.kind.effect? = some .call ∨ e.kind.effect? = some .write →
          e.kind.blocksReordering = true ∧ e.dest = none)) ∧
      r.entry = 0 ∧ List.IsChain (fun a b => r.follow a true = some b) [0, 2, 3, 4, 1] ∧
      (r.kindOf 1).any NodeKind.isPlain = false ∧ [0, 2, 3, 4, 1].flatMap r.effects = [2, 3, 4] ∧
      buildTrees.Yields ⟨r, #[]⟩ fun _ w' => [0, 4, 1].flatMap w'.routine.effects = [3, 2, 4])
      (by decide +kernel)
  have hwalk : r.Walk [0, 2, 3, 4, 1] 1 := (hentry ▸ Walk.start : r.Walk [0] 0).extend hpath
  have hsteady : r.Steady (r.entry :: 1 :: t.nodes) := by
    intro n _ kind hkind heffect
    obtain ⟨e, he, rfl⟩ := map_eq_some_iff.mp hkind
    obtain ⟨hblocks, hnone⟩ := (hlabels n e he).2.2 heffect
    refine ⟨hblocks, fun v hv => ?_⟩
    rw [destOf_eq he, hnone] at hv
    cases hv
  have hflat := fun n (_ : n ∈ r.entry :: 1 :: t.nodes) e he => (hlabels n e he).2.1
  have hlandings := fun n (_ : n ∈ r.entry :: 1 :: t.nodes) e he hland =>
    List.isEmpty_iff.mp ((hlabels n e he).1 hland)
  refine ⟨r, b', t, hfinish, ht, hflat, hlandings, hsteady, hwalk, ?_⟩
  refine ((buildTrees_keepsOrder (w := ⟨r, #[]⟩) ht hflat hlandings).and hnew).mono
    fun _ w' hboth => ?_
  obtain ⟨⟨t', hwell, -, -, horder⟩, hnew⟩ := hboth
  exact ⟨t', hwell, hold, hnew, horder hsteady _ 1 hwalk hexit⟩

/-- A load is moved behind a spawn, which starts a task that may change what is loaded. -/
theorem buildTrees_load_passes_spawn :
    let callee : Signature := ⟨[.scalar .i32], none, .default⟩
    let calls : List Instruction := [.tmp (some (.scalar .i32)),
      .assign (some 1) .load (.scalar .i32) [.lit (.int 0)], .spawn default [],
      .call none callee [.var 1]]
    ∃ r b' t, Build.finish (Build.play default calls (Build.define "main" default)).1 = .ok r b' ∧
      r.WellStructured 1 t ∧ r.Walk [0, 2, 3, 4, 1] 1 ∧
      Yields buildTrees ⟨r, #[]⟩ fun _ w' => w'.routine.Walk [0, 3, 4, 1] 1 ∧
        [0, 2, 3, 4, 1].map r.effectOf = [none, some .read, some .call, some .call, none] ∧
        [0, 2, 3, 4, 1].flatMap r.effects = [2, 3, 4] ∧
        [0, 3, 4, 1].flatMap w'.routine.effects = [3, 2, 4] ∧
        ¬Exchanged (BothRead r) ([0, 2, 3, 4, 1].flatMap r.effects)
        ([0, 3, 4, 1].flatMap w'.routine.effects) := by
  intro callee calls
  obtain ⟨r, b', t, hfinish, -, ht, hentry, hpath, hkinds, hold, hnew⟩ :=
    Build.exists_main calls (by decide)
    (fun r => r.entry = 0 ∧ List.IsChain (fun a b => r.follow a true = some b) [0, 2, 3, 4, 1] ∧
    [0, 2, 3, 4, 1].map r.effectOf = [none, some .read, some .call, some .call, none] ∧ [0, 2, 3, 4,
    1].flatMap r.effects = [2, 3, 4] ∧ buildTrees.Yields ⟨r, #[]⟩ fun _ w' => w'.routine.entry = 0 ∧
    List.IsChain (fun a b => w'.routine.follow a true = some b) [0, 3, 4, 1] ∧
    [0, 3, 4, 1].flatMap w'.routine.effects = [3, 2, 4]) (by decide +kernel)
  refine ⟨r, b', t, hfinish, ht, (hentry ▸ Walk.start : r.Walk [0] 0).extend hpath,
    hnew.mono fun _ w' hnew => ?_⟩
  obtain ⟨hentry', hpath', hnew⟩ := hnew
  refine ⟨(hentry' ▸ Walk.start : w'.routine.Walk [0] 0).extend hpath', hkinds, hold, hnew,
    fun hexchanged => ?_⟩
  rw [hold, hnew] at hexchanged
  simp only [map_cons, map_nil, List.cons.injEq] at hkinds
  -- there is only one read, so that nothing can change places
  have hrigid := hexchanged.eq_of_rigid fun a ha b hb hreads => by
    have hread : ∀ c ∈ [2, 3, 4], r.effectOf c = some .read → c = 2 := by simp [hkinds]
    rw [hread a ha hreads.1, hread b hb hreads.2]
  cases hrigid

end Tree

end CoroutineIR
