import CoroutineIR.Proofs.Revision
import Mathlib.Data.List.Forall2

/-!
# Runs that echo each other

A pass over a routine without sub-expressions is a series of small changes, each of which takes a
node out of the stream or leaves the stream as it is. The run of the changed routine goes through
the same nodes as that of the routine before, except for those taken out, and executes them for the
same values. Which variables hold the same values in both runs is different from change to change;
it is kept as a relation that the nodes executed preserve.
-/

namespace CoroutineIR

open List Option

variable {V : Type}

/-- The value of an operand that is no sub-expression. -/
def Meaning.value (M : Meaning V) (store : VarId → V) : Operand → V
  | .lit x => M.lit x
  | .var v => store v
  | .node _ => M.lit default

theorem Meaning.past_append (M : Meaning V) (l l' : List (Executed V)) :
    M.past (l ++ l') = M.past l ++ M.past l' :=
  filter_append ..

theorem Meaning.past_single (M : Meaning V) {n : NodeId} (h : M.heeds n = false) (args : List V) :
    M.past [⟨n, args⟩] = [] :=
  filter_cons_of_neg (by simp [h])

/-- A node that declares nothing writes its destination. -/
theorem Node.mem_accesses_of_dest {e : Node} {v : VarId}
    (hdeclaration : e.kind.isDeclaration = false) (hdest : e.dest = some v) :
    (v, .write) ∈ e.accesses := by
  cases hk : e.kind <;> simp_all [Node.accesses]

namespace Routine

variable {r r' r'' : Routine} {M : Meaning V} {exit n m d p s : NodeId} {t t' : Strand}
  {e e' : Node} {stream stream' : List NodeId} {changed changed' : NodeId → Prop}
  {store store' store'' : VarId → V} {u : VarId} {o o' : Option NodeId}

/-- Operands without sub-expressions are read from the store. -/
theorem argValues_flat (he : r.label n = some e) (hflat : e.Flat) (past : List (Executed V))
    (store : VarId → V) : r.argValues M past store n = e.args.map (M.value store) := by
  rw [argValues, he, elim_some]
  refine map_congr_left fun arg harg => ?_
  cases arg with
  | lit | var => simp [operandValue, Meaning.value]
  | node m => simpa [Operand.node?] using hflat _ harg

/-- The values of variables only depend on what is remembered of the trace. -/
theorem storeAfter_past {trace trace' : List (Executed V)} (h : M.past trace' = M.past trace)
    (args : List V) : r.storeAfter M trace' store n args = r.storeAfter M trace store n args := by
  have hsnoc : M.past (trace' ++ [⟨n, args⟩]) = M.past (trace ++ [⟨n, args⟩]) := by
    rw [M.past_append, h, M.past_append]
  unfold storeAfter
  rw [h, hsnoc]

/-- The value of a variable after a node. -/
theorem storeAfter_apply (he : r.label n = some e) (trace : List (Executed V)) (args : List V)
    (u : VarId) : r.storeAfter M trace store n args u =
      if e.kind.isDeclaration = false ∧ e.dest = some u then M.result (M.past trace) n
      e.kind e.ty args
      else if M.heeds n then (M.disturb (M.past (trace ++ [⟨n, args⟩])) u).getD (store u)
      else store u := by
  simp only [storeAfter, he, elim_some]
  cases e.kind.isDeclaration with
  | true => simp
  | false =>
    cases hdest : e.dest with
    | none => simp
    | some w =>
      rw [elim_some, if_neg (by simp)]
      by_cases hu : u = w
      · subst hu
        simp
      · rw [Function.update_of_ne hu]
        simp [Ne.symm hu]

/-- A variable that is not written keeps its value, unless the node is remembered and changes it. -/
theorem storeAfter_of_not_written (he : r.label n = some e)
    (hquiet : M.heeds n = false ∨ ∀ past, M.disturb past u = none) (hu : (u, .write) ∉ e.accesses)
    (trace : List (Executed V)) (args : List V) :
    r.storeAfter M trace store n args u = store u := by
  rw [storeAfter_apply he, if_neg]
  · rcases hquiet with hheeds | hquiet
    · rw [hheeds, if_neg (by simp)]
    · rw [hquiet, getD_none, ite_self]
  · rintro ⟨hdeclaration, hdest⟩
    exact hu (Node.mem_accesses_of_dest hdeclaration hdest)

/-- What a node stores does not depend on its operands but through their values. -/
theorem storeAfter_congr_at (he : r.label n = some e) (he' : r'.label n = some e')
    (hkind : e'.kind = e.kind) (hty : e'.ty = e.ty) (hdest : e'.dest = e.dest)
    (hu : store' u = store u) (trace : List (Executed V)) (args : List V) :
    r'.storeAfter M trace store' n args u = r.storeAfter M trace store n args u := by
  rw [storeAfter_apply he, storeAfter_apply he', hkind, hty, hdest, hu]

theorem forall₂_trans {α β γ : Type} {R : α → β → Prop} {S : β → γ → Prop} {T : α → γ → Prop}
    {l : List α} {l' : List β} {l'' : List γ} (h : Forall₂ R l l') (h' : Forall₂ S l' l'')
    (himp : ∀ a b c, R a b → S b c → T a c) : Forall₂ T l l'' := by
  induction h generalizing l'' with
  | nil =>
    obtain rfl := forall₂_nil_left_iff.mp h'
    exact .nil
  | cons hab _ ih =>
    obtain ⟨c, rest, hbc, hrest, rfl⟩ := forall₂_cons_left_iff.mp h'
    exact .cons (himp _ _ _ hab hbc) (ih hrest)

/-- Runs of `r'` go through the nodes of `stream` as those of `r` do, and execute them for the same
values unless they are among those changed. -/
def Echoes (r r' : Routine) (stream : List NodeId) (changed : NodeId → Prop) (M : Meaning V)
    (store store' : VarId → V) : Prop :=
  ∃ φ : ℕ → ℕ, φ 0 = 0 ∧ StrictMono φ ∧ ∀ k,
    (r'.runFor M store' k).point = (r.runFor M store (φ k)).point ∧
    List.Forall₂ (fun x y : Executed V => y.node = x.node ∧ (y.args = x.args ∨ changed x.node))
      ((r.runFor M store (φ k)).trace.filter fun x => x.node ∈ stream) (r'.runFor M store' k).trace

/-- Two changes one after the other that each leave an echo. -/
theorem Echoes.trans (h : r.Echoes r' stream changed M store store')
    (h' : r'.Echoes r'' stream' changed' M store' store'') (hsub : stream' ⊆ stream) :
    r.Echoes r'' stream' (fun n => changed n ∨ changed' n) M store store'' := by
  obtain ⟨φ, hφ₀, hφ, hrel⟩ := h
  obtain ⟨ψ, hψ₀, hψ, hrel'⟩ := h'
  refine ⟨φ ∘ ψ, by rw [Function.comp_apply, hψ₀, hφ₀], hφ.comp hψ, fun k => ?_⟩
  obtain ⟨hpoint, htrace⟩ := hrel (ψ k)
  obtain ⟨hpoint', htrace'⟩ := hrel' k
  refine ⟨hpoint'.trans hpoint, ?_⟩
  have hold := rel_filter (p := fun x : Executed V => decide (x.node ∈ stream'))
    (q := fun x : Executed V => decide (x.node ∈ stream')) (fun x y hxy => by simp [hxy.1]) htrace
  have hfilter : ∀ l : List (Executed V), ((l.filter fun x => x.node ∈ stream).filter fun x =>
      x.node ∈ stream') = l.filter fun x => x.node ∈ stream' := by
    intro l
    rw [List.filter_filter]
    refine filter_congr fun x _ => ?_
    rw [Bool.and_eq_left_iff_imp, decide_eq_true_eq, decide_eq_true_eq]
    exact (hsub ·)
  rw [hfilter] at hold
  exact forall₂_trans hold htrace' fun x y z hxy hyz => ⟨hyz.1.trans hxy.1, by
    rcases hyz.2 with hargs | hchanged
    · exact hxy.2.imp hargs.trans Or.inl
    · exact Or.inr (Or.inr (hxy.1 ▸ hchanged))⟩

theorem Echoes.mono (h : r.Echoes r' stream changed M store store')
    (himp : ∀ n, changed n → changed' n) : r.Echoes r' stream changed' M store store' := by
  obtain ⟨φ, hφ₀, hφ, hrel⟩ := h
  exact ⟨φ, hφ₀, hφ,
    fun k => ⟨(hrel k).1, (hrel k).2.imp fun x y hxy => ⟨hxy.1, hxy.2.imp id (himp x.node)⟩⟩⟩

/-- A run echoes itself. -/
theorem WellStructured.echoes (hr : r.WellStructured exit t) (M : Meaning V) (store : VarId → V) :
    r.Echoes r (r.live exit t) changed M store store := by
  refine ⟨id, rfl, strictMono_id, fun k => ⟨rfl, ?_⟩⟩
  rw [filter_eq_self.mpr fun x hx => decide_eq_true ((hr.runFor_mem M store _).2 x hx)]
  exact forall₂_same.mpr fun x _ => ⟨rfl, Or.inl rfl⟩

/-- Control that has come to a place of `r` goes on to another one, passing nodes that are not in
`stream`. -/
inductive Skims (r : Routine) (stream : List NodeId) : Option NodeId → Option NodeId → Prop
  | arrive {o : Option NodeId} (h : ∀ m, o = some m → m ∈ stream) : Skims r stream o o
  | pass {m : NodeId} {o o' : Option NodeId} (hm : m ∉ stream)
    (hfollow : ∀ holds, r.follow m holds = o) (h : Skims r stream o o') : Skims r stream (some m) o'

theorem Skims.inside (h : r.Skims stream o o') : ∀ m, o' = some m → m ∈ stream := by
  induction h with
  | arrive h => exact h
  | pass _ _ _ ih => exact ih

/-- Nodes passed on the way to a place can be passed before. -/
theorem Skims.append {k : NodeId} (h : r.Skims stream o (some k)) (hsub : stream' ⊆ stream)
    (h' : r.Skims stream' (some k) o') : r.Skims stream' o o' := by
  generalize hk : some k = place at h
  induction h with
  | arrive => exact hk ▸ h'
  | pass hm hfollow _ ih => exact .pass (fun hin => hm (hsub hin)) hfollow (ih hk)

/-- Control in `r'` goes through `stream` as it does in `r`, where it may pass other nodes. -/
structure Shadows (r r' : Routine) (stream : List NodeId) : Prop where
  entry : r'.entry = r.entry
  entry_mem : r.entry ∈ stream
  follow : ∀ m ∈ stream, ∀ holds, r.Skims stream (r.follow m holds) (r'.follow m holds)

/-- If further nodes are passed, control passes them as well. -/
theorem Shadows.trans (h : r.Shadows r' stream)
    (h' : r'.Shadows r'' stream') (hsub : stream' ⊆ stream)
    (hplain : ∀ m ∈ stream, m ∉ stream' → ∀ holds holds', r.follow m holds = r.follow m holds') :
    r.Shadows r'' stream' := by
  have hskims : ∀ {o₁ o₂ : Option NodeId}, r'.Skims stream' o₁ o₂ → ∀ o, r.Skims stream o o₁ →
      r.Skims stream' o o₂ := by
    intro o₁ o₂ hnew
    induction hnew with
    | arrive hinside =>
      intro o hold
      induction hold with
      | arrive => exact .arrive hinside
      | pass hm hfollow _ ih => exact .pass (fun hin => hm (hsub hin)) hfollow (ih hinside)
    | @pass k o₃ _ hk hfollow _ ih =>
      intro o hold
      refine hold.append hsub ?_
      have hin := hold.inside k rfl
      refine .pass hk (fun holds => hplain k hin hk holds true) (ih _ ?_)
      rw [← hfollow true]
      exact h.follow k hin true
  exact ⟨h'.entry.trans h.entry, h.entry ▸ h'.entry_mem, fun m hm holds =>
    hskims (h'.follow m hm holds) _ (h.follow m (hsub hm) holds)⟩

/-- The run `y` echoes the run `x`. -/
structure Echoing (r : Routine) (stream : List NodeId) (changed : NodeId → Prop) (M : Meaning V)
    (store : VarId → V) (agree : Run V → (VarId → V) → Prop) (x y : Run V) : Prop where
  reached : ∃ k, x = r.runFor M store k
  point : y.point = x.point
  inside : ∀ m, x.point = some m → m ∈ stream
  trace : List.Forall₂ (fun x y : Executed V => y.node = x.node ∧
    (y.args = x.args ∨ changed x.node)) (x.trace.filter fun x => x.node ∈ stream) y.trace
  past : M.past y.trace = M.past x.trace
  agrees : agree x y.store

/-- A run that has halted stays where it is. -/
theorem runFor_of_halts {k i : ℕ} (hend : (r.runFor M store k).point = none) (h : k ≤ i) :
    (r.runFor M store i).point = none := by
  induction i, h using Nat.le_induction with
  | base => exact hend
  | succ i _ ih => rw [runFor_succ, advanceRun, ih, elim_none, ih]

/-- Control is at a node only before the run halts. -/
theorem lt_of_halts {k i : ℕ} (hend : (r.runFor M store k).point = none)
    (h : (r.runFor M store i).point = some n) : i < k := by
  by_contra hle
  rw [runFor_of_halts hend (Nat.le_of_not_lt hle)] at h
  cases h

section Simulation

variable (agree : Run V → (VarId → V) → Prop) {x y : Run V}

/-- A node that is executed in both runs. The values of its operands may differ if it is changed, is
not remembered and control just passes through it. -/
def SameOperands (r r' : Routine) (changed : NodeId → Prop) (M : Meaning V) (x : Run V)
    (store' : VarId → V) (m : NodeId) : Prop :=
  r'.argValues M (M.past x.trace) store' m = r.argValues M (M.past x.trace) x.store m ∨
    changed m ∧ M.heeds m = false ∧ ∀ holds holds', r.follow m holds = r.follow m holds'

variable (hshadows : r.Shadows r' stream)
  (hvisit : ∀ k m store', (r.runFor M store k).point = some m → m ∈ stream →
  agree (r.runFor M store k) store' → r.SameOperands r' changed M (r.runFor M store k) store' m ∧
      agree (r.visit M (r.runFor M store k) m) (r'.storeAfter M (r.runFor M store k).trace store' m
        (r'.argValues M (M.past (r.runFor M store k).trace) store' m)))
  (hskip : ∀ k m store', (r.runFor M store k).point = some m → m ∉ stream → agree
  (r.runFor M store k) store' → M.heeds m = false ∧ agree (r.visit M (r.runFor M store k) m) store')

include hskip in
/-- The run that is followed passes nodes until it comes to one of the stream. -/
theorem exists_echoing {k : ℕ} (hpasses : r.Skims stream o o')
    (harrives : y.point = o') (hpoint : (r.runFor M store k).point = o)
    (htrace : Forall₂ (fun x y : Executed V => y.node = x.node ∧ (y.args = x.args ∨ changed x.node))
      ((r.runFor M store k).trace.filter fun x => x.node ∈ stream) y.trace)
    (hpast : M.past y.trace = M.past (r.runFor M store k).trace)
    (hagree : agree (r.runFor M store k) y.store) :
    ∃ i, r.Echoing stream changed M store agree (r.runFor M store (k + i)) y := by
  induction hpasses generalizing k with
  | arrive hinside =>
    exact ⟨0, ⟨k, rfl⟩, harrives.trans hpoint.symm,
      fun m hm => hinside m (hpoint.symm.trans hm), htrace, hpast, hagree⟩
  | @pass m _ _ hm hfollow _ ih =>
    obtain ⟨hheeds, hagree'⟩ := hskip k m _ hpoint hm hagree
    have hnext : r.runFor M store (k + 1) = r.visit M (r.runFor M store k) m := by
      rw [runFor_succ, advanceRun, hpoint, elim_some]
    obtain ⟨i, hi⟩ := ih (k := k + 1) harrives (by rw [hnext]; exact hfollow _)
      (by
        rw [hnext]
        simp only [visit]
        rw [filter_append, filter_cons_of_neg (by simpa using hm), filter_nil, append_nil]
        exact htrace)
      (by
        rw [hnext, hpast]
        simp only [visit, M.past_append, M.past_single hheeds, append_nil])
      (by rw [hnext]; exact hagree')
    exact ⟨i + 1, by rwa [show k + (i + 1) = k + 1 + i by omega]⟩

include hshadows hvisit hskip

/-- One step of the run that echoes is one or more steps of the other one. -/
theorem echoing_step (h : r.Echoing stream changed M store agree x y) :
    ∃ i,
    r.Echoing stream changed M store agree ((r.advanceRun M)^[i + 1] x) (r'.advanceRun M y) := by
  obtain ⟨k, rfl⟩ := h.reached
  have hreached : ∀ i, (r.advanceRun M)^[i] (r.runFor M store k) = r.runFor M store (k + i) :=
      fun i => by
    rw [runFor, runFor, Nat.add_comm, Function.iterate_add_apply]
  have hsucc := runFor_succ r M store k
  cases hpoint : (r.runFor M store k).point with
  | none =>
    refine ⟨0, ?_⟩
    rw [hreached, hsucc, advanceRun, advanceRun, h.point, hpoint]
    exact h
  | some m =>
    have hm := h.inside m hpoint
    obtain ⟨hargs, hagree⟩ := hvisit k m y.store hpoint hm h.agrees
    have hx : r.runFor M store (k + 1) = r.visit M (r.runFor M store k) m := by
      rw [hsucc, advanceRun, hpoint, elim_some]
    have hy : r'.advanceRun M y = r'.visit M y m := by rw [advanceRun, h.point, hpoint, elim_some]
    have hargs' : r'.argValues M (M.past y.trace) y.store m =
        r'.argValues M (M.past (r.runFor M store k).trace) y.store m := by rw [h.past]
    have hstore : (r'.visit M y m).store = r'.storeAfter M (r.runFor M store k).trace y.store m
        (r'.argValues M (M.past (r.runFor M store k).trace) y.store m) := by
      simp only [visit, hargs']
      exact storeAfter_past h.past _
    have hpasses : r.Skims stream (r.runFor M store (k + 1)).point (r'.visit M y m).point := by
      rw [hx]
      simp only [visit, hargs']
      rcases hargs with heq | ⟨-, -, hany⟩
      · rw [heq]
        exact hshadows.follow m hm _
      · rw [hany _ (M.truth m (r'.argValues M (M.past (r.runFor M store k).trace) y.store m))]
        exact hshadows.follow m hm _
    obtain ⟨i, hi⟩ : ∃ i,
        r.Echoing stream changed M store agree (r.runFor M store (k + 1 + i)) (r'.visit M y m) :=
      exists_echoing agree hskip hpasses rfl rfl
      (by
        -- the node is recorded in both runs
        rw [hx]
        simp only [visit, hargs']
        rw [filter_append, filter_cons_of_pos (by simpa using hm), filter_nil]
        exact rel_append h.trace (.cons ⟨rfl, hargs.imp id And.left⟩ .nil))
      (by
        rw [hx]
        simp only [visit, M.past_append, h.past]
        rcases hargs with heq | ⟨-, hheeds, -⟩
        · rw [heq]
        · rw [M.past_single hheeds, M.past_single hheeds])
      (by rw [hx, hstore]; exact hagree)
    refine ⟨i, ?_⟩
    rw [hreached, hy]
    rwa [show k + (i + 1) = k + 1 + i by omega]

/-- Runs follow each other if the nodes executed keep the variables in agreement. -/
theorem Shadows.exists_schedule (hstart : agree ⟨some r.entry, store, []⟩ store') : ∃ φ : ℕ →
    ℕ, φ 0 = 0 ∧ StrictMono φ ∧ ∀ k, r.Echoing stream changed M store agree (r.runFor M store (φ k))
    (r'.runFor M store' k) := by
  have hfirst : r.Echoing stream changed M store agree ⟨some r.entry, store,
      []⟩ ⟨some r'.entry, store', []⟩ :=
    ⟨⟨0, rfl⟩, by rw [hshadows.entry], fun m hm => some.inj hm ▸ hshadows.entry_mem, .nil,
      rfl, hstart⟩
  exact CoroutineIR.exists_schedule (fun _ _ hxy =>
    echoing_step agree hshadows hvisit hskip hxy) hfirst

theorem Shadows.echoes (hstart : agree ⟨some r.entry, store, []⟩ store') :
    r.Echoes r' stream changed M store store' := by
  obtain ⟨φ, hzero, hmono, hφ⟩ := hshadows.exists_schedule agree hvisit hskip hstart
  exact ⟨φ, hzero, hmono, fun k => ⟨(hφ k).point, (hφ k).trace⟩⟩

end Simulation

/-- A node that control just passes through is skipped once it is taken out. -/
theorem Bypasses.shadows (h : r.Bypasses r' exit t t' d p s) (hr : r.WellStructured exit t)
    {kind : NodeKind} (hkind : r.kindOf d = some kind) (hplain : kind.isPlain = true) :
    r.Shadows r' (r'.live exit t') := by
  have hd : d ∉ r'.live exit t' := fun hin => h.ne_of_mem hr hin rfl
  refine ⟨h.entry, by simp [h.entry], fun m hm holds => ?_⟩
  rw [h.follow hr hkind hplain hm holds]
  cases hk : r.follow m holds with
  | none => exact .arrive fun _ hnone => by cases hnone
  | some k =>
    rw [map_some]
    have hk' := hr.follow_mem (h.mem_old hm) hk
    by_cases hkd : k = d
    · rw [if_pos hkd, hkd]
      refine .pass hd (fun holds' => ?_) (.arrive fun k' hk' => ?_)
      · rw [follow_plain hkind hplain, h.nextOf, head?_cons]
      · obtain rfl := some.inj hk'
        exact h.mem_new (hr.next_mem h.def_mem (by simp [h.nextOf])) (h.next_ne hr)
    · rw [if_neg hkd]
      exact .arrive fun k' hk'' => some.inj hk'' ▸ h.mem_new hk' hkd

/-- Control does not notice a change of a label. -/
theorem Relabels.shadows (h : r.Relabels r' n e e') (hr : r.WellStructured exit t) :
    r.Shadows r' (r.live exit t) := by
  refine ⟨h.entry, mem_cons_self, fun m hm holds => ?_⟩
  rw [h.follow_eq]
  exact .arrive fun k hk => hr.follow_mem hm hk

/-- A change of a label is echoed if the node stores what it stored before. -/
theorem Relabels.echoes (h : r.Relabels r' n e e') (hr : r.Flat exit t)
    (hself : ∀ k, (r.runFor M store k).point = some n →
      r.SameOperands r' changed M (r.runFor M store k) (r.runFor M store k).store n ∧
        r'.storeAfter M (r.runFor M store k).trace (r.runFor M store k).store n
          (r'.argValues M (M.past (r.runFor M store k).trace) (r.runFor M store k).store n) =
          (r.visit M (r.runFor M store k) n).store) :
    r.Echoes r' (r.live exit t) changed M store store := by
  refine (h.shadows hr.toWellStructured).echoes (fun x store' => store' = x.store)
    (fun k m store' hpoint hm hagree => ?_) (fun k m store' hpoint hm => ?_) rfl
  · subst hagree
    by_cases hmn : m = n
    · subst hmn
      exact hself k hpoint
    · obtain ⟨em, hem, hflat⟩ := hr.exists_label hm
      have hem' : r'.label m = some em := (h.label_of_ne hmn).trans hem
      have hvalues : r'.argValues M (M.past (r.runFor M store k).trace) (r.runFor M store k).store
          m = r.argValues M (M.past (r.runFor M store k).trace) (r.runFor M store k).store m := by
        rw [argValues_flat hem hflat, argValues_flat hem' hflat]
      refine ⟨Or.inl hvalues, ?_⟩
      rw [hvalues]
      exact funext fun u => storeAfter_congr_at hem hem' rfl rfl rfl rfl _ _
  · exact absurd ((hr.runFor_mem M _ k).1 m hpoint) hm

end Routine

end CoroutineIR
