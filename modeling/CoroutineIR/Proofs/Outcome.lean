import CoroutineIR.Builder
import CoroutineIR.Step.Lowering

/-!
# Actions that deliver

`Action.Yields x s post` says that the action `x` delivers a value from the state `s`, and that the
value and the state reached satisfy `post`. The equivalences below take an action apart from its
first step on, so that a statement about a whole action reduces to one about the states its steps go
through.
-/

namespace CoroutineIR

open List

/-- What holds of the one thing that has been found. -/
theorem exists_some_eq {α : Type} {a : α} {P : α → Prop} : (∃ b, some a = some b ∧ P b) ↔ P a := by
  simp only [Option.some.injEq, exists_eq_left']

namespace Attempt

variable {ε α β : Type} {x : Attempt ε α} {f : α → Attempt ε β}

@[simp] theorem pure_eq_ok (a : α) : (pure a : Attempt ε α) = .ok a := rfl

@[simp] theorem ok_bind (a : α) (f : α → Attempt ε β) : (Except.ok a >>= f) = f a := rfl

@[simp] theorem error_bind (e : Fault ε) (f : α → Attempt ε β) :
    (Except.error e >>= f) = .error e := rfl

theorem bind_eq_ok_iff {b : β} : x >>= f = .ok b ↔ ∃ a, x = .ok a ∧ f a = .ok b := by
  cases x <;> simp

/-- A computation that succeeds in two steps. -/
theorem exists_bind {P : α → Prop} {Q : β → Prop} (hx : ∃ a, x = .ok a ∧ P a)
    (hf : ∀ a, P a → ∃ b, f a = .ok b ∧ Q b) : ∃ b, x >>= f = .ok b ∧ Q b := by
  obtain ⟨a, rfl, ha⟩ := hx
  exact hf a ha

@[simp] theorem refuse_ne_ok {reason : ε} {a : α} : (refuse reason : Attempt ε α) ≠ .ok a := by
  simp [refuse]

theorem forM_eq_ok_iff {l : List α} {f : α → Attempt ε PUnit} {u : PUnit} :
    l.forM f = .ok u ↔ ∀ a ∈ l, f a = .ok () := by
  induction l with
  | nil => simp
  | cons a l ih =>
    rw [List.forM_eq_forM, forM_cons, bind_eq_ok_iff]
    simp only [mem_cons, forall_eq_or_imp, ← ih, List.forM_eq_forM]
    constructor
    · rintro ⟨⟨⟩, ha, hl⟩
      exact ⟨ha, hl⟩
    · rintro ⟨ha, hl⟩
      exact ⟨(), ha, hl⟩

/-- A test that refuses unless a condition holds. -/
theorem unless_eq_ok_iff {p : Prop} [Decidable p] {x : Attempt ε PUnit} (hx : x ≠ .ok ()) :
    (if p then x else pure PUnit.unit) = .ok () ↔ ¬p := by
  by_cases hp : p
  · simp [hp, hx]
  · simp [hp]

end Attempt

namespace Action

variable {ε σ τ α β : Type} {x : Action ε σ α} {s : σ} {post post' : α → σ → Prop}
  {fault : Fault ε → Prop} {f : α → Action ε σ β}

/-- The action delivers a value from `s`, and `post` holds of the value and of the state reached. -/
def Yields (x : Action ε σ α) (s : σ) (post : α → σ → Prop) : Prop :=
  match x s with
  | .ok a s' => post a s'
  | .error _ _ => False

theorem yields_iff_exists : x.Yields s post ↔ ∃ a s', x s = .ok a s' ∧ post a s' := by
  unfold Yields
  cases x s <;> simp [and_assoc]

theorem Yields.of_ok {a : α} {s' : σ} (h : x.Yields s post) (hok : x s = .ok a s') : post a s' := by
  rwa [Yields, hok] at h

theorem Yields.mono (h : x.Yields s post) (himp : ∀ a s', post a s' → post' a s') :
    x.Yields s post' := by
  obtain ⟨a, s', hx, hpost⟩ := yields_iff_exists.mp h
  exact yields_iff_exists.mpr ⟨a, s', hx, himp a s' hpost⟩

theorem Yields.and (h : x.Yields s post) (h' : x.Yields s post') :
    x.Yields s fun a s' => post a s' ∧ post' a s' := by
  obtain ⟨a, s', hx, hpost⟩ := yields_iff_exists.mp h
  exact yields_iff_exists.mpr ⟨a, s', hx, hpost, h'.of_ok hx⟩

/-- The action delivers a value from `s`, and `post` holds of the value and of the state reached, or
it ends with a fault that `fault` allows. -/
def Ends (x : Action ε σ α) (s : σ) (post : α → σ → Prop) (fault : Fault ε → Prop) : Prop :=
  match x s with
  | .ok a s' => post a s'
  | .error e _ => fault e

theorem ends_iff : x.Ends s post fault ↔ (∀ a s', x s = .ok a s' → post a s') ∧
    ∀ e s', x s = .error e s' → fault e := by
  unfold Ends
  cases x s <;> simp

theorem Yields.ends (h : x.Yields s post) : x.Ends s post fault := by
  obtain ⟨a, s', hx, hpost⟩ := yields_iff_exists.mp h
  rwa [Ends, hx]

theorem Ends.mono (h : x.Ends s post fault) (himp : ∀ a s', post a s' → post' a s') :
    x.Ends s post' fault := by
  obtain ⟨hok, herror⟩ := ends_iff.mp h
  exact ends_iff.mpr ⟨fun a s' ha => himp a s' (hok a s' ha), herror⟩

theorem Ends.imp {fault' : Fault ε → Prop} (h : x.Ends s post fault)
    (himp : ∀ e, fault e → fault' e) : x.Ends s post fault' := by
  obtain ⟨hok, herror⟩ := ends_iff.mp h
  exact ends_iff.mpr ⟨hok, fun e s' he => himp e (herror e s' he)⟩

theorem Ends.yields (h : x.Ends s post fault) (hnone : ∀ e, ¬fault e) : x.Yields s post :=
  h.imp hnone

theorem Ends.of_ok {a : α} {s' : σ} (h : x.Ends s post fault)
    (hok : x s = .ok a s') : post a s' := by
  rwa [Ends, hok] at h

theorem ends_bind {post : β → σ → Prop} :
    Ends (x >>= f) s post fault ↔ x.Ends s (fun a s' => (f a).Ends s' post fault) fault := by
  simp only [Ends, bind, EStateM.bind]
  cases x s <;> rfl

theorem ends_toAction {x : Attempt ε α} (hok : ∀ a, x = .ok a → post a s)
    (herror : ∀ e, x = .error e → fault e) : Ends x.toAction s post fault := by
  cases x with
  | ok a => exact hok a rfl
  | error e => exact herror e rfl

/-- However the action ends, `inv` holds of the state reached if it held before. -/
def Keeps (x : Action ε σ α) (inv : σ → Prop) : Prop :=
  ∀ s, inv s → match x s with
    | .ok _ s' => inv s'
    | .error _ s' => inv s'

section Keeps

variable {inv : σ → Prop}

theorem Keeps.bind (hx : x.Keeps inv) (hf : ∀ a, (f a).Keeps inv) :
    Keeps (x >>= f) inv := by
  intro s hs
  have hx := hx s hs
  simp only [Bind.bind, EStateM.bind]
  cases hrun : x s <;> rw [hrun] at hx
  · exact hf _ _ hx
  · exact hx

theorem keeps_pure (a : α) : Keeps (pure a : Action ε σ α) inv := fun _ hs => hs

theorem keeps_get : Keeps (get : Action ε σ σ) inv := fun _ hs => hs

theorem keeps_throw (e : Fault ε) : Keeps (throw e : Action ε σ α) inv := fun _ hs => hs

theorem keeps_modify {f : σ → σ} (h : ∀ s, inv s → inv (f s)) :
    Keeps (modify f : Action ε σ PUnit) inv := h

theorem keeps_toAction (x : Attempt ε α) : Keeps (x.toAction : Action ε σ α) inv := by
  intro s hs
  cases x with
  | ok | error => exact hs

theorem keeps_ask (query : σ → Attempt ε α) : Keeps (ask query) inv :=
    fun s hs => keeps_toAction (query s) s hs

theorem keeps_forM {l : List β} {f : β → Action ε σ PUnit} (h : ∀ b ∈ l, (f b).Keeps inv) :
    Keeps (l.forM f) inv := by
  induction l with
  | nil => exact keeps_pure _
  | cons b l ih =>
    rw [forall_mem_cons] at h
    exact h.1.bind fun _ => ih h.2

end Keeps

/-- What an action yields is found out by running it. -/
instance decidableYields [∀ a s', Decidable (post a s')] : Decidable (x.Yields s post) :=
  match h : x s with
  | .ok a s' => decidable_of_iff (post a s') (by rw [Yields, h])
  | .error _ _ => isFalse (by rw [Yields, h]; exact id)

@[simp] theorem yields_pure {a : α} : Yields (pure a : Action ε σ α) s post ↔ post a s := Iff.rfl

@[simp] theorem yields_bind {post : β → σ → Prop} :
    Yields (x >>= f) s post ↔ x.Yields s fun a s' => (f a).Yields s' post := by
  simp only [Yields, bind, EStateM.bind]
  cases x s <;> rfl

@[simp] theorem yields_map {f : α → β} {post : β → σ → Prop} :
    Yields (f <$> x) s post ↔ x.Yields s fun a s' => post (f a) s' := by
  simp only [Yields, Functor.map, EStateM.map]
  cases x s <;> rfl

theorem yields_ite {p : Prop} [Decidable p] {y : Action ε σ α} :
    Yields (if p then x else y) s post ↔ if p then x.Yields s post else y.Yields s post := by
  split <;> rfl

@[simp] theorem yields_get {post : σ → σ → Prop} :
    Yields (get : Action ε σ σ) s post ↔ post s s := Iff.rfl

@[simp] theorem yields_set {t : σ} {post : PUnit → σ → Prop} :
    Yields (set t : Action ε σ PUnit) s post ↔ post () t := Iff.rfl

@[simp] theorem yields_modify {f : σ → σ} {post : PUnit → σ → Prop} :
    Yields (modify f : Action ε σ PUnit) s post ↔ post () (f s) := Iff.rfl

@[simp] theorem yields_modifyGet {f : σ → α × σ} :
    Yields (modifyGet f : Action ε σ α) s post ↔ post (f s).1 (f s).2 := Iff.rfl

@[simp] theorem yields_toAction {x : Attempt ε α} :
    Yields x.toAction s post ↔ ∃ a, x = .ok a ∧ post a s := by
  cases x with
  | ok a => simp [Yields]
  | error e => simp [Yields]

@[simp] theorem yields_ask {query : σ → Attempt ε α} :
    Yields (ask query) s post ↔ ∃ a, query s = .ok a ∧ post a s :=
  yields_toAction

/-- What a loop over the first numbers has reached after each round. -/
theorem yields_forM_range {k : Nat} {f : Nat → Action ε σ PUnit} (inv : Nat → σ → Prop)
    (hstep : ∀ i < k, ∀ s, inv i s → (f i).Yields s fun _ s' => inv (i + 1) s') (hs : inv 0 s) :
    Yields ((List.range k).forM f) s fun _ s' => inv k s' := by
  induction k with
  | zero => exact yields_pure.mpr hs
  | succ k ih =>
    rw [range_succ, List.forM_eq_forM, forM_append]
    refine yields_bind.mpr ((ih fun i hi => hstep i (Nat.lt_succ_of_lt hi)).mono fun _ s' hs' => ?_)
    exact yields_bind.mpr ((hstep k (Nat.lt_succ_self k) s' hs').mono fun _ s'' hs'' =>
      yields_pure.mpr hs'')

theorem yields_within {get : σ → τ} {put : τ → σ → σ} {x : Action ε τ α} :
    Yields (within get put x) s post ↔ x.Yields (get s) fun a t => post a (put t s) := by
  unfold Yields within
  cases x (get s) <;> rfl

end Action

open CoroutineIR.Action

variable {α : Type}

@[simp] theorem Build.yields_lift {edit : Edit α} {b : Builder} {post : α → Builder → Prop} :
    Yields (liftM edit : Build α) b post ↔
      edit.Yields b.routine fun a r => post a { b with routine := r } :=
  yields_within

@[simp] theorem Pass.yields_lift {edit : Edit α} {w : Work} {post : α → Work → Prop} :
    Yields (liftM edit : Pass α) w post ↔
      edit.Yields w.routine fun a r => post a { w with routine := r } :=
  yields_within

@[simp] theorem Lower.yields_liftPass {pass : Pass α} {l : Lowering} {post : α → Lowering → Prop} :
    Yields (liftM pass : Lower α) l post ↔
      pass.Yields l.toWork fun a w => post a { l with toWork := w } :=
  yields_within

@[simp] theorem Lower.yields_lift {edit : Edit α} {l : Lowering} {post : α → Lowering → Prop} :
    Yields (liftM edit : Lower α) l post ↔
      edit.Yields l.routine fun a r => post a { l with routine := r } := by
  refine yields_within.trans ?_
  exact yields_within

@[simp] theorem Pass.yields_ask {query : Routine → Query α} {w : Work} {post : α → Work → Prop} :
    Yields (Pass.ask query) w post ↔ ∃ a, query w.routine = .ok a ∧ post a w :=
  Action.yields_ask

@[simp] theorem Pass.yields_note {level : Level} {text : Routine → Query String} {w : Work}
    {post : PUnit → Work → Prop} :
    Yields (Pass.note level text) w post ↔
      post () { w with journal := w.journal.push ⟨level, text w.routine⟩ } :=
  yields_modify

end CoroutineIR
