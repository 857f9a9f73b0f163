import CoroutineIR.Proofs.Outcome
import Mathlib.Data.Finset.Card

/-!
# Searches that take for granted what they have met

A goal is met, or it fails, or it asks for a key behind which there are further goals. The search
goes through the goals behind the keys and takes a key that it has met before for granted, so that
it ends on goals that ask for themselves. It is right in doing so: a key met without finding a goal
that fails has only goals behind it that ask for such keys again.
-/

namespace CoroutineIR

open List

/-- What is seen of a goal at once. -/
inductive Prospect (κ : Type) where
  | met
  | failed
  | asks (key : κ)

/-- Goals and keys. -/
structure Quest (ε γ κ : Type) where
  look : γ → Prospect κ
  /-- The goals behind a key. There are none if the key fails by itself. -/
  behind : κ → Attempt ε (Option (List γ))

namespace Quest

variable {ε γ κ : Type} {q : Quest ε γ κ} {g : γ} {goals : List γ} {key : κ} {seen seen' : List κ}
  {out : Option (List κ)} {fuel : Nat} {go : γ → List κ → Attempt ε (Option (List κ))}

/-- Pursue goals one after another. The answer is absent when one of them fails. -/
def pursueAll (go : γ → List κ → Attempt ε (Option (List κ))) :
    List γ → List κ → Attempt ε (Option (List κ))
  | [], seen => .ok (some seen)
  | g :: rest, seen => do
    match ← go g seen with
    | none => return none
    | some seen => pursueAll go rest seen

/-- Pursue a goal. The answer holds the keys met at the end. -/
def pursue [DecidableEq κ] (q : Quest ε γ κ) : Nat → γ → List κ → Attempt ε (Option (List κ))
  | fuel, g, seen =>
    match q.look g with
    | .met => .ok (some seen)
    | .failed => .ok none
    | .asks key =>
      if key ∈ seen then .ok (some seen)
      else
        match fuel with
        | 0 => .error .exhausted
        | fuel + 1 => do
          match ← q.behind key with
          | none => return none
          | some goals => pursueAll (pursue q fuel) goals (key :: seen)

/-- The goals that `S` holds of do not fail, and `S` holds of what is behind them. -/
def Sustains (q : Quest ε γ κ) (S : γ → Prop) : Prop :=
  ∀ g, S g → q.look g ≠ .failed ∧ ∀ key, q.look g = .asks key → ∀ found, q.behind key = .ok found →
    ∃ goals, found = some goals ∧ ∀ g' ∈ goals, S g'

/-- A goal that does not fail, and whose key has been met if it asks for one. -/
def Clear (q : Quest ε γ κ) (seen : List κ) (g : γ) : Prop :=
    q.look g ≠ .failed ∧ ∀ key, q.look g = .asks key → key ∈ seen

theorem Clear.mono (h : q.Clear seen g) (hsub : seen ⊆ seen') : q.Clear seen' g :=
    ⟨h.1, fun key hkey => hsub (h.2 key hkey)⟩

/-- The search goes on from some keys met to others, and has looked at what is behind the new ones.
-/
structure Explores (q : Quest ε γ κ) (seen seen' : List κ) : Prop where
  sub : seen ⊆ seen'
  clear : ∀ key ∈ seen', key ∉ seen → ∃ goals, q.behind key = .ok (some goals) ∧
    ∀ g ∈ goals, q.Clear seen' g

theorem Explores.refl (seen : List κ) : q.Explores seen seen :=
    ⟨List.Subset.refl _, fun _ hkey hnot => absurd hkey hnot⟩

theorem Explores.trans {seen'' : List κ} (h : q.Explores seen seen')
    (h' : q.Explores seen' seen'') : q.Explores seen seen'' := by
  refine ⟨List.Subset.trans h.sub h'.sub, fun key hkey hnot => ?_⟩
  by_cases hkey' : key ∈ seen'
  · obtain ⟨goals, hgoals, hclear⟩ := h.clear key hkey' hnot
    exact ⟨goals, hgoals, fun g hg => (hclear g hg).mono h'.sub⟩
  · exact h'.clear key hkey hkey'

/-- What a search answers about the goals it is asked for. -/
def Answers (q : Quest ε γ κ) (seen : List κ) (goals : List γ) : Option (List κ) → Prop
  | none => ∀ S, q.Sustains S → ∃ g ∈ goals, ¬S g
  | some seen' => q.Explores seen seen' ∧ ∀ g ∈ goals, q.Clear seen' g

/-- Goals pursued one after another are answered if each of them is. -/
theorem pursueAll_answers (hgo : ∀ g seen out, go g seen = .ok out → q.Answers seen [g] out)
    (hout : pursueAll go goals seen = .ok out) : q.Answers seen goals out := by
  induction goals generalizing seen with
  | nil =>
    obtain rfl := Except.ok.inj hout
    exact ⟨.refl seen, by simp⟩
  | cons g rest ih =>
    obtain ⟨first, hfirst, hrest⟩ := Attempt.bind_eq_ok_iff.mp hout
    have hanswer := hgo g seen first hfirst
    cases first with
    | none =>
      obtain rfl := Except.ok.inj hrest
      intro S hS
      obtain ⟨g', hg, hnot⟩ := hanswer S hS
      exact ⟨g', by simp_all, hnot⟩
    | some seen₁ =>
      obtain ⟨hexplores, hclear⟩ := hanswer
      have hanswer := ih hrest
      cases out with
      | none =>
        intro S hS
        obtain ⟨g', hg, hnot⟩ := hanswer S hS
        exact ⟨g', by simp [hg], hnot⟩
      | some seen₂ =>
        obtain ⟨hexplores', hclear'⟩ := hanswer
        exact ⟨hexplores.trans hexplores',
          forall_mem_cons.mpr ⟨(hclear g (by simp)).mono hexplores'.sub, hclear'⟩⟩

variable [DecidableEq κ]

/-- A search that ends has the right answer. -/
theorem pursue_answers (hout : q.pursue fuel g seen = .ok out) : q.Answers seen [g] out := by
  induction fuel using Nat.strongRecOn generalizing g seen out with
  | ind fuel ih =>
    rw [pursue.eq_def] at hout
    cases hlook : q.look g with
    | met =>
      simp only [hlook] at hout
      obtain rfl := Except.ok.inj hout
      exact ⟨.refl seen, by simp [Clear, hlook]⟩
    | failed =>
      simp only [hlook] at hout
      obtain rfl := Except.ok.inj hout
      exact fun S hS => ⟨g, by simp, fun hg => (hS g hg).1 hlook⟩
    | asks key =>
      simp only [hlook] at hout
      split at hout
      · rename_i hmem
        obtain rfl := Except.ok.inj hout
        exact ⟨.refl seen, by simp [Clear, hlook, hmem]⟩
      · cases fuel with
        | zero => cases hout
        | succ fuel =>
          obtain ⟨found, hbehind, hrest⟩ := Attempt.bind_eq_ok_iff.mp hout
          cases found with
          | none =>
            obtain rfl := Except.ok.inj hrest
            refine fun S hS => ⟨g, by simp, fun hg => ?_⟩
            obtain ⟨goals, hgoals, -⟩ := (hS g hg).2 key hlook _ hbehind
            cases hgoals
          | some goals =>
            have hanswer := pursueAll_answers (fun _ _ _ h => ih fuel (Nat.lt_succ_self _) h) hrest
            cases out with
            | none =>
              intro S hS
              obtain ⟨g', hg', hnot⟩ := hanswer S hS
              refine ⟨g, by simp, fun hg => ?_⟩
              obtain ⟨goals', hgoals, hall⟩ := (hS g hg).2 key hlook _ hbehind
              cases hgoals
              exact hnot (hall g' hg')
            | some seen' =>
              obtain ⟨hexplores, hclear⟩ := hanswer
              have hmem : key ∈ seen' := hexplores.sub (by simp)
              refine ⟨⟨List.Subset.trans (subset_cons_self _ _) hexplores.sub,
                fun key' hkey hnot => ?_⟩, by simp [Clear, hlook, hmem]⟩
              by_cases heq : key' = key
              · exact ⟨goals, heq ▸ hbehind, hclear⟩
              · exact hexplores.clear key' hkey (by simp [heq, hnot])

/-- What has been met when the search has ended sustains the goal. -/
theorem exists_sustains (hout : q.pursue fuel g [] = .ok (some seen)) : ∃ S, q.Sustains S ∧ S g ∧
    ∀ g, S g → ∀ key, q.look g = .asks key → ∃ found, q.behind key = .ok found := by
  obtain ⟨hexplores, hclear⟩ := pursue_answers hout
  have hbehind : ∀ g, q.Clear seen g → ∀ key, q.look g = .asks key → _ := fun g hg key hkey =>
    hexplores.clear key (hg.2 key hkey) (by simp)
  refine ⟨q.Clear seen, fun g hg => ⟨hg.1, fun key hkey found hfound => ?_⟩, hclear g (by simp),
    fun g hg key hkey => ?_⟩
  · obtain ⟨goals, hgoals, hall⟩ := hbehind g hg key hkey
    cases hgoals.symm.trans hfound
    exact ⟨goals, rfl, hall⟩
  · obtain ⟨goals, hgoals, -⟩ := hbehind g hg key hkey
    exact ⟨_, hgoals⟩

/-- What is sustained does not fail. -/
theorem Sustains.not_fails {S : γ → Prop} (hS : q.Sustains S) (hg : S g) :
    q.pursue fuel g seen ≠ .ok none := fun hout => by
  obtain ⟨g', hg', hnot⟩ := pursue_answers hout S hS
  exact hnot (mem_singleton.mp hg' ▸ hg)

/-- Several goals are pursued with the fuel that is left. -/
theorem exists_pursueAll {keys : Finset κ} (hgo : ∀ g ∈ goals, ∀ seen : List κ,
      (keys \ seen.toFinset).card ≤ fuel → ∃ out, go g seen = .ok out)
    (hsub : ∀ g seen seen', go g seen = .ok (some seen') → seen ⊆ seen')
    (hfuel : (keys \ seen.toFinset).card ≤ fuel) : ∃ out, pursueAll go goals seen = .ok out := by
  induction goals generalizing seen with
  | nil => exact ⟨_, rfl⟩
  | cons g rest ih =>
    rw [forall_mem_cons] at hgo
    obtain ⟨first, hfirst⟩ := hgo.1 seen hfuel
    simp only [pursueAll, hfirst, Attempt.ok_bind]
    cases first with
    | none => exact ⟨_, rfl⟩
    | some seen' =>
      have hmono : seen.toFinset ⊆ seen'.toFinset := fun key hkey =>
        List.mem_toFinset.mpr (hsub g seen seen' hfirst (List.mem_toFinset.mp hkey))
      exact ih hgo.2 (Nat.le_trans
        (Finset.card_le_card (Finset.sdiff_subset_sdiff (Finset.Subset.refl _) hmono)) hfuel)

/-- A search ends if the keys it can meet are finitely many. Every key is looked behind once, so the
fuel is enough. -/
theorem exists_pursue {P : γ → Prop} (keys : Finset κ)
    (hP : ∀ g key, P g → q.look g = .asks key →
      key ∈ keys ∧ ∃ found, q.behind key = .ok found ∧ ∀ goals ∈ found, ∀ g' ∈ goals, P g')
    (hg : P g) (hfuel : (keys \ seen.toFinset).card ≤ fuel) :
    ∃ out, q.pursue fuel g seen = .ok out := by
  induction fuel using Nat.strongRecOn generalizing g seen with
  | ind fuel ih =>
    rw [pursue.eq_def]
    cases hlook : q.look g with
    | met | failed =>
      simp only [hlook]
      exact ⟨_, rfl⟩
    | asks key =>
      obtain ⟨hkey, found, hbehind, hall⟩ := hP g key hg hlook
      simp only [hlook]
      split
      · exact ⟨_, rfl⟩
      · rename_i hnot
        have hleft : key ∈ keys \ seen.toFinset := Finset.mem_sdiff.mpr ⟨hkey, by simpa using hnot⟩
        cases fuel with
        | zero => exact absurd (Finset.card_pos.mpr ⟨key, hleft⟩) (by omega)
        | succ fuel =>
          simp only [hbehind, Attempt.ok_bind]
          cases found with
          | none => exact ⟨_, rfl⟩
          | some goals =>
            have hless : (keys \ (key :: seen).toFinset).card ≤ fuel := by
              rw [toFinset_cons, Finset.sdiff_insert]
              have := Finset.card_erase_lt_of_mem hleft
              omega
            exact exists_pursueAll (fun g' hg' _ => ih fuel (Nat.lt_succ_self _)
              (hall goals rfl g' hg')) (fun _ _ _ h => (pursue_answers h).1.sub) hless

end Quest

end CoroutineIR
