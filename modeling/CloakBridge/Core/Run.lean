import Mathlib.Init

/-!
# Runs of a partial step function

A system is a step function that is undefined where an action is not enabled. `Reaches`
follows the runs whose steps all meet a condition on the state before the step and the
action taken. An invariant is shown once per step and then holds in every state a run
reaches.
-/

namespace CloakBridge

variable {S A : Type}

/-- States reached from `s₀` by steps that each meet `ok`. -/
inductive Reaches (step : S → A → Option S) (ok : S → A → Prop) (s₀ : S) : S → Prop
  | refl : Reaches step ok s₀ s₀
  | tail {s s' : S} {a : A} (hs : Reaches step ok s₀ s) (hok : ok s a)
    (hstep : step s a = some s') :
    Reaches step ok s₀ s'

/-- Every state reached by any steps at all. -/
abbrev Reachable (step : S → A → Option S) : S → S → Prop := Reaches step fun _ _ => True

variable {a : A}

namespace Reaches

variable {step : S → A → Option S} {ok : S → A → Prop} {s₀ s : S} {s₁ : S}

/-- What holds at first and is kept by every step of the run holds throughout. -/
theorem invariant {I : S → Prop} (h : Reaches step ok s₀ s) (hinit : I s₀)
    (hkeep : ∀ s a s', I s → ok s a → step s a = some s' → I s') : I s := by
  induction h with
  | refl => exact hinit
  | tail _ hok hstep ih => exact hkeep _ _ _ ih hok hstep

/-- A run may be continued by another one. -/
theorem trans (h : Reaches step ok s₀ s₁) (h' : Reaches step ok s₁ s) : Reaches step ok s₀ s := by
  induction h' with
  | refl => exact h
  | tail _ hok hstep ih => exact ih.tail hok hstep

/-- A run may be extended at its beginning. -/
theorem head (hok : ok s₀ a) (hstep : step s₀ a = some s₁) (h : Reaches step ok s₁ s) :
    Reaches step ok s₀ s :=
  (refl.tail hok hstep).trans h

/-- A run that meets a condition meets every weaker one. -/
theorem mono {ok' : S → A → Prop} (h : Reaches step ok s₀ s) (himp : ∀ s a, ok s a → ok' s a) :
    Reaches step ok' s₀ s := by
  induction h with
  | refl => exact .refl
  | tail _ hok hstep ih => exact ih.tail (himp _ _ hok) hstep

end Reaches

/-- What holds in all states of a run without choices, which ends within so many steps. -/
def Along (step : S → Unit → Option S) (P : S → Prop) : Nat → S → Prop
  | 0, _ => False
  | n + 1, s => P s ∧ ∀ s', step s () = some s' → Along step P n s'

variable {step : S → A → Option S} {s₀ s s' : S} {ok : S → A → Prop}

/-- What holds along a run holds wherever it gets. -/
theorem Along.of_reachable {step : S → Unit → Option S} {P : S → Prop} {n : Nat}
    (h : Along step P n s₀) (hs : Reachable step s₀ s) : P s := by
  obtain ⟨n, hn⟩ := hs.invariant (I := fun s => ∃ n, Along step P (n + 1) s)
    (by cases n with | zero => exact h.elim | succ n => exact ⟨n, h⟩) (by
      rintro s ⟨⟩ s' ⟨n, -, hnext⟩ - hstep
      have hrest := hnext s' hstep
      cases n with
      | zero => exact hrest.elim
      | succ n => exact ⟨n, hrest⟩)
  exact hn.1

instance Along.decidable {step : S → Unit → Option S} {P : S → Prop} [DecidablePred P] :
    ∀ n s, Decidable (Along step P n s)
  | 0, _ => isFalse id
  | n + 1, s =>
    match h : step s () with
    | none => decidable_of_iff (P s) (by simp [Along, h])
    | some s' =>
      have : Decidable (Along step P n s') := Along.decidable n s'
      decidable_of_iff (P s ∧ Along step P n s') (by simp [Along, h])

/-- Perform a list of actions, as long as each meets the condition and is enabled. -/
def performAll (step : S → A → Option S) (ok : S → A → Prop) [∀ s a, Decidable (ok s a)] :
    S → List A → Option S
  | s, [] => some s
  | s, a :: as => if ok s a then (step s a).bind fun s' => performAll step ok s' as else none

/-- One action is performed if it is allowed and defined. -/
theorem performAll_singleton [∀ s a, Decidable (ok s a)] :
    performAll step ok s [a] = some s' ↔ ok s a ∧ step s a = some s' := by
  simp only [performAll, Option.bind_fun_some, Option.ite_none_right_eq_some]

/-- A state obtained by performing actions is reached. -/
theorem reaches_of_performAll [∀ s a, Decidable (ok s a)] {as : List A} (hs : Reaches step ok s₀ s)
    (h : performAll step ok s as = some s') : Reaches step ok s₀ s' := by
  induction as generalizing s with
  | nil =>
    cases h
    exact hs
  | cons a as ih =>
    rw [performAll] at h
    split at h
    next hok =>
      obtain ⟨s₁, hstep, hrest⟩ := Option.bind_eq_some_iff.mp h
      exact ih (hs.tail hok hstep) hrest
    next => cases h

end CloakBridge
