import Mathlib

/-!
# Runs of a transition function

Every concurrent part of the kernel is modelled the same way: a state, a type
of actions, and a function that says which state an action leads to, or
`none` where the action is not enabled. This file holds what is common to all
of them — the states a run can reach, with the induction that goes with it,
and the bridge from an explicit list of actions to reachability.

A run can be restricted by a condition on each of its steps. The condition
sees the state the step is taken in and the action, nothing later, so it can
be read as an assumption about the inputs or about the schedule.
-/

namespace Xv6.Lib

universe u v

variable {S : Type u} {A : Type v}

/-- The states reached from `s₀` by steps that each satisfy `ok` in the state
they are taken in. -/
inductive Reach (step : S → A → Option S) (ok : S → A → Prop) (s₀ : S) :
    S → Prop
  | refl : Reach step ok s₀ s₀
  | tail {s s' : S} {a : A} : Reach step ok s₀ s → ok s a →
      step s a = some s' → Reach step ok s₀ s'

/-- No condition on the steps at all. -/
def anyStep : S → A → Prop := fun _ _ => True

instance (s : S) (a : A) : Decidable (anyStep s a) :=
  inferInstanceAs (Decidable True)

/-- What holds at the start and survives every permitted step holds in every
state reached. -/
theorem Reach.invariant {step : S → A → Option S} {ok : S → A → Prop} {s₀ s : S}
    {I : S → Prop} (h : Reach step ok s₀ s) (h₀ : I s₀)
    (hstep : ∀ s s' a, I s → ok s a → step s a = some s' → I s') : I s := by
  induction h with
  | refl => exact h₀
  | tail _ hok hs ih => exact hstep _ _ _ ih hok hs

/-- A restricted run is a run. -/
theorem Reach.weaken {step : S → A → Option S} {ok ok' : S → A → Prop} {s₀ s : S}
    (h : Reach step ok s₀ s) (hle : ∀ s a, ok s a → ok' s a) :
    Reach step ok' s₀ s := by
  induction h with
  | refl => exact .refl
  | tail _ hok hs ih => exact .tail ih (hle _ _ hok) hs

theorem Reach.trans {step : S → A → Option S} {ok : S → A → Prop} {s₀ s₁ s₂ : S}
    (h₁ : Reach step ok s₀ s₁) (h₂ : Reach step ok s₁ s₂) :
    Reach step ok s₀ s₂ := by
  induction h₂ with
  | refl => exact h₁
  | tail _ hok hs ih => exact .tail ih hok hs

/-- Performing a list of actions in order, as long as each is permitted. -/
def exec (step : S → A → Option S) (ok : S → A → Prop)
    [∀ s a, Decidable (ok s a)] : S → List A → Option S
  | s, [] => some s
  | s, a :: as =>
      if ok s a then
        match step s a with
        | none => none
        | some s' => exec step ok s' as
      else none

/-- A list of actions that goes through is a run. -/
theorem reach_of_exec {step : S → A → Option S} {ok : S → A → Prop}
    [∀ s a, Decidable (ok s a)] :
    ∀ {as : List A} {s s' : S}, exec step ok s as = some s' →
      Reach step ok s s' := by
  intro as
  induction as with
  | nil =>
      intro s s' h
      simp only [exec, Option.some.injEq] at h
      subst h
      exact .refl
  | cons a as ih =>
      intro s s' h
      simp only [exec] at h
      split at h
      · next hok =>
          split at h
          · cases h
          · next s₁ hs => exact (Reach.tail .refl hok hs).trans (ih h)
      · cases h

/-- A run found by execution, with a test on the state it ends in. -/
theorem exists_reach_of_exec {step : S → A → Option S} {ok : S → A → Prop}
    [∀ s a, Decidable (ok s a)] {s₀ : S} {as : List A} {P : S → Bool}
    (h : (exec step ok s₀ as).any P = true) :
    ∃ s, Reach step ok s₀ s ∧ P s = true := by
  obtain ⟨s, hs, hp⟩ := (Option.any_eq_true _ _).mp h
  exact ⟨s, reach_of_exec hs, hp⟩

/-! ## Runs with their states -/

/-- A run from `s₀` and the states it goes through, the last one first. -/
inductive Path (step : S → A → Option S) (s₀ : S) : S → List S → Prop
  | refl : Path step s₀ s₀ [s₀]
  | tail {s s' : S} {a : A} {ss : List S} : Path step s₀ s ss → step s a = some s' →
      Path step s₀ s' (s' :: ss)

theorem Path.mem_last {step : S → A → Option S} {s₀ s : S} {ss : List S}
    (h : Path step s₀ s ss) : s ∈ ss := by
  cases h <;> exact List.mem_cons_self

theorem exists_path_of_reach {step : S → A → Option S} {ok : S → A → Prop} {s₀ s : S}
    (h : Reach step ok s₀ s) : ∃ ss, Path step s₀ s ss := by
  induction h with
  | refl => exact ⟨_, .refl⟩
  | tail _ _ hs ih =>
      obtain ⟨ss, hss⟩ := ih
      exact ⟨_, hss.tail hs⟩

end Xv6.Lib
