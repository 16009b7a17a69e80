import Mathlib

/-!
# Computations that can fail

How a sequence of computations with errors runs, and what is known once it has
returned.
-/

namespace Xv6.Lib

variable {ε α β : Type}

@[simp] theorem ok_bind (a : α) (f : α → Except ε β) : (Except.ok a >>= f) = f a := rfl

@[simp] theorem error_bind (e : ε) (f : α → Except ε β) :
    (Except.error e >>= f) = .error e := rfl

@[simp] theorem pure_eq_ok (a : α) : (pure a : Except ε α) = .ok a := rfl

theorem bind_eq_ok {x : Except ε α} {f : α → Except ε β} {b : β} :
    (x >>= f) = .ok b ↔ ∃ a, x = .ok a ∧ f a = .ok b := by
  cases x with
  | error e =>
      constructor
      · intro h
        cases h
      · rintro ⟨a, h, -⟩
        cases h
  | ok a =>
      constructor
      · exact fun h => ⟨a, rfl, h⟩
      · rintro ⟨a', h, hf⟩
        cases h
        exact hf

theorem map_eq_ok {x : Except ε α} {f : α → β} {b : β} :
    x.map f = .ok b ↔ ∃ a, x = .ok a ∧ f a = b := by
  cases x with
  | error e => simp [Except.map]
  | ok a => simp [Except.map]

/-! ## Postconditions -/

/-- The computation returns a value with `I`, or fails with an error that is not
`bad`. -/
def Safe (bad : ε → Prop) (I : α → Prop) : Except ε α → Prop
  | .ok a => I a
  | .error e => ¬ bad e

variable {bad : ε → Prop} {I : α → Prop} {J : β → Prop}

/-- The rule of sequence. -/
theorem Safe.bind {x : Except ε α} {f : α → Except ε β} (h : Safe bad I x)
    (hf : ∀ a, I a → Safe bad J (f a)) : Safe bad J (x >>= f) := by
  cases x with
  | error e => exact h
  | ok a => exact hf a h

theorem Safe.map {x : Except ε α} {f : α → β} (h : Safe bad I x) (hf : ∀ a, I a → J (f a)) :
    Safe bad J (x.map f) := by
  cases x with
  | error e => exact h
  | ok a => exact hf a h

theorem Safe.mono {I' : α → Prop} {x : Except ε α} (h : Safe bad I x) (hi : ∀ a, I a → I' a) :
    Safe bad I' x := by
  cases x with
  | error e => exact h
  | ok a => exact hi a h

end Xv6.Lib
