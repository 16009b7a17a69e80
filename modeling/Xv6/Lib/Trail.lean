import Xv6.Lib.Except

/-!
# Computations that keep a log

A computation that may fail, and the items it has logged until it returned or failed. A
function written in this form next to the plain one has the plain one's result, and the
log says what the plain one did on its way.
-/

namespace Xv6.Lib

/-- The result, and the items in the order they were logged. -/
structure Trail (τ ε α : Type) where
  result : Except ε α
  log : List τ

namespace Trail

variable {τ ε α β : Type}

/-- Log one item. -/
def tell (x : τ) : Trail τ ε Unit := ⟨.ok (), [x]⟩

def fail (e : ε) : Trail τ ε α := ⟨.error e, []⟩

def bind (x : Trail τ ε α) (f : α → Trail τ ε β) : Trail τ ε β :=
  match x.result with
  | .ok a => ⟨(f a).result, x.log ++ (f a).log⟩
  | .error e => ⟨.error e, x.log⟩

instance : Monad (Trail τ ε) where
  pure a := ⟨.ok a, []⟩
  bind := bind

@[simp] theorem result_pure (a : α) : (pure a : Trail τ ε α).result = .ok a := rfl

@[simp] theorem log_pure (a : α) : (pure a : Trail τ ε α).log = [] := rfl

@[simp] theorem tell_bind (x : τ) (f : Unit → Trail τ ε β) :
    (tell x >>= f) = ⟨(f ()).result, x :: (f ()).log⟩ := rfl

theorem result_bind (x : Trail τ ε α) (f : α → Trail τ ε β) :
    (x >>= f).result = x.result >>= fun a => (f a).result := by
  show (bind x f).result = _
  rw [bind]
  cases x.result with
  | ok a => rfl
  | error e => rfl

theorem log_bind_ok {x : Trail τ ε α} {a : α} (h : x.result = .ok a) (f : α → Trail τ ε β) :
    (x >>= f).log = x.log ++ (f a).log := by
  show (bind x f).log = _
  rw [bind, h]

theorem log_bind_error {x : Trail τ ε α} {e : ε} (h : x.result = .error e)
    (f : α → Trail τ ε β) : (x >>= f).log = x.log := by
  show (bind x f).log = _
  rw [bind, h]

/-! ## What is logged and what is returned -/

/-- Every logged item satisfies `P`, and what is returned satisfies `Q`. -/
def Keeps (P : τ → Prop) (x : Trail τ ε α) (Q : α → Prop) : Prop :=
  (∀ i ∈ x.log, P i) ∧ ∀ a, x.result = .ok a → Q a

section

variable {P : τ → Prop} {Q : α → Prop} {R : β → Prop}

theorem Keeps.pure {a : α} (h : Q a) : Keeps P (Pure.pure a : Trail τ ε α) Q :=
  ⟨List.forall_mem_nil P, fun _ hb => Except.ok.inj hb ▸ h⟩

theorem Keeps.fail (e : ε) : Keeps P (fail e) Q :=
  ⟨List.forall_mem_nil P, fun _ h => nomatch h⟩

theorem Keeps.tell {x : τ} (h : P x) : Keeps P (tell x : Trail τ ε Unit) fun _ => True :=
  ⟨fun _ hi => List.mem_singleton.mp hi ▸ h, fun _ _ => trivial⟩

theorem Keeps.bind {x : Trail τ ε α} {f : α → Trail τ ε β} (hx : Keeps P x Q)
    (hf : ∀ a, Q a → Keeps P (f a) R) : Keeps P (x >>= f) R := by
  cases hr : x.result with
  | ok a =>
      have ha := hf a (hx.2 a hr)
      refine ⟨fun i hi => ?_, fun b hb => ha.2 b ?_⟩
      · rw [log_bind_ok hr] at hi
        exact (List.mem_append.mp hi).elim (hx.1 i) (ha.1 i)
      · rwa [result_bind, hr] at hb
  | error e =>
      refine ⟨fun i hi => hx.1 i ?_, fun b hb => ?_⟩
      · rwa [log_bind_error hr] at hi
      · rw [result_bind, hr] at hb
        cases hb

theorem Keeps.ite {c : Prop} [Decidable c] {x y : Trail τ ε α} (hx : c → Keeps P x Q)
    (hy : ¬ c → Keeps P y Q) : Keeps P (if c then x else y) Q := by
  split
  · next h => exact hx h
  · next h => exact hy h

end

/-- How often the log says `p`, of a computation that goes on with another. -/
theorem countP_log_bind_le (p : τ → Bool) {m n : Nat} {x : Trail τ ε α} {f : α → Trail τ ε β}
    (hx : x.log.countP p ≤ m) (hf : ∀ a, (f a).log.countP p ≤ n) :
    (x >>= f).log.countP p ≤ m + n := by
  cases hr : x.result with
  | ok a =>
      rw [log_bind_ok hr, List.countP_append]
      exact Nat.add_le_add hx (hf a)
  | error e =>
      rw [log_bind_error hr]
      omega

end Trail

end Xv6.Lib
