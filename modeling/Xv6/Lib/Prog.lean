import Mathlib

/-!
# Programs as trees of atomic operations

A thread of a concurrent system is written as a tree: it performs an atomic
operation, and what it does next depends on the answer. The tree says nothing
about what an operation does to the state the threads share, so the same text
serves every way of running it — alone, or a step at a time in turn with
others.

What one thread may rely on is a local state of its own, kept by the proof
and not by the program: what it has acquired and what it knows. `Meets` checks
a program against rules for that local state. The rules say what a thread must
have to perform an operation and what it has afterwards, whatever the answer;
since a tree is checked by recursion on it, a program is checked once, and a
step of the system only ever uses the head of the tree.
-/

namespace Xv6.Lib

/-- Programs over the operations `O`, where `o` is answered by an `R o`. -/
inductive Prog (O : Type) (R : O → Type) (α : Type) where
  | ret (a : α)
  | op (o : O) (k : R o → Prog O R α)

namespace Prog

variable {O : Type} {R : O → Type} {α β : Type}

def bind : Prog O R α → (α → Prog O R β) → Prog O R β
  | ret a, f => f a
  | op o k, f => op o fun r => (k r).bind f

instance : Monad (Prog O R) where
  pure := ret
  bind := bind

/-- One operation and its answer. -/
def perform (o : O) : Prog O R (R o) := op o ret

/-- The operation a program performs next. -/
def head : Prog O R α → Option O
  | ret _ => none
  | op o _ => some o

/-! ## Checking a program against rules for a local state -/

variable {L : Type} {pre : L → O → Prop} {post : L → (o : O) → R o → L → Prop}

/-- From the local state `l`, the program performs only operations that `pre`
permits, as long as the local state follows `post`, and leaves with a result
and a local state that satisfy `Q`. -/
def Meets (pre : L → O → Prop) (post : L → (o : O) → R o → L → Prop) :
    L → Prog O R α → (L → α → Prop) → Prop
  | l, ret a, Q => Q l a
  | l, op o k, Q => pre l o ∧ ∀ r l', post l o r l' → Meets pre post l' (k r) Q

theorem Meets.mono {Q Q' : L → α → Prop} (hle : ∀ l a, Q l a → Q' l a) :
    ∀ {x : Prog O R α} {l : L}, Meets pre post l x Q → Meets pre post l x Q' := by
  intro x
  induction x with
  | ret a => intro l h; exact hle l a h
  | op o k ih => intro l h; exact ⟨h.1, fun r l' hp => ih r (h.2 r l' hp)⟩

theorem Meets.bind {f : α → Prog O R β} {Q : L → β → Prop} :
    ∀ {x : Prog O R α} {l : L},
      Meets pre post l x (fun l' a => Meets pre post l' (f a) Q) →
      Meets pre post l (x >>= f) Q := by
  intro x
  induction x with
  | ret a => intro l h; exact h
  | op o k ih => intro l h; exact ⟨h.1, fun r l' hp => ih r (h.2 r l' hp)⟩

theorem meets_perform {l : L} {o : O} {Q : L → R o → Prop} (h : pre l o)
    (hq : ∀ r l', post l o r l' → Q l' r) : Meets pre post l (perform o) Q :=
  ⟨h, hq⟩

end Prog

end Xv6.Lib
