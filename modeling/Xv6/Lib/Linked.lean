import Mathlib

/-!
# Linked lists

A list in memory is a head pointer and a next pointer for each node; `Linked` says
which nodes it runs through. The lemmas are about code that walks to the end with
a pointer to a pointer and appends there: `slot` is what such a pointer points at.
-/

namespace Xv6.Lib

variable {B : Type} {next next' : B → Option B} {o : Option B} {b c : B} {bs cs : List B}

/-- Following `next` from `o` one runs through these nodes and comes to an end. -/
def Linked (next : B → Option B) : Option B → List B → Prop
  | o, [] => o = none
  | o, b :: bs => o = some b ∧ Linked next (next b) bs

theorem Linked.head (h : Linked next o bs) : o = bs.head? := by
  cases bs with
  | nil => exact h
  | cons b bs => exact h.1

/-- Only the nodes of the list matter. -/
theorem Linked.congr (h : Linked next o bs) (hn : ∀ b ∈ bs, next' b = next b) :
    Linked next' o bs := by
  induction bs generalizing o with
  | nil => exact h
  | cons b bs ih =>
      refine ⟨h.1, ?_⟩
      rw [hn b List.mem_cons_self]
      exact ih h.2 fun c hc => hn c (List.mem_cons_of_mem _ hc)

/-- What a pointer to the head (`none`) or to the next field of a node points at. -/
def slot (next : B → Option B) (o : Option B) : Option B → Option B
  | none => o
  | some b => next b

/-- Behind the nodes `bs`, the next one is the first of the rest. -/
theorem Linked.slot (h : Linked next o (bs ++ cs)) : slot next o bs.getLast? = cs.head? := by
  induction bs generalizing o with
  | nil => exact h.head
  | cons b bs ih =>
      cases bs with
      | nil => exact h.2.head
      | cons b' bs =>
          rw [List.getLast?_cons_cons]
          exact (ih h.2).trans rfl

variable [DecidableEq B]

/-- Appending behind the last node. -/
theorem Linked.snoc (h : Linked next o (bs ++ [c])) (hnd : (bs ++ [c]).Nodup)
    (hb : b ∉ bs ++ [c]) (hnext : next b = none) :
    Linked (Function.update next c (some b)) o (bs ++ [c] ++ [b]) := by
  induction bs generalizing o with
  | nil =>
      have hbc : b ≠ c := fun he => hb (by simp [he])
      refine ⟨h.1, by rw [Function.update_self], ?_⟩
      rw [Function.update_of_ne hbc]
      exact hnext
  | cons a bs ih =>
      rw [List.cons_append, List.nodup_cons] at hnd
      have hac : a ≠ c := fun he => hnd.1 (by simp [he])
      refine ⟨h.1, ?_⟩
      rw [Function.update_of_ne hac]
      exact ih h.2 hnd.2 fun hm => hb (List.mem_cons_of_mem _ hm)

end Xv6.Lib
