import Mathlib

/-!
# Sums over all parties

A quantity spread over the parties of a protocol — reservations, references,
votes — is a sum of a function of each party's local state. One step changes
the local state of one party, and these lemmas say what that does to the sum
without mentioning the rest of it.
-/

namespace Xv6.Lib

variable {ι α : Type}

/-- Two ways to share that differ for one party. -/
theorem sum_change_on {M : Type} [AddCommMonoid M] [DecidableEq ι] {s : Finset ι} {f g : ι → M}
    {i : ι} (hi : i ∈ s) (h : ∀ j ≠ i, f j = g j) :
    (∑ j ∈ s, f j) + g i = (∑ j ∈ s, g j) + f i := by
  have hrest : ∑ j ∈ s.erase i, f j = ∑ j ∈ s.erase i, g j :=
    Finset.sum_congr rfl fun j hj => h j (Finset.ne_of_mem_erase hj)
  rw [← Finset.add_sum_erase s f hi, ← Finset.add_sum_erase s g hi, hrest]
  ac_rfl

theorem sum_change {M : Type} [AddCommMonoid M] [Fintype ι] [DecidableEq ι] {f g : ι → M} {i : ι}
    (h : ∀ j ≠ i, f j = g j) : (∑ j, f j) + g i = (∑ j, g j) + f i :=
  sum_change_on (Finset.mem_univ i) h

variable [Fintype ι]

/-- One party moves from its old local state to `v`. -/
theorem sum_update [DecidableEq ι] (f : α → Nat) (g : ι → α) (i : ι) (v : α) :
    (∑ j, f (Function.update g i v j)) + f (g i) = (∑ j, f (g j)) + f v := by
  have h := sum_change (f := fun j => f (Function.update g i v j))
    (g := fun j => f (g j)) (i := i) fun j hj => by rw [Function.update_of_ne hj]
  simpa only [Function.update_self] using h

/-- One party's share is part of the sum. -/
theorem le_sum (f : α → Nat) (g : ι → α) (i : ι) : f (g i) ≤ ∑ j, f (g j) :=
  Finset.single_le_sum (f := fun j => f (g j)) (fun _ _ => Nat.zero_le _)
    (Finset.mem_univ i)

/-- A sum of zero has no party with a share. -/
theorem eq_zero_of_sum {f : α → Nat} {g : ι → α} (h : ∑ j, f (g j) = 0) (i : ι) :
    f (g i) = 0 := by
  have := le_sum f g i
  omega

/-! ## Counting the parties -/

/-- Exactly `n` parties satisfy `w`, of however many there are. -/
def Counted (w : ι → Prop) (n : Nat) : Prop :=
  ∃ ws : Finset ι, (∀ i, i ∈ ws ↔ w i) ∧ ws.card = n

section

omit [Fintype ι]

variable {w w' : ι → Prop} {n : Nat} {i : ι}

theorem Counted.zero (h : ∀ i, ¬ w i) : Counted w 0 :=
  ⟨∅, fun i => iff_of_false (Finset.notMem_empty i) (h i), rfl⟩

theorem Counted.congr (h : Counted w n) (hw : ∀ i, w' i ↔ w i) : Counted w' n := by
  obtain ⟨ws, hws, hn⟩ := h
  exact ⟨ws, fun i => (hws i).trans (hw i).symm, hn⟩

theorem Counted.pos (h : Counted w n) (hi : w i) : 0 < n := by
  obtain ⟨ws, hws, rfl⟩ := h
  exact Finset.card_pos.mpr ⟨i, (hws i).mpr hi⟩

variable [DecidableEq ι]

theorem Counted.add (h : Counted w n) (hi : ¬ w i) (hw : ∀ j, w' j ↔ j = i ∨ w j) :
    Counted w' (n + 1) := by
  obtain ⟨ws, hws, rfl⟩ := h
  refine ⟨insert i ws, fun j => ?_, Finset.card_insert_of_notMem (mt (hws i).mp hi)⟩
  rw [Finset.mem_insert, hws, hw]

theorem Counted.remove (h : Counted w n) (hi : w i) (hw : ∀ j, w' j ↔ j ≠ i ∧ w j) :
    Counted w' (n - 1) := by
  obtain ⟨ws, hws, rfl⟩ := h
  refine ⟨ws.erase i, fun j => ?_, Finset.card_erase_of_mem ((hws i).mpr hi)⟩
  rw [Finset.mem_erase, hws, hw]

end

end Xv6.Lib
