import Xv6.Ref.Ulib

/-!
# `memmove` on overlapping ranges

A copy in steps is right if no byte is overwritten before it is read: upwards if the
destination does not begin inside the source, downwards if it does. The kernel's function
looks at the ranges and chooses; the user library's always goes up.
-/

namespace Xv6.Ref.Ulib

open Xv6.Lib
open Xv6.Ref.Kstring (below copyDown)

variable {m : Mem} {s d n : Nat}

/-- The memory with `n` bytes moved at once. -/
def moved (m : Mem) (d s n : Nat) : Mem := fun a =>
  if d ≤ a ∧ a < d + n then m (s + (a - d)) else m a

theorem moved_zero (m : Mem) (d s : Nat) : moved m d s 0 = m := by
  funext a
  exact if_neg (by omega)

/-- The first byte, and then the others. -/
theorem moved_first (h : d ≤ s ∨ s + (n + 1) ≤ d) :
    moved (store8 m d (m s)) (d + 1) (s + 1) n = moved m d s (n + 1) := by
  funext a
  unfold moved store8
  split
  · next ha =>
      rw [if_neg (by omega), if_pos (by omega), show s + 1 + (a - (d + 1)) = s + (a - d) by omega]
  · next ha =>
      by_cases hd : a = d
      · rw [if_pos hd, if_pos (by omega), show s + (a - d) = s by omega]
      · rw [if_neg hd, if_neg (by omega)]

/-- The last byte, and then the others. -/
theorem moved_last (h : s < d) :
    moved (store8 m (d + n) (m (s + n))) d s n = moved m d s (n + 1) := by
  funext a
  unfold moved store8
  split
  · next ha => rw [if_neg (by omega), if_pos (by omega)]
  · next ha =>
      by_cases hd : a = d + n
      · rw [if_pos hd, if_pos (by omega), show s + (a - d) = s + n by omega]
      · rw [if_neg hd, if_neg (by omega)]

theorem copyUp_eq (hs : s + n ≤ 2 ^ 32) (hd : d + n ≤ 2 ^ 32) (h : d ≤ s ∨ s + n ≤ d) :
    copyUp m n s d = moved m d s n := by
  induction n generalizing m s d with
  | zero => exact (moved_zero m d s).symm
  | succ n ih =>
      rw [copyUp, ← moved_first h]
      cases n with
      | zero => rw [moved_zero, copyUp]
      | succ n =>
          rw [Nat.mod_eq_of_lt (by omega), Nat.mod_eq_of_lt (by omega)]
          exact ih (by omega) (by omega) (by omega)

theorem copyDown_eq (hs : s + n ≤ 2 ^ 32) (hd : d + n ≤ 2 ^ 32) (h : s < d) :
    copyDown m n ((s + n) % 2 ^ 32) ((d + n) % 2 ^ 32) = moved m d s n := by
  induction n generalizing m with
  | zero => exact (moved_zero m d s).symm
  | succ n ih =>
      have hs' : below ((s + (n + 1)) % 2 ^ 32) = s + n := by
        unfold below
        split <;> omega
      have hd' : below ((d + (n + 1)) % 2 ^ 32) = d + n := by
        unfold below
        split <;> omega
      have hrest := ih (m := store8 m (d + n) (m (s + n))) (by omega) (by omega)
      rw [Nat.mod_eq_of_lt (show s + n < 2 ^ 32 by omega),
        Nat.mod_eq_of_lt (show d + n < 2 ^ 32 by omega)] at hrest
      rw [copyDown, hs', hd', hrest, moved_last h]

theorem kmemmove_eq (hs : s + n ≤ 2 ^ 32) (hd : d + n ≤ 2 ^ 32) :
    Kstring.memmove m d s n = moved m d s n := by
  rw [Kstring.memmove]
  split
  · next h => exact copyDown_eq hs hd h.1
  · next h =>
      -- `s + n` wraps only if it is 2^32, and then `d` is not above `s`
      exact copyUp_eq hs hd (by omega)

/-- The bytes of the source are at the destination, and nothing else has changed. -/
structure Moved (m m' : Mem) (d s n : Nat) : Prop where
  bytes : ∀ i < n, m' (d + i) = m (s + i)
  rest : ∀ a, a < d ∨ d + n ≤ a → m' a = m a

theorem moved_moved (m : Mem) (d s n : Nat) : Moved m (moved m d s n) d s n where
  bytes := fun i hi => by
    rw [moved, if_pos (by omega), Nat.add_sub_cancel_left]
  rest := fun a ha => if_neg (by omega)

/-- The bytes at 0 and 1 are 1 and 2. -/
def oneTwo : Mem := fun a => if a = 0 then 1 else if a = 1 then 2 else 0

end Xv6.Ref.Ulib
