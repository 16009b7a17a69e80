import Mathlib

/-!
# A ring buffer with free-running counters

A buffer of `N` cells with two counters of `w` bits that are only ever
incremented: the number of items taken and the number stored, both modulo
`2 ^ w`. Cell `c % N` belongs to the item with number `c`. The counters may wrap,
so the numbers of the buffered items need not be increasing as numbers; what makes
this work is that `N` divides `2 ^ w`, so that wrapping does not move the cell.
-/

namespace Xv6.Lib.Ring

variable {α : Type} {N w : Nat}

/-- The cell of item number `c`. -/
def cell (hN : 0 < N) (c : BitVec w) : Fin N := ⟨c.toNat % N, Nat.mod_lt _ hN⟩

/-- The number of items between the counters. -/
def count (r t : BitVec w) : Nat := (t - r).toNat

/-- The first `n` items from number `r` on. -/
def items (hN : 0 < N) (data : Fin N → α) : BitVec w → Nat → List α
  | _, 0 => []
  | r, n + 1 => data (cell hN r) :: items hN data (r + 1) n

/-- The buffered items, the oldest first. -/
def buffered (hN : 0 < N) (data : Fin N → α) (r t : BitVec w) : List α :=
  items hN data r (count r t)

def put (data : Fin N → α) (i : Fin N) (x : α) : Fin N → α :=
  fun j => if j = i then x else data j

theorem cell_add (hN : 0 < N) (hdvd : N ∣ 2 ^ w) (r : BitVec w) (k : Nat) :
    (cell hN (r + BitVec.ofNat w k)).val = (r.toNat + k) % N := by
  simp only [cell, BitVec.toNat_add, BitVec.toNat_ofNat]
  rw [Nat.mod_mod_of_dvd _ hdvd, Nat.add_mod, Nat.mod_mod_of_dvd _ hdvd, ← Nat.add_mod]

/-- Less than a turn apart, two items have different cells. -/
theorem cell_ne (hN : 0 < N) (hdvd : N ∣ 2 ^ w) (r : BitVec w) {k n : Nat} (hkn : k < n)
    (hn : n < N) : cell hN (r + BitVec.ofNat w k) ≠ cell hN (r + BitVec.ofNat w n) := by
  intro h
  have hv := congrArg Fin.val h
  rw [cell_add hN hdvd, cell_add hN hdvd] at hv
  have hmod : k ≡ n [MOD N] := Nat.ModEq.add_left_cancel' r.toNat hv
  have : k = n := by
    have h1 := Nat.mod_eq_of_lt (hkn.trans hn)
    have h2 := Nat.mod_eq_of_lt hn
    rw [Nat.ModEq, h1, h2] at hmod
    exact hmod
  omega

theorem one_add_ofNat (r : BitVec w) (n : Nat) :
    r + 1 + BitVec.ofNat w n = r + BitVec.ofNat w (n + 1) := by
  rw [BitVec.add_assoc, BitVec.ofNat_add, BitVec.add_comm (BitVec.ofNat w n)]
  rfl

theorem items_succ (hN : 0 < N) (data : Fin N → α) (r : BitVec w) (n : Nat) :
    items hN data r (n + 1) =
      items hN data r n ++ [data (cell hN (r + BitVec.ofNat w n))] := by
  induction n generalizing r with
  | zero => simp [items]
  | succ n ih =>
      rw [items, ih, items, one_add_ofNat, List.cons_append]

/-- Storing outside the range shows nothing. -/
theorem items_put (hN : 0 < N) (data : Fin N → α) (i : Fin N) (x : α) (r : BitVec w)
    (n : Nat) (h : ∀ k, k < n → cell hN (r + BitVec.ofNat w k) ≠ i) :
    items hN (put data i x) r n = items hN data r n := by
  induction n with
  | zero => rfl
  | succ n ih =>
      rw [items_succ, items_succ, ih fun k hk => h k (by omega), put,
        if_neg (h n (by omega))]

/-! ## The operations -/

theorem count_self (r : BitVec w) : count r r = 0 := by simp [count]

theorem count_eq_zero {r t : BitVec w} : count r t = 0 ↔ r = t := by
  simp only [count]
  constructor
  · intro h
    have : t - r = 0 := BitVec.eq_of_toNat_eq (by simpa using h)
    exact (BitVec.sub_eq_iff_eq_add.mp this).symm ▸ by simp
  · rintro rfl
    simp

theorem add_count (r t : BitVec w) : r + BitVec.ofNat w (count r t) = t := by
  rw [count, BitVec.ofNat_toNat, BitVec.setWidth_eq, BitVec.add_comm,
    BitVec.sub_add_cancel]

theorem count_add (r : BitVec w) {n : Nat} (hn : n < 2 ^ w) :
    count r (r + BitVec.ofNat w n) = n := by
  rw [count, BitVec.add_comm, BitVec.add_sub_cancel, BitVec.toNat_ofNat,
    Nat.mod_eq_of_lt hn]

theorem add_ofNat_succ (r : BitVec w) (n : Nat) :
    r + BitVec.ofNat w n + 1 = r + BitVec.ofNat w (n + 1) := by
  rw [BitVec.add_assoc, BitVec.ofNat_add]
  rfl

/-- Counters that are `n` apart. -/
theorem count_eq_iff {r t : BitVec w} {n : Nat} (hn : n < 2 ^ w) :
    count r t = n ↔ t = r + BitVec.ofNat w n := by
  constructor
  · rintro rfl
    exact (add_count r t).symm
  · rintro rfl
    exact count_add r hn

theorem count_put {r t : BitVec w} (h : count r t + 1 < 2 ^ w) :
    count r (t + 1) = count r t + 1 := by
  rw [count_eq_iff h, ← add_ofNat_succ, add_count]

theorem count_take {r t : BitVec w} {n : Nat} (h : count r t = n + 1) :
    count (r + 1) t = n := by
  have hlt : n + 1 < 2 ^ w := h ▸ (t - r).isLt
  rw [count_eq_iff hlt] at h
  rw [count_eq_iff (by omega), h, one_add_ofNat]

/-- Storing an item where there is room adds it at the end. -/
theorem buffered_put (hN : 0 < N) (hdvd : N ∣ 2 ^ w) (hlt : N < 2 ^ w)
    (data : Fin N → α) {r t : BitVec w} (x : α) (h : count r t < N) :
    buffered hN (put data (cell hN t) x) r (t + 1) = buffered hN data r t ++ [x] := by
  have ht := add_count r t
  rw [buffered, count_put (by omega), items_succ, ht, put, if_pos rfl, buffered]
  congr 1
  refine items_put hN data _ x r _ fun k hk => ?_
  have := cell_ne hN hdvd r hk h
  rwa [ht] at this

/-- Taking an item takes the first. -/
theorem buffered_take (hN : 0 < N) (data : Fin N → α) {r t : BitVec w} (h : r ≠ t) :
    buffered hN data r t = data (cell hN r) :: buffered hN data (r + 1) t := by
  obtain ⟨n, hn⟩ := Nat.exists_eq_succ_of_ne_zero (mt count_eq_zero.mp h)
  rw [buffered, hn, items, buffered, count_take hn]

theorem buffered_self (hN : 0 < N) (data : Fin N → α) (r : BitVec w) :
    buffered hN data r r = [] := by
  rw [buffered, count_self, items]

theorem count_inj {r t u : BitVec w} (h : count r t = count r u) : t = u := by
  rw [← add_count r t, h, add_count]

theorem buffered_length (hN : 0 < N) (data : Fin N → α) (r t : BitVec w) :
    (buffered hN data r t).length = count r t := by
  rw [buffered]
  generalize count r t = n
  induction n with
  | zero => rfl
  | succ n ih => rw [items_succ, List.length_append, ih, List.length_singleton]

/-- Taking back the item stored last. -/
theorem buffered_unput (hN : 0 < N) (data : Fin N → α) {r t : BitVec w} (h : r ≠ t) :
    buffered hN data r (t - 1) = (buffered hN data r t).dropLast := by
  obtain ⟨n, hn : count r t = n + 1⟩ := Nat.exists_eq_succ_of_ne_zero (mt count_eq_zero.mp h)
  have hlt : n + 1 < 2 ^ w := hn ▸ (t - r).isLt
  have hpred : count r (t - 1) = n := by
    rw [count_eq_iff (by omega), ← add_count r t, hn, ← add_ofNat_succ, BitVec.add_sub_cancel]
  rw [buffered, buffered, hpred, hn, items_succ, List.dropLast_concat]

end Xv6.Lib.Ring
