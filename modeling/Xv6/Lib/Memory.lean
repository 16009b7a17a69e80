import Mathlib

/-!
# Words in memory

A memory of bytes, and 32-bit words in it at any address, the low byte first. A word that
was stored is loaded again, and a store does not show outside its four bytes. The same holds
for ranges of bytes.
-/

namespace Xv6.Lib

/-- The bytes by address. -/
abbrev Mem := Nat → UInt8

def load32 (m : Mem) (a : Nat) : Nat :=
  (m a).toNat + 2 ^ 8 * (m (a + 1)).toNat + 2 ^ 16 * (m (a + 2)).toNat + 2 ^ 24 * (m (a + 3)).toNat

def store32 (m : Mem) (a v : Nat) : Mem := fun b =>
  if a ≤ b ∧ b < a + 4 then UInt8.ofNat (v / 2 ^ (8 * (b - a))) else m b

def store8 (m : Mem) (a : Nat) (v : UInt8) : Mem := fun b => if b = a then v else m b

variable {m m' : Mem} {a b v : Nat}

theorem load32_congr (h : ∀ c, a ≤ c → c < a + 4 → m' c = m c) : load32 m' a = load32 m a := by
  rw [load32, load32, h a (by omega) (by omega), h (a + 1) (by omega) (by omega),
    h (a + 2) (by omega) (by omega), h (a + 3) (by omega) (by omega)]

theorem load32_lt (m : Mem) (a : Nat) : load32 m a < 2 ^ 32 := by
  have h0 := (m a).toNat_lt
  have h1 := (m (a + 1)).toNat_lt
  have h2 := (m (a + 2)).toNat_lt
  have h3 := (m (a + 3)).toNat_lt
  rw [load32]
  omega

theorem load32_store32 (hv : v < 2 ^ 32) : load32 (store32 m a v) a = v := by
  have hb : ∀ k < 4, (store32 m a v (a + k)).toNat = v / 2 ^ (8 * k) % 2 ^ 8 := by
    intro k hk
    rw [store32, if_pos (by omega), Nat.add_sub_cancel_left, UInt8.toNat_ofNat']
  have h0 := hb 0 (by omega)
  have h1 := hb 1 (by omega)
  have h2 := hb 2 (by omega)
  have h3 := hb 3 (by omega)
  rw [Nat.add_zero] at h0
  rw [load32, h0, h1, h2, h3]
  omega

/-- Where nothing was stored. -/
theorem store32_other (v : Nat) (h : b < a ∨ a + 4 ≤ b) : store32 m a v b = m b := by
  rw [store32, if_neg (by omega)]

theorem load32_store32_apart (v : Nat) (h : b + 4 ≤ a ∨ a + 4 ≤ b) :
    load32 (store32 m a v) b = load32 m b :=
  load32_congr fun c h1 h2 => store32_other v (by omega)

theorem load32_store8_apart (v : UInt8) (h : b < a ∨ a + 4 ≤ b) :
    load32 (store8 m b v) a = load32 m a := by
  refine load32_congr fun c h1 h2 => ?_
  rw [store8, if_neg (by omega)]

/-! ## Ranges of bytes -/

/-- The `n` bytes from `a` on. -/
def loads (m : Mem) (a : Nat) : Nat → List UInt8
  | 0 => []
  | n + 1 => m a :: loads m (a + 1) n

def stores (m : Mem) (a : Nat) (xs : List UInt8) : Mem := fun b =>
  if a ≤ b then xs.getD (b - a) (m b) else m b

theorem loads_add (m : Mem) (a n k : Nat) :
    loads m a (n + k) = loads m a n ++ loads m (a + n) k := by
  induction n generalizing a with
  | zero => rw [Nat.zero_add, loads, List.nil_append, Nat.add_zero]
  | succ n ih => rw [Nat.succ_add, loads, ih, loads, List.cons_append, Nat.succ_add_eq_add_succ]

theorem loads_length (m : Mem) (a n : Nat) : (loads m a n).length = n := by
  induction n generalizing a with
  | zero => rfl
  | succ n ih => rw [loads, List.length_cons, ih]

theorem loads_congr {n : Nat} (h : ∀ c, a ≤ c → c < a + n → m' c = m c) :
    loads m' a n = loads m a n := by
  induction n generalizing a with
  | zero => rfl
  | succ n ih =>
      rw [loads, loads, h a (by omega) (by omega), ih fun c h1 h2 => h c (by omega) (by omega)]

theorem loads_stores (m : Mem) (a : Nat) (xs : List UInt8) :
    loads (stores m a xs) a xs.length = xs := by
  have hall : ∀ (ys xs : List UInt8) (k : Nat), (∀ i < ys.length, xs[k + i]? = ys[i]?) →
      loads (stores m a xs) (a + k) ys.length = ys := by
    intro ys
    induction ys with
    | nil => exact fun _ _ _ => rfl
    | cons y ys ih =>
        intro xs k h
        have h0 : xs[k]? = some y := h 0 (Nat.zero_lt_succ _)
        rw [List.length_cons, loads, stores, if_pos (by omega), Nat.add_sub_cancel_left,
          List.getD_eq_getElem?_getD, h0, Nat.add_assoc, ih xs (k + 1) fun i hi => ?_]
        · rfl
        · rw [Nat.add_right_comm]
          exact h (i + 1) (Nat.succ_lt_succ hi)
  exact hall xs xs 0 fun i _ => by rw [Nat.zero_add]

theorem stores_below (xs : List UInt8) (h : b < a) : stores m a xs b = m b := if_neg (by omega)

end Xv6.Lib
