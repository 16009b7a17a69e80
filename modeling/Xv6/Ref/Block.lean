import Xv6.Ref.Param

/-!
# Disk blocks

A block is its `BSIZE` bytes. The kernel overlays C structs on the bytes by a
cast, and every struct the log and the indirect blocks use is an array of
32-bit words, so the overlay is a word view: `word` reads what
`((uint*)data)[i]` reads on a little-endian machine and `setWord` writes it.
-/

namespace Xv6.Ref

/-- `uchar data[BSIZE]`. -/
abbrev Block := Fin BSIZE → UInt8

/-- Byte `i`; zero past the end, where no modelled code reads. -/
def Block.byte (b : Block) (i : Nat) : Nat :=
  if h : i < BSIZE then (b ⟨i, h⟩).toNat else 0

/-- `((uint*)data)[i]`. -/
def Block.word (b : Block) (i : Nat) : Nat :=
  b.byte (4 * i) + 2 ^ 8 * b.byte (4 * i + 1) + 2 ^ 16 * b.byte (4 * i + 2) +
    2 ^ 24 * b.byte (4 * i + 3)

/-- `((uint*)data)[i] = v`. -/
def Block.setWord (b : Block) (i v : Nat) : Block :=
  fun j =>
    if j.val / 4 = i then UInt8.ofNat (v / 2 ^ (8 * (j.val % 4)))
    else b j

theorem Block.byte_setWord_ne {b : Block} {i v k : Nat} (h : k / 4 ≠ i) :
    (b.setWord i v).byte k = b.byte k := by
  unfold byte setWord
  split
  · rfl
  · rfl

theorem Block.byte_setWord_same {b : Block} {i v k : Nat} (hk : k < BSIZE)
    (h : k / 4 = i) :
    (b.setWord i v).byte k = v / 2 ^ (8 * (k % 4)) % 256 := by
  unfold byte setWord
  rw [dif_pos hk, if_pos h]
  simp

/-- A word stored is the word read back. -/
theorem Block.word_setWord_same {b : Block} {i v : Nat} (hi : 4 * i + 3 < BSIZE)
    (hv : v < 2 ^ 32) : (b.setWord i v).word i = v := by
  have h0 : (4 * i) % 4 = 0 := by omega
  have h1 : (4 * i + 1) % 4 = 1 := by omega
  have h2 : (4 * i + 2) % 4 = 2 := by omega
  have h3 : (4 * i + 3) % 4 = 3 := by omega
  unfold word
  rw [byte_setWord_same (by omega) (by omega), byte_setWord_same (by omega) (by omega),
    byte_setWord_same (by omega) (by omega), byte_setWord_same hi (by omega),
    h0, h1, h2, h3]
  show v / 1 % 256 + 256 * (v / 256 % 256) + 65536 * (v / 65536 % 256) +
    16777216 * (v / 16777216 % 256) = v
  omega

/-- Storing one word leaves the others. -/
theorem Block.word_setWord_ne {b : Block} {i j v : Nat} (h : i ≠ j) :
    (b.setWord i v).word j = b.word j := by
  unfold word
  rw [byte_setWord_ne (by omega), byte_setWord_ne (by omega),
    byte_setWord_ne (by omega), byte_setWord_ne (by omega)]

/-- Storing the word that is there changes nothing. -/
theorem Block.setWord_self {b : Block} {i v : Nat} (h : b.word i = v) :
    b.setWord i v = b := by
  funext j
  unfold setWord
  split
  · next hj =>
      have hb : ∀ k, b.byte k < 256 := by
        intro k
        unfold byte
        split
        · exact UInt8.toNat_lt _
        · decide
      have h0 := hb (4 * i)
      have h1 := hb (4 * i + 1)
      have h2 := hb (4 * i + 2)
      have h3 := hb (4 * i + 3)
      have hjb : b.byte j.val = (b j).toNat := by
        unfold byte
        rw [dif_pos j.isLt]
      have hval : v / 2 ^ (8 * (j.val % 4)) % 256 = b.byte j.val := by
        subst h
        unfold word
        have hcase : j.val % 4 = 0 ∨ j.val % 4 = 1 ∨ j.val % 4 = 2 ∨ j.val % 4 = 3 := by
          omega
        rcases hcase with hr | hr | hr | hr <;> rw [hr]
        · rw [show j.val = 4 * i by omega]
          omega
        · rw [show j.val = 4 * i + 1 by omega]
          omega
        · rw [show j.val = 4 * i + 2 by omega]
          omega
        · rw [show j.val = 4 * i + 3 by omega]
          omega
      apply UInt8.toNat_inj.mp
      rw [← hjb, ← hval]
      simp
  · rfl

end Xv6.Ref
