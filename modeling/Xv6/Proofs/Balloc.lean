import Xv6.Ref.Inodes
import Xv6.Proofs.Pointers
import Xv6.Lib.Except

/-!
# The block allocator

The free map decides which blocks are free; the first bits, those of the metadata,
are set and stay set. `balloc` takes the first clear bit and fails only if there is
none, `bfree` clears a bit that is set. Neither touches an inode.
-/

namespace Xv6.Ref.Inodes

open Xv6.Lib

variable {sb : Superblock} {start x : Nat} {d d' : Disk}

/-- The data area. -/
abbrev data (sb : Superblock) (start b : Nat) : Prop := start ≤ b ∧ b < sb.size

/-- The blocks of the data area whose bit is clear. -/
abbrev clear (sb : Superblock) (start : Nat) (d : Disk) (b : Nat) : Prop :=
  data sb start b ∧ d.bit sb b = false

/-- The bits of the metadata are set. -/
def MetaSet (sb : Superblock) (start : Nat) (d : Disk) : Prop :=
  ∀ b < start, b < sb.size → d.bit sb b = true

/-- The number of clear bits. -/
def nfree (sb : Superblock) (d : Disk) : Nat :=
  ((Finset.range sb.size).filter fun b => d.bit sb b = false).card

/-- The bit of block `x` was clear and has been set; data may have changed. -/
structure Took (sb : Superblock) (start : Nat) (d d' : Disk) (x : Nat) : Prop where
  free : clear sb start d x
  bit : ∀ b < sb.size, d'.bit sb b = if x = b then true else d.bit sb b
  dinode : ∀ i < sb.ninodes, d'.dinode sb i = d.dinode sb i

section

variable (h : Took sb start d d' x)

include h

theorem Took.clear (y : Nat) : clear sb start d' y ↔ clear sb start d y ∧ y ≠ x := by
  constructor
  · rintro ⟨hy, hb⟩
    rw [h.bit y hy.2] at hb
    split at hb
    · cases hb
    · next hne => exact ⟨⟨hy, hb⟩, Ne.symm hne⟩
  · rintro ⟨⟨hy, hb⟩, hne⟩
    refine ⟨hy, ?_⟩
    rw [h.bit y hy.2, if_neg (Ne.symm hne)]
    exact hb

theorem Took.table : d'.table sb = d.table sb := Disk.table_congr h.dinode

theorem Took.metaSet (hm : MetaSet sb start d) : MetaSet sb start d' := by
  intro b hb hlt
  rw [h.bit b hlt]
  split
  · rfl
  · exact hm b hb hlt

theorem Took.nfree : nfree sb d' + 1 = nfree sb d := by
  have hmem : x ∈ (Finset.range sb.size).filter fun b => d.bit sb b = false :=
    Finset.mem_filter.mpr ⟨Finset.mem_range.mpr h.free.1.2, h.free.2⟩
  have herase : (Finset.range sb.size).filter (fun b => d'.bit sb b = false) =
      ((Finset.range sb.size).filter fun b => d.bit sb b = false).erase x := by
    ext b
    simp only [Finset.mem_filter, Finset.mem_erase, Finset.mem_range]
    constructor
    · rintro ⟨hlt, hb⟩
      rw [h.bit b hlt] at hb
      split at hb
      · cases hb
      · next hne => exact ⟨Ne.symm hne, hlt, hb⟩
    · rintro ⟨hne, hlt, hb⟩
      rw [h.bit b hlt, if_neg (Ne.symm hne)]
      exact ⟨hlt, hb⟩
  rw [Inodes.nfree, herase, Finset.card_erase_add_one hmem, Inodes.nfree]

theorem Took.pos (hsb : sb.Ordered start) : x ≠ 0 ∧ x < 2 ^ 32 := by
  have hx := h.free.1
  have h0 := hsb.bitmap x hx.2
  have hs := hsb.small
  omega

/-- A write to the data area keeps what is known. -/
theorem Took.set (hsb : sb.Ordered start) {y : Nat} (hy : start ≤ y) (b : Block) :
    Took sb start d (d'.set y b) x := by
  have hpos : 0 < sb.size := Nat.lt_of_le_of_lt (Nat.zero_le _) h.free.1.2
  refine ⟨h.free, fun c hc => ?_, fun i hi => ?_⟩
  · rw [Disk.bit_set hsb hy hc]
    exact h.bit c hc
  · rw [Disk.dinode_set hsb hy hpos hi]
    exact h.dinode i hi

end

/-- `balloc` returns a zeroed block that was free, or there is none. -/
theorem balloc_spec (hsb : sb.Ordered start) (hm : MetaSet sb start d) :
    (balloc sb d = .error .outOfBlocks ∧ nfree sb d = 0) ∨
      ∃ d' x, balloc sb d = .ok (d', x) ∧ Took sb start d d' x ∧ d' x = zeroBlock ∧
        ∀ y, start ≤ y → y ≠ x → d' y = d y := by
  cases hf : (List.range sb.size).find? fun b => !d.bit sb b with
  | none =>
      refine Or.inl ⟨by rw [balloc, hf], ?_⟩
      rw [List.find?_eq_none] at hf
      rw [nfree, Finset.card_eq_zero, Finset.filter_eq_empty_iff]
      intro b hb
      have := hf b (List.mem_range.mpr (Finset.mem_range.mp hb))
      simpa using this
  | some x =>
      have hbit : d.bit sb x = false := by
        have := List.find?_some hf
        simpa using this
      have hlt : x < sb.size := List.mem_range.mp (List.mem_of_find?_eq_some hf)
      have hpos : 0 < sb.size := Nat.lt_of_le_of_lt (Nat.zero_le _) hlt
      have hge : start ≤ x := by
        by_contra hc
        rw [hm x (by omega) hlt] at hbit
        cases hbit
      have htook : Took sb start d (d.setBit sb x) x :=
        ⟨⟨⟨hge, hlt⟩, hbit⟩, fun b _ => Disk.bit_setBit d sb x b,
          fun i hi => Disk.dinode_setBit hsb hi⟩
      refine Or.inr ⟨_, x, by rw [balloc, hf], htook.set hsb hge _, Disk.set_same _ _ _, ?_⟩
      intro y hy hne
      rw [Disk.set_ne hne, Disk.setBit_data hsb hlt hy]

/-- A block whose bit is set is freed. -/
theorem bfree_eq (h : d.bit sb x = true) : bfree sb d x = .ok (d.clearBit sb x) := by
  rw [bfree, if_pos h]

/-- Blocks freed one after the other. -/
def bfreeAll (sb : Superblock) : List Nat → Disk → Disk
  | [], d => d
  | x :: xs, d => bfreeAll sb xs (d.clearBit sb x)

theorem bfreeAll_bit (xs : List Nat) (d : Disk) (b : Nat) :
    (bfreeAll sb xs d).bit sb b = (d.bit sb b && !xs.contains b) := by
  induction xs generalizing d with
  | nil => simp [bfreeAll]
  | cons x xs ih =>
      rw [bfreeAll, ih, Disk.bit_clearBit, List.contains_cons]
      by_cases hx : x = b
      · simp [hx]
      · have hbeq : (b == x) = false := beq_false_of_ne (Ne.symm hx)
        simp [hx, hbeq]

theorem bfreeAll_dinode (hsb : sb.Ordered start) (xs : List Nat) (d : Disk) {i : Nat}
    (hi : i < sb.ninodes) : (bfreeAll sb xs d).dinode sb i = d.dinode sb i := by
  induction xs generalizing d with
  | nil => rfl
  | cons x xs ih => rw [bfreeAll, ih, Disk.dinode_clearBit hsb hi]

theorem bfreeAll_data (hsb : sb.Ordered start) {xs : List Nat} (hxs : ∀ x ∈ xs, x < sb.size)
    (d : Disk) {y : Nat} (hy : start ≤ y) : bfreeAll sb xs d y = d y := by
  induction xs generalizing d with
  | nil => rfl
  | cons x xs ih =>
      rw [List.forall_mem_cons] at hxs
      rw [bfreeAll, ih hxs.2, Disk.clearBit_data hsb hxs.1 hy]

end Xv6.Ref.Inodes
