import Xv6.Ref.Layout

/-!
# Reading back what was written

Inodes, bits of the free map and data share the disk, each in blocks of its own.
This file says once what a write of one of them does to the reads of all three,
so that nothing behind it looks at a byte again.
-/

namespace Xv6.Ref

variable {b : Block} {d : Disk} {sb : Superblock}

/-! ## Inodes -/

theorem DiskInode.word_lt (v : DiskInode) (w : Nat) : v.word w < 2 ^ 32 := by
  match w with
  | 0 =>
      have h1 := v.type.isLt
      have h2 := v.major.isLt
      simp only [DiskInode.word]
      omega
  | 1 =>
      have h1 := v.minor.isLt
      have h2 := v.nlink.isLt
      simp only [DiskInode.word]
      omega
  | 2 => exact v.size.isLt
  | w + 3 =>
      simp only [DiskInode.word]
      split
      · exact BitVec.isLt _
      · decide

theorem Block.byte_setDinode (k : Nat) (v : DiskInode) {j : Nat} (hj : j < BSIZE) :
    (b.setDinode k v).byte j =
      if j / 64 = k then v.word (j / 4 % 16) / 2 ^ (8 * (j % 4)) % 256 else b.byte j := by
  simp only [byte, setDinode, dif_pos hj]
  split
  · simp
  · rfl

theorem Block.word_setDinode (k : Nat) (v : DiskInode) {i : Nat} (hi : 4 * i + 3 < BSIZE) :
    (b.setDinode k v).word i = if i / 16 = k then v.word (i % 16) else b.word i := by
  have hd : ∀ r < 4, (4 * i + r) / 64 = i / 16 ∧ (4 * i + r) / 4 % 16 = i % 16 ∧
      (4 * i + r) % 4 = r := fun r hr => by omega
  have h0 := hd 0 (by omega)
  have h1 := hd 1 (by omega)
  have h2 := hd 2 (by omega)
  have h3 := hd 3 (by omega)
  simp only [Nat.add_zero] at h0
  simp only [word]
  rw [byte_setDinode k v (by omega), byte_setDinode k v (by omega),
    byte_setDinode k v (by omega), byte_setDinode k v hi, h0.1, h1.1, h2.1, h3.1]
  split
  · have hlt := v.word_lt (i % 16)
    rw [h0.2.1, h0.2.2, h1.2.1, h1.2.2, h2.2.1, h2.2.2, h3.2.1, h3.2.2]
    generalize v.word (i % 16) = w at hlt
    show w / 1 % 256 + 256 * (w / 256 % 256) + 65536 * (w / 65536 % 256) +
      16777216 * (w / 16777216 % 256) = w
    omega
  · rfl

theorem Block.dinode_setDinode {k k' : Nat} (hk : k' < IPB) (v : DiskInode) :
    (b.setDinode k v).dinode k' = if k = k' then v else b.dinode k' := by
  have hk : k' < 8 := hk
  have hw : ∀ w < 16, (b.setDinode k v).word (16 * k' + w) =
      if k = k' then v.word w else b.word (16 * k' + w) := by
    intro w hw
    rw [word_setDinode k v (by show 4 * (16 * k' + w) + 3 < 512; omega),
      show (16 * k' + w) / 16 = k' by omega, show (16 * k' + w) % 16 = w by omega]
    by_cases he : k = k'
    · rw [if_pos he.symm, if_pos he]
    · rw [if_neg (Ne.symm he), if_neg he]
  have h0 := hw 0 (by omega)
  have haddr : ∀ i : Fin (NDIRECT + 1), (b.setDinode k v).word (16 * k' + 3 + i.val) =
      if k = k' then (v.addrs i).toNat else b.word (16 * k' + 3 + i.val) := by
    intro i
    have hi : i.val < 13 := i.isLt
    have := hw (3 + i.val) (by omega)
    rw [← Nat.add_assoc] at this
    rw [this]
    split
    · simp only [DiskInode.word, Nat.add_comm 3, dif_pos i.isLt]
    · rfl
  rw [Nat.add_zero] at h0
  have hget : ∀ (f : Fin (NDIRECT + 1) → BitVec 32) (i : Fin (NDIRECT + 1)),
      (Vector.ofFn f)[i] = f i := fun f i => by simp
  by_cases he : k = k'
  · have hn : ∀ x y : BitVec 16, BitVec.ofNat 16 (x.toNat + 2 ^ 16 * y.toNat) = x ∧
        BitVec.ofNat 16 ((x.toNat + 2 ^ 16 * y.toNat) / 2 ^ 16) = y := by
      intro x y
      have hx := x.isLt
      refine ⟨BitVec.eq_of_toNat_eq ?_, BitVec.eq_of_toNat_eq ?_⟩
      · rw [BitVec.toNat_ofNat]; omega
      · rw [BitVec.toNat_ofNat, show (x.toNat + 2 ^ 16 * y.toNat) / 2 ^ 16 = y.toNat by omega]
        exact Nat.mod_eq_of_lt y.isLt
    simp only [dinode, hget, h0, hw 1 (by omega), hw 2 (by omega), haddr, if_pos he,
      DiskInode.word, (hn _ _).1, (hn _ _).2, BitVec.ofNat_toNat, BitVec.setWidth_eq]
  · simp only [dinode, hget, h0, hw 1 (by omega), hw 2 (by omega), haddr, if_neg he]

theorem Superblock.iblock_inj {i j : Nat} (h : sb.iblock i = sb.iblock j)
    (hm : i % IPB = j % IPB) : i = j := by
  have h : i / 8 + sb.inodestart = j / 8 + sb.inodestart := h
  have hm : i % 8 = j % 8 := hm
  omega

theorem Superblock.bblock_inj {n m : Nat} (h : sb.bblock n = sb.bblock m)
    (hm : n % BPB = m % BPB) : n = m := by
  have h : n / 4096 + sb.bmapstart = m / 4096 + sb.bmapstart := h
  have hm : n % 4096 = m % 4096 := hm
  omega

theorem Superblock.bmapstart_le (sb : Superblock) (n : Nat) : sb.bmapstart ≤ sb.bblock n :=
  Nat.le_add_left _ _

@[simp] theorem Disk.set_same (d : Disk) (n : Nat) (b : Block) : d.set n b n = b :=
  if_pos rfl

theorem Disk.set_ne {n m : Nat} (h : m ≠ n) : d.set n b m = d m := if_neg h

theorem Disk.dinode_setDinode (d : Disk) (sb : Superblock) (i j : Nat) (v : DiskInode) :
    (d.setDinode sb i v).dinode sb j = if i = j then v else d.dinode sb j := by
  have hlt : j % IPB < IPB := Nat.mod_lt _ (by decide)
  simp only [dinode, setDinode]
  by_cases hb : sb.iblock j = sb.iblock i
  · rw [hb, set_same, Block.dinode_setDinode hlt, ← hb]
    by_cases he : i = j
    · rw [if_pos he, if_pos (by rw [he])]
    · rw [if_neg he, if_neg fun hm => he (sb.iblock_inj hb.symm hm)]
  · rw [set_ne hb, if_neg fun he => hb (by rw [he])]

/-! ## The free map -/

theorem bitMask_toNat (i : Nat) : (bitMask i).toNat = 2 ^ (i % 8) := by
  have hk : i % 8 < 8 := Nat.mod_lt _ (by decide)
  have hpow : 2 ^ (i % 8) < 256 := Nat.pow_lt_pow_right (by decide) hk
  rw [bitMask, UInt8.toNat_ofNat', Nat.mod_eq_of_lt hpow]

theorem and_bitMask_ne_zero (x : UInt8) (i : Nat) :
    (x &&& bitMask i ≠ 0) ↔ x.toNat.testBit (i % 8) = true := by
  rw [ne_eq, ← UInt8.toNat_inj, UInt8.toNat_and, bitMask_toNat, Nat.and_two_pow]
  cases x.toNat.testBit (i % 8) <;> simp

theorem Block.bit_eq (b : Block) (i : Nat) :
    b.bit i = (b.get (i / 8)).toNat.testBit (i % 8) := by
  rw [bit, Bool.eq_iff_iff, decide_eq_true_iff]
  exact and_bitMask_ne_zero _ _

theorem Block.get_put {i j : Nat} (v : UInt8) (hi : i < BSIZE) :
    (b.put j v).get i = if i = j then v else b.get i := by
  simp only [get, put, dif_pos hi]

theorem Block.bit_setBit {i j : Nat} (hj : j < BPB) :
    (b.setBit i).bit j = if i = j then true else b.bit j := by
  have hj8 : j / 8 < BSIZE := by
    have : j < 4096 := hj
    show j / 8 < 512
    omega
  rw [bit_eq, bit_eq, setBit, get_put _ hj8]
  by_cases h8 : j / 8 = i / 8
  · rw [if_pos h8, UInt8.toNat_or, bitMask_toNat, Nat.testBit_or, Nat.testBit_two_pow, ← h8]
    by_cases he : i = j
    · simp [he]
    · have : i % 8 ≠ j % 8 := by omega
      simp [he, this]
  · rw [if_neg h8, if_neg (by omega)]

theorem Block.bit_clearBit {i j : Nat} (hj : j < BPB) :
    (b.clearBit i).bit j = if i = j then false else b.bit j := by
  have hj8 : j / 8 < BSIZE := by
    have : j < 4096 := hj
    show j / 8 < 512
    omega
  rw [bit_eq, bit_eq, clearBit, get_put _ hj8]
  by_cases h8 : j / 8 = i / 8
  · have hk : j % 8 < 8 := Nat.mod_lt _ (by decide)
    have hnot : (~~~ bitMask i).toNat.testBit (j % 8) = !decide (i % 8 = j % 8) := by
      rw [← UInt8.toNat_toBitVec, BitVec.testBit_toNat, UInt8.toBitVec_not, BitVec.getLsbD_not,
        decide_eq_true hk, Bool.true_and, ← BitVec.testBit_toNat, UInt8.toNat_toBitVec,
        bitMask_toNat, Nat.testBit_two_pow]
    rw [if_pos h8, UInt8.toNat_and, Nat.testBit_and, hnot, ← h8]
    by_cases he : i = j
    · simp [he]
    · have : i % 8 ≠ j % 8 := by omega
      simp [he, this]
  · rw [if_neg h8, if_neg (by omega)]

theorem Disk.bit_setBit (d : Disk) (sb : Superblock) (n m : Nat) :
    (d.setBit sb n).bit sb m = if n = m then true else d.bit sb m := by
  have hlt : m % BPB < BPB := Nat.mod_lt _ (by decide)
  simp only [bit, setBit]
  by_cases hb : sb.bblock m = sb.bblock n
  · rw [hb, set_same, Block.bit_setBit hlt, ← hb]
    by_cases he : n = m
    · rw [if_pos he, if_pos (by rw [he])]
    · rw [if_neg he, if_neg fun hm => he (sb.bblock_inj hb.symm hm)]
  · rw [set_ne hb, if_neg fun he => hb (by rw [he])]

theorem Disk.bit_clearBit (d : Disk) (sb : Superblock) (n m : Nat) :
    (d.clearBit sb n).bit sb m = if n = m then false else d.bit sb m := by
  have hlt : m % BPB < BPB := Nat.mod_lt _ (by decide)
  simp only [bit, clearBit]
  by_cases hb : sb.bblock m = sb.bblock n
  · rw [hb, set_same, Block.bit_clearBit hlt, ← hb]
    by_cases he : n = m
    · rw [if_pos he, if_pos (by rw [he])]
    · rw [if_neg he, if_neg fun hm => he (sb.bblock_inj hb.symm hm)]
  · rw [set_ne hb, if_neg fun he => hb (by rw [he])]

/-! ## The areas of the disk -/

/-- The inodes, the free map and the data, which starts at block `start`, lie
behind one another. -/
structure Superblock.Ordered (sb : Superblock) (start : Nat) : Prop where
  inodes : ∀ i < sb.ninodes, sb.iblock i < sb.bmapstart
  bitmap : ∀ n < sb.size, sb.bblock n < start
  small : sb.size < 2 ^ 31

section

variable {start : Nat} (h : sb.Ordered start)

include h

theorem Superblock.Ordered.iblock_ne {i n : Nat} (hi : i < sb.ninodes) :
    sb.iblock i ≠ sb.bblock n := by
  have h1 := h.inodes i hi
  have h2 := sb.bmapstart_le n
  omega

theorem Superblock.Ordered.iblock_lt {i : Nat} (hi : i < sb.ninodes) (hpos : 0 < sb.size) :
    sb.iblock i < start := by
  have h1 := h.inodes i hi
  have h2 := h.bitmap 0 hpos
  have h3 := sb.bmapstart_le 0
  omega

theorem Disk.dinode_set {n i : Nat} (hn : start ≤ n) (hpos : 0 < sb.size)
    (hi : i < sb.ninodes) (b : Block) : (d.set n b).dinode sb i = d.dinode sb i := by
  have := h.iblock_lt hi hpos
  rw [dinode, set_ne (by omega), dinode]

theorem Disk.bit_set {n m : Nat} (hn : start ≤ n) (hm : m < sb.size) (b : Block) :
    (d.set n b).bit sb m = d.bit sb m := by
  have := h.bitmap m hm
  rw [bit, set_ne (by omega), bit]

theorem Disk.bit_setDinode {i m : Nat} (hi : i < sb.ninodes) (v : DiskInode) :
    (d.setDinode sb i v).bit sb m = d.bit sb m := by
  rw [bit, setDinode, set_ne (h.iblock_ne hi).symm, bit]

theorem Disk.dinode_setBit {i n : Nat} (hi : i < sb.ninodes) :
    (d.setBit sb n).dinode sb i = d.dinode sb i := by
  rw [dinode, setBit, set_ne (h.iblock_ne hi), dinode]

theorem Disk.dinode_clearBit {i n : Nat} (hi : i < sb.ninodes) :
    (d.clearBit sb n).dinode sb i = d.dinode sb i := by
  rw [dinode, clearBit, set_ne (h.iblock_ne hi), dinode]

theorem Disk.setBit_data {n m : Nat} (hn : n < sb.size) (hm : start ≤ m) :
    d.setBit sb n m = d m := by
  have := h.bitmap n hn
  exact set_ne (by omega)

theorem Disk.clearBit_data {n m : Nat} (hn : n < sb.size) (hm : start ≤ m) :
    d.clearBit sb n m = d m := by
  have := h.bitmap n hn
  exact set_ne (by omega)

theorem Disk.setDinode_data {i m : Nat} (hi : i < sb.ninodes) (hpos : 0 < sb.size)
    (hm : start ≤ m) (v : DiskInode) : d.setDinode sb i v m = d m := by
  have := h.iblock_lt hi hpos
  exact set_ne (by omega)

end

end Xv6.Ref
