import Xv6.Proofs.LayoutFrame
import Xv6.Lib.Owner

/-!
# Who holds which block

The places that can hold a block are the addresses in the inodes and in their
indirect blocks; `ptrs` reads them all. An address is entered into an inode or
into an indirect block, and `Tidy`, which says that every block has one place and
every file exactly the blocks its size needs, survives both. `mkfs` and the kernel
enter addresses the same way and differ only in how they find a free block.
-/

namespace Xv6.Ref

open Xv6.Lib

variable {d d' : Disk} {v v' : DiskInode} {T : Nat → DiskInode}

theorem DiskInode.indirect_eq_zero : v.indirect = 0 ↔ v.addrs (Fin.last NDIRECT) = 0 := by
  rw [indirect, ← BitVec.toNat_inj]
  rfl

theorem DiskInode.ptr_addr (v : DiskInode) (d : Disk) (k : Fin (NDIRECT + 1)) :
    v.ptr d k.val = (v.addrs k).toNat := by
  simp only [ptr, dif_pos k.isLt]

theorem DiskInode.ptr_last (v : DiskInode) (d : Disk) : v.ptr d NDIRECT = v.indirect :=
  v.ptr_addr d (Fin.last NDIRECT)

theorem DiskInode.ptr_entry (v : DiskInode) (d : Disk) (j : Nat) :
    v.ptr d (NDIRECT + 1 + j) = if v.indirect = 0 then 0 else (d v.indirect).word j := by
  have hn : ¬ NDIRECT + 1 + j < NDIRECT + 1 := by omega
  rw [ptr, dif_neg hn, Nat.add_sub_cancel_left]
  by_cases h : v.addrs (Fin.last NDIRECT) = 0
  · rw [if_pos h, if_pos (indirect_eq_zero.mpr h)]
  · rw [if_neg h, if_neg fun h' => h (indirect_eq_zero.mp h')]
    rfl

/-- An index is an address of the inode or an entry of its indirect block. -/
theorem ptr_cases (k : Nat) :
    (∃ i : Fin (NDIRECT + 1), k = i.val) ∨ ∃ j, k = NDIRECT + 1 + j := by
  by_cases h : k < NDIRECT + 1
  · exact Or.inl ⟨⟨k, h⟩, rfl⟩
  · exact Or.inr ⟨k - (NDIRECT + 1), by omega⟩

/-- Only the indirect block is read. -/
theorem DiskInode.ptr_congr (h : v.indirect ≠ 0 → d' v.indirect = d v.indirect) (k : Nat) :
    v.ptr d' k = v.ptr d k := by
  rcases ptr_cases k with ⟨i, rfl⟩ | ⟨j, rfl⟩
  · rw [ptr_addr, ptr_addr]
  · rw [ptr_entry, ptr_entry]
    split
    · rfl
    · next hne => rw [h hne]

/-- Only the addresses are read. -/
theorem DiskInode.ptr_of_addrs (h : v'.addrs = v.addrs) (k : Nat) : v'.ptr d k = v.ptr d k := by
  simp only [ptr, h]

theorem setAddr_toNat {b : Nat} (hb : b < 2 ^ 32) (k i : Fin (NDIRECT + 1)) :
    ((v.setAddr k b).addrs i).toNat = if i = k then b else (v.addrs i).toNat := by
  simp only [DiskInode.setAddr]
  split
  · rw [BitVec.toNat_ofNat, Nat.mod_eq_of_lt hb]
  · rfl

theorem zeroBlock_word (j : Nat) : zeroBlock.word j = 0 := by
  have hb : ∀ i, zeroBlock.byte i = 0 := by
    intro i
    simp only [Block.byte, zeroBlock]
    split <;> rfl
  simp only [Block.word, hb, Nat.mul_zero, Nat.add_zero]

theorem zeroBlock_dinode (k : Nat) : zeroBlock.dinode k = DiskInode.zero := by
  simp only [Block.dinode, zeroBlock_word, DiskInode.zero]
  congr 1
  funext i
  simp

theorem zeroBlock_bit (i : Nat) : zeroBlock.bit i = false := by
  have h0 : zeroBlock.get (i / 8) = 0 := by
    simp only [Block.get, zeroBlock]
    split <;> rfl
  rw [Block.bit_eq, h0]
  simp

/-- Entering an address into an inode; a new indirect block has to be zeroed. -/
theorem DiskInode.ptr_setAddr {k : Fin (NDIRECT + 1)} {b : Nat} (hb : b < 2 ^ 32)
    (hk : v.addrs k = 0) (hz : k = Fin.last NDIRECT → d b = zeroBlock) (l : Nat) :
    (v.setAddr k b).ptr d l = if l = k.val then b else v.ptr d l := by
  rcases ptr_cases l with ⟨i, rfl⟩ | ⟨j, rfl⟩
  · rw [ptr_addr, ptr_addr, setAddr_toNat hb]
    by_cases he : i = k
    · rw [if_pos he, if_pos (by rw [he])]
    · rw [if_neg he, if_neg fun h => he (Fin.ext h)]
  · have hne : NDIRECT + 1 + j ≠ k.val := by omega
    rw [ptr_entry, ptr_entry, if_neg hne, indirect, setAddr_toNat hb]
    by_cases hl : k = Fin.last NDIRECT
    · subst hl
      rw [if_pos rfl, if_pos (indirect_eq_zero.mpr hk), hz rfl, zeroBlock_word, ite_self]
    · rw [if_neg (Ne.symm hl)]
      rfl

/-- Entering an address into the indirect block. -/
theorem DiskInode.ptr_setEntry {b j : Nat} (hb : b < 2 ^ 32) (hj : j < NINDIRECT)
    (hv : v.indirect ≠ 0) (l : Nat) :
    v.ptr (d.set v.indirect ((d v.indirect).setWord j b)) l =
      if l = NDIRECT + 1 + j then b else v.ptr d l := by
  have hj : j < 128 := hj
  rcases ptr_cases l with ⟨i, rfl⟩ | ⟨j', rfl⟩
  · have hi : i.val < NDIRECT + 1 := i.isLt
    have hne : i.val ≠ NDIRECT + 1 + j := by omega
    rw [ptr_addr, ptr_addr, if_neg hne]
  · rw [ptr_entry, ptr_entry, if_neg hv, if_neg hv, Disk.set_same]
    by_cases he : j' = j
    · subst he
      rw [if_pos rfl]
      exact Block.word_setWord_same (by show 4 * j' + 3 < 512; omega) hb
    · have hne : NDIRECT + 1 + j' ≠ NDIRECT + 1 + j := by omega
      rw [if_neg hne, Block.word_setWord_ne (Ne.symm he)]

/-- Only the addresses differ. -/
def SameFile (v v' : DiskInode) : Prop := v' = { v with addrs := v'.addrs }

theorem SameFile.refl (v : DiskInode) : SameFile v v := rfl

theorem SameFile.setAddr (v : DiskInode) (k : Fin (NDIRECT + 1)) (b : Nat) :
    SameFile v (v.setAddr k b) := rfl

theorem SameFile.type (h : SameFile v v') : v'.type = v.type := by
  rw [SameFile] at h
  rw [h]

theorem SameFile.size (h : SameFile v v') : v'.size = v.size := by
  rw [SameFile] at h
  rw [h]

theorem SameFile.trans {v'' : DiskInode} (h : SameFile v v') (h' : SameFile v' v'') :
    SameFile v v'' := by
  rw [SameFile, h'.symm.symm, h]

/-! ## All inodes -/

/-- A place for a block address: the number of an inode and the index in it. -/
abbrev Place := Nat × Nat

/-- What a place of the inodes `T` holds. -/
def ptrs (T : Nat → DiskInode) (d : Disk) (l : Place) : Option Nat :=
  if l.2 < NPTR ∧ (T l.1).ptr d l.2 ≠ 0 then some ((T l.1).ptr d l.2) else none

theorem ptrs_some {l : Place} {x : Nat} :
    ptrs T d l = some x ↔ l.2 < NPTR ∧ x ≠ 0 ∧ (T l.1).ptr d l.2 = x := by
  simp only [ptrs]
  split
  · next h =>
      rw [Option.some.injEq]
      constructor
      · rintro rfl
        exact ⟨h.1, h.2, rfl⟩
      · exact fun h' => h'.2.2
  · next h =>
      refine ⟨nofun, fun h' => absurd ⟨h'.1, ?_⟩ h⟩
      rw [h'.2.2]
      exact h'.2.1

theorem ptrs_none {l : Place} (h : (T l.1).ptr d l.2 = 0) : ptrs T d l = none :=
  if_neg fun h' => h'.2 h

/-- The places that read the same hold the same. -/
theorem ptrs_congr {T' : Nat → DiskInode} {l : Place}
    (h : (T' l.1).ptr d' l.2 = (T l.1).ptr d l.2) : ptrs T' d' l = ptrs T d l := by
  simp only [ptrs, h]

/-- The inodes with `v` in place of number `i`. -/
def setNode (T : Nat → DiskInode) (i : Nat) (v : DiskInode) : Nat → DiskInode :=
  fun j => if j = i then v else T j

@[simp] theorem setNode_same (T : Nat → DiskInode) (i : Nat) (v : DiskInode) :
    setNode T i v i = v := if_pos rfl

theorem setNode_ne {i j : Nat} (h : j ≠ i) : setNode T i v j = T j := if_neg h

@[simp] theorem setNode_self (T : Nat → DiskInode) (i : Nat) : setNode T i (T i) = T := by
  funext j
  simp only [setNode]
  split
  · next h => rw [h]
  · rfl

@[simp] theorem setNode_setNode (T : Nat → DiskInode) (i : Nat) (v v' : DiskInode) :
    setNode (setNode T i v) i v' = setNode T i v' := by
  funext j
  simp only [setNode]
  split <;> rfl

variable {free free' all : Nat → Prop} {i x : Nat}

theorem ptrs_indirect {j : Nat} (hx : (T j).indirect ≠ 0) :
    ptrs T d (j, NDIRECT) = some (T j).indirect :=
  ptrs_some.mpr ⟨by show NDIRECT < NPTR; decide, hx, (T j).ptr_last d⟩

/-- No indirect block is free, so what is done to the free blocks and outside the
stock is not read by `ptrs`. -/
theorem ptr_frame (h : Owned (ptrs T d) free all) (d' : Disk)
    (hd : ∀ y, all y → ¬ free y → d' y = d y) (j k : Nat) :
    (T j).ptr d' k = (T j).ptr d k := by
  refine (T j).ptr_congr (fun hne => ?_) k
  obtain ⟨ha, hf⟩ := h.held _ _ (ptrs_indirect hne)
  exact hd _ ha hf

/-- Writing a block that is held as data changes no address. -/
theorem ptr_write (h : Owned (ptrs T d) free all) {l : Place} (hl : ptrs T d l = some x)
    (hk : l.2 ≠ NDIRECT) (b : Block) (j k : Nat) :
    (T j).ptr (d.set x b) k = (T j).ptr d k := by
  refine (T j).ptr_congr (fun hne => Disk.set_ne fun he => hk ?_) k
  rw [h.one l (j, NDIRECT) x hl (he ▸ ptrs_indirect hne)]

/-- From `T` on `d` to `T'` on `d'`, place `(i, k)` has got address `x`; the others read
as before. -/
def Entered (T : Nat → DiskInode) (d : Disk) (T' : Nat → DiskInode) (d' : Disk)
    (i k x : Nat) : Prop :=
  ∀ j l, (T' j).ptr d' l = if j = i ∧ l = k then x else (T j).ptr d l

theorem entered_addr (i : Nat) (d' : Disk) {k : Fin (NDIRECT + 1)}
    (h : Owned (ptrs T d) free all)
    (hb : x < 2 ^ 32) (hk : (T i).addrs k = 0)
    (hz : k = Fin.last NDIRECT → d' x = zeroBlock)
    (hd : ∀ y, all y → ¬ free y → d' y = d y) :
    Entered T d (setNode T i ((T i).setAddr k x)) d' i k.val x := by
  intro j l
  by_cases hj : j = i
  · subst hj
    rw [setNode_same, DiskInode.ptr_setAddr hb hk hz, ptr_frame h d' hd]
    simp only [true_and]
  · rw [setNode_ne hj, ptr_frame h d' hd, if_neg fun he => hj he.1]

theorem entered_entry (i : Nat) (d' : Disk) {j : Nat} (h : Owned (ptrs T d) free all)
    (hb : x < 2 ^ 32)
    (hj : j < NINDIRECT) (hv : (T i).indirect ≠ 0)
    (hd : ∀ y, all y → ¬ free y → d' y = d y) :
    Entered T d T (d'.set (T i).indirect ((d' (T i).indirect).setWord j x)) i
      (NDIRECT + 1 + j) x := by
  intro i' l
  by_cases hi : i' = i
  · subst hi
    rw [DiskInode.ptr_setEntry hb hj hv, ptr_frame h d' hd]
    simp only [true_and]
  · rw [if_neg fun he => hi he.1, ← ptr_frame h d' hd]
    refine (T i').ptr_congr (fun hne => Disk.set_ne fun he => hi ?_) l
    have heq := h.one (i', NDIRECT) (i, NDIRECT) _ (ptrs_indirect hne) (he ▸ ptrs_indirect hv)
    exact congrArg Prod.fst heq

/-- A free block goes into an empty place. -/
theorem Entered.owned {T' : Nat → DiskInode} {k : Nat} (he : Entered T d T' d' i k x)
    (h : Owned (ptrs T d) free all) (hx : free x) (hpos : x ≠ 0) (hk : k < NPTR)
    (h0 : (T i).ptr d k = 0) (hfree : ∀ y, free' y ↔ free y ∧ y ≠ x) :
    Owned (ptrs T' d') free' all := by
  refine h.take (l := (i, k)) hx (ptrs_none h0) ?_ ?_ hfree
  · exact ptrs_some.mpr ⟨hk, hpos, by rw [he, if_pos ⟨rfl, rfl⟩]⟩
  · intro l hl
    refine ptrs_congr ?_
    rw [he, if_neg fun h' => hl (Prod.ext h'.1 h'.2)]

/-! ## Files have exactly the blocks their size needs -/

theorem ptrOf_lt {n : Nat} (h : n < MAXFILE) : ptrOf n < NPTR := by
  have h : n < 140 := h
  show ptrOf n < 141
  simp only [ptrOf]
  split <;> omega

theorem ptrOf_ne (n : Nat) : ptrOf n ≠ NDIRECT := by
  simp only [ptrOf]
  split <;> omega

theorem ptrOf_inj {n m : Nat} (h : ptrOf n = ptrOf m) : n = m := by
  simp only [ptrOf] at h
  split at h <;> split at h <;> omega

theorem ptrOf_direct {n : Nat} (h : n < NDIRECT) : ptrOf n = n := if_pos h

theorem ptrOf_entry (j : Nat) : ptrOf (NDIRECT + j) = NDIRECT + 1 + j := by
  rw [ptrOf, if_neg (by omega)]
  omega

/-- A file of size `sz` has an address for exactly the blocks below
`ceil(sz / BSIZE)`. -/
structure Spans (v : DiskInode) (d : Disk) (sz : Nat) : Prop where
  le : sz ≤ MAXFILE * BSIZE
  exact : ∀ n < MAXFILE, v.ptr d (ptrOf n) ≠ 0 ↔ n * BSIZE < sz

theorem Spans.congr {sz : Nat} (h : Spans v d sz)
    (hp : ∀ k, v'.ptr d' k = v.ptr d k) : Spans v' d' sz :=
  ⟨h.le, fun n hn => by rw [hp]; exact h.exact n hn⟩

section

variable {sz sz' n : Nat}

/-- The file grows into the block behind its last. -/
theorem Spans.grow (h : Spans v d sz) (hn : n < MAXFILE) (hle : n * BSIZE ≤ sz)
    (hz : v.ptr d (ptrOf n) = 0) (hx : x ≠ 0)
    (hnew : ∀ l, v'.ptr d' l = if l = ptrOf n then x else v.ptr d l)
    (hlo : n * BSIZE < sz') (hhi : sz' ≤ (n + 1) * BSIZE) : Spans v' d' sz' := by
  have hsz : ¬ n * 512 < sz := fun hlt => (h.exact n hn).mpr hlt hz
  have hle : n * 512 ≤ sz := hle
  have hlo : n * 512 < sz' := hlo
  have hhi : sz' ≤ (n + 1) * 512 := hhi
  refine ⟨Nat.le_trans hhi (Nat.mul_le_mul_right _ hn), fun m hm => ?_⟩
  rw [hnew]
  by_cases he : m = n
  · subst he
    rw [if_pos rfl]
    exact iff_of_true hx hlo
  · rw [if_neg fun h' => he (ptrOf_inj h'), h.exact m hm]
    show m * 512 < sz ↔ m * 512 < sz'
    omega

/-- The file grows inside a block it has. -/
theorem Spans.within (h : Spans v d sz) (hn : n < MAXFILE) (hne : v.ptr d (ptrOf n) ≠ 0)
    (hle : sz ≤ sz') (hhi : sz' ≤ max sz ((n + 1) * BSIZE)) : Spans v d sz' := by
  have hlt : n * 512 < sz := (h.exact n hn).mp hne
  have hhi : sz' ≤ max sz ((n + 1) * 512) := hhi
  have hmax : (n + 1) * 512 ≤ MAXFILE * BSIZE := Nat.mul_le_mul_right _ hn
  refine ⟨Nat.le_trans hhi (max_le h.le hmax), fun m hm => ?_⟩
  rw [h.exact m hm]
  show m * 512 < sz ↔ m * 512 < sz'
  omega

theorem Entered.fits_others {T' : Nat → DiskInode} {k : Nat} (he : Entered T d T' d' i k x)
    (hT : ∀ j, j ≠ i → T' j = T j) (h : ∀ j, j ≠ i → Spans (T j) d (T j).size.toNat) :
    ∀ j, j ≠ i → Spans (T' j) d' (T' j).size.toNat := by
  intro j hj
  have hf := (h j hj).congr (fun l => by rw [he, if_neg fun h' => hj h'.1] :
    ∀ l, (T' j).ptr d' l = (T j).ptr d l)
  rw [hT j hj] at hf ⊢
  exact hf

/-- An indirect block is no block of the file. -/
theorem Entered.fits_indirect {T' : Nat → DiskInode} (he : Entered T d T' d' i NDIRECT x)
    (h : Spans (T i) d sz) : Spans (T' i) d' sz :=
  ⟨h.le, fun n hn => by rw [he, if_neg fun h' => ptrOf_ne n h'.2]; exact h.exact n hn⟩

theorem Entered.fits_grow {T' : Nat → DiskInode} (he : Entered T d T' d' i (ptrOf n) x)
    (h : Spans (T i) d sz) (hn : n < MAXFILE) (hle : n * BSIZE ≤ sz)
    (hz : (T i).ptr d (ptrOf n) = 0) (hx : x ≠ 0) (hlo : n * BSIZE < sz')
    (hhi : sz' ≤ (n + 1) * BSIZE) : Spans (T' i) d' sz' :=
  h.grow hn hle hz hx (fun l => by rw [he]; simp only [true_and]) hlo hhi

theorem Spans.zero (hv : ∀ k, v.ptr d k = 0) : Spans v d 0 :=
  ⟨Nat.zero_le _, fun n _ => by rw [hv]; simp⟩

end

/-- The blocks `all` are partitioned, and every file has exactly the blocks its size
needs; for inode `i`, which is being written, the size is `s`. -/
structure Tidy (T : Nat → DiskInode) (d : Disk) (free all : Nat → Prop) (i s : Nat) :
    Prop where
  owned : Owned (ptrs T d) free all
  fits : Spans (T i) d s
  others : ∀ j, j ≠ i → Spans (T j) d (T j).size.toNat

section

variable {T' : Nat → DiskInode} {s s' n : Nat}

/-- The next block of the file is entered. -/
theorem Tidy.grow (h : Tidy T d free all i s) (he : Entered T d T' d' i (ptrOf n) x)
    (hT : ∀ j, j ≠ i → T' j = T j) (hx : free x) (hpos : x ≠ 0)
    (hfree : ∀ y, free' y ↔ free y ∧ y ≠ x) (hn : n < MAXFILE) (hle : n * BSIZE ≤ s)
    (hz : (T i).ptr d (ptrOf n) = 0) (hlo : n * BSIZE < s') (hhi : s' ≤ (n + 1) * BSIZE) :
    Tidy T' d' free' all i s' where
  owned := he.owned h.owned hx hpos (ptrOf_lt hn) hz hfree
  fits := he.fits_grow h.fits hn hle hz hpos hlo hhi
  others := he.fits_others hT h.others

/-- An indirect block is entered. -/
theorem Tidy.indirect (h : Tidy T d free all i s) (he : Entered T d T' d' i NDIRECT x)
    (hT : ∀ j, j ≠ i → T' j = T j) (hx : free x) (hpos : x ≠ 0)
    (hfree : ∀ y, free' y ↔ free y ∧ y ≠ x) (hz : (T i).indirect = 0) :
    Tidy T' d' free' all i s where
  owned := he.owned h.owned hx hpos (by decide) ((T i).ptr_last d ▸ hz) hfree
  fits := he.fits_indirect h.fits
  others := he.fits_others hT h.others

theorem Tidy.within (h : Tidy T d free all i s) (hn : n < MAXFILE)
    (hne : (T i).ptr d (ptrOf n) ≠ 0) (hle : s ≤ s') (hhi : s' ≤ max s ((n + 1) * BSIZE)) :
    Tidy T d free all i s' :=
  ⟨h.owned, h.fits.within hn hne hle hhi, h.others⟩

/-- Whatever reads the same is as tidy. -/
theorem Tidy.congr (h : Tidy T d free all i s) (hp : ∀ j k, (T' j).ptr d' k = (T j).ptr d k)
    (hs : ∀ j, j ≠ i → (T' j).size = (T j).size) (hfree : ∀ y, free' y ↔ free y) :
    Tidy T' d' free' all i s where
  owned := h.owned.congr (fun l => ptrs_congr (hp l.1 l.2)) hfree
  fits := h.fits.congr (hp i)
  others := fun j hj => hs j hj ▸ (h.others j hj).congr (hp j)

/-- Once the inode has its size, none is special. -/
theorem Tidy.any (h : Tidy T d free all i (T i).size.toNat) (j : Nat) :
    Tidy T d free all j (T j).size.toNat := by
  have hall : ∀ l, Spans (T l) d (T l).size.toNat := by
    intro l
    by_cases hl : l = i
    · rw [hl]
      exact h.fits
    · exact h.others l hl
  exact ⟨h.owned, hall j, fun l _ => hall l⟩

theorem Tidy.write (h : Tidy T d free all i s) {l : Place} (hl : ptrs T d l = some x)
    (hk : l.2 ≠ NDIRECT) (b : Block) : Tidy T (d.set x b) free all i s :=
  h.congr (ptr_write h.owned hl hk b) (fun _ _ => rfl) fun _ => Iff.rfl

end

/-! ## The inodes on the disk -/

/-- The inodes in use; the others hold no block. -/
def Disk.table (d : Disk) (sb : Superblock) : Nat → DiskInode :=
  fun i => if i < sb.ninodes ∧ (d.dinode sb i).type ≠ 0 then d.dinode sb i else DiskInode.zero

theorem DiskInode.zero_ptr (d : Disk) (k : Nat) : DiskInode.zero.ptr d k = 0 := by
  rcases ptr_cases k with ⟨i, rfl⟩ | ⟨j, rfl⟩
  · rw [ptr_addr]
    rfl
  · rw [ptr_entry]
    rfl

theorem Disk.table_congr {sb : Superblock}
    (h : ∀ i < sb.ninodes, d'.dinode sb i = d.dinode sb i) : d'.table sb = d.table sb := by
  funext i
  simp only [table]
  by_cases hi : i < sb.ninodes
  · rw [h i hi]
  · rw [if_neg fun h' => hi h'.1, if_neg fun h' => hi h'.1]

/-- `iupdate` puts an inode in use into the table. -/
theorem Disk.table_setDinode {sb : Superblock} (hi : i < sb.ninodes) (hv : v.type ≠ 0) :
    (d.setDinode sb i v).table sb = setNode (d.table sb) i v := by
  funext j
  simp only [table, dinode_setDinode, setNode]
  by_cases hj : i = j
  · subst hj
    simp only [if_true, if_pos (And.intro hi hv)]
  · rw [if_neg hj, if_neg (Ne.symm hj)]

end Xv6.Ref
