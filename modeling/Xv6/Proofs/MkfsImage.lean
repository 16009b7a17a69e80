import Xv6.Proofs.MkfsAppend

/-!
# The image `mkfs` leaves behind

Between two calls of `iappend` the image is `Whole`: every inode is on the image
with the size its blocks need, and the inodes handed out so far are the only ones
in use. At the end the root directory's size is rounded up — to the next block
even when it is a multiple of the block size already, in which case that block
does not exist. Nor is the number of inodes ever checked.
-/

namespace Xv6.Ref.Mkfs

open Xv6.Lib

variable {s s' : Image} {i sz : Nat} {din : DiskInode} {p : List UInt8}

/-- The fields of an inode that `mkfs` fills in when it allocates it. -/
structure Record (v : DiskInode) (type : BitVec 16) : Prop where
  type : v.type = type
  major : v.major = 0
  minor : v.minor = 0
  nlink : v.nlink = 1

/-- What the inode `j` is: the root directory or a file. -/
def typeOf (j : Nat) : BitVec 16 := if j = ROOTINO then T_DIR else T_FILE

theorem typeOf_ne_zero (j : Nat) : typeOf j ≠ 0 := by
  simp only [typeOf]
  split <;> decide

structure Whole (s : Image) : Prop where
  part : ∀ i, Part s i (s.disk.table sb i) (s.disk.table sb i).size.toNat
  low : ∀ b < sb.inodestart, s.disk b = if b = 1 then superblock else zeroBlock
  pos : 0 < s.freeinode
  count : s.freeinode ≤ NINODES
  used : ∀ j, 0 < j → j < s.freeinode → Record (s.disk.dinode sb j) (typeOf j)
  unused : ∀ j < nslots, j = 0 ∨ s.freeinode ≤ j → s.disk.dinode sb j = DiskInode.zero

theorem setDinode_data {v : DiskInode} (hi : i < nslots) (y : Nat) (hy : nmeta ≤ y) :
    s.disk.setDinode sb i v y = s.disk y := by
  have := iblock_lt hi
  exact Disk.set_ne (by omega)

/-- `din.size = xint(off); winode(inum, &din)`. -/
theorem Part.close (h : Part s i din sz) (hi : i < NINODES) (ht : din.type ≠ 0) (j : Nat) :
    let v := { din with size := BitVec.ofNat 32 sz }
    let s' := { s with disk := s.disk.setDinode sb i v }
    Part s' j (s'.disk.table sb j) (s'.disk.table sb j).size.toNat := by
  intro v s'
  have hslot : i < nslots := Nat.lt_trans hi (by decide)
  have htab : s'.disk.table sb = setNode (s.disk.table sb) i v :=
    Disk.table_setDinode hi ht
  have hsize : v.size.toNat = sz := by
    have hle : sz ≤ 71680 := h.tidy.fits.le
    rw [BitVec.toNat_ofNat]
    omega
  refine ⟨?_, h.len, h.lo, h.hi, fun b hb => ?_⟩
  · rw [setNode_self]
    refine Tidy.any (i := i) ?_ j
    rw [htab, setNode_same, hsize]
    refine h.tidy.congr (fun l k => ?_) (fun l hl => ?_) fun _ => Iff.rfl
    · rw [← ptr_frame h.tidy.owned s'.disk
        fun y hy _ => setDinode_data hslot y hy.1]
      by_cases hl : l = i
      · rw [hl, setNode_same, setNode_same]
        exact DiskInode.ptr_of_addrs rfl k
      · rw [setNode_ne hl, setNode_ne hl]
    · rw [setNode_ne hl, setNode_ne hl]
  · exact (setDinode_data hslot b (Nat.le_trans h.lo hb)).trans (h.blank b hb)

theorem Whole.table (h : Whole s) (hi : i < NINODES) :
    s.disk.table sb i = s.disk.dinode sb i := by
  simp only [Disk.table]
  split
  · rfl
  · next hn =>
      rw [h.unused i (Nat.lt_trans hi (by decide))]
      by_contra hc
      rw [not_or, not_le] at hc
      refine hn ⟨hi, ?_⟩
      rw [(h.used i (Nat.pos_of_ne_zero hc.1) hc.2).type]
      exact typeOf_ne_zero i

/-- What `iappend` does to the inodes: one of them grows. -/
structure Appended (s : Image) (i n : Nat) (s' : Image) : Prop where
  freeinode : s'.freeinode = s.freeinode
  size : (s'.disk.dinode sb i).size.toNat = (s.disk.dinode sb i).size.toNat + n
  others : ∀ j < nslots, j ≠ i → s'.disk.dinode sb j = s.disk.dinode sb j

/-- Putting an inode back, or a new one onto the image, leaves the image whole. -/
theorem Whole.close {v : DiskInode} (h : Whole s) (s' : Image)
    (hlow : ∀ b < nmeta, s'.disk b = s.disk b)
    (hpos : 0 < i) (hle : i ≤ s.freeinode) (hi : i < NINODES)
    (hf : s'.freeinode = max s.freeinode (i + 1)) (hv : Record v (typeOf i))
    (hpart : ∀ j, let t := { s' with disk := s'.disk.setDinode sb i v }
      Part t j (t.disk.table sb j) (t.disk.table sb j).size.toNat) :
    Whole { s' with disk := s'.disk.setDinode sb i v } := by
  have hcount := h.count
  have hslots : NINODES ≤ nslots := by decide
  refine ⟨hpart, fun b hb => ?_, ?_, ?_, ?_, ?_⟩
  · have hne : b ≠ sb.iblock i := by
      have : sb.inodestart ≤ sb.iblock i := Nat.le_add_left _ _
      omega
    rw [← h.low b hb, ← hlow b (Nat.lt_trans hb (by decide))]
    exact Disk.set_ne hne
  · show 0 < s'.freeinode
    omega
  · show s'.freeinode ≤ NINODES
    omega
  · intro j hj hj'
    have hj' : j < s'.freeinode := hj'
    rw [Disk.dinode_setDinode]
    split
    · next he => exact he ▸ hv
    · rw [dinode_of_low hlow (by omega)]
      exact h.used j hj (by omega)
  · intro j hj hor
    have hor : j = 0 ∨ s'.freeinode ≤ j := hor
    rw [Disk.dinode_setDinode, if_neg (by omega), dinode_of_low hlow hj]
    exact h.unused j hj (by omega)

theorem iappend_spec (h : Whole s) (hpos : 0 < i) (hlt : i < s.freeinode)
    (he : iappend s i p = some s') : Whole s' ∧ Appended s i p.length s' := by
  have hi : i < NINODES := Nat.lt_of_lt_of_le hlt h.count
  have hslot : i < nslots := Nat.lt_trans hi (by decide)
  have hp := h.part i
  simp only [iappend, rinode_eq hp.len hslot, Option.bind_eq_bind, Option.bind_some,
    Option.bind_eq_some_iff] at he
  obtain ⟨⟨s₁, din, off⟩, hloop, he⟩ := he
  rw [h.table hi] at hp
  obtain ⟨hpart, hmeta, hfile, hoff⟩ := iappendLoop_spec p.length (Nat.le_refl _) hp hloop
  have hrec := h.used i hpos hlt
  have hrec' : Record { din with size := BitVec.ofNat 32 off } (typeOf i) := by
    rw [hfile]
    exact ⟨hrec.type, hrec.major, hrec.minor, hrec.nlink⟩
  have ht : din.type ≠ 0 := by
    have := hrec'.type
    exact this ▸ typeOf_ne_zero i
  rw [winode_eq hpart.len hslot] at he
  cases he
  have hf := hmeta.freeinode
  refine ⟨h.close _ hmeta.low hpos (Nat.le_of_lt hlt) hi (by omega) hrec' (hpart.close hi ht),
    hf, ?_, ?_⟩
  · rw [Disk.dinode_setDinode, if_pos rfl]
    have hle : off ≤ 71680 := hpart.tidy.fits.le
    show (BitVec.ofNat 32 off).toNat = _
    rw [BitVec.toNat_ofNat]
    omega
  · intro j hj hne
    rw [Disk.dinode_setDinode, if_neg (Ne.symm hne), dinode_of_low hmeta.low hj]

/-! ## The files -/

/-- A new inode holds nothing. -/
theorem Part.fresh {v : DiskInode} (hp : Part s i DiskInode.zero 0)
    (hv : v.addrs = DiskInode.zero.addrs) (n : Nat) :
    Part { s with freeinode := n } i v 0 := by
  refine ⟨hp.tidy.congr (fun l k => ?_) (fun l hl => ?_) fun _ => Iff.rfl, hp.len, hp.lo, hp.hi,
    hp.blank⟩
  · by_cases hl : l = i
    · rw [hl, setNode_same, setNode_same]
      exact DiskInode.ptr_of_addrs hv k
    · rw [setNode_ne hl, setNode_ne hl]
  · rw [setNode_ne hl, setNode_ne hl]

theorem ialloc_spec (h : Whole s) (hlt : s.freeinode < NINODES) {inum : Nat}
    (he : ialloc s (typeOf s.freeinode) = some (s', inum)) :
    Whole s' ∧ inum = s.freeinode ∧ s'.freeinode = s.freeinode + 1 ∧
      (s'.disk.dinode sb inum).size = 0 ∧
      ∀ j < nslots, j ≠ inum → s'.disk.dinode sb j = s.disk.dinode sb j := by
  have hslot : s.freeinode < nslots := Nat.lt_trans hlt (by decide)
  have hp := h.part s.freeinode
  rw [ialloc, winode_eq (s := { s with freeinode := s.freeinode + 1 }) hp.len hslot] at he
  cases he
  rw [h.table hlt, h.unused _ hslot (Or.inr (Nat.le_refl _))] at hp
  have hpart := hp.fresh (v := { DiskInode.zero with type := typeOf s.freeinode, nlink := 1 })
    rfl (s.freeinode + 1)
  refine ⟨?_, rfl, rfl, ?_, fun j _ hne => ?_⟩
  · refine h.close { s with freeinode := s.freeinode + 1 } (fun _ _ => rfl) h.pos
      (Nat.le_refl _) hlt ?_ ⟨rfl, rfl, rfl, rfl⟩ (hpart.close hlt (typeOf_ne_zero _))
    show s.freeinode + 1 = _
    omega
  · rw [Disk.dinode_setDinode, if_pos rfl]
    rfl
  · exact (Disk.dinode_setDinode ..).trans (if_neg (Ne.symm hne))

theorem copyFile_spec : ∀ (reads : List (List UInt8)) {s s' : Image}, Whole s → 0 < i →
    i < s.freeinode → copyFile s i reads = some s' →
    Whole s' ∧ s'.freeinode = s.freeinode ∧
      ∀ j < nslots, j ≠ i → s'.disk.dinode sb j = s.disk.dinode sb j
  | [], s, s', h, _, _, he => by
      cases he
      exact ⟨h, rfl, fun _ _ _ => rfl⟩
  | buf :: rest, s, s', h, hpos, hlt, he => by
      simp only [copyFile] at he
      split at he
      · cases he
        exact ⟨h, rfl, fun _ _ _ => rfl⟩
      · simp only [Option.bind_eq_bind, Option.bind_eq_some_iff] at he
        obtain ⟨s₁, ha, he⟩ := he
        obtain ⟨hw, hg⟩ := iappend_spec h hpos hlt ha
        have hf := hg.freeinode
        obtain ⟨h1, h2, h3⟩ := copyFile_spec rest hw hpos (by omega) he
        exact ⟨h1, h2.trans hf, fun j hj hne => (h3 j hj hne).trans (hg.others j hj hne)⟩

/-- The entries of the root directory: `.`, `..` and one for each file. -/
def RootSize (s : Image) : Prop :=
  (s.disk.dinode sb ROOTINO).size.toNat = 16 * s.freeinode

theorem dirent_length (inum : Nat) (name : List UInt8) : (dirent inum name).length = 16 := by
  simp only [dirent, List.length_append, List.length_cons, List.length_nil, List.length_take,
    List.length_replicate, DIRSIZ]
  omega

theorem addFile_spec {f : Input} (h : Whole s) (hr : RootSize s) (hroot : ROOTINO < s.freeinode)
    (hlt : s.freeinode < NINODES) (he : addFile s f = some s') :
    Whole s' ∧ RootSize s' ∧ s'.freeinode = s.freeinode + 1 := by
  have hty : typeOf s.freeinode = T_FILE := if_neg (Nat.ne_of_gt hroot)
  simp only [addFile] at he
  split at he
  · cases he
  simp only [Option.bind_eq_bind, Option.bind_eq_some_iff] at he
  obtain ⟨reads, -, ⟨s₁, inum⟩, hal, s₂, hap, hcp⟩ := he
  rw [← hty] at hal
  obtain ⟨h1, rfl, hf1, -, hd1⟩ := ialloc_spec h hlt hal
  obtain ⟨h2, hg⟩ := iappend_spec h1 (by decide) (by omega) hap
  have hf2 := hg.freeinode
  obtain ⟨h3, hf3, hd3⟩ := copyFile_spec reads h2 h.pos (by omega) hcp
  refine ⟨h3, ?_, by omega⟩
  have hne : ROOTINO ≠ s.freeinode := Nat.ne_of_lt hroot
  have hsz := hg.size
  rw [dirent_length, hd1 ROOTINO (by decide) hne, hr] at hsz
  rw [RootSize, hd3 ROOTINO (by decide) hne, hsz]
  omega

theorem addFiles_spec : ∀ (files : List Input) {s s' : Image}, Whole s → RootSize s →
    ROOTINO < s.freeinode → s.freeinode + files.length ≤ NINODES →
    addFiles s files = some s' →
    Whole s' ∧ RootSize s' ∧ s'.freeinode = s.freeinode + files.length
  | [], s, s', h, hr, _, _, he => by
      cases he
      exact ⟨h, hr, rfl⟩
  | f :: rest, s, s', h, hr, hroot, hle, he => by
      simp only [addFiles, Option.bind_eq_bind, Option.bind_eq_some_iff] at he
      obtain ⟨s₁, ha, he⟩ := he
      rw [List.length_cons] at hle
      obtain ⟨h1, hr1, hf1⟩ := addFile_spec h hr hroot (by omega) ha
      obtain ⟨h2, hr2, hf2⟩ := addFiles_spec rest h1 hr1 (by omega) (by omega) he
      rw [List.length_cons]
      exact ⟨h2, hr2, by omega⟩

/-! ## The start -/

theorem blank_disk (b : Nat) :
    blank.disk b = if b = 1 then superblock else zeroBlock := rfl

theorem blank_data {b : Nat} (hb : nmeta ≤ b) : blank.disk b = zeroBlock := by
  rw [blank_disk, if_neg (fun h => absurd hb (by rw [h]; decide))]

theorem blank_dinode (j : Nat) : blank.disk.dinode sb j = DiskInode.zero := by
  have hne : sb.iblock j ≠ 1 := by
    have : sb.inodestart ≤ sb.iblock j := Nat.le_add_left _ _
    have h32 : sb.inodestart = 32 := rfl
    omega
  rw [Disk.dinode, blank_disk, if_neg hne, zeroBlock_dinode]

theorem blank_whole : Whole blank := by
  have htab : ∀ j, blank.disk.table sb j = DiskInode.zero := by
    intro j
    rw [Disk.table, blank_dinode, ite_self]
  have hnone : ∀ l, ptrs (blank.disk.table sb) blank.disk l = none := by
    intro l
    refine ptrs_none ?_
    rw [htab, DiskInode.zero_ptr]
  have hfits : ∀ j, Spans (blank.disk.table sb j) blank.disk
      (blank.disk.table sb j).size.toNat := by
    intro j
    rw [htab]
    exact Spans.zero (DiskInode.zero_ptr _)
  refine ⟨fun i => ⟨?_, rfl, Nat.le_refl _, by decide, fun b hb => blank_data hb⟩,
    fun b _ => blank_disk b, by decide, by decide, ?_, fun j _ _ => blank_dinode j⟩
  · rw [setNode_self]
    refine ⟨⟨?_, ?_, fun _ hr => hr, fun _ ha hn => absurd ha hn⟩, hfits i, fun j _ => hfits j⟩
    · intro l l' r hl
      rw [hnone] at hl
      cases hl
    · intro l r hl
      rw [hnone] at hl
      cases hl
  · intro j hj hlt
    have : j < 1 := hlt
    omega

theorem makeRoot_spec (he : makeRoot blank = some s) :
    Whole s ∧ RootSize s ∧ s.freeinode = 2 := by
  simp only [makeRoot, Option.bind_eq_bind, Option.bind_eq_some_iff] at he
  obtain ⟨⟨s₁, inum⟩, hal, he⟩ := he
  obtain ⟨h1, rfl, hf1, hz, -⟩ := ialloc_spec blank_whole (by decide) hal
  rw [if_pos (by rfl)] at he
  simp only [Option.bind_eq_some_iff] at he
  obtain ⟨s₂, ha, hb⟩ := he
  have hf : blank.freeinode = 1 := rfl
  obtain ⟨h2, hg2⟩ := iappend_spec h1 (by decide) (by omega) ha
  have hf2 := hg2.freeinode
  obtain ⟨h3, hg3⟩ := iappend_spec h2 (by decide) (by omega) hb
  have hf3 := hg3.freeinode
  refine ⟨h3, ?_, by omega⟩
  have h0 : (s₁.disk.dinode sb blank.freeinode).size.toNat = 0 := by rw [hz]; rfl
  have hs2 := hg2.size
  have hs3 := hg3.size
  rw [dirent_length] at hs2 hs3
  show (s.disk.dinode sb blank.freeinode).size.toNat = 16 * s.freeinode
  omega

/-! ## The end -/

/-- Unless the directory fills its last block, rounding its size up adds no block. -/
theorem fixRoot_spec (h : Whole s) (hr : RootSize s) (hroot : ROOTINO < s.freeinode)
    (hmod : s.freeinode % 32 ≠ 0) (he : fixRoot s = some s') :
    Whole s' ∧ s'.freeinode = s.freeinode := by
  have hi : ROOTINO < NINODES := Nat.lt_of_lt_of_le hroot h.count
  have hslot : ROOTINO < nslots := by decide
  have hp := h.part ROOTINO
  simp only [fixRoot, rinode_eq hp.len hslot, Option.bind_eq_bind, Option.bind_some,
    winode_eq hp.len hslot] at he
  cases he
  rw [h.table hi] at hp
  have hrec := h.used ROOTINO (by decide) hroot
  generalize hv : s.disk.dinode sb ROOTINO = v at hp hrec
  have hsz : v.size.toNat = 16 * s.freeinode := by rw [← hv]; exact hr
  have hle : v.size.toNat ≤ 71680 := hp.tidy.fits.le
  have hlast : v.size.toNat / 512 * 512 < v.size.toNat := by omega
  have hn : v.size.toNat / BSIZE < MAXFILE := by
    show v.size.toNat / 512 < 140
    omega
  have hne := (hp.tidy.fits.exact _ hn).mpr hlast
  rw [setNode_same] at hne
  have hpart := hp.le_of_found ((v.size.toNat / BSIZE + 1) * BSIZE) hn hne
    (by show v.size.toNat ≤ (v.size.toNat / 512 + 1) * 512; omega) (Nat.le_refl _)
  refine ⟨h.close s (fun _ _ => rfl) (by decide) (Nat.le_of_lt hroot) hi (by omega)
    ⟨hrec.type, hrec.major, hrec.minor, hrec.nlink⟩ (hpart.close hi ?_), rfl⟩
  rw [hrec.type]
  exact typeOf_ne_zero _

theorem usedMap_bit (used : Nat) {b : Nat} (hb : b < BPB) :
    (usedMap used).bit b = decide (b < used) := by
  induction used with
  | zero =>
      rw [usedMap, List.range_zero, List.foldl_nil, zeroBlock_bit]
      rfl
  | succ n ih =>
      have hstep : usedMap (n + 1) = (usedMap n).setBit n := by
        rw [usedMap, List.range_succ, List.foldl_append, List.foldl_cons, List.foldl_nil, usedMap]
      rw [hstep, Block.bit_setBit hb, ih]
      by_cases he : n = b
      · rw [if_pos he, eq_comm, decide_eq_true_iff]
        omega
      · rw [if_neg he, decide_eq_decide]
        omega

/-- The free map is no part of what the files are made of. -/
theorem Whole.bitmap (h : Whole s) (b : Block) : Whole (s.put sb.bmapstart b) := by
  have hdin : ∀ j < nslots, (s.put sb.bmapstart b).disk.dinode sb j = s.disk.dinode sb j := by
    intro j hj
    rw [Disk.dinode, put_disk, Disk.set_ne (Nat.ne_of_lt (iblock_lt_bmapstart hj)), Disk.dinode]
  have htab : (s.put sb.bmapstart b).disk.table sb = s.disk.table sb :=
    Disk.table_congr fun j hj => hdin j (Nat.lt_trans hj (by decide))
  have hdata : ∀ y, nmeta ≤ y → (s.put sb.bmapstart b).disk y = s.disk y := by
    intro y hy
    exact Disk.set_ne fun he => absurd hy (by rw [he]; decide)
  refine ⟨fun i => ?_, fun c hc => ?_, h.pos, h.count, fun j hj hlt => ?_, fun j hj hor => ?_⟩
  · have hp := h.part i
    refine ⟨?_, hp.len, hp.lo, hp.hi, fun c hc => ?_⟩
    · rw [htab]
      exact hp.tidy.congr (fun j k => ptr_frame hp.tidy.owned _ (fun y hy _ => hdata y hy.1) j k)
        (fun _ _ => rfl) fun _ => Iff.rfl
    · exact (hdata c (Nat.le_trans hp.lo hc)).trans (hp.blank c hc)
  · rw [← h.low c hc]
    exact Disk.set_ne fun he => absurd hc (by rw [he]; decide)
  · rw [hdin j (Nat.lt_of_lt_of_le hlt (Nat.le_trans h.count (by decide)))]
    exact h.used j hj hlt
  · rw [hdin j hj]
    exact h.unused j hj hor

/-- The address at index `k` of inode `i`: `addrs[k]`, the indirect block's included, or
an entry of the indirect block. -/
def Image.addr (s : Image) (i k : Nat) : Option Nat := ptrs (s.disk.dinode sb) s.disk (i, k)

/-- What the kernel takes for granted of an image. -/
structure Consistent (s : Image) : Prop where
  exact : ∀ i < NINODES, Spans (s.disk.dinode sb i) s.disk (s.disk.dinode sb i).size.toNat
  distinct : ∀ i < NINODES, ∀ i' < NINODES, ∀ k k' x,
    s.addr i k = some x → s.addr i' k' = some x → i = i' ∧ k = k'
  range : ∀ i < NINODES, ∀ k x, s.addr i k = some x → nmeta ≤ x ∧ x < FSSIZE
  -- `freeblock` is the first unused block
  reserved : nmeta ≤ s.freeblock
  first : ∀ x, nmeta ≤ x → x < FSSIZE →
    (x < s.freeblock ↔ ∃ i < NINODES, ∃ k, s.addr i k = some x)
  inums : s.freeinode ≤ NINODES
  bitmap : ∀ b < BPB, (s.disk sb.bmapstart).bit b = true ↔ b < s.freeblock
  -- the metadata: superblock, log, and inodes in every slot of the inode blocks
  low : ∀ b < sb.inodestart, s.disk b = if b = 1 then superblock else zeroBlock
  used : ∀ j, 0 < j → j < s.freeinode → Record (s.disk.dinode sb j) (typeOf j)
  unused : ∀ j < nslots, j = 0 ∨ s.freeinode ≤ j → s.disk.dinode sb j = DiskInode.zero

theorem Whole.consistent (h : Whole s)
    (hmap : ∀ b < BPB, (s.disk sb.bmapstart).bit b = true ↔ b < s.freeblock) :
    Consistent s := by
  have haddr : ∀ i < NINODES, ∀ k, s.addr i k = ptrs (s.disk.table sb) s.disk (i, k) :=
    fun i hi k => ptrs_congr (by rw [h.table hi])
  have hin : ∀ i k x, ptrs (s.disk.table sb) s.disk (i, k) = some x → i < NINODES := by
    intro i k x hx
    by_contra hi
    rw [ptrs_none] at hx
    · cases hx
    · have hz : s.disk.table sb i = DiskInode.zero := if_neg fun h' => hi h'.1
      rw [hz, DiskInode.zero_ptr]
  have hown : Owned (ptrs (s.disk.table sb) s.disk) s.unused data := by
    have := (h.part 0).tidy.owned
    rwa [setNode_self] at this
  refine ⟨fun i hi => ?_, fun i hi i' hi' k k' x hx hx' => ?_, fun i hi k x hx => ?_,
    (h.part 0).lo, fun x hlo hhi => ?_, h.count, hmap, h.low, h.used, h.unused⟩
  · have hf := (h.part i).tidy.fits
    rw [setNode_self, h.table hi] at hf
    exact hf
  · rw [haddr i hi] at hx
    rw [haddr i' hi'] at hx'
    have := hown.one _ _ _ hx hx'
    exact ⟨congrArg Prod.fst this, congrArg Prod.snd this⟩
  · rw [haddr i hi] at hx
    exact (hown.held _ _ hx).1
  · constructor
    · intro hlt
      obtain ⟨⟨i, k⟩, hl⟩ := hown.cover x ⟨hlo, hhi⟩ fun hf => absurd hf.1 (by omega)
      exact ⟨i, hin i k x hl, k, (haddr i (hin i k x hl) k).trans hl⟩
    · rintro ⟨i, hi, k, hl⟩
      rw [haddr i hi] at hl
      by_contra hge
      exact (hown.held _ _ hl).2 ⟨by omega, hhi⟩

/-- `n` empty files. -/
def emptyFiles (n : Nat) : List Input :=
  (List.range n).map fun i =>
    ⟨[UInt8.ofNat (0x61 + i % 26), UInt8.ofNat (0x61 + i / 26)], some []⟩

end Xv6.Ref.Mkfs
