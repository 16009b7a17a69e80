import Xv6.Proofs.Balloc

/-!
# Finding a file's blocks

`Mid` is the state in the middle of an operation on an inode, whose copy in the
cache is ahead of the disk: with the copy in place of the disk's inode, the blocks
are partitioned and the file has exactly the blocks of its first `sz` bytes. `bmap`
at or before the file's end keeps it. It allocates at most two blocks, moves no
address that is there and leaves the data of every file.
-/

namespace Xv6.Ref.Inodes

open Xv6.Lib

variable {sb : Superblock} {start i n x sz sz' : Nat} {d d' d₁ : Disk} {ip ip' : DiskInode}

structure Mid (sb : Superblock) (start : Nat) (d : Disk) (i : Nat) (ip : DiskInode)
    (sz : Nat) : Prop where
  tidy : Tidy (setNode (d.table sb) i ip) d (clear sb start d) (data sb start) i sz
  metaSet : MetaSet sb start d

/-- Every address stays where it is, and the data behind it. -/
structure Kept (T : Nat → DiskInode) (d : Disk) (T' : Nat → DiskInode) (d' : Disk) :
    Prop where
  ptrs : ∀ l y, ptrs T d l = some y → ptrs T' d' l = some y
  bytes : ∀ l y, Ref.ptrs T d l = some y → l.2 ≠ NDIRECT → d' y = d y

theorem Kept.refl (T : Nat → DiskInode) (d : Disk) : Kept T d T d :=
  ⟨fun _ _ h => h, fun _ _ _ _ => rfl⟩

theorem Kept.trans {T T' T'' : Nat → DiskInode} {d'' : Disk} (h : Kept T d T' d')
    (h' : Kept T' d' T'' d'') : Kept T d T'' d'' :=
  ⟨fun l y hl => h'.ptrs l y (h.ptrs l y hl),
    fun l y hl hk => (h'.bytes l y (h.ptrs l y hl) hk).trans (h.bytes l y hl hk)⟩

theorem kept_ptrs {T T' : Nat → DiskInode} {k : Nat} (he : Entered T d T' d' i k x)
    (h0 : (T i).ptr d k = 0) {l : Place} {y : Nat} (hl : ptrs T d l = some y) :
    ptrs T' d' l = some y := by
  rw [ptrs_some] at hl ⊢
  refine ⟨hl.1, hl.2.1, ?_⟩
  rw [he, if_neg, hl.2.2]
  rintro ⟨h1, h2⟩
  rw [h1, h2, h0] at hl
  exact hl.2.1 hl.2.2.symm

/-! ## One address -/

section

variable (h : Mid sb start d i ip sz)

include h

/-- What a place holds is a block of the data area. -/
theorem Mid.held {l : Place} (hl : ptrs (setNode (d.table sb) i ip) d l = some x) :
    start ≤ x ∧ x < sb.size ∧ d.bit sb x = true := by
  obtain ⟨ha, hf⟩ := h.tidy.owned.held l x hl
  refine ⟨ha.1, ha.2, ?_⟩
  cases hb : d.bit sb x with
  | true => rfl
  | false => exact absurd ⟨ha, hb⟩ hf

theorem Mid.grow (hsb : sb.Ordered start) (ht : Took sb start d d' x)
    (he : Entered (setNode (d.table sb) i ip) d (setNode (d.table sb) i ip') d' i (ptrOf n) x)
    (hn : n < MAXFILE) (hle : n * BSIZE ≤ sz) (hz : ip.ptr d (ptrOf n) = 0)
    (hlo : n * BSIZE < sz') (hhi : sz' ≤ (n + 1) * BSIZE) : Mid sb start d' i ip' sz' := by
  refine ⟨?_, ht.metaSet h.metaSet⟩
  rw [ht.table]
  refine h.tidy.grow he (fun j hj => ?_) ht.free (ht.pos hsb).1 ht.clear hn hle ?_ hlo hhi
  · rw [setNode_ne hj, setNode_ne hj]
  · rw [setNode_same]
    exact hz

theorem Mid.indirect (hsb : sb.Ordered start) (ht : Took sb start d d' x)
    (he : Entered (setNode (d.table sb) i ip) d (setNode (d.table sb) i ip') d' i NDIRECT x)
    (hz : ip.indirect = 0) : Mid sb start d' i ip' sz := by
  refine ⟨?_, ht.metaSet h.metaSet⟩
  rw [ht.table]
  refine h.tidy.indirect he (fun j hj => ?_) ht.free (ht.pos hsb).1 ht.clear ?_
  · rw [setNode_ne hj, setNode_ne hj]
  · rw [setNode_same]
    exact hz

theorem Mid.within (hn : n < MAXFILE) (hne : ip.ptr d (ptrOf n) ≠ 0) (hle : sz ≤ sz')
    (hhi : sz' ≤ max sz ((n + 1) * BSIZE)) : Mid sb start d i ip sz' :=
  ⟨h.tidy.within hn (by rw [setNode_same]; exact hne) hle hhi, h.metaSet⟩

theorem Mid.entered_addr {k : Fin (NDIRECT + 1)} (hsb : sb.Ordered start)
    (ht : Took sb start d d' x) (hzero : d' x = zeroBlock)
    (hsame : ∀ y, start ≤ y → y ≠ x → d' y = d y) (hk : ip.addrs k = 0) :
    Entered (setNode (d.table sb) i ip) d (setNode (d.table sb) i (ip.setAddr k x)) d' i
      k.val x := by
  have he := Ref.entered_addr i d' h.tidy.owned (ht.pos hsb).2
    (by rw [setNode_same]; exact hk) (fun _ => hzero) fun y hy hf => hsame y hy.1 ?_
  · rw [setNode_same, setNode_setNode] at he
    exact he
  · rintro rfl
    exact hf ht.free

theorem Mid.kept_addr {k : Fin (NDIRECT + 1)} (hsb : sb.Ordered start)
    (ht : Took sb start d d' x) (hzero : d' x = zeroBlock)
    (hsame : ∀ y, start ≤ y → y ≠ x → d' y = d y) (hk : ip.addrs k = 0) :
    Kept (setNode (d.table sb) i ip) d (setNode (d'.table sb) i (ip.setAddr k x)) d' := by
  refine ⟨fun l y hl => ?_, fun l y hl _ => ?_⟩
  · rw [ht.table]
    refine kept_ptrs (h.entered_addr hsb ht hzero hsame hk) ?_ hl
    rw [setNode_same, DiskInode.ptr_addr, hk]
    rfl
  · obtain ⟨hlo, -, hbit⟩ := h.held hl
    refine hsame y hlo ?_
    rintro rfl
    rw [ht.free.2] at hbit
    cases hbit

theorem Mid.indirect_range (hv : ip.indirect ≠ 0) :
    start ≤ ip.indirect ∧ ip.indirect < sb.size ∧ d.bit sb ip.indirect = true := by
  refine h.held (l := (i, NDIRECT)) ?_
  have := ptrs_indirect (T := setNode (d.table sb) i ip) (d := d) (j := i)
    (by rw [setNode_same]; exact hv)
  rw [this, setNode_same]

end

/-! ## `bmap` -/

/-- The blocks `bmap` allocates. -/
def mapCost (d : Disk) (ip : DiskInode) (n : Nat) : Nat :=
  (if ip.ptr d (ptrOf n) = 0 then 1 else 0) + if NDIRECT ≤ n ∧ ip.indirect = 0 then 1 else 0

/-- From `(d, ip)` to `(d', ip')`: the state is as before, with `c` blocks less. -/
structure Moved (sb : Superblock) (start : Nat) (d : Disk) (i : Nat) (ip : DiskInode)
    (d' : Disk) (ip' : DiskInode) (sz c : Nat) : Prop where
  mid : Mid sb start d' i ip' sz
  kept : Kept (setNode (d.table sb) i ip) d (setNode (d'.table sb) i ip') d'
  file : SameFile ip ip'
  dinode : ∀ j < sb.ninodes, d'.dinode sb j = d.dinode sb j
  cost : nfree sb d' + c = nfree sb d
  still : c = 0 → ip' = ip

theorem Moved.trans {d'' : Disk} {ip'' : DiskInode} {c c' : Nat}
    (h : Moved sb start d i ip d' ip' sz c) (h' : Moved sb start d' i ip' d'' ip'' sz' c') :
    Moved sb start d i ip d'' ip'' sz' (c + c') where
  mid := h'.mid
  kept := h.kept.trans h'.kept
  file := h.file.trans h'.file
  dinode := fun j hj => (h'.dinode j hj).trans (h.dinode j hj)
  cost := by
    have := h.cost
    have := h'.cost
    omega
  still := fun h0 => by rw [h'.still (by omega), h.still (by omega)]

theorem Moved.refl (h : Mid sb start d i ip sz) : Moved sb start d i ip d ip sz 0 :=
  ⟨h, Kept.refl _ _, SameFile.refl _, fun _ _ => rfl, rfl, fun _ => rfl⟩

/-- A block the file has is found, and nothing changes. -/
theorem bmap_eq (hn : n < MAXFILE) (hne : ip.ptr d (ptrOf n) ≠ 0) :
    bmap sb d ip n = .ok (d, ip, ip.ptr d (ptrOf n)) := by
  simp only [bmap]
  split
  · next hd =>
      rw [ptrOf_direct hd] at hne ⊢
      rw [ip.ptr_addr d ⟨n, Nat.lt_succ_of_lt hd⟩] at hne ⊢
      rw [if_neg fun h0 => hne (by rw [h0]; rfl)]
  · next hd =>
      obtain ⟨j, rfl⟩ : ∃ j, n = NDIRECT + j := ⟨n - NDIRECT, by omega⟩
      have hj : j < NINDIRECT := Nat.lt_of_add_lt_add_left hn
      rw [ptrOf_entry, DiskInode.ptr_entry] at hne ⊢
      by_cases hv : ip.indirect = 0
      · rw [if_pos hv] at hne
        exact absurd rfl hne
      · rw [if_neg hv] at hne ⊢
        have hv' : ip.addrs (Fin.last NDIRECT) ≠ 0 :=
          fun h0 => hv (DiskInode.indirect_eq_zero.mpr h0)
        rw [Nat.add_sub_cancel_left, if_pos hj, loadIndirect, if_neg hv']
        rw [ok_bind]
        exact if_neg hne

/-- What `bmap` leaves behind: block `x` is file block `n`. -/
structure Mapped (sb : Superblock) (start : Nat) (d : Disk) (i : Nat) (ip : DiskInode)
    (n sz : Nat) (d' : Disk) (ip' : DiskInode) (x : Nat) : Prop where
  moved : Moved sb start d i ip d' ip' sz (mapCost d ip n)
  ptr : ip'.ptr d' (ptrOf n) = x
  pos : x ≠ 0
  -- a second visit allocates nothing
  indirect : NDIRECT ≤ n → ip'.indirect ≠ 0
  indirect_kept : ip.indirect ≠ 0 → ip'.indirect ≠ 0
  indirect_new : n < NDIRECT → ip'.indirect = ip.indirect

theorem moved_addr {k : Fin (NDIRECT + 1)} (hsb : sb.Ordered start)
    (h : Mid sb start d i ip sz) (ht : Took sb start d d' x) (hzero : d' x = zeroBlock)
    (hsame : ∀ y, start ≤ y → y ≠ x → d' y = d y) (hk : ip.addrs k = 0)
    (hmid : Mid sb start d' i (ip.setAddr k x) sz') :
    Moved sb start d i ip d' (ip.setAddr k x) sz' 1 :=
  ⟨hmid, h.kept_addr hsb ht hzero hsame hk, SameFile.setAddr _ _ _, ht.dinode, ht.nfree,
    fun h0 => absurd h0 Nat.one_ne_zero⟩

/-- A direct block. -/
theorem bmap_direct (hsb : sb.Ordered start) (h : Mid sb start d i ip sz) (hd : n < NDIRECT)
    (hz : ip.ptr d (ptrOf n) = 0) (hle : n * BSIZE ≤ sz) (hlo : n * BSIZE < sz')
    (hhi : sz' ≤ (n + 1) * BSIZE) :
    (bmap sb d ip n = .error .outOfBlocks ∧ nfree sb d < mapCost d ip n) ∨
      ∃ d' ip' x, bmap sb d ip n = .ok (d', ip', x) ∧
        Mapped sb start d i ip n sz' d' ip' x := by
  have hn : n < MAXFILE := Nat.lt_of_lt_of_le hd (by decide)
  have hcost : mapCost d ip n = 1 := by
    rw [mapCost, if_pos hz, if_neg fun h' => absurd h'.1 (by omega)]
  have hk : ip.addrs ⟨n, Nat.lt_succ_of_lt hd⟩ = 0 := by
    rw [ptrOf_direct hd, ip.ptr_addr d ⟨n, Nat.lt_succ_of_lt hd⟩] at hz
    exact BitVec.eq_of_toNat_eq hz
  have hlast : (⟨n, Nat.lt_succ_of_lt hd⟩ : Fin (NDIRECT + 1)) ≠ Fin.last NDIRECT :=
    fun he => absurd (congrArg Fin.val he) (Nat.ne_of_lt hd)
  simp only [bmap, dif_pos hd, if_pos hk]
  rcases balloc_spec hsb h.metaSet with ⟨he, h0⟩ | ⟨d', x, he, ht, hzero, hsame⟩
  · left
    rw [he, hcost, h0]
    exact ⟨rfl, Nat.one_pos⟩
  · right
    rw [he]
    obtain ⟨hpos, hsmall⟩ := ht.pos hsb
    have hent := h.entered_addr hsb ht hzero hsame hk
    have hmid := h.grow hsb ht (n := n) (by rw [ptrOf_direct hd]; exact hent) hn hle hz hlo hhi
    have hind : (ip.setAddr ⟨n, Nat.lt_succ_of_lt hd⟩ x).indirect = ip.indirect := by
      rw [DiskInode.indirect, setAddr_toNat hsmall, if_neg (Ne.symm hlast), DiskInode.indirect]
    refine ⟨d', _, x, rfl, ?_, ?_, hpos, fun h' => absurd hd (by omega),
      fun hne => by rw [hind]; exact hne, fun _ => hind⟩
    · rw [hcost]
      exact moved_addr hsb h ht hzero hsame hk hmid
    have := hent i n
    rw [setNode_same, if_pos ⟨rfl, rfl⟩] at this
    rw [ptrOf_direct hd]
    exact this

/-- The indirect block is there or gets allocated. -/
theorem loadIndirect_spec (hsb : sb.Ordered start) (h : Mid sb start d i ip sz) :
    (loadIndirect sb d ip = .error .outOfBlocks ∧ nfree sb d = 0 ∧ ip.indirect = 0) ∨
      ∃ d' ip', loadIndirect sb d ip = .ok (d', ip') ∧ ip'.indirect ≠ 0 ∧
        Moved sb start d i ip d' ip' sz (if ip.indirect = 0 then 1 else 0) := by
  simp only [loadIndirect]
  by_cases hz : ip.addrs (Fin.last NDIRECT) = 0
  · have hv : ip.indirect = 0 := DiskInode.indirect_eq_zero.mpr hz
    rw [if_pos hz, if_pos hv]
    rcases balloc_spec hsb h.metaSet with ⟨he, h0⟩ | ⟨d', x, he, ht, hzero, hsame⟩
    · left
      rw [he]
      exact ⟨rfl, h0, hv⟩
    · right
      rw [he]
      obtain ⟨hpos, hsmall⟩ := ht.pos hsb
      have hmid := h.indirect hsb ht (h.entered_addr hsb ht hzero hsame hz) hv
      refine ⟨d', _, rfl, ?_, moved_addr hsb h ht hzero hsame hz hmid⟩
      rw [DiskInode.indirect, setAddr_toNat hsmall, if_pos rfl]
      exact hpos
  · have hv : ip.indirect ≠ 0 := fun h0 => hz (DiskInode.indirect_eq_zero.mp h0)
    rw [if_neg hz, if_neg hv]
    exact Or.inr ⟨d, ip, rfl, hv, Moved.refl h⟩

/-- A free entry of the indirect block is filled. -/
theorem moved_entry {j : Nat} (hsb : sb.Ordered start) (h : Mid sb start d i ip sz)
    (hv : ip.indirect ≠ 0) (hj : j < NINDIRECT) (hw : (d ip.indirect).word j = 0)
    (hle : (NDIRECT + j) * BSIZE ≤ sz) (hlo : (NDIRECT + j) * BSIZE < sz')
    (hhi : sz' ≤ (NDIRECT + j + 1) * BSIZE) (ht : Took sb start d d₁ x)
    (hsame : ∀ y, start ≤ y → y ≠ x → d₁ y = d y) :
    let d' := d₁.set ip.indirect ((d ip.indirect).setWord j x)
    Moved sb start d i ip d' ip sz' 1 ∧ ip.ptr d' (ptrOf (NDIRECT + j)) = x := by
  intro d'
  obtain ⟨hpos, hsmall⟩ := ht.pos hsb
  obtain ⟨hilo, -, hibit⟩ := h.indirect_range hv
  have hne : ∀ y, d.bit sb y = true → y ≠ x := by
    rintro y hy rfl
    rw [ht.free.2] at hy
    cases hy
  have hind : d₁ ip.indirect = d ip.indirect := hsame _ hilo (hne _ hibit)
  have ht' : Took sb start d d' x := ht.set hsb hilo _
  have hent : Entered (setNode (d.table sb) i ip) d (setNode (d.table sb) i ip) d' i
      (NDIRECT + 1 + j) x := by
    have := entered_entry i d₁ h.tidy.owned hsmall hj
      (by rw [setNode_same]; exact hv) fun y hy hf => hsame y hy.1 ?_
    · rw [setNode_same, hind] at this
      exact this
    · rintro rfl
      exact hf ht.free
  have hz : ip.ptr d (ptrOf (NDIRECT + j)) = 0 := by
    rw [ptrOf_entry, DiskInode.ptr_entry, hw, ite_self]
  have hmid := h.grow hsb ht' (n := NDIRECT + j) (ptrOf_entry j ▸ hent)
    (Nat.add_lt_add_left hj _) hle hz hlo hhi
  refine ⟨⟨hmid, ⟨fun l y hl => ?_, fun l y hl hk => ?_⟩, SameFile.refl _, ht'.dinode,
    ht'.nfree, fun h0 => absurd h0 Nat.one_ne_zero⟩, ?_⟩
  · rw [ht'.table]
    refine kept_ptrs hent ?_ hl
    rw [setNode_same, ← ptrOf_entry]
    exact hz
  · obtain ⟨hlo', -, hbit⟩ := h.held hl
    have hy : y ≠ ip.indirect := by
      rintro rfl
      have := h.tidy.owned.one l (i, NDIRECT) _ hl (by
        rw [ptrs_indirect (by rw [setNode_same]; exact hv), setNode_same])
      exact hk (by rw [this])
    exact (Disk.set_ne hy).trans (hsame y hlo' (hne y hbit))
  · have := hent i (NDIRECT + 1 + j)
    rw [setNode_same, if_pos ⟨rfl, rfl⟩] at this
    rw [ptrOf_entry]
    exact this

/-- A block behind the indirect block. -/
theorem bmap_indirect {j : Nat} (hsb : sb.Ordered start) (h : Mid sb start d i ip sz)
    (hj : j < NINDIRECT) (hz : ip.ptr d (ptrOf (NDIRECT + j)) = 0)
    (hle : (NDIRECT + j) * BSIZE ≤ sz) (hlo : (NDIRECT + j) * BSIZE < sz')
    (hhi : sz' ≤ (NDIRECT + j + 1) * BSIZE) :
    (bmap sb d ip (NDIRECT + j) = .error .outOfBlocks ∧
        nfree sb d < mapCost d ip (NDIRECT + j)) ∨
      ∃ d' ip' x, bmap sb d ip (NDIRECT + j) = .ok (d', ip', x) ∧
        Mapped sb start d i ip (NDIRECT + j) sz' d' ip' x := by
  have hcost : mapCost d ip (NDIRECT + j) = 1 + if ip.indirect = 0 then 1 else 0 := by
    rw [mapCost, if_pos hz]
    simp only [Nat.le_add_right, true_and]
  simp only [bmap, dif_neg (Nat.not_lt.mpr (Nat.le_add_right NDIRECT j)),
    Nat.add_sub_cancel_left, if_pos hj]
  rcases loadIndirect_spec hsb h with ⟨he, h0, hv⟩ | ⟨d₁, ip₁, he, hv, hm⟩
  · left
    rw [he, h0, hcost]
    exact ⟨rfl, by omega⟩
  rw [he, ok_bind]
  -- a new indirect block has no entries, and an old one has none for a missing block
  have hw : (d₁ ip₁.indirect).word j = 0 := by
    have hn : NDIRECT + j < MAXFILE := Nat.add_lt_add_left hj _
    have h1 := h.tidy.fits.exact _ hn
    have h2 := hm.mid.tidy.fits.exact _ hn
    rw [setNode_same] at h1 h2
    rw [ptrOf_entry, DiskInode.ptr_entry, if_neg hv] at h2
    by_contra hc
    exact h1.mpr (h2.mp hc) hz
  dsimp only
  rw [if_pos hw]
  rcases balloc_spec hsb hm.mid.metaSet with ⟨he, h0⟩ | ⟨d₂, x, he, ht, -, hsame⟩
  · left
    have := hm.cost
    rw [he, hcost]
    exact ⟨rfl, by omega⟩
  · right
    rw [he]
    obtain ⟨hm', hptr⟩ := moved_entry hsb hm.mid hv hj hw hle hlo hhi ht hsame
    refine ⟨_, ip₁, x, rfl, ?_, hptr, (ht.pos hsb).1, fun _ => hv, fun _ => hv, fun h' => ?_⟩
    · rw [hcost, Nat.add_comm]
      exact hm.trans hm'
    · omega

/-- At or before the end of a file, `bmap` finds the block or allocates it, and fails
only for want of free blocks. -/
theorem bmap_spec (hsb : sb.Ordered start) (h : Mid sb start d i ip sz) (hn : n < MAXFILE)
    (sz' : Nat) (hle : n * BSIZE ≤ sz) (hge : sz ≤ sz') (hlo : n * BSIZE < sz')
    (hhi : sz' ≤ max sz ((n + 1) * BSIZE)) :
    (bmap sb d ip n = .error .outOfBlocks ∧ nfree sb d < mapCost d ip n) ∨
      ∃ d' ip' x, bmap sb d ip n = .ok (d', ip', x) ∧
        Mapped sb start d i ip n sz' d' ip' x := by
  by_cases hz : ip.ptr d (ptrOf n) = 0
  · have hsz : ¬ n * BSIZE < sz := by
      intro hlt
      have := (h.tidy.fits.exact n hn).mpr hlt
      rw [setNode_same] at this
      exact this hz
    have hhi' : sz' ≤ (n + 1) * BSIZE := by
      have hsz : ¬ n * 512 < sz := hsz
      have hhi : sz' ≤ max sz ((n + 1) * 512) := hhi
      show sz' ≤ (n + 1) * 512
      omega
    by_cases hd : n < NDIRECT
    · exact bmap_direct hsb h hd hz hle hlo hhi'
    · obtain ⟨j, rfl⟩ : ∃ j, n = NDIRECT + j := ⟨n - NDIRECT, by omega⟩
      exact bmap_indirect hsb h (Nat.lt_of_add_lt_add_left hn) hz hle hlo hhi'
  · right
    have hv : NDIRECT ≤ n → ip.indirect ≠ 0 := by
      rintro hd h0
      obtain ⟨j, rfl⟩ : ∃ j, n = NDIRECT + j := ⟨n - NDIRECT, by omega⟩
      rw [ptrOf_entry, DiskInode.ptr_entry, if_pos h0] at hz
      exact hz rfl
    have hcost : mapCost d ip n = 0 := by
      rw [mapCost, if_neg hz, if_neg fun h' => hv h'.1 h'.2]
    exact ⟨d, ip, _, bmap_eq hn hz, hcost ▸ Moved.refl (h.within hn hz hge hhi), rfl, hz, hv,
      fun h' => h', fun _ => rfl⟩

end Xv6.Ref.Inodes
