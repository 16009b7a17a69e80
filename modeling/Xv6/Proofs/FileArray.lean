import Xv6.Proofs.FileBytes

/-!
# `readi` and `writei` on the disk

`BlockInv` is the invariant between operations: every block of the data area is free
or held by one place, and every file has exactly the blocks its size needs. In a
state that has it, the two functions do to the content of a file what they are for —
as long as `balloc` finds the blocks a write needs, for otherwise it panics.
-/

namespace Xv6.Ref.Inodes

open Xv6.Lib

variable {sb : Superblock} {start i sz : Nat} {d d' : Disk} {ip ip' : DiskInode}
  {src : List UInt8} {off n : BitVec 32}

structure BlockInv (sb : Superblock) (start : Nat) (d : Disk) : Prop where
  owned : Owned (ptrs (d.table sb) d) (clear sb start d) (data sb start)
  spans : ∀ i, Spans (d.table sb i) d (d.table sb i).size.toNat
  metaSet : MetaSet sb start d

theorem BlockInv.mid (h : BlockInv sb start d) (i : Nat) :
    Mid sb start d i (d.table sb i) (d.table sb i).size.toNat := by
  refine ⟨?_, h.metaSet⟩
  rw [setNode_self]
  exact ⟨h.owned, h.spans i, fun j _ => h.spans j⟩

theorem Mid.blockInv (h : Mid sb start d i (d.table sb i) (d.table sb i).size.toNat) :
    BlockInv sb start d := by
  have ht := h.tidy
  rw [setNode_self] at ht
  exact ⟨ht.owned, fun j => (ht.any j).fits, h.metaSet⟩

theorem table_eq (hi : i < sb.ninodes) (ht : (d.dinode sb i).type ≠ 0) :
    d.table sb i = d.dinode sb i := if_pos ⟨hi, ht⟩

section

variable (hsb : sb.Ordered start) (hi : i < sb.ninodes) (v : DiskInode)

include hsb hi

theorem setDinode_data {y : Nat} (hy : data sb start y) : d.setDinode sb i v y = d y :=
  Disk.setDinode_data hsb hi (Nat.lt_of_le_of_lt (Nat.zero_le _) hy.2) hy.1 v

/-- Writing an inode leaves the free map. -/
theorem clear_setDinode (y : Nat) :
    clear sb start (d.setDinode sb i v) y ↔ clear sb start d y := by
  simp only [clear, Disk.bit_setDinode hsb hi]

theorem nfree_setDinode : nfree sb (d.setDinode sb i v) = nfree sb d := by
  rw [nfree, nfree]
  congr 1
  refine Finset.filter_congr fun b _ => ?_
  rw [Disk.bit_setDinode hsb hi]

theorem metaSet_setDinode (h : MetaSet sb start d) : MetaSet sb start (d.setDinode sb i v) := by
  intro b hb hlt
  rw [Disk.bit_setDinode hsb hi]
  exact h b hb hlt

end

/-- `ip->size = off; iupdate(ip)`: the disk has caught up. -/
theorem Mid.close (hsb : sb.Ordered start) (h : Mid sb start d i ip sz) (hi : i < sb.ninodes)
    {v : DiskInode} (ht : v.type ≠ 0) (ha : v.addrs = ip.addrs) (hsz : v.size.toNat = sz) :
    BlockInv sb start (d.setDinode sb i v) := by
  have htab : (d.setDinode sb i v).table sb = setNode (d.table sb) i v :=
    Disk.table_setDinode hi ht
  refine Mid.blockInv (i := i) ⟨?_, metaSet_setDinode hsb hi v h.metaSet⟩
  rw [setNode_self, htab, setNode_same, hsz]
  refine h.tidy.congr (fun l k => ?_) (fun l hl => ?_) (clear_setDinode hsb hi v)
  · rw [← ptr_frame h.tidy.owned (d.setDinode sb i v)
      fun y hy _ => setDinode_data hsb hi v hy]
    by_cases hl : l = i
    · rw [hl, setNode_same, setNode_same]
      exact DiskInode.ptr_of_addrs ha k
    · rw [setNode_ne hl, setNode_ne hl]
  · rw [setNode_ne hl, setNode_ne hl]

/-- The bytes of a file do not change when an inode is written. -/
theorem byteAt_setDinode {T : Nat → DiskInode} {free : Nat → Prop} (hsb : sb.Ordered start)
    (ho : Owned (ptrs T d) free (data sb start)) (hi : i < sb.ninodes) (v : DiskInode)
    {j o : Nat} (hn : o / BSIZE < MAXFILE) (hne : (T j).ptr d (ptrOf (o / BSIZE)) ≠ 0) :
    (T j).byteAt (d.setDinode sb i v) o = (T j).byteAt d o := by
  have hl : ptrs T d (j, ptrOf (o / BSIZE)) = some ((T j).ptr d (ptrOf (o / BSIZE))) :=
    ptrs_some.mpr ⟨ptrOf_lt hn, hne, rfl⟩
  rw [DiskInode.byteAt, ptr_frame ho (d.setDinode sb i v)
    fun y hy _ => setDinode_data hsb hi v hy, setDinode_data hsb hi v (ho.held _ _ hl).1,
    DiskInode.byteAt]

theorem Spans.has (h : Spans ip d sz) {o : Nat} (ho : o < sz) :
    o / BSIZE < MAXFILE ∧ ip.ptr d (ptrOf (o / BSIZE)) ≠ 0 := by
  have hle : sz ≤ 71680 := h.le
  have hn : o / BSIZE < MAXFILE := by
    show o / 512 < 140
    omega
  exact ⟨hn, (h.exact _ hn).mpr (by show o / 512 * 512 < sz; omega)⟩

/-! ## `writei` -/

/-- The bytes `src` have been written to inode `i` at `off`. -/
structure Written (sb : Superblock) (start : Nat) (d : Disk) (i off : Nat) (src : List UInt8)
    (d' : Disk) (ip' : DiskInode) : Prop where
  block : BlockInv sb start d'
  inode : d'.dinode sb i = ip'
  same : ip' = { d.dinode sb i with size := ip'.size, addrs := ip'.addrs }
  size : ip'.size.toNat = max (d.dinode sb i).size.toNat (off + src.length)
  bytes : ∀ o < ip'.size.toNat, ip'.byteAt d' o =
    if off ≤ o ∧ o < off + src.length then src.getD (o - off) 0 else (d.dinode sb i).byteAt d o
  dinode : ∀ j < sb.ninodes, j ≠ i → d'.dinode sb j = d.dinode sb j
  others : ∀ j, j ≠ i → ∀ o < (d.table sb j).size.toNat,
    (d.table sb j).byteAt d' o = (d.table sb j).byteAt d o

/-- The loop, followed by `iupdate` if the file has grown. -/
theorem Wrote.written {c : Nat} (hsb : sb.Ordered start)
    (hi : i < sb.ninodes) (ht : (d.dinode sb i).type ≠ 0) {off : Nat}
    (hc : off + src.length ≤ (d.dinode sb i).size.toNat → c = 0)
    (hw : Wrote sb start d i (d.dinode sb i) (d.dinode sb i).size.toNat off src d' ip' c) :
    (off + src.length ≤ (d.dinode sb i).size.toNat →
        Written sb start d i off src d' ip') ∧
      ((d.dinode sb i).size.toNat < off + src.length →
        let v := { ip' with size := BitVec.ofNat 32 (off + src.length) }
        Written sb start d i off src (iupdate sb d' i v) v) := by
  have htab := table_eq (d := d) hi ht
  constructor
  · intro hle
    have hmax := max_eq_left hle
    obtain rfl := hw.still (hc hle)
    have hmid := hw.mid
    have hdin := hw.dinode i hi
    have htab' : d'.table sb i = d.dinode sb i := by rw [hw.table, htab]
    rw [hmax, ← htab'] at hmid
    refine ⟨hmid.blockInv, hdin, rfl, hmax.symm, fun o ho => hw.bytes o (by omega),
      fun j hj _ => hw.dinode j hj, hw.others⟩
  · intro hgt v
    have hmax := max_eq_right (Nat.le_of_lt hgt)
    have hmid := hw.mid
    rw [hmax] at hmid
    have hle : off + src.length ≤ 71680 := hmid.tidy.fits.le
    have hvsz : v.size.toNat = off + src.length := by
      rw [BitVec.toNat_ofNat]
      omega
    have hty : v.type ≠ 0 := by
      rw [show v.type = ip'.type from rfl, hw.file.type]
      exact ht
    have hblock := hmid.close hsb hi (v := v) hty rfl hvsz
    have hown := hmid.tidy.owned
    refine ⟨hblock, ?_, ?_, by rw [hvsz, hmax], fun o ho => ?_, fun j hj hne => ?_,
      fun j hj o ho => ?_⟩
    · rw [iupdate, Disk.dinode_setDinode, if_pos rfl]
    · show ({ ip' with size := BitVec.ofNat 32 (off + src.length) } : DiskInode) = _
      rw [hw.file]
    · rw [hvsz] at ho
      obtain ⟨hn, hne⟩ := hmid.ptr_ne ho
      have hb := byteAt_setDinode hsb hown hi v (j := i) (o := o) hn
        (by rw [setNode_same]; exact hne)
      rw [setNode_same] at hb
      rw [← hw.bytes o (by omega), ← hb]
      simp only [DiskInode.byteAt, iupdate]
      rw [DiskInode.ptr_of_addrs (show v.addrs = ip'.addrs from rfl)]
    · rw [iupdate, Disk.dinode_setDinode, if_neg (Ne.symm hne), hw.dinode j hj]
    · have hT : setNode (d'.table sb) i ip' j = d.table sb j := by
        rw [setNode_ne hj, hw.table]
      have hsp := hmid.tidy.others j hj
      rw [hT] at hsp
      obtain ⟨hn, hne⟩ := Spans.has hsp ho
      have hb := byteAt_setDinode hsb hown hi v (j := j) (o := o) hn (by rw [hT]; exact hne)
      rw [hT] at hb
      rw [iupdate, hb, hw.others j hj o ho]

/-- The indirect block stays as it is if it exists or is not needed. -/
theorem bmap_keeps_indirect {n x : Nat} (h : bmap sb d ip n = .ok (d', ip', x))
    (hn : n < NDIRECT ∨ ip.indirect ≠ 0) : ip'.indirect = ip.indirect := by
  unfold bmap at h
  by_cases hd : n < NDIRECT
  · rw [dif_pos hd] at h
    dsimp only at h
    split at h
    · obtain ⟨⟨d₁, addr⟩, -, h⟩ := bind_eq_ok.mp h
      cases h
      have hlast : Fin.last NDIRECT ≠ (⟨n, Nat.lt_succ_of_lt hd⟩ : Fin (NDIRECT + 1)) :=
        fun he => absurd (congrArg Fin.val he) (Nat.ne_of_gt hd)
      rw [DiskInode.indirect, DiskInode.setAddr]
      dsimp only
      rw [if_neg hlast, DiskInode.indirect]
    · cases h
      rfl
  · have hne : ¬ ip.addrs (Fin.last NDIRECT) = 0 :=
      fun h0 => (hn.resolve_left hd) (DiskInode.indirect_eq_zero.mpr h0)
    rw [dif_neg hd] at h
    split at h
    · obtain ⟨⟨d₁, ip₁⟩, hl, h⟩ := bind_eq_ok.mp h
      rw [loadIndirect, if_neg hne] at hl
      cases hl
      dsimp only at h
      split at h
      · obtain ⟨⟨d₂, addr⟩, -, h⟩ := bind_eq_ok.mp h
        cases h
        rfl
      · cases h
        rfl
    · cases h

theorem writeiLoop_indirect : ∀ (fuel : Nat) {d : Disk} {ip : DiskInode} {off e : Nat}
    (src : List UInt8), writeiLoop sb fuel d ip off src = .ok (d', ip', e) →
    off + src.length ≤ NDIRECT * BSIZE ∨ ip.indirect ≠ 0 → ip'.indirect = ip.indirect
  | 0, d, ip, off, e, src, h, _ => by
      cases h
      rfl
  | fuel + 1, d, ip, off, e, src, h, hn => by
      rw [writeiLoop] at h
      split at h
      · cases h
        rfl
      · next hne =>
          obtain ⟨⟨d₁, ip₁, x⟩, hb, h⟩ := bind_eq_ok.mp h
          dsimp only at h
          have hpos : 0 < src.length := List.length_pos_iff.mpr hne
          generalize hm : min src.length (BSIZE - off % BSIZE) = m at h
          have hmle : m ≤ src.length := by omega
          have hkept : ip₁.indirect = ip.indirect := by
            refine bmap_keeps_indirect hb (hn.imp (fun hle => ?_) id)
            have hle : off + src.length ≤ 6144 := hle
            show off / 512 < 12
            omega
          rw [← hkept]
          refine writeiLoop_indirect fuel (src.drop m) h (hn.imp (fun hle => ?_) fun h0 => ?_)
          · rw [List.length_drop]
            omega
          · rw [hkept]
            exact h0

/-- The write is inside the file or extends it, and ends at the largest size or
before. -/
def inRange (ip : DiskInode) (off : BitVec 32) (n : Nat) : Prop :=
  off.toNat ≤ ip.size.toNat ∧ off.toNat + n ≤ MAXFILE * BSIZE

theorem writei_inRange (devsw : Nat → Devsw) (hsb : sb.Ordered start)
    (h : BlockInv sb start d) (hi : i < sb.ninodes) (hip : d.dinode sb i = ip)
    (ht : ip.type ≠ 0) (hdev : ip.type ≠ T_DEV) (hr : inRange ip off src.length) :
    (writei sb devsw d i ip src off = .error .outOfBlocks ∧
        nfree sb d < need ip ip.size.toNat (off.toNat + src.length)) ∨
      ∃ d' ip', writei sb devsw d i ip src off = .ok (d', ip', some src.length) ∧
        nfree sb d' + need ip ip.size.toNat (off.toNat + src.length) = nfree sb d ∧
        (off.toNat + src.length ≤ NDIRECT * BSIZE ∨ ip.indirect ≠ 0 →
          ip'.indirect = ip.indirect) ∧
        Written sb start d i off.toNat src d' ip' := by
  obtain ⟨hoff, hend⟩ := hr
  have hend' : off.toNat + src.length ≤ 71680 := hend
  have hadd : (off + BitVec.ofNat 32 src.length).toNat = off.toNat + src.length := by
    rw [BitVec.toNat_add, BitVec.toNat_ofNat]
    omega
  have h1 : ¬ (off > ip.size ∨ off + BitVec.ofNat 32 src.length < off) := by
    rw [gt_iff_lt, BitVec.lt_def, BitVec.lt_def, hadd]
    omega
  have h2 : ¬ (off + BitVec.ofNat 32 src.length).toNat > MAXFILE * BSIZE := by
    rw [hadd]
    exact Nat.not_lt.mpr hend
  subst hip
  have hmid := h.mid i
  rw [table_eq hi ht] at hmid
  simp only [writei, if_neg hdev, if_neg h1, if_neg h2]
  rcases writeiLoop_spec hsb src.length src (Nat.le_refl _) hmid hoff hend
    with ⟨he, hlt⟩ | ⟨d', ip', he, hw⟩
  · left
    rw [he]
    exact ⟨rfl, hlt⟩
  · right
    have hcost := hw.cost
    have hind := writeiLoop_indirect src.length src he
    obtain ⟨hw1, hw2⟩ := hw.written hsb hi ht (need_nil hmid)
    rw [he, ok_bind]
    dsimp only
    rw [hw.file.size]
    by_cases hg : (d.dinode sb i).size.toNat < off.toNat + src.length
    · refine ⟨_, _, if_pos ⟨by omega, hg⟩, ?_, hind, hw2 hg⟩
      rw [iupdate, nfree_setDinode hsb hi]
      exact hcost
    · exact ⟨_, _, if_neg fun hn => hg hn.2, hcost, hind, hw1 (Nat.le_of_not_lt hg)⟩

theorem writei_notInRange (devsw : Nat → Devsw) (hdev : ip.type ≠ T_DEV)
    (hlen : src.length < 2 ^ 32) (hr : ¬ inRange ip off src.length) :
    writei sb devsw d i ip src off = .ok (d, ip, none) := by
  simp only [writei, if_neg hdev]
  by_cases h1 : off > ip.size ∨ off + BitVec.ofNat 32 src.length < off
  · rw [if_pos h1]
  · rw [if_neg h1, if_pos]
    rw [gt_iff_lt, BitVec.lt_def, BitVec.lt_def, not_or] at h1
    have hoff := off.isLt
    have hadd : (off + BitVec.ofNat 32 src.length).toNat = off.toNat + src.length := by
      have h1 := h1.2
      rw [BitVec.toNat_add, BitVec.toNat_ofNat] at h1 ⊢
      omega
    rw [hadd]
    by_contra hc
    exact hr ⟨by omega, Nat.le_of_not_lt hc⟩

/-! ## `readi` -/

/-- `off > ip->size || off + n < off`, where the sum overflows. -/
def badRead (ip : DiskInode) (off n : BitVec 32) : Prop :=
  ip.size.toNat < off.toNat ∨ 2 ^ 32 ≤ off.toNat + n.toNat

theorem badRead_iff : badRead ip off n ↔ off > ip.size ∨ off + n < off := by
  have h1 := off.isLt
  have h2 := n.isLt
  rw [badRead, gt_iff_lt, BitVec.lt_def, BitVec.lt_def, BitVec.toNat_add]
  omega

theorem content_slice (v : DiskInode) (d : Disk) (o k : Nat) (hle : o + k ≤ v.size.toNat) :
    ((v.content d).drop o).take k = (List.range k).map fun j => v.byteAt d (o + j) := by
  refine List.ext_getElem ?_ fun j h1 h2 => ?_
  · simp only [DiskInode.content, List.length_take, List.length_drop, List.length_map,
      List.length_range]
    omega
  · simp [DiskInode.content]

/-- The slice of the content, where the file has the blocks of the bytes that are read. -/
theorem readi_has (devsw : Nat → Devsw) (hdev : ip.type ≠ T_DEV)
    (h : ∀ o < sz, o / BSIZE < MAXFILE ∧ ip.ptr d (ptrOf (o / BSIZE)) ≠ 0)
    (hb : ¬ badRead ip off n) (hsz : min (off.toNat + n.toNat) ip.size.toNat ≤ sz) :
    readi sb devsw d ip off n =
      .ok (d, ip, some (((ip.content d).drop off.toNat).take n.toNat)) := by
  have hb' := hb
  rw [badRead_iff] at hb'
  simp only [badRead, not_or, not_lt, not_le] at hb
  rw [readi, if_neg hdev, if_neg hb']
  have hadd : (off + n).toNat = off.toNat + n.toNat := by
    rw [BitVec.toNat_add]
    omega
  -- the count is cut at the end of the file, and so is the slice
  obtain ⟨k, hk, hke, hslice⟩ : ∃ k, (if off + n > ip.size then ip.size - off else n).toNat = k ∧
      off.toNat + k = min (off.toNat + n.toNat) ip.size.toNat ∧
      ((ip.content d).drop off.toNat).take n.toNat = ((ip.content d).drop off.toNat).take k := by
    by_cases hgt : off + n > ip.size
    · have hgt' := hgt
      rw [gt_iff_lt, BitVec.lt_def, hadd] at hgt'
      refine ⟨ip.size.toNat - off.toNat, ?_, by omega, ?_⟩
      · rw [if_pos hgt, BitVec.toNat_sub_of_le (BitVec.le_def.mpr hb.1)]
      · have hlen : ((ip.content d).drop off.toNat).length = ip.size.toNat - off.toNat := by
          simp [DiskInode.content]
        rw [List.take_of_length_le (by omega), List.take_of_length_le (by omega)]
    · refine ⟨n.toNat, by rw [if_neg hgt], ?_, rfl⟩
      rw [gt_iff_lt, BitVec.lt_def, hadd] at hgt
      omega
  rw [hslice, content_slice ip d _ _ (by omega)]
  simp only [hk]
  rw [readiLoop_has h k off.toNat k [] (Nat.le_refl _) (by omega)]
  rfl

/-- The slice of the content, or `-1`; nothing changes. -/
theorem readi_eq (devsw : Nat → Devsw) (h : BlockInv sb start d) (hi : i < sb.ninodes)
    (hip : d.dinode sb i = ip) (ht : ip.type ≠ 0) (hdev : ip.type ≠ T_DEV)
    (off n : BitVec 32) :
    (badRead ip off n → readi sb devsw d ip off n = .ok (d, ip, none)) ∧
      (¬ badRead ip off n → readi sb devsw d ip off n =
        .ok (d, ip, some (((ip.content d).drop off.toNat).take n.toNat))) := by
  refine ⟨fun hb => ?_, fun hb => ?_⟩
  · rw [readi, if_neg hdev, if_pos (badRead_iff.mp hb)]
  · have hmid := h.mid i
    rw [table_eq hi (hip ▸ ht), hip] at hmid
    exact readi_has devsw hdev (fun _ ho => hmid.ptr_ne ho) hb (Nat.min_le_right _ _)

/-! ## The two together -/

theorem Written.content {off : Nat} (h : Written sb start d i off src d' ip')
    (hoff : off ≤ (d.dinode sb i).size.toNat) :
    ip'.content d' = ((d.dinode sb i).content d).take off ++ src ++
      ((d.dinode sb i).content d).drop (off + src.length) := by
  have hlen : ((d.dinode sb i).content d).length = (d.dinode sb i).size.toNat := by
    simp [DiskInode.content]
  have hsz := h.size
  refine List.ext_getElem ?_ fun o h1 h2 => ?_
  · simp only [List.length_append, List.length_take, List.length_drop, hlen]
    simp only [DiskInode.content, List.length_map, List.length_range]
    omega
  · have ho : o < ip'.size.toNat := by
      simpa [DiskInode.content] using h1
    have hget : (ip'.content d')[o] = ip'.byteAt d' o := by simp [DiskInode.content]
    rw [hget, h.bytes o ho]
    by_cases ha : o < off
    · rw [if_neg (by omega), List.getElem_append_left (by simp; omega),
        List.getElem_append_left (by simp; omega)]
      simp [DiskInode.content]
    · by_cases hb : o < off + src.length
      · have hpre : (((d.dinode sb i).content d).take off).length = off := by
          rw [List.length_take]
          omega
        rw [if_pos ⟨by omega, hb⟩, List.getElem_append_left (by rw [List.length_append]; omega),
          List.getElem_append_right (by omega)]
        simp only [hpre]
        rw [List.getD_eq_getElem _ _ (by omega)]
      · have hpre : (((d.dinode sb i).content d).take off ++ src).length = off + src.length := by
          rw [List.length_append, List.length_take]
          omega
        rw [if_neg (by omega), List.getElem_append_right (by omega)]
        simp only [hpre, List.getElem_drop]
        simp only [DiskInode.content, List.getElem_map, List.getElem_range]
        congr 1
        omega

/-- A regular inode is an array of bytes. -/
theorem file_is_byte_array (devsw : Nat → Devsw) (hsb : sb.Ordered start)
    (h : BlockInv sb start d) (hi : i < sb.ninodes) (hip : d.dinode sb i = ip)
    (ht : ip.type = T_FILE) :
    (∀ (src : List UInt8) (off : BitVec 32), src.length < 2 ^ 32 →
      (inRange ip off src.length →
        need ip ip.size.toNat (off.toNat + src.length) ≤ nfree sb d →
        ∃ d' ip', writei sb devsw d i ip src off = .ok (d', ip', some src.length) ∧
          BlockInv sb start d' ∧ d'.dinode sb i = ip' ∧
          ip'.content d' = (ip.content d).take off.toNat ++ src ++
            (ip.content d).drop (off.toNat + src.length) ∧
          ip'.size.toNat = max ip.size.toNat (off.toNat + src.length) ∧
          ip' = { ip with size := ip'.size, addrs := ip'.addrs } ∧
          ∀ j < sb.ninodes, j ≠ i → d'.dinode sb j = d.dinode sb j ∧
            ((d.dinode sb j).type ≠ 0 →
              (d.dinode sb j).content d' = (d.dinode sb j).content d)) ∧
      (inRange ip off src.length →
        nfree sb d < need ip ip.size.toNat (off.toNat + src.length) →
        writei sb devsw d i ip src off = .error .outOfBlocks) ∧
      (¬ inRange ip off src.length → writei sb devsw d i ip src off = .ok (d, ip, none))) ∧
    ∀ off n : BitVec 32,
      (badRead ip off n → readi sb devsw d ip off n = .ok (d, ip, none)) ∧
      (¬ badRead ip off n → readi sb devsw d ip off n =
        .ok (d, ip, some (((ip.content d).drop off.toNat).take n.toNat))) := by
  have h0 : ip.type ≠ 0 := by rw [ht]; decide
  have hdev : ip.type ≠ T_DEV := by rw [ht]; decide
  refine ⟨fun src off hlen => ⟨fun hr hfree => ?_, fun hr hfull => ?_, fun hr => ?_⟩,
    readi_eq devsw h hi hip h0 hdev⟩
  · rcases writei_inRange devsw hsb h hi hip h0 hdev hr
      with ⟨-, hlt⟩ | ⟨d', ip', he, -, -, hw⟩
    · omega
    · subst hip
      refine ⟨d', ip', he, hw.block, hw.inode, hw.content hr.1, hw.size, hw.same,
        fun j hj hne => ⟨hw.dinode j hj hne, fun htj => ?_⟩⟩
      have hbytes := hw.others j hne
      rw [table_eq hj htj] at hbytes
      exact List.map_congr_left fun o ho => hbytes o (List.mem_range.mp ho)
  · rcases writei_inRange devsw hsb h hi hip h0 hdev hr
      with ⟨he, -⟩ | ⟨d', ip', -, hle, -, -⟩
    · exact he
    · omega
  · exact writei_notInRange devsw hdev hlen hr

/-! A disk with four blocks of metadata and a file that has the first data block. -/

/-- A disk of `size` blocks. -/
def tinySb (size : Nat) : Superblock := ⟨size, size - 4, 8, 0, 2, 2, 3⟩

def tinyInode : DiskInode :=
  { DiskInode.zero with type := T_FILE, nlink := 1, size := 512 }.setAddr 0 4

def tinyDisk (size : Nat) : Disk :=
  (List.range 5).foldl (fun d b => d.setBit (tinySb size) b)
    (Disk.setDinode (fun _ => zeroBlock) (tinySb size) 1 tinyInode)

theorem tinySb_ordered (size : Nat) (hs : size ≤ BPB) : (tinySb size).Ordered 4 := by
  have hs : size ≤ 4096 := hs
  refine ⟨fun i hi => ?_, fun n hn => ?_, ?_⟩
  · have hi : i < 8 := hi
    show i / 8 + 2 < 3
    omega
  · have hn : n < size := hn
    show n / 4096 + 3 < 4
    omega
  · show size < 2147483648
    omega

/-- A disk of `size` blocks on which inode 1 is `v` and the first data block is `b`. -/
def oneFileDisk (size : Nat) (v : DiskInode) (b : Block) : Disk :=
  (List.range 5).foldl (fun d b => d.setBit (tinySb size) b)
    (Disk.setDinode (Disk.set (fun _ => zeroBlock) 4 b) (tinySb size) 1 v)

section

variable {size : Nat} {v : DiskInode} {b : Block}

theorem oneFileDisk_bit (hs : size ≤ BPB) {n : Nat} (hn : n < size) :
    (oneFileDisk size v b).bit (tinySb size) n = decide (n < 5) := by
  have hsb := tinySb_ordered size hs
  have h0 : (Disk.setDinode (Disk.set (fun _ => zeroBlock) 4 b) (tinySb size) 1 v).bit
      (tinySb size) n = false := by
    rw [Disk.bit_setDinode hsb (show 1 < 8 by decide), Disk.bit_set hsb (Nat.le_refl 4) hn]
    exact zeroBlock_bit _
  simp only [oneFileDisk, show List.range 5 = [0, 1, 2, 3, 4] from rfl, List.foldl_cons,
    List.foldl_nil, Disk.bit_setBit, h0]
  rw [Bool.eq_iff_iff, decide_eq_true_iff]
  repeat' split
  all_goals simp only [true_iff, Bool.false_eq_true, false_iff]; omega

theorem oneFileDisk_dinode (hlo : 5 ≤ size) (hs : size ≤ BPB) {j : Nat} (hj : j < 8) :
    (oneFileDisk size v b).dinode (tinySb size) j = if 1 = j then v else DiskInode.zero := by
  have hsb := tinySb_ordered size hs
  have hj : j < (tinySb size).ninodes := hj
  simp only [oneFileDisk, show List.range 5 = [0, 1, 2, 3, 4] from rfl, List.foldl_cons,
    List.foldl_nil, Disk.dinode_setBit hsb hj, Disk.dinode_setDinode]
  split
  · rfl
  · rw [Disk.dinode_set hsb (Nat.le_refl 4) (show 0 < size by omega) hj]
    exact zeroBlock_dinode _

theorem oneFileDisk_table (hlo : 5 ≤ size) (hs : size ≤ BPB) (ht : v.type ≠ 0) (j : Nat) :
    (oneFileDisk size v b).table (tinySb size) j = if 1 = j then v else DiskInode.zero := by
  simp only [Disk.table]
  by_cases hj : j < 8
  · rw [oneFileDisk_dinode hlo hs hj]
    by_cases h1 : 1 = j
    · rw [if_pos h1, if_pos ⟨hj, ht⟩]
    · rw [if_neg h1, ite_self]
  · rw [if_neg fun h' => hj h'.1, if_neg (by omega)]

theorem oneFileDisk_ptrs (hlo : 5 ≤ size) (hs : size ≤ BPB) (ht : v.type ≠ 0)
    (hv : ∀ d k, v.ptr d k = if k = 0 then 4 else 0) (l : Place) :
    ptrs ((oneFileDisk size v b).table (tinySb size)) (oneFileDisk size v b) l =
      if l = (1, 0) then some 4 else none := by
  by_cases hl : l = (1, 0)
  · subst hl
    rw [if_pos rfl]
    refine ptrs_some.mpr ⟨by decide, by decide, ?_⟩
    rw [oneFileDisk_table hlo hs ht, if_pos rfl, hv, if_pos rfl]
  · rw [if_neg hl]
    refine ptrs_none ?_
    rw [oneFileDisk_table hlo hs ht]
    split
    · next h1 =>
        rw [hv, if_neg fun h0 => hl (Prod.ext h1.symm h0)]
    · exact DiskInode.zero_ptr _ _

/-- The disk is in order when the file has one block. -/
theorem oneFileDisk_blockInv (hlo : 5 ≤ size) (hs : size ≤ BPB) (ht : v.type ≠ 0)
    (hv : ∀ d k, v.ptr d k = if k = 0 then 4 else 0) (hpos : 0 < v.size.toNat)
    (hle : v.size.toNat ≤ BSIZE) : BlockInv (tinySb size) 4 (oneFileDisk size v b) := by
  have hsome : ∀ l x, ptrs ((oneFileDisk size v b).table (tinySb size)) (oneFileDisk size v b) l =
      some x → l = (1, 0) ∧ x = 4 := by
    intro l x hl
    rw [oneFileDisk_ptrs hlo hs ht hv] at hl
    split at hl
    · next h1 => exact ⟨h1, (Option.some.inj hl).symm⟩
    · cases hl
  refine ⟨⟨fun l l' r h1 h2 => ?_, fun l r hl => ?_, fun r hr => hr.1, fun r hr hn => ?_⟩,
    fun i => ?_, fun n hn hlt => ?_⟩
  · rw [(hsome l r h1).1, (hsome l' r h2).1]
  · obtain ⟨-, rfl⟩ := hsome l r hl
    refine ⟨⟨Nat.le_refl _, hlo⟩, fun hc => ?_⟩
    have := hc.2
    rw [oneFileDisk_bit hs hlo] at this
    cases this
  · refine ⟨(1, 0), ?_⟩
    have h4 : r = 4 := by
      by_contra hne
      refine hn ⟨hr, ?_⟩
      rw [oneFileDisk_bit hs hr.2, decide_eq_false_iff_not]
      have := hr.1
      omega
    rw [oneFileDisk_ptrs hlo hs ht hv, if_pos rfl, h4]
  · rw [oneFileDisk_table hlo hs ht]
    have hle : v.size.toNat ≤ 512 := hle
    split
    · refine ⟨Nat.le_trans hle (by decide), fun n hn => ?_⟩
      rw [hv]
      show (if ptrOf n = 0 then 4 else 0) ≠ 0 ↔ n * 512 < v.size.toNat
      by_cases h0 : n = 0
      · subst h0
        rw [Nat.zero_mul]
        exact iff_of_true (by decide) hpos
      · have hne : ptrOf n ≠ 0 := fun h' => h0 (ptrOf_inj (m := 0) h')
        rw [if_neg hne]
        omega
    · exact Spans.zero (DiskInode.zero_ptr _)
  · rw [oneFileDisk_bit hs hlt, decide_eq_true_iff]
    omega

end

theorem tinyDisk_eq (size : Nat) : tinyDisk size = oneFileDisk size tinyInode zeroBlock := by
  have hzero : (Disk.set (fun _ => zeroBlock) 4 zeroBlock : Disk) = fun _ => zeroBlock := by
    funext n
    rw [Disk.set, ite_self]
  rw [oneFileDisk, hzero]
  rfl

theorem tinyDisk_bit {size b : Nat} (hs : size ≤ BPB) (hb : b < size) :
    (tinyDisk size).bit (tinySb size) b = decide (b < 5) := by
  rw [tinyDisk_eq]
  exact oneFileDisk_bit hs hb

theorem tinyDisk_dinode (size : Nat) {j : Nat} (hlo : 5 ≤ size) (hs : size ≤ BPB) (hj : j < 8) :
    (tinyDisk size).dinode (tinySb size) j = if 1 = j then tinyInode else DiskInode.zero := by
  rw [tinyDisk_eq]
  exact oneFileDisk_dinode hlo hs hj

/-- An inode whose one block is the first data block. -/
theorem ptr_first {v : DiskInode} (hv : v.addrs = fun _ => 0) (d : Disk) (k : Nat) :
    (v.setAddr 0 4).ptr d k = if k = 0 then 4 else 0 := by
  rw [DiskInode.ptr_setAddr (by decide) (by rw [hv]) (fun h => absurd h (by decide))]
  show (if k = 0 then 4 else _) = _
  by_cases hk : k = 0
  · rw [if_pos hk, if_pos hk]
  · rw [if_neg hk, if_neg hk, ← DiskInode.zero_ptr d k]
    exact DiskInode.ptr_of_addrs hv k

theorem tinyDisk_blockInv (size : Nat) (hlo : 5 ≤ size) (hs : size ≤ BPB) :
    BlockInv (tinySb size) 4 (tinyDisk size) := by
  rw [tinyDisk_eq]
  exact oneFileDisk_blockInv hlo hs (by decide) (ptr_first rfl) (by decide) (by decide)

theorem tinyDisk_nfree {size : Nat} (hs : size ≤ BPB) :
    nfree (tinySb size) (tinyDisk size) = size - 5 := by
  have hf : (Finset.range size).filter (fun b => (tinyDisk size).bit (tinySb size) b = false) =
      Finset.Ico 5 size := by
    ext b
    rw [Finset.mem_filter, Finset.mem_range, Finset.mem_Ico]
    constructor
    · rintro ⟨hb, hbit⟩
      rw [tinyDisk_bit hs hb, decide_eq_false_iff_not] at hbit
      omega
    · rintro ⟨hge, hb⟩
      refine ⟨hb, ?_⟩
      rw [tinyDisk_bit hs hb, decide_eq_false_iff_not]
      omega
  show ((Finset.range size).filter _).card = _
  rw [hf, Nat.card_Ico]

/-- With a free block the file grows into it. -/
theorem file_is_byte_array_tiny : ∃ d' ip',
    writei (tinySb 6) (fun _ => ⟨none, none⟩) (tinyDisk 6) 1 tinyInode [7] 512 =
      .ok (d', ip', some 1) ∧ ip'.size.toNat = 513 := by
  have hbyte := file_is_byte_array (fun _ => ⟨none, none⟩) (tinySb_ordered 6 (by decide))
    (tinyDisk_blockInv 6 (by decide) (by decide)) (i := 1) (by decide)
    (tinyDisk_dinode 6 (by decide) (by decide) (by decide)) rfl
  obtain ⟨d', ip', he, -, -, -, hsz, -⟩ := (hbyte.1 [7] 512 (by decide)).1
    ⟨by decide, by decide⟩ (by rw [tinyDisk_nfree (by decide)]; decide)
  exact ⟨d', ip', he, hsz⟩

/-- Without one, `writei` panics although offset and count are in range. -/
theorem writei_out_of_blocks :
    BlockInv (tinySb 5) 4 (tinyDisk 5) ∧ (tinySb 5).Ordered 4 ∧
      (tinyDisk 5).dinode (tinySb 5) 1 = tinyInode ∧ tinyInode.type = T_FILE ∧
      inRange tinyInode 512 [(7 : UInt8)].length ∧
      writei (tinySb 5) (fun _ => ⟨none, none⟩) (tinyDisk 5) 1 tinyInode [7] 512 =
        .error .outOfBlocks := by
  have hinv := tinyDisk_blockInv 5 (by decide) (by decide)
  have hsb := tinySb_ordered 5 (by decide)
  have hd : (tinyDisk 5).dinode (tinySb 5) 1 = tinyInode :=
    tinyDisk_dinode 5 (by decide) (by decide) (by decide)
  have hr : inRange tinyInode 512 [(7 : UInt8)].length := ⟨by decide, by decide⟩
  refine ⟨hinv, hsb, hd, rfl, hr, ?_⟩
  rcases writei_inRange (fun _ => ⟨none, none⟩) hsb hinv (by decide) hd (by decide)
    (by decide) hr with ⟨he, -⟩ | ⟨d', ip', -, hle, -, -⟩
  · exact he
  · rw [tinyDisk_nfree (by decide)] at hle
    have hneed : need tinyInode tinyInode.size.toNat
        ((512 : BitVec 32).toNat + [(7 : UInt8)].length) = 1 := by decide
    rw [hneed] at hle
    exact absurd hle (Nat.succ_ne_zero _)

end Xv6.Ref.Inodes
