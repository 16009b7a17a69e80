import Xv6.Ref.Mkfs
import Xv6.Proofs.Pointers

/-!
# `iappend` keeps the image tidy

While a file grows, its inode is in memory and the image lags behind it. `Part` is
the invariant of the loop: with the inode in memory in place of the one on the
image, the blocks up to `freeblock` are partitioned and the file has exactly the
blocks of its first `sz` bytes. Every round enters the next block, if the last is
full, and writes data into a block of the file; none touches the first `nmeta`
blocks.
-/

namespace Xv6.Ref.Mkfs

open Xv6.Lib

variable {s s' : Image} {i n x sz sz' : Nat} {din din' : DiskInode}

theorem sector_eq (h : x ≤ FSSIZE) : sector x = x := by
  have h : x ≤ 1000 := h
  show x * 512 % 4294967296 / 512 = x
  omega

theorem rsect_some {b : Block} (hx : x ≤ FSSIZE) (hlen : s.len = FSSIZE)
    (h : rsect s x = some b) : x < FSSIZE ∧ b = s.disk x := by
  simp only [rsect, sector_eq hx, hlen] at h
  split at h
  · next hlt => exact ⟨hlt, (Option.some.inj h).symm⟩
  · cases h

theorem rsect_eq (hx : x < FSSIZE) (hlen : s.len = FSSIZE) :
    rsect s x = some (s.disk x) := by
  rw [rsect, sector_eq (Nat.le_of_lt hx), hlen, if_pos hx]

/-- `wsect` inside the image. -/
def Image.put (s : Image) (x : Nat) (b : Block) : Image :=
  { s with disk := s.disk.set x b }

@[simp] theorem put_disk (s : Image) (x : Nat) (b : Block) :
    (s.put x b).disk = s.disk.set x b := rfl

theorem wsect_eq (hx : x < FSSIZE) (hlen : s.len = FSSIZE) (b : Block) :
    wsect s x b = s.put x b := by
  have hm : max s.len (x + 1) = s.len := max_eq_left (by rw [hlen]; exact hx)
  rw [wsect, sector_eq (Nat.le_of_lt hx), hm, Image.put]

/-- The number of inodes that the inode blocks have room for. -/
abbrev nslots : Nat := 208

theorem iblock_lt_bmapstart {j : Nat} (hj : j < nslots) : sb.iblock j < sb.bmapstart := by
  show j / 8 + 32 < 58
  have : j < 208 := hj
  omega

theorem iblock_lt {j : Nat} (hj : j < nslots) : sb.iblock j < nmeta :=
  Nat.lt_trans (iblock_lt_bmapstart hj) (by decide)

theorem winode_eq (hlen : s.len = FSSIZE) (hi : i < nslots) (v : DiskInode) :
    winode s i v = some { s with disk := s.disk.setDinode sb i v } := by
  have hlt : sb.iblock i < FSSIZE := Nat.lt_trans (iblock_lt hi) (by decide)
  simp only [winode, rsect_eq hlt hlen, wsect_eq hlt hlen]
  rfl

theorem rinode_eq (hlen : s.len = FSSIZE) (hi : i < nslots) :
    rinode s i = some (s.disk.dinode sb i) := by
  have hlt : sb.iblock i < FSSIZE := Nat.lt_trans (iblock_lt hi) (by decide)
  simp only [rinode, rsect_eq hlt hlen]
  rfl

/-! ## The invariant -/

/-- The data area. -/
abbrev data (b : Nat) : Prop := nmeta ≤ b ∧ b < FSSIZE

/-- The blocks not handed out. -/
abbrev Image.unused (s : Image) (b : Nat) : Prop := s.freeblock ≤ b ∧ b < FSSIZE

/-- Inode `i` is in memory as `din` and its file has the blocks of `sz` bytes. -/
structure Part (s : Image) (i : Nat) (din : DiskInode) (sz : Nat) : Prop where
  tidy : Tidy (setNode (s.disk.table sb) i din) s.disk s.unused data i sz
  len : s.len = FSSIZE
  lo : nmeta ≤ s.freeblock
  hi : s.freeblock ≤ FSSIZE
  blank : ∀ b, s.freeblock ≤ b → s.disk b = zeroBlock

theorem nextBlock_snd (s : Image) : (nextBlock s).2 = s.freeblock := rfl

/-- What files do to the image: nothing, below the data. -/
structure SameMeta (s s' : Image) : Prop where
  low : ∀ b < nmeta, s'.disk b = s.disk b
  freeinode : s'.freeinode = s.freeinode

theorem SameMeta.refl (s : Image) : SameMeta s s := ⟨fun _ _ => rfl, rfl⟩

theorem SameMeta.next (s : Image) : SameMeta s (nextBlock s).1 := ⟨fun _ _ => rfl, rfl⟩

theorem SameMeta.trans {s'' : Image} (h : SameMeta s s') (h' : SameMeta s' s'') :
    SameMeta s s'' :=
  ⟨fun b hb => (h'.low b hb).trans (h.low b hb), h'.freeinode.trans h.freeinode⟩

theorem dinode_of_low (h : ∀ b < nmeta, s'.disk b = s.disk b) {j : Nat} (hj : j < nslots) :
    s'.disk.dinode sb j = s.disk.dinode sb j := by
  rw [Disk.dinode, h _ (iblock_lt hj), Disk.dinode]

theorem SameMeta.table (h : SameMeta s s') : s'.disk.table sb = s.disk.table sb :=
  Disk.table_congr fun _ hj => dinode_of_low h.low (Nat.lt_trans hj (by decide))

theorem SameMeta.set (hx : nmeta ≤ x) (b : Block) :
    SameMeta s (s.put x b) :=
  ⟨fun c hc => Disk.set_ne (by omega), rfl⟩

theorem unused_succ (s : Image) (y : Nat) :
    (s.freeblock + 1 ≤ y ∧ y < FSSIZE) ↔ s.unused y ∧ y ≠ s.freeblock := by
  simp only [Image.unused]
  omega

section

variable (h : Part s i din sz)

include h

/-- What a place holds lies between the metadata and `freeblock`. -/
theorem Part.held {l : Place} (hl : ptrs (setNode (s.disk.table sb) i din) s.disk l = some x) :
    nmeta ≤ x ∧ x < s.freeblock ∧ x < FSSIZE := by
  obtain ⟨⟨h1, h2⟩, hf⟩ := h.tidy.owned.held l x hl
  simp only [Image.unused, not_and] at hf
  have := h.hi
  exact ⟨h1, by omega, h2⟩

/-- `din.addrs[fbn] = freeblock++`. -/
theorem Part.direct (hlt : s.freeblock < FSSIZE) (hn : n < NDIRECT)
    (hz : din.addrs ⟨n, Nat.lt_succ_of_lt hn⟩ = 0) (hle : n * BSIZE ≤ sz)
    (hlo : n * BSIZE < sz') (hhi : sz' ≤ (n + 1) * BSIZE) :
    Part (nextBlock s).1 i (din.setAddr ⟨n, Nat.lt_succ_of_lt hn⟩ s.freeblock) sz' := by
  have hpos : s.freeblock ≠ 0 := fun h0 => absurd h.lo (by rw [h0]; decide)
  have hsmall : s.freeblock < 2 ^ 32 := Nat.lt_trans hlt (by decide)
  have hmax : n < MAXFILE := Nat.lt_of_lt_of_le hn (by decide)
  have hne : (⟨n, Nat.lt_succ_of_lt hn⟩ : Fin (NDIRECT + 1)) ≠ Fin.last NDIRECT :=
    fun he => absurd (congrArg Fin.val he) (Nat.ne_of_lt hn)
  have hent := entered_addr i s.disk (k := ⟨n, Nat.lt_succ_of_lt hn⟩)
    h.tidy.owned hsmall (by rw [setNode_same]; exact hz) (fun he => absurd he hne)
    fun _ _ _ => rfl
  rw [setNode_same, setNode_setNode] at hent
  refine ⟨?_, h.len, Nat.le_succ_of_le h.lo, hlt, fun b hb => h.blank b (Nat.le_of_lt hb)⟩
  refine h.tidy.grow (x := s.freeblock) (n := n) ?_ ?_ ⟨Nat.le_refl _, hlt⟩ hpos
    (unused_succ s) hmax hle ?_ hlo hhi
  · rw [ptrOf_direct hn]
    exact hent
  · intro j hj
    rw [setNode_ne hj, setNode_ne hj]
    rfl
  · rw [ptrOf_direct hn, setNode_same,
      DiskInode.ptr_addr din s.disk ⟨n, Nat.lt_succ_of_lt hn⟩, hz]
    rfl

/-- `din.addrs[NDIRECT] = freeblock++`. -/
theorem Part.indirect (hlt : s.freeblock < FSSIZE) (hz : din.addrs (Fin.last NDIRECT) = 0) :
    Part (nextBlock s).1 i (din.setAddr (Fin.last NDIRECT) s.freeblock) sz := by
  have hpos : s.freeblock ≠ 0 := fun h0 => absurd h.lo (by rw [h0]; decide)
  have hsmall : s.freeblock < 2 ^ 32 := Nat.lt_trans hlt (by decide)
  have hent := entered_addr i s.disk (k := Fin.last NDIRECT)
    h.tidy.owned hsmall (by rw [setNode_same]; exact hz)
    (fun _ => h.blank _ (Nat.le_refl _)) fun _ _ _ => rfl
  rw [setNode_same, setNode_setNode] at hent
  refine ⟨?_, h.len, Nat.le_succ_of_le h.lo, hlt, fun b hb => h.blank b (Nat.le_of_lt hb)⟩
  refine h.tidy.indirect (x := s.freeblock) hent ?_ ⟨Nat.le_refl _, hlt⟩ hpos
    (unused_succ s) ?_
  · intro j hj
    rw [setNode_ne hj, setNode_ne hj]
    rfl
  · rw [setNode_same]
    exact DiskInode.indirect_eq_zero.mpr hz

theorem Part.indirect_range (hv : din.indirect ≠ 0) :
    nmeta ≤ din.indirect ∧ din.indirect < s.freeblock ∧ din.indirect < FSSIZE := by
  refine h.held (l := (i, NDIRECT)) ?_
  have := ptrs_indirect (T := setNode (s.disk.table sb) i din) (d := s.disk) (j := i)
    (by rw [setNode_same]; exact hv)
  rw [this, setNode_same]

/-- Writing data into a block of the file, or an entry into its indirect block,
leaves the metadata and the blocks not handed out. -/
theorem Part.frame_set (hlo : nmeta ≤ x) (hx : x < s.freeblock) (b : Block) :
    (∀ c, s.freeblock ≤ c → s.disk.set x b c = zeroBlock) ∧
      (s.disk.set x b).table sb = s.disk.table sb :=
  ⟨fun c hc => (Disk.set_ne (by omega)).trans (h.blank c hc),
    (SameMeta.set hlo b : SameMeta s (s.put x b)).table⟩

/-- `indirect[fbn - NDIRECT] = freeblock++`. -/
theorem Part.entry {j : Nat} (hlt : s.freeblock < FSSIZE) (hj : j < NINDIRECT)
    (hv : din.indirect ≠ 0) (hw : (s.disk din.indirect).word j = 0)
    (hle : (NDIRECT + j) * BSIZE ≤ sz) (hlo : (NDIRECT + j) * BSIZE < sz')
    (hhi : sz' ≤ (NDIRECT + j + 1) * BSIZE) :
    Part (((nextBlock s).1).put din.indirect ((s.disk din.indirect).setWord j s.freeblock))
      i din sz' := by
  have hpos : s.freeblock ≠ 0 := fun h0 => absurd h.lo (by rw [h0]; decide)
  have hsmall : s.freeblock < 2 ^ 32 := Nat.lt_trans hlt (by decide)
  have hmax : NDIRECT + j < MAXFILE := Nat.add_lt_add_left hj _
  obtain ⟨hlo', hlt', -⟩ := h.indirect_range hv
  obtain ⟨hblank, htab⟩ := h.frame_set hlo' hlt' ((s.disk din.indirect).setWord j s.freeblock)
  have hent := entered_entry i s.disk h.tidy.owned hsmall hj
    (by rw [setNode_same]; exact hv) fun _ _ _ => rfl
  rw [setNode_same] at hent
  refine ⟨?_, h.len, Nat.le_succ_of_le h.lo, hlt, fun b hb => hblank b (Nat.le_of_lt hb)⟩
  show Tidy (setNode ((s.disk.set _ _).table sb) i din) _ _ _ _ _
  rw [htab]
  refine h.tidy.grow (x := s.freeblock) (n := NDIRECT + j) ?_ (fun _ _ => rfl)
    ⟨Nat.le_refl _, hlt⟩ hpos (unused_succ s) hmax hle ?_ hlo hhi
  · rw [ptrOf_entry]
    exact hent
  · rw [ptrOf_entry, setNode_same, DiskInode.ptr_entry, hw, ite_self]

/-- Data is written into block `n` of the file. -/
theorem Part.write (hn : n < MAXFILE) (hx : din.ptr s.disk (ptrOf n) = x) (h0 : x ≠ 0)
    (b : Block) :
    Part (s.put x b) i din sz ∧
      SameMeta s (s.put x b) := by
  have hl : ptrs (setNode (s.disk.table sb) i din) s.disk (i, ptrOf n) = some x :=
    ptrs_some.mpr ⟨ptrOf_lt hn, h0, by rw [setNode_same]; exact hx⟩
  obtain ⟨hlo, hlt, -⟩ := h.held hl
  obtain ⟨hblank, htab⟩ := h.frame_set hlo hlt b
  refine ⟨⟨?_, h.len, h.lo, h.hi, hblank⟩, SameMeta.set hlo b⟩
  show Tidy (setNode ((s.disk.set x b).table sb) i din) _ _ _ _ _
  rw [htab]
  exact h.tidy.write hl (ptrOf_ne n) b

end

/-! ## The loop -/

/-- What holds once the block `x` for file block `n` is found. -/
structure Found (s : Image) (i : Nat) (din : DiskInode) (n sz : Nat) (s' : Image)
    (din' : DiskInode) (x : Nat) : Prop where
  part : Part s' i din' sz
  low : SameMeta s s'
  file : SameFile din din'
  ptr : din'.ptr s'.disk (ptrOf n) = x
  pos : x ≠ 0

theorem Part.le_of_found (h : Part s i din sz) (sz' : Nat) (hn : n < MAXFILE)
    (hne : din.ptr s.disk (ptrOf n) ≠ 0) (hle : sz ≤ sz') (hhi : sz' ≤ (n + 1) * BSIZE) :
    Part s i din sz' := by
  refine ⟨h.tidy.within hn ?_ hle (Nat.le_trans hhi (le_max_right _ _)), h.len, h.lo, h.hi,
    h.blank⟩
  rw [setNode_same]
  exact hne

theorem indirectBlock_spec (h : Part s i din sz) {b : Block}
    (hf : indirectBlock s din = (s', din')) (hr : rsect s' din'.indirect = some b) :
    Part s' i din' sz ∧ SameMeta s s' ∧ SameFile din din' ∧ din'.indirect ≠ 0 ∧
      b = s'.disk din'.indirect := by
  have hsmall : s.freeblock < 2 ^ 32 := Nat.lt_of_le_of_lt h.hi (by decide)
  simp only [indirectBlock] at hf
  split at hf
  · next hz =>
      cases hf
      rw [nextBlock_snd] at hr ⊢
      have hind : (din.setAddr (Fin.last NDIRECT) s.freeblock).indirect = s.freeblock := by
        rw [DiskInode.indirect, setAddr_toNat hsmall, if_pos rfl]
      have hr' := hr
      rw [hind] at hr'
      obtain ⟨hlt, -⟩ := rsect_some h.hi h.len hr'
      have hp := h.indirect hlt hz
      have hne : (din.setAddr (Fin.last NDIRECT) s.freeblock).indirect ≠ 0 := by
        rw [hind]
        exact fun h0 => absurd h.lo (by rw [h0]; decide)
      exact ⟨hp, SameMeta.next s, SameFile.setAddr _ _ _, hne,
        (rsect_some (Nat.le_of_lt (hp.indirect_range hne).2.2) hp.len hr).2⟩
  · next hz =>
      cases hf
      have hne : din.indirect ≠ 0 := fun h0 => hz (DiskInode.indirect_eq_zero.mp h0)
      exact ⟨h, SameMeta.refl s, SameFile.refl din, hne,
        (rsect_some (Nat.le_of_lt (h.indirect_range hne).2.2) h.len hr).2⟩

theorem fileBlock_spec (h : Part s i din sz) {b : Block}
    (hf : fileBlock s din n = some (s', din', x)) (hr : rsect s' x = some b)
    (hn : n < MAXFILE) (hle : n * BSIZE ≤ sz) (hge : sz ≤ sz') (hlo : n * BSIZE < sz')
    (hhi : sz' ≤ (n + 1) * BSIZE) : Found s i din n sz' s' din' x := by
  have hsmall : s.freeblock < 2 ^ 32 := Nat.lt_of_le_of_lt h.hi (by decide)
  have hpos : s.freeblock ≠ 0 := fun h0 => absurd h.lo (by rw [h0]; decide)
  simp only [fileBlock] at hf
  split at hf
  · next hd =>
      have hptr : ∀ v : DiskInode, ∀ e, v.ptr e (ptrOf n) =
          (v.addrs ⟨n, Nat.lt_succ_of_lt hd⟩).toNat := by
        intro v e
        rw [ptrOf_direct hd]
        exact v.ptr_addr e ⟨n, Nat.lt_succ_of_lt hd⟩
      split at hf
      · next hz =>
          cases hf
          rw [nextBlock_snd] at hr ⊢
          have hx : ((din.setAddr ⟨n, Nat.lt_succ_of_lt hd⟩ s.freeblock).addrs
              ⟨n, Nat.lt_succ_of_lt hd⟩).toNat = s.freeblock := by
            rw [setAddr_toNat hsmall, if_pos rfl]
          have hr' := hr
          rw [hx] at hr'
          obtain ⟨hlt, -⟩ := rsect_some h.hi h.len hr'
          exact ⟨h.direct hlt hd hz hle hlo hhi, SameMeta.next s, SameFile.setAddr _ _ _,
            hptr _ _, by rw [hx]; exact hpos⟩
      · next hz =>
          cases hf
          have hne : (din.addrs ⟨n, Nat.lt_succ_of_lt hd⟩).toNat ≠ 0 :=
            fun h0 => hz (BitVec.eq_of_toNat_eq h0)
          exact ⟨h.le_of_found _ hn (hptr din _ ▸ hne) hge hhi, SameMeta.refl s,
            SameFile.refl din, hptr _ _, hne⟩
  · next hd =>
      obtain ⟨j, rfl⟩ : ∃ j, n = NDIRECT + j := ⟨n - NDIRECT, by omega⟩
      have hj : j < NINDIRECT := Nat.lt_of_add_lt_add_left hn
      rw [Nat.add_sub_cancel_left] at hf
      cases hib : indirectBlock s din with
      | mk s₁ din₁ =>
      rw [hib] at hf
      split at hf
      · cases hf
      · next indirect hri =>
          obtain ⟨hp, hm, hs, hv, rfl⟩ := indirectBlock_spec h hib hri
          obtain ⟨hilo, hilt, hisz⟩ := hp.indirect_range hv
          have hptr : ∀ e : Disk, din₁.ptr e (ptrOf (NDIRECT + j)) = (e din₁.indirect).word j := by
            intro e
            rw [ptrOf_entry, DiskInode.ptr_entry, if_neg hv]
          split at hf
          · next hz =>
              have hsmall₁ : s₁.freeblock < 2 ^ 32 := Nat.lt_of_le_of_lt hp.hi (by decide)
              have hword : ((s₁.disk din₁.indirect).setWord j s₁.freeblock).word j =
                  s₁.freeblock := by
                refine Block.word_setWord_same ?_ hsmall₁
                have : j < 128 := hj
                show 4 * j + 3 < 512
                omega
              simp only [nextBlock_snd, hword, Option.some.injEq, Prod.mk.injEq] at hf
              obtain ⟨rfl, rfl, rfl⟩ := hf
              rw [wsect_eq (s := (nextBlock s₁).1) hisz hp.len] at hr ⊢
              obtain ⟨hlt, -⟩ := rsect_some (s := Image.put _ _ _) hp.hi hp.len hr
              refine ⟨hp.entry hlt hj hv hz hle hlo hhi, hm.trans ?_, hs, ?_, ?_⟩
              · exact ⟨fun c hc => Disk.set_ne (by omega), rfl⟩
              · rw [hptr]
                exact (congrArg (Block.word · j) (Disk.set_same _ _ _)).trans hword
              · exact fun h0 => absurd hp.lo (by rw [h0]; decide)
          · next hz =>
              cases hf
              exact ⟨hp.le_of_found _ hn (hptr _ ▸ hz) hge hhi, hm, hs, hptr _, hz⟩

/-- All bytes are appended, and nothing below the data changes. -/
theorem iappendLoop_spec : ∀ (fuel : Nat) {s s' : Image} {din din' : DiskInode} {off off' : Nat}
    {p : List UInt8}, p.length ≤ fuel → Part s i din off →
    iappendLoop fuel s din off p = some (s', din', off') →
    Part s' i din' off' ∧ SameMeta s s' ∧ SameFile din din' ∧ off' = off + p.length
  | 0, s, s', din, din', off, off', p, hfuel, h, he => by
      cases he
      exact ⟨h, SameMeta.refl s, SameFile.refl din, by omega⟩
  | fuel + 1, s, s', din, din', off, off', p, hfuel, h, he => by
      simp only [iappendLoop] at he
      split at he
      · next hp =>
          cases he
          subst hp
          exact ⟨h, SameMeta.refl s, SameFile.refl din, rfl⟩
      · next hp =>
          split at he
          · next hn =>
              have hlen : 0 < p.length := List.length_pos_iff.mpr hp
              simp only [Option.bind_eq_bind, Option.bind_eq_some_iff] at he
              obtain ⟨⟨s₁, din₁, x⟩, hf, buf, hr, he⟩ := he
              have hdiv : off / BSIZE * BSIZE ≤ off ∧ off < (off / BSIZE + 1) * BSIZE := by
                show off / 512 * 512 ≤ off ∧ off < (off / 512 + 1) * 512
                omega
              generalize hn1 : min p.length ((off / BSIZE + 1) * BSIZE - off) = n1 at he
              obtain ⟨hpos, hle, hle'⟩ :
                  0 < n1 ∧ n1 ≤ p.length ∧ off + n1 ≤ (off / BSIZE + 1) * BSIZE := by omega
              have hfound := fileBlock_spec h hf hr hn hdiv.1 (Nat.le_add_right off n1)
                (by omega) hle'
              obtain ⟨hpart, hmeta⟩ := hfound.part.write hn hfound.ptr hfound.pos
                (buf.write (off - off / BSIZE * BSIZE) (p.take n1))
              have hx : x < FSSIZE := by
                have hl := ptrs_some (T := setNode (s₁.disk.table sb) i din₁) (d := s₁.disk)
                  (l := (i, ptrOf (off / BSIZE))) (x := x)
                refine (hfound.part.held (hl.mpr ⟨ptrOf_lt hn, hfound.pos, ?_⟩)).2.2
                rw [setNode_same]
                exact hfound.ptr
              rw [wsect_eq hx hfound.part.len] at he
              obtain ⟨h1, h2, h3, h4⟩ := iappendLoop_spec fuel
                (by rw [List.length_drop]; omega) hpart he
              rw [List.length_drop] at h4
              exact ⟨h1, (hfound.low.trans hmeta).trans h2, hfound.file.trans h3, by omega⟩
          · cases he

end Xv6.Ref.Mkfs
