import Xv6.Proofs.FileArray
import Xv6.Proofs.MkfsImage

/-!
# What `mkfs` puts into its files

`iappend` never moves a block and never writes where a file has bytes already, so each
call appends its bytes to one file and leaves the others (`Stores`). It fails only when the
blocks run out: what it takes for a file is bounded by the blocks of its size (`blocksFor`),
so that files whose blocks fit into the data area all get there.
-/

namespace Xv6.Ref.Mkfs

open Xv6.Lib

variable {s s' s'' : Image} {i j n x sz off : Nat} {din din' : DiskInode} {p q : List UInt8}

/-- The blocks of a file of `sz` bytes, its indirect block included. -/
def blocksFor (sz : Nat) : Nat :=
  Inodes.nblocks sz + if NDIRECT * BSIZE < sz then 1 else 0

theorem blocksFor_mono {a b : Nat} (h : a ≤ b) : blocksFor a ≤ blocksFor b := by
  refine Nat.add_le_add (Nat.div_le_div_right (Nat.add_le_add_right h _)) ?_
  by_cases ha : NDIRECT * BSIZE < a
  · rw [if_pos ha, if_pos (Nat.lt_of_lt_of_le ha h)]
  · rw [if_neg ha]
    exact Nat.zero_le _

/-! ## Nothing is moved -/

section

variable (h : Part s i din sz)

include h

/-- The pointers of a file that has the blocks of `sz` bytes. -/
theorem Part.has {o : Nat} (ho : o < sz) :
    ptrs (setNode (s.disk.table sb) i din) s.disk (i, ptrOf (o / BSIZE)) =
      some (din.ptr s.disk (ptrOf (o / BSIZE))) := by
  have hsp := h.tidy.fits
  rw [setNode_same] at hsp
  obtain ⟨hlt, hne⟩ := Inodes.Spans.has hsp ho
  exact ptrs_some.mpr ⟨ptrOf_lt hlt, hne, by rw [setNode_same]⟩

theorem Part.others_have {o : Nat} (hj : j ≠ i) (ho : o < (s.disk.table sb j).size.toNat) :
    ptrs (setNode (s.disk.table sb) i din) s.disk (j, ptrOf (o / BSIZE)) =
      some ((s.disk.table sb j).ptr s.disk (ptrOf (o / BSIZE))) := by
  have hsp := h.tidy.others j hj
  rw [setNode_ne hj] at hsp
  obtain ⟨hlt, hne⟩ := Inodes.Spans.has hsp ho
  exact ptrs_some.mpr ⟨ptrOf_lt hlt, hne, by rw [setNode_ne hj]⟩

theorem Part.kept_addr {k : Fin (NDIRECT + 1)} (hz : din.addrs k = 0) :
    Inodes.Kept (setNode (s.disk.table sb) i din) s.disk
      (setNode (s.disk.table sb) i (din.setAddr k s.freeblock)) s.disk := by
  have hsmall : s.freeblock < 2 ^ 32 := Nat.lt_of_le_of_lt h.hi (by decide)
  have hent := entered_addr i s.disk (k := k) h.tidy.owned hsmall
    (by rw [setNode_same]; exact hz) (fun _ => h.blank _ (Nat.le_refl _)) fun _ _ _ => rfl
  rw [setNode_same, setNode_setNode] at hent
  refine ⟨fun l y hl => Inodes.kept_ptrs hent ?_ hl, fun _ _ _ _ => rfl⟩
  rw [setNode_same, DiskInode.ptr_addr, hz]
  rfl

theorem Part.kept_entry {k : Nat} (hk : k < NINDIRECT) (hv : din.indirect ≠ 0)
    (hw : (s.disk din.indirect).word k = 0) :
    Inodes.Kept (setNode (s.disk.table sb) i din) s.disk
      (setNode ((s.disk.set din.indirect
        ((s.disk din.indirect).setWord k s.freeblock)).table sb) i din)
      (s.disk.set din.indirect ((s.disk din.indirect).setWord k s.freeblock)) := by
  have hsmall : s.freeblock < 2 ^ 32 := Nat.lt_of_le_of_lt h.hi (by decide)
  obtain ⟨hlo, hlt, -⟩ := h.indirect_range hv
  obtain ⟨-, htab⟩ := h.frame_set hlo hlt ((s.disk din.indirect).setWord k s.freeblock)
  have hent := entered_entry i s.disk h.tidy.owned hsmall hk
    (by rw [setNode_same]; exact hv) fun _ _ _ => rfl
  rw [setNode_same] at hent
  rw [htab]
  refine ⟨fun l y hl => Inodes.kept_ptrs hent ?_ hl, fun l y hl hne => Disk.set_ne ?_⟩
  · rw [setNode_same, DiskInode.ptr_entry, hw, ite_self]
  · rintro rfl
    have hind : ptrs (setNode (s.disk.table sb) i din) s.disk (i, NDIRECT) =
        some din.indirect := by
      rw [ptrs_indirect (by rw [setNode_same]; exact hv), setNode_same]
    have := h.tidy.owned.one l (i, NDIRECT) _ hl hind
    exact hne (by rw [this])

end

/-- The block is found, for which `c` blocks were taken. -/
structure Finds (s : Image) (i : Nat) (din : DiskInode) (n : Nat) (s' : Image)
    (din' : DiskInode) (x : Nat) : Prop where
  eq : fileBlock s din n = some (s', din', x)
  read : rsect s' x = some (s'.disk x)
  kept : Inodes.Kept (setNode (s.disk.table sb) i din) s.disk
    (setNode (s'.disk.table sb) i din') s'.disk
  cost : s'.freeblock = s.freeblock + Inodes.mapCost s.disk din n

theorem indirectBlock_total (h : Part s i din sz)
    (hroom : s.freeblock + (if din.indirect = 0 then 1 else 0) ≤ FSSIZE) :
    ∃ s₁ din₁, indirectBlock s din = (s₁, din₁) ∧ Part s₁ i din₁ sz ∧ din₁.indirect ≠ 0 ∧
      rsect s₁ din₁.indirect = some (s₁.disk din₁.indirect) ∧
      Inodes.Kept (setNode (s.disk.table sb) i din) s.disk
        (setNode (s₁.disk.table sb) i din₁) s₁.disk ∧
      s₁.freeblock = s.freeblock + (if din.indirect = 0 then 1 else 0) := by
  by_cases hz : din.addrs (Fin.last NDIRECT) = 0
  · have hv : din.indirect = 0 := DiskInode.indirect_eq_zero.mpr hz
    rw [if_pos hv] at hroom ⊢
    have hsmall : s.freeblock < 2 ^ 32 := Nat.lt_of_le_of_lt h.hi (by decide)
    have hind : (din.setAddr (Fin.last NDIRECT) s.freeblock).indirect = s.freeblock := by
      rw [DiskInode.indirect, setAddr_toNat hsmall, if_pos rfl]
    refine ⟨(nextBlock s).1, din.setAddr (Fin.last NDIRECT) s.freeblock, ?_,
      h.indirect hroom hz, ?_, ?_, h.kept_addr hz, rfl⟩
    · rw [indirectBlock, if_pos hz]
      rfl
    · rw [hind]
      exact fun h0 => absurd h.lo (by rw [h0]; decide)
    · exact rsect_eq (by rw [hind]; exact hroom) h.len
  · have hv : din.indirect ≠ 0 := fun h0 => hz (DiskInode.indirect_eq_zero.mp h0)
    rw [if_neg hv]
    refine ⟨s, din, if_neg hz, h, hv, rsect_eq (h.indirect_range hv).2.2 h.len,
      Inodes.Kept.refl _ _, rfl⟩

theorem fileBlock_direct (h : Part s i din sz) (hd : n < NDIRECT)
    (hroom : s.freeblock + Inodes.mapCost s.disk din n ≤ FSSIZE) :
    ∃ s' din' x, Finds s i din n s' din' x := by
  have hptr : din.ptr s.disk (ptrOf n) = (din.addrs ⟨n, Nat.lt_succ_of_lt hd⟩).toNat := by
    rw [ptrOf_direct hd]
    exact din.ptr_addr s.disk ⟨n, Nat.lt_succ_of_lt hd⟩
  have hcost : Inodes.mapCost s.disk din n =
      if din.ptr s.disk (ptrOf n) = 0 then 1 else 0 := by
    rw [Inodes.mapCost, if_neg (c := NDIRECT ≤ n ∧ _) fun h' => absurd hd (Nat.not_lt.mpr h'.1)]
    rfl
  rw [hcost, hptr] at hroom
  by_cases hz : din.addrs ⟨n, Nat.lt_succ_of_lt hd⟩ = 0
  · have hz' : (din.addrs ⟨n, Nat.lt_succ_of_lt hd⟩).toNat = 0 := by rw [hz]; rfl
    rw [if_pos hz'] at hroom
    have hsmall : s.freeblock < 2 ^ 32 := Nat.lt_of_le_of_lt h.hi (by decide)
    have hx : ((din.setAddr ⟨n, Nat.lt_succ_of_lt hd⟩ s.freeblock).addrs
        ⟨n, Nat.lt_succ_of_lt hd⟩).toNat = s.freeblock := by
      rw [setAddr_toNat hsmall, if_pos rfl]
    refine ⟨(nextBlock s).1, din.setAddr ⟨n, Nat.lt_succ_of_lt hd⟩ s.freeblock, s.freeblock,
      ?_, rsect_eq hroom h.len, h.kept_addr hz, ?_⟩
    · rw [fileBlock, dif_pos hd]
      dsimp only
      rw [if_pos hz, nextBlock_snd, hx]
    · rw [hcost, hptr, if_pos hz']
      rfl
  · have hne : (din.addrs ⟨n, Nat.lt_succ_of_lt hd⟩).toNat ≠ 0 :=
      fun h0 => hz (BitVec.eq_of_toNat_eq h0)
    refine ⟨s, din, (din.addrs ⟨n, Nat.lt_succ_of_lt hd⟩).toNat, ?_, rsect_eq ?_ h.len,
      Inodes.Kept.refl _ _, ?_⟩
    · rw [fileBlock, dif_pos hd]
      dsimp only
      rw [if_neg hz]
    · refine (h.held (l := (i, ptrOf n)) (ptrs_some.mpr ⟨ptrOf_lt ?_, hne, ?_⟩)).2.2
      · exact Nat.lt_of_lt_of_le hd (by decide)
      · rw [setNode_same, hptr]
    · rw [hcost, hptr, if_neg hne]
      rfl

theorem fileBlock_indirect {k : Nat} (h : Part s i din sz) (hk : k < NINDIRECT)
    (hroom : s.freeblock + Inodes.mapCost s.disk din (NDIRECT + k) ≤ FSSIZE) :
    ∃ s' din' x, Finds s i din (NDIRECT + k) s' din' x := by
  have hn : NDIRECT + k < MAXFILE := Nat.add_lt_add_left hk _
  have hcost : Inodes.mapCost s.disk din (NDIRECT + k) =
      (if din.ptr s.disk (ptrOf (NDIRECT + k)) = 0 then 1 else 0) +
        if din.indirect = 0 then 1 else 0 := by
    rw [Inodes.mapCost]
    simp only [Nat.le_add_right, true_and]
  rw [hcost] at hroom
  obtain ⟨s₁, din₁, hib, hp, hv, hr, hkept, hfree⟩ :=
    indirectBlock_total h (Nat.le_trans (by omega) hroom)
  -- the entry is empty exactly if the block is missing
  have hword : (s₁.disk din₁.indirect).word k = 0 ↔ din.ptr s.disk (ptrOf (NDIRECT + k)) = 0 := by
    have h1 := h.tidy.fits.exact _ hn
    have h2 := hp.tidy.fits.exact _ hn
    rw [setNode_same] at h1 h2
    rw [← not_iff_not, ← ne_eq, ← ne_eq, h1, ← h2, ptrOf_entry, DiskInode.ptr_entry, if_neg hv]
  have heq : fileBlock s din (NDIRECT + k) =
      if (s₁.disk din₁.indirect).word k = 0 then
        some (wsect (nextBlock s₁).1 din₁.indirect
          ((s₁.disk din₁.indirect).setWord k s₁.freeblock), din₁,
          ((s₁.disk din₁.indirect).setWord k s₁.freeblock).word k)
      else some (s₁, din₁, (s₁.disk din₁.indirect).word k) := by
    rw [fileBlock, dif_neg (Nat.not_lt.mpr (Nat.le_add_right NDIRECT k)), hib]
    dsimp only
    rw [hr, Nat.add_sub_cancel_left]
    rfl
  obtain ⟨hilo, hilt, hisz⟩ := hp.indirect_range hv
  by_cases hw : (s₁.disk din₁.indirect).word k = 0
  · rw [if_pos (hword.mp hw)] at hroom hcost
    have hsmall : s₁.freeblock < 2 ^ 32 := Nat.lt_of_le_of_lt hp.hi (by decide)
    have hx : ((s₁.disk din₁.indirect).setWord k s₁.freeblock).word k = s₁.freeblock := by
      refine Block.word_setWord_same ?_ hsmall
      have : k < 128 := hk
      show 4 * k + 3 < 512
      omega
    rw [if_pos hw, hx, wsect_eq (s := (nextBlock s₁).1) hisz hp.len] at heq
    refine ⟨_, _, _, heq, rsect_eq (by omega) hp.len, ?_, ?_⟩
    · exact hkept.trans (hp.kept_entry hk hv hw)
    · show s₁.freeblock + 1 = _
      rw [hfree, hcost]
      omega
  · rw [if_neg fun h0 => hw (hword.mpr h0)] at hcost
    rw [if_neg hw] at heq
    refine ⟨_, _, _, heq, rsect_eq ?_ hp.len, hkept, by rw [hfree, hcost]; omega⟩
    refine (hp.held (l := (i, ptrOf (NDIRECT + k))) (ptrs_some.mpr ⟨ptrOf_lt hn, hw, ?_⟩)).2.2
    rw [setNode_same, ptrOf_entry, DiskInode.ptr_entry, if_neg hv]

theorem fileBlock_total (h : Part s i din sz) (hn : n < MAXFILE)
    (hroom : s.freeblock + Inodes.mapCost s.disk din n ≤ FSSIZE) :
    ∃ s' din' x, Finds s i din n s' din' x := by
  by_cases hd : n < NDIRECT
  · exact fileBlock_direct h hd hroom
  · obtain ⟨k, rfl⟩ : ∃ k, n = NDIRECT + k := ⟨n - NDIRECT, by omega⟩
    exact fileBlock_indirect h (Nat.lt_of_add_lt_add_left hn) hroom

/-! ## The loop -/

/-- From `off` on, the bytes `p` have been put into the file of inode `i`. -/
structure Appends (s : Image) (i : Nat) (din : DiskInode) (off : Nat) (p : List UInt8)
    (s' : Image) (din' : DiskInode) : Prop where
  part : Part s' i din' (off + p.length)
  low : SameMeta s s'
  file : SameFile din din'
  bytes : ∀ o < off + p.length, din'.byteAt s'.disk o =
    if off ≤ o ∧ o < off + p.length then p.getD (o - off) 0 else din.byteAt s.disk o
  others : ∀ j, j ≠ i → ∀ o < (s.disk.table sb j).size.toNat,
    (s.disk.table sb j).byteAt s'.disk o = (s.disk.table sb j).byteAt s.disk o
  cost : s'.freeblock + blocksFor off ≤ s.freeblock + blocksFor (off + p.length)

theorem Appends.nil (h : Part s i din off) : Appends s i din off [] s din :=
  ⟨h, SameMeta.refl s, SameFile.refl din, fun o ho => by rw [if_neg]; simp,
    fun _ _ _ _ => rfl, Nat.le_refl _⟩

theorem Appends.append {din'' : DiskInode} (h : Appends s i din off p s' din')
    (h' : Appends s' i din' (off + p.length) q s'' din'') :
    Appends s i din off (p ++ q) s'' din'' := by
  have hlen : off + (p ++ q).length = off + p.length + q.length := by
    rw [List.length_append, Nat.add_assoc]
  refine ⟨hlen ▸ h'.part, h.low.trans h'.low, h.file.trans h'.file, fun o ho => ?_,
    fun j hj o ho => ?_, ?_⟩
  · rw [hlen] at ho ⊢
    rw [h'.bytes o ho]
    by_cases hq : off + p.length ≤ o ∧ o < off + p.length + q.length
    · rw [if_pos hq, if_pos (by omega), List.getD_append_right _ _ _ _ (by omega)]
      congr 1
      omega
    · rw [if_neg hq, h.bytes o (by omega)]
      by_cases hp : off ≤ o ∧ o < off + p.length
      · rw [if_pos hp, if_pos (by omega), List.getD_append _ _ _ _ (by omega)]
      · rw [if_neg hp, if_neg (by omega)]
  · have htab := h.low.table
    rw [← h.others j hj o ho, ← htab]
    exact h'.others j hj o (by rw [htab]; exact ho)
  · have h1 := h.cost
    have h2 := h'.cost
    rw [hlen]
    omega

/-- A block is taken where the file ends at the end of one, and the indirect block with
the first that it is needed for. -/
theorem mapCost_le_blocksFor (h : Part s i din off) {m : Nat} (hm : 0 < m)
    (hn : off / BSIZE < MAXFILE) (hblk : off % BSIZE + m ≤ BSIZE) :
    Inodes.mapCost s.disk din (off / BSIZE) + blocksFor off ≤ blocksFor (off + m) := by
  have hblk : off % 512 + m ≤ 512 := hblk
  have hsp := h.tidy.fits
  rw [setNode_same] at hsp
  have hz : din.ptr s.disk (ptrOf (off / BSIZE)) = 0 ↔ off ≤ off / 512 * 512 := by
    rw [← not_iff_not, ← ne_eq, hsp.exact _ hn, Nat.not_le]
  have hdata : (if din.ptr s.disk (ptrOf (off / BSIZE)) = 0 then 1 else 0) + Inodes.nblocks off ≤
      Inodes.nblocks (off + m) := by
    simp only [hz]
    show _ + (off + 511) / 512 ≤ (off + m + 511) / 512
    split <;> omega
  have hind : (if NDIRECT ≤ off / BSIZE ∧ din.indirect = 0 then 1 else 0) +
      (if NDIRECT * BSIZE < off then 1 else 0) ≤ if NDIRECT * BSIZE < off + m then 1 else 0 := by
    by_cases hd : NDIRECT ≤ off / BSIZE ∧ din.indirect = 0
    · have hle : 12 ≤ off / 512 := hd.1
      have hoff : ¬ NDIRECT * BSIZE < off := by
        intro hlt
        obtain ⟨-, hne⟩ := Inodes.Spans.has hsp hlt
        rw [show NDIRECT * BSIZE / BSIZE = NDIRECT + 0 from rfl, ptrOf_entry,
          DiskInode.ptr_entry, if_pos hd.2] at hne
        exact hne rfl
      have hlt : NDIRECT * BSIZE < off + m := by
        show 6144 < off + m
        omega
      rw [if_pos hd, if_neg hoff, if_pos hlt]
    · rw [if_neg hd, Nat.zero_add]
      by_cases hlt : NDIRECT * BSIZE < off
      · rw [if_pos hlt, if_pos (Nat.lt_of_lt_of_le hlt (Nat.le_add_right _ _))]
      · rw [if_neg hlt]
        exact Nat.zero_le _
  rw [Inodes.mapCost, blocksFor, blocksFor]
  omega

/-- One round of the loop. -/
theorem append_round (h : Part s i din off) (p : List UInt8) (hp : 0 < p.length)
    (hn : off / BSIZE < MAXFILE) (hblk : off % BSIZE + p.length ≤ BSIZE)
    (hroom : s.freeblock + blocksFor (off + p.length) ≤ FSSIZE + blocksFor off) :
    ∃ s₁ din₁ x, fileBlock s din (off / BSIZE) = some (s₁, din₁, x) ∧
      rsect s₁ x = some (s₁.disk x) ∧
      Appends s i din off p
        (wsect s₁ x ((s₁.disk x).write (off - off / BSIZE * BSIZE) p)) din₁ := by
  have hcost := mapCost_le_blocksFor h hp hn hblk
  obtain ⟨s₁, din₁, x, hfind⟩ := fileBlock_total h hn (by omega)
  have hblk' : off % 512 + p.length ≤ 512 := hblk
  have hfound := fileBlock_spec h hfind.eq hfind.read hn
    (by show off / 512 * 512 ≤ off; omega) (Nat.le_add_right off p.length)
    (by show off / 512 * 512 < off + p.length; omega)
    (by show off + p.length ≤ (off / 512 + 1) * 512; omega)
  have hl : ptrs (setNode (s₁.disk.table sb) i din₁) s₁.disk (i, ptrOf (off / BSIZE)) = some x :=
    ptrs_some.mpr ⟨ptrOf_lt hn, hfound.pos, by rw [setNode_same]; exact hfound.ptr⟩
  have hmod : off - off / BSIZE * BSIZE = off % BSIZE := by
    show off - off / 512 * 512 = off % 512
    omega
  refine ⟨s₁, din₁, x, hfind.eq, hfind.read, ?_⟩
  obtain ⟨hpart, hmeta⟩ := hfound.part.write hn hfound.ptr hfound.pos
    ((s₁.disk x).write (off - off / BSIZE * BSIZE) p)
  rw [wsect_eq (hfound.part.held hl).2.2 hfound.part.len]
  refine ⟨hpart, hfound.low.trans hmeta, hfound.file, fun o ho => ?_, fun j hj o ho => ?_, ?_⟩
  · have hb := Inodes.Kept.byteAt_write off p (o := o) hfind.kept hfound.part.tidy.owned hl hblk
      fun hin => ⟨_, h.has (o := o) (by omega)⟩
    rw [setNode_same, setNode_same] at hb
    rw [put_disk, hmod]
    exact hb
  · have hb := hfind.kept.byteAt (b := (s₁.disk x).write (off % BSIZE) p)
      hfound.part.tidy.owned hl (h.others_have hj ho) fun he => hj (congrArg Prod.fst he)
    rw [setNode_ne hj, setNode_ne hj, hfound.low.table] at hb
    rw [put_disk, hmod]
    exact hb
  · show s₁.freeblock + _ ≤ _
    rw [hfind.cost]
    omega

theorem iappendLoop_total : ∀ (fuel : Nat) {s : Image} {din : DiskInode} {off : Nat}
    (p : List UInt8), p.length ≤ fuel → Part s i din off →
    off + p.length ≤ MAXFILE * BSIZE →
    s.freeblock + blocksFor (off + p.length) ≤ FSSIZE + blocksFor off →
    ∃ s' din', iappendLoop fuel s din off p = some (s', din', off + p.length) ∧
      Appends s i din off p s' din'
  | 0, s, din, off, p, hfuel, h, _, _ => by
      obtain rfl : p = [] := List.length_eq_zero_iff.mp (by omega)
      exact ⟨s, din, rfl, Appends.nil h⟩
  | fuel + 1, s, din, off, p, hfuel, h, hfit, hroom => by
      by_cases h0 : p = []
      · subst h0
        exact ⟨s, din, rfl, Appends.nil h⟩
      · have hpos : 0 < p.length := List.length_pos_iff.mpr h0
        have hfit' : off + p.length ≤ 71680 := hfit
        have hn : off / BSIZE < MAXFILE := by
          show off / 512 < 140
          omega
        rw [iappendLoop, if_neg h0]
        dsimp only
        rw [if_pos hn]
        generalize hm : min p.length ((off / BSIZE + 1) * BSIZE - off) = m
        have hm : min p.length ((off / 512 + 1) * 512 - off) = m := hm
        have hblk : off % BSIZE + m ≤ BSIZE := by
          show off % 512 + m ≤ 512
          omega
        have htake : (p.take m).length = m := List.length_take_of_le (by omega)
        have hdrop : off + m + (p.drop m).length = off + p.length := by
          rw [List.length_drop]
          omega
        have hmono := blocksFor_mono (show off + m ≤ off + p.length by omega)
        obtain ⟨s₁, din₁, x, hf, hr, ha⟩ := append_round h (p.take m) (by omega) hn
          (by rw [htake]; exact hblk) (by rw [htake]; omega)
        have hcost := ha.cost
        have hpart := ha.part
        rw [htake] at hcost hpart
        obtain ⟨s', din', he, ha'⟩ := iappendLoop_total fuel (p.drop m)
          (by rw [List.length_drop]; omega) hpart (by rw [hdrop]; exact hfit)
          (by rw [hdrop]; omega)
        rw [hf]
        simp only [Option.bind_eq_bind, Option.bind_some, hr]
        rw [hdrop] at he
        refine ⟨s', din', he, ?_⟩
        have := ha.append (by rw [htake]; exact ha')
        rwa [List.take_append_drop] at this

/-! ## The files on the image -/

/-- The content of the file of inode `i`. -/
def Image.content (s : Image) (i : Nat) : List UInt8 := (s.disk.dinode sb i).content s.disk

theorem content_length (s : Image) (i : Nat) :
    (s.content i).length = (s.disk.dinode sb i).size.toNat := by
  rw [Image.content, DiskInode.content, List.length_map, List.length_range]

/-- What is done outside the data area does not show in the files. -/
theorem Part.byteAt_frame (h : Part s i din sz) (d' : Disk) {o y : Nat}
    (hd : ∀ b, data b → d' b = s.disk b)
    (hy : ptrs (setNode (s.disk.table sb) i din) s.disk (j, ptrOf (o / BSIZE)) = some y) :
    (setNode (s.disk.table sb) i din j).byteAt d' o =
      (setNode (s.disk.table sb) i din j).byteAt s.disk o := by
  rw [DiskInode.byteAt, ptr_frame h.tidy.owned d' (fun b hb _ => hd b hb), DiskInode.byteAt,
    (ptrs_some.mp hy).2.2, hd y (h.tidy.owned.held _ _ hy).1]

theorem Whole.content_frame (h : Whole s) (hi : i < NINODES) {d' : Disk}
    (hd : ∀ b, data b → d' b = s.disk b) :
    (s.disk.dinode sb i).content d' = s.content i := by
  refine List.map_congr_left fun o ho => ?_
  have ho : o < (s.disk.dinode sb i).size.toNat := List.mem_range.mp ho
  have hp := h.part i
  rw [h.table hi] at hp
  have hb := hp.byteAt_frame d' hd (hp.has ho)
  rwa [setNode_same] at hb

theorem Whole.spans_frame (h : Whole s) (hi : i < NINODES) {d' : Disk}
    (hd : ∀ b, data b → d' b = s.disk b) :
    Spans (s.disk.dinode sb i) d' (s.disk.dinode sb i).size.toNat := by
  have hp := h.part i
  rw [h.table hi] at hp
  have hsp := hp.tidy.fits
  rw [setNode_same] at hsp
  refine hsp.congr fun k => ?_
  have := ptr_frame hp.tidy.owned d' (fun b hb _ => hd b hb) i k
  rwa [setNode_same] at this

/-- The bytes `p` have been appended to the file of inode `i`, and to no other. -/
structure Stores (s : Image) (i : Nat) (p : List UInt8) (s' : Image) : Prop where
  whole : Whole s'
  freeinode : s'.freeinode = s.freeinode
  content : s'.content i = s.content i ++ p
  others : ∀ j < NINODES, j ≠ i → s'.content j = s.content j
  cost : s'.freeblock + blocksFor (s.content i).length ≤
    s.freeblock + blocksFor ((s.content i).length + p.length)

theorem Stores.nil (h : Whole s) : Stores s i [] s :=
  ⟨h, rfl, (List.append_nil _).symm, fun _ _ _ => rfl, Nat.le_refl _⟩

theorem Stores.append (h : Stores s i p s') (h' : Stores s' i q s'') :
    Stores s i (p ++ q) s'' := by
  refine ⟨h'.whole, h'.freeinode.trans h.freeinode, ?_,
    fun j hj hne => (h'.others j hj hne).trans (h.others j hj hne), ?_⟩
  · rw [h'.content, h.content, List.append_assoc]
  · have h1 := h.cost
    have h2 := h'.cost
    rw [h.content, List.length_append] at h2
    rw [List.length_append, ← Nat.add_assoc]
    omega

theorem range_map_append {f g : Nat → UInt8} (n : Nat) (p : List UInt8)
    (h : ∀ o < n + p.length,
      g o = if n ≤ o ∧ o < n + p.length then p.getD (o - n) 0 else f o) :
    (List.range (n + p.length)).map g = (List.range n).map f ++ p := by
  rw [List.range_add, List.map_append, List.map_map]
  congr 1
  · refine List.map_congr_left fun o ho => ?_
    have ho : o < n := List.mem_range.mp ho
    rw [h o (by omega), if_neg (by omega)]
  · refine List.ext_getElem (by simp) fun k h1 h2 => ?_
    rw [List.getElem_map, List.getElem_range, Function.comp, h _ (by omega), if_pos (by omega),
      Nat.add_sub_cancel_left, List.getD_eq_getElem _ _ h2]

/-- `winode` puts the grown file onto the image. -/
theorem Appends.close (h : Appends s i din off p s' din') (hi : i < NINODES) {v : DiskInode}
    (ha : v.addrs = din'.addrs) (hsz : v.size.toNat = off + p.length) :
    v.content (s'.disk.setDinode sb i v) = (List.range off).map (din.byteAt s.disk) ++ p := by
  rw [DiskInode.content, hsz]
  refine range_map_append off p fun o ho => ?_
  have hb := h.part.byteAt_frame (s'.disk.setDinode sb i v)
    (fun b hb => setDinode_data (Nat.lt_trans hi (by decide)) b hb.1) (h.part.has ho)
  rw [setNode_same] at hb
  rw [← h.bytes o ho, ← hb, DiskInode.byteAt, DiskInode.ptr_of_addrs ha, DiskInode.byteAt]

theorem Appends.close_others (h : Appends s i din off p s' din') (hi : i < NINODES)
    (v : DiskInode) (hj : j ≠ i) :
    (s.disk.table sb j).content (s'.disk.setDinode sb i v) =
      (s.disk.table sb j).content s.disk := by
  refine List.map_congr_left fun o ho => ?_
  have ho : o < (s.disk.table sb j).size.toNat := List.mem_range.mp ho
  have htab := h.low.table
  have hb := h.part.byteAt_frame (s'.disk.setDinode sb i v)
    (fun b hb => setDinode_data (Nat.lt_trans hi (by decide)) b hb.1)
    (h.part.others_have hj (by rw [htab]; exact ho))
  rw [setNode_ne hj, htab] at hb
  rw [hb, h.others j hj o ho]

theorem iappend_total (h : Whole s) (hpos : 0 < i) (hlt : i < s.freeinode) (p : List UInt8)
    (hfit : (s.content i).length + p.length ≤ MAXFILE * BSIZE)
    (hroom : s.freeblock + blocksFor ((s.content i).length + p.length) ≤
      FSSIZE + blocksFor (s.content i).length) :
    ∃ s', iappend s i p = some s' ∧ Stores s i p s' := by
  have hi : i < NINODES := Nat.lt_of_lt_of_le hlt h.count
  have hslot : i < nslots := Nat.lt_trans hi (by decide)
  have hp := h.part i
  rw [h.table hi] at hp
  rw [content_length] at hfit hroom
  obtain ⟨s₁, din, hloop, ha⟩ := iappendLoop_total p.length p (Nat.le_refl _) hp hfit hroom
  generalize hv : ({ din with size := BitVec.ofNat 32 ((s.disk.dinode sb i).size.toNat +
    p.length) } : DiskInode) = v
  have heq : iappend s i p = some { s₁ with disk := s₁.disk.setDinode sb i v } := by
    simp only [iappend, rinode_eq hp.len hslot, Option.bind_eq_bind, Option.bind_some, hloop, hv]
    exact winode_eq ha.part.len hslot v
  have hdin : ∀ j < NINODES, j ≠ i →
      (s₁.disk.setDinode sb i v).dinode sb j = s.disk.table sb j := by
    intro j hj hne
    rw [Disk.dinode_setDinode, if_neg (Ne.symm hne), h.table hj,
      dinode_of_low ha.low.low (Nat.lt_trans hj (by decide))]
  obtain ⟨hwhole, happ⟩ := iappend_spec h hpos hlt heq
  refine ⟨_, heq, hwhole, happ.freeinode, ?_, fun j hj hne => ?_, ?_⟩
  · have hsize : v.size.toNat = (s.disk.dinode sb i).size.toNat + p.length := by
      have := happ.size
      rwa [Disk.dinode_setDinode, if_pos rfl] at this
    rw [Image.content, Disk.dinode_setDinode, if_pos rfl, ha.close hi (by rw [← hv]) hsize]
    rfl
  · rw [Image.content, hdin j hj hne, ha.close_others hi v hne, h.table hj, Image.content]
  · rw [content_length]
    exact ha.cost

/-- A new inode has no content, and the others keep theirs. -/
theorem ialloc_total (h : Whole s) (hlt : s.freeinode < NINODES) :
    ∃ s', ialloc s (typeOf s.freeinode) = some (s', s.freeinode) ∧ Whole s' ∧
      s'.freeinode = s.freeinode + 1 ∧ s'.freeblock = s.freeblock ∧
      s'.content s.freeinode = [] ∧
      ∀ j < NINODES, j ≠ s.freeinode → s'.content j = s.content j := by
  have hslot : s.freeinode < nslots := Nat.lt_trans hlt (by decide)
  obtain ⟨v, hv⟩ : ∃ v : DiskInode,
    { DiskInode.zero with type := typeOf s.freeinode, nlink := 1 } = v := ⟨_, rfl⟩
  have heq : ialloc s (typeOf s.freeinode) = some (⟨s.disk.setDinode sb s.freeinode v, s.len,
      s.freeinode + 1, s.freeblock⟩, s.freeinode) := by
    rw [ialloc, hv]
    rw [winode_eq (s := { s with freeinode := s.freeinode + 1 }) (h.part 0).len hslot]
    rfl
  obtain ⟨hwhole, -, hfree, hsize, hothers⟩ := ialloc_spec h hlt heq
  refine ⟨_, heq, hwhole, hfree, rfl, ?_, fun j hj hne => ?_⟩
  · rw [Image.content, DiskInode.content, hsize]
    rfl
  · rw [Image.content, hothers j (Nat.lt_trans hj (by decide)) hne]
    exact h.content_frame hj fun b hb => setDinode_data hslot b hb.1

/-! ## The loop over the arguments -/

/-- What `read` returned before it returned 0. -/
def readAll (reads : List (List UInt8)) : List UInt8 := (reads.takeWhile (· ≠ [])).flatten

theorem copyFile_total : ∀ (reads : List (List UInt8)) {s : Image}, Whole s → 0 < i →
    i < s.freeinode → (s.content i).length + (readAll reads).length ≤ MAXFILE * BSIZE →
    s.freeblock + blocksFor ((s.content i).length + (readAll reads).length) ≤
      FSSIZE + blocksFor (s.content i).length →
    ∃ s', copyFile s i reads = some s' ∧ Stores s i (readAll reads) s'
  | [], s, h, _, _, _, _ => ⟨s, rfl, Stores.nil h⟩
  | buf :: rest, s, h, hpos, hlt, hfit, hroom => by
      by_cases hb : buf = []
      · subst hb
        exact ⟨s, rfl, Stores.nil h⟩
      · have hall : readAll (buf :: rest) = buf ++ readAll rest := by
          rw [readAll, List.takeWhile_cons_of_pos (by simpa using hb), List.flatten_cons, readAll]
        rw [hall, List.length_append, ← Nat.add_assoc] at hfit hroom
        have hmono := blocksFor_mono (Nat.le_add_right ((s.content i).length + buf.length)
          (readAll rest).length)
        obtain ⟨s₁, he, hs⟩ := iappend_total h hpos hlt buf (by omega) (by omega)
        have hcost := hs.cost
        have hlen : (s₁.content i).length = (s.content i).length + buf.length := by
          rw [hs.content, List.length_append]
        obtain ⟨s₂, he', hs'⟩ := copyFile_total rest hs.whole hpos (by rw [hs.freeinode]; exact hlt)
          (by rw [hlen]; exact hfit) (by rw [hlen]; omega)
        refine ⟨s₂, ?_, hall ▸ hs.append hs'⟩
        rw [copyFile, if_neg hb, he]
        exact he'

/-- What is read of a file. -/
def Input.bytes (f : Input) : List UInt8 := readAll (f.reads.getD [])

/-- The name it is stored under, before `strncpy` cuts it. -/
def Input.stored (f : Input) : List UInt8 :=
  if f.name.head? = some 0x5f then f.name.tail else f.name

/-- The program goes on with an argument that has no slash and can be opened. -/
def Input.opens (f : Input) : Prop := f.name.contains 0x2f = false ∧ f.reads ≠ none

/-- The entries of the root directory, in order. -/
def rootEntries (files : List Input) : List (Nat × List UInt8) :=
  (1, [0x2e]) :: (1, [0x2e, 0x2e]) :: files.mapIdx fun k f => (k + 2, f.stored)

def rootBytes (files : List Input) : List UInt8 :=
  ((rootEntries files).map fun e => dirent e.1 e.2).flatten

theorem rootBytes_concat (files : List Input) (f : Input) :
    rootBytes (files ++ [f]) = rootBytes files ++ dirent (files.length + 2) f.stored := by
  simp [rootBytes, rootEntries, List.mapIdx_append]

theorem rootBytes_length (files : List Input) :
    (rootBytes files).length = 16 * (files.length + 2) := by
  induction files using List.reverseRecOn with
  | nil => simp [rootBytes, rootEntries, dirent_length]
  | append_singleton files f ih =>
      rw [rootBytes_concat, List.length_append, ih, dirent_length, List.length_append,
        List.length_singleton]
      omega

/-- The blocks of the files. -/
def fileBlocks (files : List Input) : Nat := (files.map fun f => blocksFor f.bytes.length).sum

/-- The files are on the image, with the root directory. -/
structure Holds (s : Image) (files : List Input) : Prop where
  whole : Whole s
  count : s.freeinode = files.length + 2
  root : s.content ROOTINO = rootBytes files
  file : ∀ (k : Nat) (f : Input), files[k]? = some f → s.content (k + 2) = f.bytes
  cost : s.freeblock ≤ nmeta + blocksFor (16 * (files.length + 2)) + fileBlocks files

theorem Holds.length_root {files : List Input} (h : Holds s files) :
    (s.content ROOTINO).length = 16 * (files.length + 2) := by
  rw [h.root, rootBytes_length]

theorem addFile_total {files : List Input} {f : Input} (h : Holds s files)
    (hinodes : files.length + 2 < NINODES) (hopen : f.opens)
    (hfit : f.bytes.length ≤ MAXFILE * BSIZE)
    (hroom : nmeta + blocksFor (16 * (files.length + 3)) + fileBlocks files +
      blocksFor f.bytes.length ≤ FSSIZE) :
    ∃ s', addFile s f = some s' ∧ Holds s' (files ++ [f]) := by
  have hroot : ROOTINO = 1 := rfl
  have hnin : NINODES = 200 := rfl
  have hmax : MAXFILE * BSIZE = 71680 := rfl
  have hcount := h.count
  have hcost := h.cost
  have hty : typeOf s.freeinode = T_FILE := if_neg (by omega)
  obtain ⟨reads, hreads⟩ := Option.ne_none_iff_exists'.mp hopen.2
  have hbytes : f.bytes = readAll reads := by rw [Input.bytes, hreads, Option.getD_some]
  rw [hbytes] at hfit hroom
  obtain ⟨s₁, he₁, hw₁, hf₁, hb₁, hnew₁, hold₁⟩ := ialloc_total h.whole (by omega)
  rw [hty, hcount] at he₁
  have hroot₁ : (s₁.content ROOTINO).length = 16 * (files.length + 2) := by
    rw [hold₁ ROOTINO (by omega) (by omega), h.length_root]
  have hnext : 16 * (files.length + 2) + 16 = 16 * (files.length + 3) := by omega
  obtain ⟨s₂, he₂, hs₂⟩ := iappend_total hw₁ (i := ROOTINO) (by decide) (by omega)
    (dirent (files.length + 2) f.stored)
    (by rw [hroot₁, dirent_length]; omega)
    (by rw [hroot₁, dirent_length, hnext, hb₁]; omega)
  have hcost₂ := hs₂.cost
  rw [hroot₁, dirent_length, hnext, hb₁] at hcost₂
  have hnew₂ : s₂.content (files.length + 2) = [] := by
    rw [hs₂.others _ (by omega) (by omega), ← hcount, hnew₁]
  have hzero : blocksFor 0 = 0 := rfl
  obtain ⟨s₃, he₃, hs₃⟩ := copyFile_total (i := files.length + 2) reads hs₂.whole (by omega)
    (by rw [hs₂.freeinode]; omega)
    (by rw [hnew₂, List.length_nil, Nat.zero_add]; exact hfit)
    (by rw [hnew₂, List.length_nil, Nat.zero_add, hzero]; omega)
  have hcost₃ := hs₃.cost
  rw [hnew₂, List.length_nil, Nat.zero_add, hzero] at hcost₃
  have hlen : (files ++ [f]).length = files.length + 1 := by
    rw [List.length_append, List.length_singleton]
  refine ⟨s₃, ?_, hs₃.whole, ?_, ?_, fun k g hk => ?_, ?_⟩
  · rw [addFile, if_neg (by rw [hopen.1]; exact Bool.false_ne_true), hreads]
    simp only [Option.bind_eq_bind, Option.bind_some, he₁]
    rw [show (if f.name.head? = some 0x5f then f.name.tail else f.name) = f.stored from rfl, he₂]
    exact he₃
  · rw [hs₃.freeinode, hs₂.freeinode, hf₁, hcount, hlen]
  · rw [hs₃.others ROOTINO (by omega) (by omega), hs₂.content,
      hold₁ ROOTINO (by omega) (by omega), h.root, rootBytes_concat]
  · rw [List.getElem?_append] at hk
    split at hk
    · next hlt =>
        rw [hs₃.others _ (by omega) (by omega), hs₂.others _ (by omega) (by omega),
          hold₁ _ (by omega) (by omega), h.file k g hk]
    · next hge =>
        have hk0 : k - files.length = 0 := by
          by_contra hne
          rw [List.getElem?_eq_none (by simp; omega)] at hk
          cases hk
        rw [hk0] at hk
        cases hk
        rw [show k + 2 = files.length + 2 by omega, hs₃.content, hnew₂, List.nil_append, hbytes]
  · rw [fileBlocks, List.map_append, List.sum_append, List.map_singleton, List.sum_singleton,
      hbytes, hlen, show files.length + 1 + 2 = files.length + 3 from rfl]
    rw [fileBlocks] at hcost
    omega

theorem addFiles_total : ∀ (rest : List Input) {s : Image} {files : List Input}, Holds s files →
    files.length + rest.length + 1 < NINODES → (∀ f ∈ rest, f.opens) →
    (∀ f ∈ rest, f.bytes.length ≤ MAXFILE * BSIZE) →
    nmeta + blocksFor (16 * (files.length + rest.length + 2)) + fileBlocks files +
      fileBlocks rest ≤ FSSIZE →
    ∃ s', addFiles s rest = some s' ∧ Holds s' (files ++ rest)
  | [], s, files, h, _, _, _, _ => ⟨s, rfl, by rw [List.append_nil]; exact h⟩
  | f :: rest, s, files, h, hinodes, hopen, hfit, hroom => by
      have hnin : NINODES = 200 := rfl
      rw [List.length_cons] at hinodes hroom
      have hsum : fileBlocks (f :: rest) = blocksFor f.bytes.length + fileBlocks rest := rfl
      rw [hsum] at hroom
      have hmono := blocksFor_mono
        (show 16 * (files.length + 3) ≤ 16 * (files.length + (rest.length + 1) + 2) by omega)
      obtain ⟨s₁, he, h₁⟩ := addFile_total h (by omega) (hopen f List.mem_cons_self)
        (hfit f List.mem_cons_self) (by omega)
      have hlen : (files ++ [f]).length = files.length + 1 := by
        rw [List.length_append, List.length_singleton]
      have hblocks : fileBlocks (files ++ [f]) = fileBlocks files + blocksFor f.bytes.length := by
        simp [fileBlocks]
      obtain ⟨s₂, he', h₂⟩ := addFiles_total rest h₁ (by rw [hlen]; omega)
        (fun g hg => hopen g (List.mem_cons_of_mem _ hg))
        (fun g hg => hfit g (List.mem_cons_of_mem _ hg))
        (by rw [hlen, hblocks, show files.length + 1 + rest.length + 2 =
          files.length + (rest.length + 1) + 2 by omega]; omega)
      refine ⟨s₂, ?_, ?_⟩
      · rw [addFiles, he]
        exact he'
      · rw [List.append_assoc] at h₂
        exact h₂

theorem makeRoot_total : ∃ s, makeRoot blank = some s ∧ Holds s [] := by
  obtain ⟨s₁, he₁, hw₁, hf₁, hb₁, hnew₁, -⟩ := ialloc_total blank_whole (by decide)
  have hlen : ∀ n name, (dirent n name).length = 16 := dirent_length
  have hfi : blank.freeinode = 1 := rfl
  have hroot : ROOTINO = 1 := rfl
  have hfb : blank.freeblock = 59 := rfl
  have hnew₁ : s₁.content ROOTINO = [] := hnew₁
  have h16 : blocksFor 16 = 1 := rfl
  have h32 : blocksFor 32 = 1 := rfl
  have h0 : blocksFor 0 = 0 := rfl
  have hsz : FSSIZE = 1000 := rfl
  obtain ⟨s₂, he₂, hs₂⟩ := iappend_total hw₁ (i := ROOTINO) (by decide) (by omega)
    (dirent 1 [0x2e]) (by rw [hnew₁, hlen]; decide)
    (by rw [hnew₁, hlen, List.length_nil, Nat.zero_add, h16, h0, hb₁]; omega)
  have hcost₂ := hs₂.cost
  rw [hnew₁, hlen, List.length_nil, Nat.zero_add, h16, h0] at hcost₂
  have hlen₂ : (s₂.content ROOTINO).length = 16 := by
    rw [hs₂.content, hnew₁, List.nil_append, hlen]
  obtain ⟨s₃, he₃, hs₃⟩ := iappend_total hs₂.whole (i := ROOTINO) (by decide)
    (by rw [hs₂.freeinode]; omega) (dirent 1 [0x2e, 0x2e]) (by rw [hlen₂, hlen]; decide)
    (by rw [hlen₂, hlen, h32, h16]; omega)
  have hcost₃ := hs₃.cost
  rw [hlen₂, hlen, h32, h16] at hcost₃
  refine ⟨s₃, ?_, hs₃.whole, ?_, ?_, fun k f hk => ?_, ?_⟩
  · have he₁ : ialloc blank T_DIR = some (s₁, ROOTINO) := he₁
    simp only [makeRoot, he₁, Option.bind_eq_bind, Option.bind_some, if_true]
    rw [show dirent ROOTINO [0x2e] = dirent 1 [0x2e] from rfl, he₂, Option.bind_some,
      show dirent ROOTINO [0x2e, 0x2e] = dirent 1 [0x2e, 0x2e] from rfl, he₃]
  · rw [hs₃.freeinode, hs₂.freeinode, hf₁]
    rfl
  · rw [hs₃.content, hs₂.content, hnew₁]
    rfl
  · cases hk
  · show s₃.freeblock ≤ 59 + 1 + 0
    omega

end Xv6.Ref.Mkfs
