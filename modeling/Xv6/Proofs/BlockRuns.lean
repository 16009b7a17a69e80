import Xv6.Proofs.Itrunc
import Xv6.Lib.Trans
import Xv6.Proofs.MkfsImage

/-!
# Block ownership in every run

Every operation on inodes keeps `BlockInv`, and with it the inode cache: a valid
entry is the inode on the disk, and no inode has two entries. Hence no block is
freed twice, whatever the sequence of operations.
-/

namespace Xv6.Ref.Inodes

open Xv6.Lib

variable {sb : Superblock} {start i : Nat} {d d' : Disk} {ip : DiskInode} {s : Files}

/-! ## Freeing an inode -/

theorem mem_heldBlocks (h : d.table sb i = ip) {x : Nat} :
    x ∈ heldBlocks ip d ↔ ∃ k, ptrs (d.table sb) d (i, k) = some x := by
  rw [heldBlocks, nonzero, List.mem_filter, List.mem_map]
  constructor
  · rintro ⟨⟨k, hk, rfl⟩, hx⟩
    exact ⟨k, ptrs_some.mpr ⟨(mem_truncOrder k).mp hk, by simpa using hx, by rw [h]⟩⟩
  · rintro ⟨k, hk⟩
    obtain ⟨hlt, hx, he⟩ := ptrs_some.mp hk
    rw [h] at he
    exact ⟨⟨k, (mem_truncOrder k).mpr hlt, he⟩, by simpa using hx⟩

/-- A place holds its block alone. -/
theorem heldBlocks_nodup (h : BlockInv sb start d) (ht : d.table sb i = ip) :
    (heldBlocks ip d).Nodup := by
  rw [heldBlocks, nonzero, List.filter_map]
  refine List.Nodup.map_on (fun k hk l hl he => ?_) (truncOrder_nodup.filter _)
  rw [List.mem_filter] at hk hl
  have hk0 : ip.ptr d k ≠ 0 := by simpa using hk.2
  have h1 : ptrs (d.table sb) d (i, k) = some (ip.ptr d k) :=
    ptrs_some.mpr ⟨(mem_truncOrder k).mp hk.1, hk0, by rw [ht]⟩
  have h2 : ptrs (d.table sb) d (i, l) = some (ip.ptr d k) :=
    ptrs_some.mpr ⟨(mem_truncOrder l).mp hl.1, hk0, by rw [ht, he]⟩
  exact congrArg Prod.snd (h.owned.one _ _ _ h1 h2)

theorem BlockInv.held (h : BlockInv sb start d) {l : Place} {x : Nat}
    (hl : ptrs (d.table sb) d l = some x) : data sb start x ∧ d.bit sb x = true := by
  obtain ⟨ha, hf⟩ := h.owned.held l x hl
  refine ⟨ha, ?_⟩
  cases hb : d.bit sb x with
  | true => rfl
  | false => exact absurd ⟨ha, hb⟩ hf

theorem BlockInv.itrunc (hsb : sb.Ordered start) (h : BlockInv sb start d)
    (ht : d.table sb i = ip) :
    Inodes.itrunc sb d i ip =
      .ok (iupdate sb (bfreeAll sb (heldBlocks ip d) d) i (emptied ip), emptied ip) := by
  have hheld : ∀ x ∈ heldBlocks ip d, data sb start x ∧ d.bit sb x = true := by
    intro x hx
    obtain ⟨k, hk⟩ := (mem_heldBlocks ht).mp hx
    exact h.held hk
  exact itrunc_eq hsb (heldBlocks_nodup h ht) (fun x hx => (hheld x hx).2)
    fun x hx => (hheld x hx).1

/-- `itrunc(ip); ip->type = 0; iupdate(ip)`: the blocks are free and the inode is. -/
theorem BlockInv.freed (hsb : sb.Ordered start) (h : BlockInv sb start d) (hi : i < sb.ninodes)
    (ht : d.table sb i = ip) {v w : DiskInode} (hv : v.type = 0) :
    BlockInv sb start
      (((bfreeAll sb (heldBlocks ip d) d).setDinode sb i w).setDinode sb i v) := by
  have hlt : ∀ x ∈ heldBlocks ip d, data sb start x := by
    intro x hx
    obtain ⟨k, hk⟩ := (mem_heldBlocks ht).mp hx
    exact (h.held hk).1
  generalize hd' : ((bfreeAll sb (heldBlocks ip d) d).setDinode sb i w).setDinode sb i v = d'
  have hdata : ∀ y, data sb start y → d' y = d y := by
    intro y hy
    rw [← hd', setDinode_data hsb hi v hy, setDinode_data hsb hi w hy,
      bfreeAll_data hsb (fun x hx => (hlt x hx).2) d hy.1]
  have hbit : ∀ b, d'.bit sb b = (d.bit sb b && !(heldBlocks ip d).contains b) := by
    intro b
    rw [← hd', Disk.bit_setDinode hsb hi, Disk.bit_setDinode hsb hi, bfreeAll_bit]
  have htab : d'.table sb = setNode (d.table sb) i DiskInode.zero := by
    funext j
    by_cases hj : j < sb.ninodes
    · simp only [Disk.table, setNode, ← hd', Disk.dinode_setDinode, bfreeAll_dinode hsb _ d hj]
      by_cases hij : i = j
      · simp [hij, hv]
      · simp [hij, Ne.symm hij]
    · have hz : ∀ e : Disk, e.table sb j = DiskInode.zero := fun e => if_neg fun h' => hj h'.1
      rw [hz, setNode_ne (by omega), hz]
  have hptr : ∀ j k, j ≠ i → (d'.table sb j).ptr d' k = (d.table sb j).ptr d k := by
    intro j k hj
    rw [htab, setNode_ne hj]
    exact ptr_frame h.owned _ (fun y hy _ => hdata y hy) j k
  have hzero : ∀ k, (d'.table sb i).ptr d' k = 0 := by
    intro k
    rw [htab, setNode_same, DiskInode.zero_ptr]
  refine ⟨h.owned.release (P := fun l => l.1 = i) (fun l hl => ?_) (fun l hl => ?_) fun r => ?_,
    fun j => ?_, fun b hb hsz => ?_⟩
  · exact ptrs_none (by rw [hl]; exact hzero _)
  · exact ptrs_congr (hptr _ _ hl)
  · constructor
    · rintro ⟨hr, hb⟩
      rw [hbit] at hb
      by_cases hm : r ∈ heldBlocks ip d
      · obtain ⟨k, hk⟩ := (mem_heldBlocks ht).mp hm
        exact Or.inr ⟨(i, k), rfl, hk⟩
      · left
        refine ⟨hr, ?_⟩
        simpa [hm] using hb
    · rintro (⟨hr, hb⟩ | ⟨⟨j, k⟩, hj, hk⟩)
      · exact ⟨hr, by rw [hbit, hb]; rfl⟩
      · obtain rfl : j = i := hj
        have hm : r ∈ heldBlocks ip d := (mem_heldBlocks ht).mpr ⟨k, hk⟩
        refine ⟨hlt r hm, ?_⟩
        rw [hbit]
        simp [hm]
  · by_cases hj : j = i
    · subst hj
      have hs : (d'.table sb j).size.toNat = 0 := by
        rw [htab, setNode_same]
        rfl
      rw [hs]
      exact Spans.zero hzero
    · have hs : (d'.table sb j).size = (d.table sb j).size := by rw [htab, setNode_ne hj]
      rw [hs]
      exact (h.spans j).congr fun k => hptr j k hj
  · have hm : b ∉ heldBlocks ip d := fun hm => absurd (hlt b hm).1 (by omega)
    rw [hbit, h.metaSet b hb hsz]
    simp [hm]

/-- What leaves the table, the data and the free map leaves the invariant. -/
theorem BlockInv.congr (h : BlockInv sb start d) (htab : d'.table sb = d.table sb)
    (hdata : ∀ y, data sb start y → d' y = d y) (hbit : ∀ b, d'.bit sb b = d.bit sb b) :
    BlockInv sb start d' := by
  have hptr : ∀ j k, (d'.table sb j).ptr d' k = (d.table sb j).ptr d k := by
    intro j k
    rw [htab]
    exact ptr_frame h.owned _ (fun y hy _ => hdata y hy) j k
  refine ⟨h.owned.congr (fun l => ptrs_congr (hptr _ _)) fun r => ?_, fun j => ?_,
    fun b hb hsz => ?_⟩
  · simp only [clear, hbit]
  · rw [htab]
    exact (h.spans j).congr fun k => by rw [← hptr, htab]
  · rw [hbit]
    exact h.metaSet b hb hsz

/-- A change of an inode that leaves addresses and size, or a new inode. -/
theorem BlockInv.setDinode (hsb : sb.Ordered start) (h : BlockInv sb start d)
    (hi : i < sb.ninodes) {v : DiskInode} (ha : v.addrs = (d.table sb i).addrs)
    (hs : v.size = (d.table sb i).size) (ht : v.type = 0 → (d.dinode sb i).type = 0) :
    BlockInv sb start (d.setDinode sb i v) := by
  by_cases hv : v.type = 0
  · refine h.congr (funext fun j => ?_) (fun y hy => setDinode_data hsb hi v hy)
      fun b => Disk.bit_setDinode hsb hi v
    simp only [Disk.table, Disk.dinode_setDinode]
    by_cases hij : i = j
    · subst hij
      simp [hv, ht hv]
    · rw [if_neg hij]
  · exact (h.mid i).close hsb hi hv ha (by rw [hs])

/-! ## The inode cache -/

/-- A valid entry of the cache is the inode on the disk, and an inode has one entry. -/
structure FilesInv (sb : Superblock) (start : Nat) (s : Files) : Prop where
  block : BlockInv sb start s.disk
  cache : ∀ p, s.locked p → (s.icache p).inum < sb.ninodes ∧
    s.disk.dinode sb (s.icache p).inum = (s.icache p).din ∧ (s.icache p).din.type ≠ 0
  uniq : ∀ p q, 0 < (s.icache p).ref → 0 < (s.icache q).ref →
    (s.icache p).inum = (s.icache q).inum → p = q

variable {p q : Iptr}

@[simp] theorem setInode_same (s : Files) (p : Iptr) (f : Inode → Inode) :
    (s.setInode p f).icache p = f (s.icache p) := if_pos rfl

theorem setInode_ne (f : Inode → Inode) (h : q ≠ p) :
    (s.setInode p f).icache q = s.icache q := if_neg h

theorem update_setInode (s : Files) (p : Iptr) (d : Disk) (v : DiskInode) (g : Inode → Inode) :
    (s.update p d v).setInode p g =
      { s.setInode p (fun i => g { i with din := v }) with disk := d } := by
  simp only [Files.update, Files.setInode]
  congr 1
  funext q
  by_cases hq : q = p
  · simp [hq]
  · simp [hq]

theorem FilesInv.table (h : FilesInv sb start s) (hp : s.locked p) :
    s.disk.table sb (s.icache p).inum = (s.icache p).din := by
  obtain ⟨hlt, hd, ht⟩ := h.cache p hp
  rw [table_eq hlt (by rw [hd]; exact ht), hd]

/-- One entry changes, and of the disk at most the inode it is for. -/
theorem FilesInv.change {f : Inode → Inode} (h : FilesInv sb start s)
    (hblock : BlockInv sb start d')
    (hd : ∀ j < sb.ninodes, j ≠ (s.icache p).inum → d'.dinode sb j = s.disk.dinode sb j)
    (hinum : (f (s.icache p)).inum = (s.icache p).inum)
    (href : 0 < (f (s.icache p)).ref → 0 < (s.icache p).ref)
    (hvalid : 0 < (f (s.icache p)).ref → (f (s.icache p)).valid = true →
      (s.icache p).inum < sb.ninodes ∧
        d'.dinode sb (s.icache p).inum = (f (s.icache p)).din ∧ (f (s.icache p)).din.type ≠ 0)
    (hrest : d'.dinode sb (s.icache p).inum = s.disk.dinode sb (s.icache p).inum ∨
      0 < (s.icache p).ref) :
    FilesInv sb start { s.setInode p f with disk := d' } := by
  have hget : ∀ q, (s.setInode p f).icache q = if q = p then f (s.icache q) else s.icache q :=
    fun q => rfl
  refine ⟨hblock, fun q hq => ?_, fun q r hq hr he => ?_⟩
  · by_cases hqp : q = p
    · subst hqp
      have hq' : 0 < (f (s.icache q)).ref ∧ (f (s.icache q)).valid = true := by
        simpa [Files.locked] using hq
      obtain ⟨h1, h2, h3⟩ := hvalid hq'.1 hq'.2
      show ((s.setInode q f).icache q).inum < _ ∧ d'.dinode sb ((s.setInode q f).icache q).inum =
        ((s.setInode q f).icache q).din ∧ ((s.setInode q f).icache q).din.type ≠ 0
      rw [setInode_same, hinum]
      exact ⟨h1, h2, h3⟩
    · have hq' : s.locked q := by
        have : (s.setInode p f).icache q = s.icache q := setInode_ne f hqp
        simpa [Files.locked, this] using hq
      obtain ⟨h1, h2, h3⟩ := h.cache q hq'
      show ((s.setInode p f).icache q).inum < _ ∧ d'.dinode sb ((s.setInode p f).icache q).inum =
        ((s.setInode p f).icache q).din ∧ ((s.setInode p f).icache q).din.type ≠ 0
      rw [setInode_ne f hqp]
      refine ⟨h1, ?_, h3⟩
      by_cases hi : (s.icache q).inum = (s.icache p).inum
      · rcases hrest with hr | hr
        · rw [hi, hr, ← hi, h2]
        · exact absurd (h.uniq q p hq'.1 hr hi) hqp
      · rw [hd _ h1 hi, h2]
  · have hpre : ∀ q, 0 < ((s.setInode p f).icache q).ref → 0 < (s.icache q).ref ∧
        ((s.setInode p f).icache q).inum = (s.icache q).inum := by
      intro q hq
      by_cases hqp : q = p
      · subst hqp
        rw [setInode_same] at hq ⊢
        exact ⟨href hq, hinum⟩
      · rw [setInode_ne f hqp] at hq ⊢
        exact ⟨hq, rfl⟩
    obtain ⟨h1, h2⟩ := hpre q hq
    obtain ⟨h3, h4⟩ := hpre r hr
    have he : ((s.setInode p f).icache q).inum = ((s.setInode p f).icache r).inum := he
    exact h.uniq q r h1 h3 (by rw [← h2, ← h4, he])

/-- The state after an operation, and the entries of the other inodes. -/
def Keeps (sb : Superblock) (start : Nat) (s : Files) (p : Iptr) (s' : Files) : Prop :=
  FilesInv sb start s' ∧ ∀ q, q ≠ p → s'.icache q = s.icache q

/-- The one panic that is about ownership. -/
abbrev doubleFree (e : Panic) : Prop := e = .freeingFreeBlock

theorem FilesInv.ref (h : FilesInv sb start s) (g : Nat → Nat)
    (hp : 0 < g (s.icache p).ref → 0 < (s.icache p).ref) :
    Keeps sb start s p (s.setInode p fun i => { i with ref := g i.ref }) := by
  refine ⟨h.change (f := fun i => { i with ref := g i.ref }) h.block (fun _ _ _ => rfl) rfl hp
    (fun hr hv => h.cache p ⟨hp hr, hv⟩) (Or.inl rfl), fun q hq => setInode_ne _ hq⟩

theorem FilesInv.freeInode (hsb : sb.Ordered start) (h : FilesInv sb start s)
    (hp : s.locked p) : ∃ s', Inodes.freeInode sb s p = .ok s' ∧ Keeps sb start s p s' := by
  obtain ⟨hlt, hd, ht⟩ := h.cache p hp
  have htab := h.table hp
  rw [Inodes.freeInode, h.block.itrunc hsb htab]
  refine ⟨_, rfl, ?_, fun q hq => ?_⟩
  · rw [update_setInode]
    refine h.change (h.block.freed hsb hlt htab (v := { emptied (s.icache p).din with type := 0 })
      rfl) (fun j hj hne => ?_) rfl (fun hr => hr) (fun _ hv => by cases hv) (Or.inr hp.1)
    rw [iupdate, Disk.dinode_setDinode, if_neg (Ne.symm hne), iupdate, Disk.dinode_setDinode,
      if_neg (Ne.symm hne), bfreeAll_dinode hsb _ _ hj]
  · rw [update_setInode]
    exact if_neg hq

theorem FilesInv.iput (hsb : sb.Ordered start) (h : FilesInv sb start s) (p : Iptr) :
    Safe doubleFree (Keeps sb start s p) (Inodes.iput sb s p) := by
  have hdrop : ∀ s', Keeps sb start s p s' →
      Keeps sb start s p (s'.setInode p fun i => { i with ref := i.ref - 1 }) := by
    intro s' hs'
    obtain ⟨h1, h2⟩ := hs'.1.ref (p := p) (· - 1) fun hn => by omega
    exact ⟨h1, fun q hq => (h2 q hq).trans (hs'.2 q hq)⟩
  rw [Inodes.iput]
  split
  · next hc =>
      obtain ⟨s', he, hk⟩ := h.freeInode hsb (p := p) ⟨by omega, hc.1⟩
      rw [he]
      exact hdrop s' hk
  · exact hdrop s ⟨h, fun _ _ => rfl⟩

theorem FilesInv.iget (h : FilesInv sb start s) (inum : Nat) :
    Safe doubleFree (fun r => FilesInv sb start r.1) (Inodes.iget s inum) := by
  rw [Inodes.iget]
  split
  · next p hp =>
      have hpos := List.find?_some hp
      rw [Bool.and_eq_true, decide_eq_true_iff] at hpos
      exact (h.ref (· + 1) fun _ => hpos.1).1
  · next hnone =>
      split
      · next p hp =>
          have hzero : (s.icache p).ref = 0 := by simpa using List.find?_some hp
          have hno : ∀ q, 0 < (s.icache q).ref → (s.icache q).inum ≠ inum := by
            intro q hq he
            have := List.find?_eq_none.mp hnone q (List.mem_finRange q)
            simp [hq, he] at this
          refine ⟨h.block, fun q hq => ?_, fun q r hq hr he => ?_⟩
          · have hqp : q ≠ p := by
              rintro rfl
              simp [Files.locked] at hq
            rw [Files.locked, setInode_ne _ hqp] at hq
            rw [setInode_ne _ hqp]
            exact h.cache q hq
          · by_cases hqp : q = p <;> by_cases hrp : r = p
            · rw [hqp, hrp]
            · subst hqp
              rw [setInode_same, setInode_ne _ hrp] at he
              rw [setInode_ne _ hrp] at hr
              exact absurd he.symm (hno r hr)
            · subst hrp
              rw [setInode_same, setInode_ne _ hqp] at he
              rw [setInode_ne _ hqp] at hq
              exact absurd he (hno q hq)
            · rw [setInode_ne _ hqp] at he hq
              rw [setInode_ne _ hrp] at he hr
              exact h.uniq q r hq hr he
      · exact fun hc => by cases hc

theorem FilesInv.ilock (h : FilesInv sb start s) (hlt : (s.icache p).inum < sb.ninodes) :
    Safe doubleFree (FilesInv sb start) (Inodes.ilock sb s p) := by
  rw [Inodes.ilock]
  split
  · exact fun hc => by cases hc
  · next hr =>
      split
      · exact h
      · dsimp only
        split
        · exact fun hc => by cases hc
        · next ht =>
            exact h.change (f := fun i => { i with din := _, valid := true }) h.block (fun _ _ _ => rfl) rfl (fun hr => hr)
              (fun _ _ => ⟨hlt, rfl, ht⟩) (Or.inl rfl)

theorem FilesInv.ialloc (hsb : sb.Ordered start) (h : FilesInv sb start s) (type : BitVec 16) :
    Safe doubleFree (fun r => FilesInv sb start r.1) (Inodes.ialloc sb s type) := by
  rw [Inodes.ialloc]
  split
  · next inum hf =>
      have h0 : (s.disk.dinode sb inum).type = 0 := by simpa using List.find?_some hf
      have hlt : inum < sb.ninodes := by
        have := List.mem_of_find?_eq_some hf
        rw [List.mem_range'_1] at this
        omega
      have hz : s.disk.table sb inum = DiskInode.zero := if_neg fun h' => h'.2 h0
      generalize hv : ({ DiskInode.zero with type := type } : DiskInode) = v
      have hblock := h.block.setDinode hsb hlt (v := v) (by rw [hz, ← hv]) (by rw [hz, ← hv])
        fun _ => h0
      have hinv : FilesInv sb start { s with disk := s.disk.setDinode sb inum v } := by
        refine ⟨hblock, fun q hq => ?_, h.uniq⟩
        obtain ⟨h1, h2, h3⟩ := h.cache q hq
        refine ⟨h1, ?_, h3⟩
        have hne : inum ≠ (s.icache q).inum := by
          intro he
          rw [he, h2] at h0
          exact h3 h0
        exact (Disk.dinode_setDinode ..).trans ((if_neg hne).trans h2)
      exact hinv.iget inum
  · exact fun hc => by cases hc

theorem FilesInv.setLinks (hsb : sb.Ordered start) (h : FilesInv sb start s) (hp : s.locked p)
    (major minor nlink : BitVec 16) :
    Keeps sb start s p (Inodes.setLinks sb s p major minor nlink) ∧
      (Inodes.setLinks sb s p major minor nlink).locked p := by
  obtain ⟨hlt, hd, ht⟩ := h.cache p hp
  have htab := h.table hp
  generalize hs' : Inodes.setLinks sb s p major minor nlink = s'
  rw [Inodes.setLinks, Files.update] at hs'
  generalize hv : ({ (s.icache p).din with
    major := major, minor := minor, nlink := nlink } : DiskInode) = v at hs'
  have hblock := h.block.setDinode hsb hlt (v := v) (by rw [htab, ← hv]) (by rw [htab, ← hv])
    fun h0 => absurd h0 (by rw [← hv]; exact ht)
  subst hs'
  refine ⟨⟨?_, fun q hq => if_neg hq⟩, ?_⟩
  · refine h.change hblock (fun j _ hne => ?_) rfl (fun hr => hr)
      (fun _ _ => ⟨hlt, ?_, by rw [← hv]; exact ht⟩) (Or.inr hp.1)
    · rw [iupdate, Disk.dinode_setDinode, if_neg (Ne.symm hne)]
    · rw [iupdate, Disk.dinode_setDinode, if_pos rfl]
  · exact ⟨by simpa using hp.1, by simpa using hp.2⟩

/-! ## Content and directories -/

/-- Putting the inode back as it is. -/
theorem update_self (s : Files) (p : Iptr) : s.update p s.disk (s.icache p).din = s := by
  rw [Files.update, Files.setInode]
  refine congrArg (Files.mk s.disk) (funext fun q => ?_)
  dsimp only
  split
  · next hq => rw [hq]
  · rfl

/-- Reading changes nothing. -/
theorem FilesInv.readInode (h : FilesInv sb start s) (devsw : Nat → Devsw) (hp : s.locked p)
    (off n : BitVec 32) : ∃ r, Inodes.readInode sb devsw s p off n = .ok (s, r) := by
  obtain ⟨hlt, hd, ht⟩ := h.cache p hp
  obtain ⟨r, hr⟩ : ∃ r, readi sb devsw s.disk (s.icache p).din off n =
      .ok (s.disk, (s.icache p).din, r) := by
    by_cases hdev : (s.icache p).din.type = T_DEV
    · rw [readi, if_pos hdev]
      split
      · exact ⟨_, rfl⟩
      · split <;> exact ⟨_, rfl⟩
    · obtain ⟨h1, h2⟩ := readi_eq devsw h.block hlt hd ht hdev off n
      by_cases hb : badRead (s.icache p).din off n
      · exact ⟨_, h1 hb⟩
      · exact ⟨_, h2 hb⟩
  refine ⟨r, ?_⟩
  rw [Inodes.readInode, hr, ok_bind]
  dsimp only
  rw [update_self, pure_eq_ok]

theorem FilesInv.writeInode (hsb : sb.Ordered start) (h : FilesInv sb start s)
    (devsw : Nat → Devsw) (hp : s.locked p) {src : List UInt8} (hlen : src.length < 2 ^ 32)
    (off : BitVec 32) :
    Safe doubleFree (fun r => Keeps sb start s p r.1 ∧ r.1.locked p)
      (Inodes.writeInode sb devsw s p src off) := by
  obtain ⟨hlt, hd, ht⟩ := h.cache p hp
  have hlock : ∀ d v, (s.update p d v).locked p := by
    intro d v
    rw [Files.locked, Files.update]
    exact ⟨by simpa using hp.1, by simpa using hp.2⟩
  -- the results: nothing has changed, `balloc` has failed, or the bytes are written
  have hkeep : Keeps sb start s p (s.update p s.disk (s.icache p).din) :=
    ⟨h.change h.block (fun _ _ _ => rfl) rfl (fun hr => hr)
      (fun _ _ => ⟨hlt, hd, ht⟩) (Or.inl rfl), fun q hq => if_neg hq⟩
  have hsame : ∀ r, writei sb devsw s.disk (s.icache p).inum (s.icache p).din src off =
      .ok (s.disk, (s.icache p).din, r) →
      Safe doubleFree (fun r => Keeps sb start s p r.1 ∧ r.1.locked p)
        (Inodes.writeInode sb devsw s p src off) := by
    intro r hr
    rw [Inodes.writeInode, hr]
    exact ⟨hkeep, hlock _ _⟩
  by_cases hdev : (s.icache p).din.type = T_DEV
  · obtain ⟨r, hr⟩ : ∃ r, writei sb devsw s.disk (s.icache p).inum (s.icache p).din src off =
        .ok (s.disk, (s.icache p).din, r) := by
      rw [writei]
      dsimp only
      rw [if_pos hdev]
      split
      · exact ⟨_, rfl⟩
      · split <;> exact ⟨_, rfl⟩
    exact hsame r hr
  by_cases hrange : inRange (s.icache p).din off src.length
  · rcases writei_inRange devsw hsb h.block hlt hd ht hdev hrange
      with ⟨he, -⟩ | ⟨d', ip', he, -, -, hw⟩
    · rw [Inodes.writeInode, he]
      exact fun hc => by cases hc
    · rw [Inodes.writeInode, he]
      refine ⟨⟨?_, fun q hq => if_neg hq⟩, hlock _ _⟩
      refine h.change hw.block (fun j hj hne => hw.dinode j hj hne) rfl (fun hr => hr)
        (fun _ _ => ⟨hlt, hw.inode, ?_⟩) (Or.inr hp.1)
      show ip'.type ≠ 0
      rw [hw.same, hd]
      exact ht
  · exact hsame none (writei_notInRange devsw hdev hlen hrange)

section

variable (h : FilesInv sb start s) (devsw : Nat → Devsw) (hp : s.locked p)

include h hp

theorem FilesInv.dirlookupLoop (name : List UInt8) : ∀ fuel off,
    Safe doubleFree (fun r => r.1 = s) (Inodes.dirlookupLoop sb devsw p name fuel s off)
  | 0, off => rfl
  | fuel + 1, off => by
      rw [Inodes.dirlookupLoop]
      split
      · obtain ⟨r, hr⟩ := h.readInode devsw hp (BitVec.ofNat 32 off) 16
        rw [hr, ok_bind]
        dsimp only
        split
        · split
          · exact fun hc => by cases hc
          · split
            · rfl
            · exact FilesInv.dirlookupLoop name fuel _
        · exact fun hc => by cases hc
      · rfl

theorem FilesInv.emptyDirent : ∀ fuel off,
    Safe doubleFree (fun r => r.1 = s) (Inodes.emptyDirent sb devsw p fuel s off)
  | 0, off => rfl
  | fuel + 1, off => by
      rw [Inodes.emptyDirent]
      split
      · obtain ⟨r, hr⟩ := h.readInode devsw hp (BitVec.ofNat 32 off) 16
        rw [hr, ok_bind]
        dsimp only
        split
        · split
          · exact fun hc => by cases hc
          · split
            · rfl
            · exact FilesInv.emptyDirent fuel _
        · exact fun hc => by cases hc
      · rfl

/-- A name that is not found leaves the state. -/
theorem FilesInv.dirlookup (name : List UInt8) :
    Safe doubleFree (fun r => FilesInv sb start r.1 ∧ (r.2 = none → r.1 = s))
      (Inodes.dirlookup sb devsw s p name) := by
  rw [Inodes.dirlookup]
  split
  · exact fun hc => by cases hc
  · refine (h.dirlookupLoop devsw hp name _ _).bind ?_
    rintro ⟨s', r⟩ rfl
    split
    · next inum off he =>
        cases he
        refine (h.iget inum).bind fun a ha => ⟨ha, fun hc => by cases hc⟩
    · next he =>
        cases he
        exact ⟨h, fun _ => rfl⟩

end

theorem FilesInv.dirlink (hsb : sb.Ordered start) (h : FilesInv sb start s)
    (devsw : Nat → Devsw) (hp : s.locked p) (name : List UInt8) (inum : Nat) :
    Safe doubleFree (fun r => FilesInv sb start r.1)
      (Inodes.dirlink sb devsw s p name inum) := by
  rw [Inodes.dirlink]
  refine (h.dirlookup devsw hp name).bind ?_
  rintro ⟨s', r⟩ ⟨hs', hnone⟩
  split
  · next q off he =>
      cases he
      exact (hs'.iput hsb q).bind fun a ha => ha.1
  · next he =>
      cases he
      obtain rfl := hnone rfl
      refine (h.emptyDirent devsw hp _ _).bind ?_
      rintro ⟨s', off⟩ rfl
      have hlen : (mkDirent inum name).length < 2 ^ 32 := by
        have : (cname name).length ≤ 14 :=
          Nat.le_trans (List.takeWhile_sublist _).length_le (List.length_take_le _ _)
        simp only [mkDirent, List.length_append, List.length_cons, List.length_nil,
          List.length_replicate, DIRSIZ]
        omega
      refine (h.writeInode hsb devsw hp hlen _).bind ?_
      rintro ⟨s', r⟩ ⟨⟨hs', -⟩, -⟩
      dsimp only
      split
      · exact hs'
      · exact fun hc => by cases hc

theorem locked_of_eq {s' : Files} (he : s'.icache q = s.icache q) (h : s.locked q) :
    s'.locked q := by
  rw [Files.locked, he]
  exact h

theorem FilesInv.unlinkEntry (hsb : sb.Ordered start) (h : FilesInv sb start s)
    (devsw : Nat → Devsw) (hp : s.locked p) (hq : s.locked q) (hne : p ≠ q) (off : BitVec 32) :
    Safe doubleFree (FilesInv sb start) (Inodes.unlinkEntry sb devsw s p q off) := by
  rw [Inodes.unlinkEntry]
  refine (h.writeInode hsb devsw hp (by decide) off).bind ?_
  rintro ⟨s₁, r⟩ ⟨⟨h1, hk1⟩, hp1⟩
  have hq1 : s₁.locked q := locked_of_eq (hk1 q (Ne.symm hne)) hq
  dsimp only
  split
  · generalize hs₂ : (if (s₁.icache q).din.type = T_DIR then
      Inodes.setLinks sb s₁ p (s₁.icache p).din.major (s₁.icache p).din.minor
        ((s₁.icache p).din.nlink - 1) else s₁) = s₂
    obtain ⟨h2, hq2⟩ : FilesInv sb start s₂ ∧ s₂.locked q := by
      rw [← hs₂]
      split
      · obtain ⟨⟨h2, hk2⟩, -⟩ := h1.setLinks hsb hp1 (s₁.icache p).din.major
          (s₁.icache p).din.minor ((s₁.icache p).din.nlink - 1)
        exact ⟨h2, locked_of_eq (hk2 q (Ne.symm hne)) hq1⟩
      · exact ⟨h1, hq1⟩
    refine (h2.iput hsb p).bind fun s₃ hs₃ => ?_
    have hq3 : s₃.locked q := locked_of_eq (hs₃.2 q (Ne.symm hne)) hq2
    obtain ⟨⟨h4, -⟩, -⟩ := hs₃.1.setLinks hsb hq3 (s₃.icache q).din.major
      (s₃.icache q).din.minor ((s₃.icache q).din.nlink - 1)
    exact (h4.iput hsb q).mono fun _ ha => ha.1
  · exact fun hc => by cases hc

/-! ## Runs -/

/-- One step: no operation frees a free block, and the invariant holds afterwards. -/
theorem FilesInv.run (hsb : sb.Ordered start) (h : FilesInv sb start s) (devsw : Nat → Devsw)
    (op : FileOp) {x : Except Panic Files} (hx : op.run sb devsw s = some x) :
    Safe doubleFree (FilesInv sb start) x := by
  cases op with
  | iget inum =>
      cases hx
      exact (h.iget inum).map fun _ ha => ha
  | idup p =>
      simp only [FileOp.run] at hx
      split at hx
      · next hr =>
          cases hx
          exact (h.ref (· + 1) fun _ => hr).1
      · cases hx
  | ilock p =>
      simp only [FileOp.run] at hx
      split at hx
      · next hc =>
          cases hx
          exact h.ilock hc.2
      · cases hx
  | iput p =>
      simp only [FileOp.run] at hx
      split at hx
      · cases hx
        exact (h.iput hsb p).mono fun _ ha => ha.1
      · cases hx
  | ialloc type =>
      cases hx
      exact (h.ialloc hsb type).map fun _ ha => ha
  | setLinks p major minor nlink =>
      simp only [FileOp.run] at hx
      split at hx
      · next hp =>
          cases hx
          exact (h.setLinks hsb hp major minor nlink).1.1
      · cases hx
  | readi dev p off n =>
      simp only [FileOp.run] at hx
      split at hx
      · next hp =>
          cases hx
          obtain ⟨r, hr⟩ := h.readInode dev hp off n
          rw [hr]
          exact h
      · cases hx
  | writei dev p src off =>
      simp only [FileOp.run] at hx
      split at hx
      · next hp =>
          cases hx
          exact (h.writeInode hsb dev hp.1 hp.2 off).map fun _ ha => ha.1.1
      · cases hx
  | dirlookup p name =>
      simp only [FileOp.run] at hx
      split at hx
      · next hp =>
          cases hx
          exact (h.dirlookup devsw hp name).map fun _ ha => ha.1
      · cases hx
  | dirlink p name inum =>
      simp only [FileOp.run] at hx
      split at hx
      · next hp =>
          cases hx
          exact (h.dirlink hsb devsw hp name inum).map fun _ ha => ha
      · cases hx
  | unlink dp ip off =>
      simp only [FileOp.run] at hx
      split at hx
      · next hc =>
          cases hx
          exact h.unlinkEntry hsb devsw hc.1 hc.2.1 hc.2.2 off
      · cases hx

theorem filesInv_reach {s₀ : Files} (hsb : sb.Ordered start) (devsw : Nat → Devsw)
    (h₀ : FilesInv sb start s₀) (h : Reach (fileStep sb devsw) anyStep s₀ s) :
    FilesInv sb start s := by
  refine h.invariant h₀ fun s s' op hs _ hstep => ?_
  simp only [fileStep] at hstep
  split at hstep
  · next s'' he =>
      cases hstep
      exact hs.run hsb devsw op he
  · cases hstep

/-- Before anything is in the inode cache. -/
theorem filesInv_init {s₀ : Files} (hb : BlockInv sb start s₀.disk)
    (hc : ∀ p, (s₀.icache p).ref = 0) : FilesInv sb start s₀ := by
  refine ⟨hb, fun p hp => ?_, fun p q hp => ?_⟩
  · have := hp.1
    rw [hc p] at this
    omega
  · rw [hc p] at hp
    omega

/-- In every state reached from a consistent image, each block of the data area is free
or held by one place of one inode, and each file has exactly the blocks its size needs;
no operation frees a free block, and reading changes nothing. -/
theorem block_ownership {s₀ : Files} (hsb : sb.Ordered start) (devsw : Nat → Devsw)
    (hb : BlockInv sb start s₀.disk) (hc : ∀ p, (s₀.icache p).ref = 0)
    (h : Reach (fileStep sb devsw) anyStep s₀ s) :
    BlockInv sb start s.disk ∧
      (∀ op : FileOp, op.run sb devsw s ≠ some (.error .freeingFreeBlock)) ∧
      ∀ dev p off n s', (FileOp.readi dev p off n).run sb devsw s = some (.ok s') → s' = s := by
  have hinv := filesInv_reach hsb devsw (filesInv_init hb hc) h
  refine ⟨hinv.block, fun op he => hinv.run hsb devsw op he rfl, fun dev p off n s' he => ?_⟩
  simp only [FileOp.run] at he
  split at he
  · next hp =>
      obtain ⟨r, hr⟩ := hinv.readInode dev hp off n
      rw [hr] at he
      cases he
      rfl
  · cases he

/-- The kernel before its first operation. -/
def bootFiles (d : Disk) : Files := ⟨d, fun _ => ⟨0, 0, false, DiskInode.zero⟩⟩

/-- The file of the tiny disk is locked and grows into the last free block. -/
theorem block_ownership_tiny :
    ∃ s, Reach (fileStep (tinySb 6) fun _ => ⟨none, none⟩) anyStep (bootFiles (tinyDisk 6)) s ∧
      (s.disk.dinode (tinySb 6) 1).size.toNat = 513 ∧ BlockInv (tinySb 6) 4 s.disk := by
  have hrun : (exec (fileStep (tinySb 6) fun _ => ⟨none, none⟩) anyStep
      (bootFiles (tinyDisk 6)) [.iget 1, .ilock 0, .writei (fun _ => ⟨none, none⟩) 0 [7] 512]).any
      (fun s => (s.disk.dinode (tinySb 6) 1).size.toNat = 513) = true := by decide +kernel
  obtain ⟨s, hs, hsz⟩ := exists_reach_of_exec hrun
  exact ⟨s, hs, of_decide_eq_true hsz, (block_ownership (tinySb_ordered _ (by decide)) _
    (tinyDisk_blockInv _ (by decide) (by decide)) (fun _ => rfl) hs).1⟩

/-! ## Write-through -/

/-- The operations that leave the inodes on the disk as they are. -/
def FileOp.reads : FileOp → Bool
  | .iget _ | .idup _ | .ilock _ | .readi _ _ _ _ | .dirlookup _ _ => true
  | _ => false

theorem iget_disk {inum : Nat} {r : Files × Iptr} (h : Inodes.iget s inum = .ok r) :
    r.1.disk = s.disk := by
  rw [Inodes.iget] at h
  split at h
  · cases h
    rfl
  · split at h
    · cases h
      rfl
    · cases h

theorem ilock_disk {s' : Files} (h : Inodes.ilock sb s p = .ok s') : s'.disk = s.disk := by
  rw [Inodes.ilock] at h
  split at h
  · cases h
  · split at h
    · cases h
      rfl
    · dsimp only at h
      split at h
      · cases h
      · cases h
        rfl

theorem dirlookup_disk {devsw : Nat → Devsw} {name : List UInt8} {r : Files × Option (Iptr × Nat)}
    (hinv : FilesInv sb start s) (hp : s.locked p)
    (h : Inodes.dirlookup sb devsw s p name = .ok r) : r.1.disk = s.disk := by
  rw [Inodes.dirlookup] at h
  split at h
  · cases h
  · obtain ⟨⟨s', found⟩, hl, h⟩ := bind_eq_ok.mp h
    have hsame := hinv.dirlookupLoop devsw hp name dirRounds 0
    rw [hl] at hsame
    obtain rfl : s' = s := hsame
    cases found with
    | none =>
        cases h
        rfl
    | some x =>
        obtain ⟨a, ha, h⟩ := bind_eq_ok.mp h
        cases h
        exact iget_disk ha

theorem reads_disk {devsw : Nat → Devsw} {op : FileOp} {s' : Files} (hinv : FilesInv sb start s)
    (hop : op.reads = true) (h : op.run sb devsw s = some (.ok s')) : s'.disk = s.disk := by
  cases op with
  | iget inum =>
      obtain ⟨r, hr, rfl⟩ := map_eq_ok.mp (Option.some.inj h)
      exact iget_disk hr
  | idup p =>
      simp only [FileOp.run] at h
      split at h
      · cases h
        rfl
      · cases h
  | ilock p =>
      simp only [FileOp.run] at h
      split at h
      · exact ilock_disk (Option.some.inj h)
      · cases h
  | readi dev p off n =>
      simp only [FileOp.run] at h
      split at h
      · next hp =>
          obtain ⟨r, hr⟩ := hinv.readInode dev hp off n
          rw [hr] at h
          cases h
          rfl
      · cases h
  | dirlookup p name =>
      simp only [FileOp.run] at h
      split at h
      · next hp =>
          obtain ⟨r, hr, rfl⟩ := map_eq_ok.mp (Option.some.inj h)
          exact dirlookup_disk hinv hp hr
      · cases h
  | _ => cases hop

theorem reads_reach {devsw : Nat → Devsw} {s' : Files} (hsb : sb.Ordered start)
    (hinv : FilesInv sb start s)
    (h : Reach (fileStep sb devsw) (fun _ op => op.reads = true) s s') :
    FilesInv sb start s' ∧ s'.disk = s.disk := by
  refine h.invariant (I := fun t => FilesInv sb start t ∧ t.disk = s.disk) ⟨hinv, rfl⟩
    fun t t' op ht hop hstep => ?_
  simp only [fileStep] at hstep
  split at hstep
  · next t'' he =>
      cases hstep
      exact ⟨ht.1.run hsb devsw op he, (reads_disk ht.1 hop he).trans ht.2⟩
  · cases hstep

theorem mkfs_ordered : Mkfs.sb.Ordered Mkfs.nmeta := by
  refine ⟨fun i hi => ?_, fun n hn => ?_, by decide⟩
  · have hi : i < 200 := hi
    show i / 8 + 32 < 58
    omega
  · have hn : n < 1000 := hn
    show n / 4096 + 58 < 59
    omega

/-- An image that `mkfs` makes is one the kernel can start from. -/
theorem mkfs_blockInv {m : Mkfs.Image} (h : Mkfs.Consistent m) :
    BlockInv Mkfs.sb Mkfs.nmeta m.disk := by
  have hbit : ∀ b < FSSIZE, m.disk.bit Mkfs.sb b = true ↔ b < m.freeblock := by
    intro b hb
    have hb : b < 1000 := hb
    have hlt : b < BPB := Nat.lt_trans hb (by decide)
    have hblk : Mkfs.sb.bblock b = Mkfs.sb.bmapstart := by
      show b / 4096 + 58 = 58
      omega
    rw [Disk.bit, hblk, Nat.mod_eq_of_lt hlt]
    exact h.bitmap b hlt
  have htab : ∀ i < Mkfs.NINODES, m.disk.table Mkfs.sb i = m.disk.dinode Mkfs.sb i := by
    intro i hi
    by_cases ht : (m.disk.dinode Mkfs.sb i).type = 0
    · have hz : m.disk.dinode Mkfs.sb i = DiskInode.zero := by
        refine h.unused i (Nat.lt_trans hi (by decide)) ?_
        by_contra hc
        rw [not_or, not_le] at hc
        have := (h.used i (Nat.pos_of_ne_zero hc.1) hc.2).type
        rw [ht] at this
        exact Mkfs.typeOf_ne_zero i this.symm
      rw [Disk.table, if_neg fun h' => h'.2 ht, hz]
    · exact table_eq hi ht
  have hout : ∀ i, ¬ i < Mkfs.NINODES → m.disk.table Mkfs.sb i = DiskInode.zero :=
    fun i hi => if_neg fun h' => hi h'.1
  have hin : ∀ {i k x}, ptrs (m.disk.table Mkfs.sb) m.disk (i, k) = some x →
      i < Mkfs.NINODES ∧ m.addr i k = some x := by
    intro i k x hx
    by_cases hi : i < Mkfs.NINODES
    · refine ⟨hi, ?_⟩
      rw [← hx]
      exact ptrs_congr (by rw [htab i hi])
    · rw [ptrs_none (by rw [hout i hi, DiskInode.zero_ptr])] at hx
      cases hx
  refine ⟨⟨fun l l' r hl hl' => ?_, fun l r hl => ?_, fun r hr => hr.1, fun r hr hn => ?_⟩,
    fun i => ?_, fun b hb hsz => ?_⟩
  · obtain ⟨i, k⟩ := l
    obtain ⟨i', k'⟩ := l'
    obtain ⟨hi, hx⟩ := hin hl
    obtain ⟨hi', hx'⟩ := hin hl'
    obtain ⟨rfl, rfl⟩ := h.distinct i hi i' hi' k k' r hx hx'
    rfl
  · obtain ⟨i, k⟩ := l
    obtain ⟨hi, hx⟩ := hin hl
    have hr := h.range i hi k r hx
    refine ⟨hr, fun hc => ?_⟩
    have := (hbit r hr.2).mpr ((h.first r hr.1 hr.2).mpr ⟨i, hi, k, hx⟩)
    rw [hc.2] at this
    cases this
  · have hset : m.disk.bit Mkfs.sb r = true := by
      cases hb : m.disk.bit Mkfs.sb r with
      | true => rfl
      | false => exact absurd ⟨hr, hb⟩ hn
    obtain ⟨i, hi, k, hx⟩ := (h.first r hr.1 hr.2).mp ((hbit r hr.2).mp hset)
    refine ⟨(i, k), ?_⟩
    rw [← hx]
    exact ptrs_congr (by rw [htab i hi])
  · by_cases hi : i < Mkfs.NINODES
    · rw [htab i hi]
      exact h.exact i hi
    · rw [hout i hi]
      exact Spans.zero (DiskInode.zero_ptr _)
  · exact (hbit b hsz).mpr (Nat.lt_of_lt_of_le hb h.reserved)

end Xv6.Ref.Inodes
