import Xv6.Proofs.Bmap

/-!
# Files are byte arrays

The content of an inode is read off its blocks. `readi` returns a slice of it and
changes nothing. `writei` replaces and extends a slice, block by block: a round of
its loop writes into one block of the file, which no other place holds, so every
other byte of every file stays.
-/

namespace Xv6.Ref

/-- Byte `o` of a file. -/
def DiskInode.byteAt (v : DiskInode) (d : Disk) (o : Nat) : UInt8 :=
  (d (v.ptr d (ptrOf (o / BSIZE)))).get (o % BSIZE)

/-- The content of a file. -/
def DiskInode.content (v : DiskInode) (d : Disk) : List UInt8 :=
  (List.range v.size.toNat).map (v.byteAt d)

theorem Block.get_write {b : Block} {o k : Nat} {src : List UInt8} (hk : k < BSIZE) :
    (b.write o src).get k =
      if o ≤ k ∧ k < o + src.length then src.getD (k - o) 0 else b.get k := by
  simp only [get, write, dif_pos hk]

end Xv6.Ref

namespace Xv6.Ref.Inodes

open Xv6.Lib

variable {sb : Superblock} {start i n x sz sz' off : Nat} {d d' d₁ : Disk} {ip ip' : DiskInode}
  {src : List UInt8}

theorem mod_lt_BSIZE (o : Nat) : o % BSIZE < BSIZE := Nat.mod_lt _ (by decide)

/-! ## Reading -/

/-- A file of `sz` bytes has the block of every byte below. -/
theorem Mid.ptr_ne (h : Mid sb start d i ip sz) {o : Nat} (ho : o < sz) :
    o / BSIZE < MAXFILE ∧ ip.ptr d (ptrOf (o / BSIZE)) ≠ 0 := by
  have hle : sz ≤ 71680 := h.tidy.fits.le
  have hn : o / BSIZE < MAXFILE := by
    show o / 512 < 140
    omega
  refine ⟨hn, ?_⟩
  have := (h.tidy.fits.exact _ hn).mpr (by show o / 512 * 512 < sz; omega)
  rw [setNode_same] at this
  exact this

/-- `readi` copies the bytes `off .. off + n`, allocates nothing and changes nothing, where
the file has the blocks of its first `sz` bytes. -/
theorem readiLoop_has
    (h : ∀ o < sz, o / BSIZE < MAXFILE ∧ ip.ptr d (ptrOf (o / BSIZE)) ≠ 0) :
    ∀ (fuel off n : Nat) (dst : List UInt8), n ≤ fuel → off + n ≤ sz →
    readiLoop sb fuel d ip off n dst =
      .ok (d, ip, dst ++ (List.range n).map fun k => ip.byteAt d (off + k))
  | 0, off, n, dst, hn, _ => by
      obtain rfl : n = 0 := by omega
      simp [readiLoop]
  | fuel + 1, off, n, dst, hn, hle => by
      by_cases h0 : n = 0
      · subst h0
        simp [readiLoop]
      · obtain ⟨hlt, hne⟩ := h off (by omega)
        simp only [readiLoop, if_neg h0, bmap_eq hlt hne, ok_bind]
        have hmod : off % 512 < 512 := Nat.mod_lt _ (by decide)
        generalize hm : min n (BSIZE - off % BSIZE) = m
        have hm : min n (512 - off % 512) = m := hm
        obtain ⟨hpos, hmn, hmb⟩ : 0 < m ∧ m ≤ n ∧ off % 512 + m ≤ 512 := by omega
        rw [readiLoop_has h fuel (off + m) (n - m) _ (by omega) (by omega),
          List.append_assoc]
        congr 3
        -- the first `m` bytes lie in one block
        have hfirst : (d (ip.ptr d (ptrOf (off / BSIZE)))).read (off % BSIZE) m =
            (List.range m).map fun k => ip.byteAt d (off + k) := by
          refine List.map_congr_left fun k hk => ?_
          have hk : k < m := List.mem_range.mp hk
          have h1 : (off + k) / BSIZE = off / BSIZE := by
            show (off + k) / 512 = off / 512
            omega
          have h2 : (off + k) % BSIZE = off % BSIZE + k := by
            show (off + k) % 512 = off % 512 + k
            omega
          rw [DiskInode.byteAt, h1, h2]
        obtain ⟨r, rfl⟩ : ∃ r, n = m + r := ⟨n - m, by omega⟩
        rw [hfirst, Nat.add_sub_cancel_left, List.range_add, List.map_append, List.map_map]
        refine congrArg _ (congrArg _ (List.map_congr_left fun k _ => ?_))
        simp only [Function.comp, Nat.add_assoc]

/-! ## Writing -/

/-- The blocks of `s` bytes. -/
def nblocks (s : Nat) : Nat := (s + (BSIZE - 1)) / BSIZE

/-- The blocks a write up to `e` allocates in a file of `sz` bytes. -/
def need (ip : DiskInode) (sz e : Nat) : Nat :=
  nblocks (max sz e) - nblocks sz +
    if NDIRECT * BSIZE < e ∧ ip.indirect = 0 then 1 else 0

/-- From `(d, ip)` to `(d', ip')`, the bytes `src` have been written at `off`. -/
structure Wrote (sb : Superblock) (start : Nat) (d : Disk) (i : Nat) (ip : DiskInode)
    (sz off : Nat) (src : List UInt8) (d' : Disk) (ip' : DiskInode) (c : Nat) : Prop where
  mid : Mid sb start d' i ip' (max sz (off + src.length))
  file : SameFile ip ip'
  dinode : ∀ j < sb.ninodes, d'.dinode sb j = d.dinode sb j
  bytes : ∀ o < max sz (off + src.length), ip'.byteAt d' o =
    if off ≤ o ∧ o < off + src.length then src.getD (o - off) 0 else ip.byteAt d o
  others : ∀ j, j ≠ i → ∀ o < (d.table sb j).size.toNat,
    (d.table sb j).byteAt d' o = (d.table sb j).byteAt d o
  cost : nfree sb d' + c = nfree sb d
  still : c = 0 → ip' = ip

theorem Wrote.table {c : Nat} (h : Wrote sb start d i ip sz off src d' ip' c) :
    d'.table sb = d.table sb := Disk.table_congr h.dinode

theorem Wrote.nil (h : Mid sb start d i ip sz) (hoff : off ≤ sz) :
    Wrote sb start d i ip sz off [] d ip 0 := by
  refine ⟨?_, SameFile.refl ip, fun _ _ => rfl, fun o _ => ?_, fun _ _ _ _ => rfl, rfl,
    fun _ => rfl⟩
  · rw [List.length_nil, Nat.add_zero, max_eq_left hoff]
    exact h
  · rw [if_neg]
    rw [List.length_nil]
    omega

theorem Wrote.append {src' : List UInt8} {d'' : Disk} {ip'' : DiskInode} {c c' : Nat}
    (h : Wrote sb start d i ip sz off src d' ip' c)
    (h' : Wrote sb start d' i ip' (max sz (off + src.length)) (off + src.length) src' d'' ip'' c') :
    Wrote sb start d i ip sz off (src ++ src') d'' ip'' (c + c') := by
  have hmax : max (max sz (off + src.length)) (off + src.length + src'.length) =
      max sz (off + (src ++ src').length) := by
    rw [List.length_append]
    omega
  refine ⟨hmax ▸ h'.mid, h.file.trans h'.file,
    fun j hj => (h'.dinode j hj).trans (h.dinode j hj), fun o ho => ?_, fun j hj o ho => ?_, ?_,
    fun h0 => ?_⟩
  · rw [h'.bytes o (hmax ▸ ho)]
    rw [List.length_append] at ho ⊢
    by_cases hb : off + src.length ≤ o ∧ o < off + src.length + src'.length
    · rw [if_pos hb, if_pos (by omega), List.getD_append_right _ _ _ _ (by omega)]
      congr 1
      omega
    · rw [if_neg hb, h.bytes o (by omega)]
      by_cases ha : off ≤ o ∧ o < off + src.length
      · rw [if_pos ha, if_pos (by omega), List.getD_append _ _ _ _ (by omega)]
      · rw [if_neg ha, if_neg (by omega)]
  · have ht := h.table
    rw [← h.others j hj o ho, ← ht]
    exact h'.others j hj o (ht.symm ▸ ho)
  · have := h.cost
    have := h'.cost
    omega
  · rw [h'.still (by omega), h.still (by omega)]

/-! A write into the data area leaves inodes and free map. -/

section

variable (hsb : sb.Ordered start) (hx : start ≤ x) (hlt : x < sb.size) (b : Block)

include hsb hx

theorem nfree_set : nfree sb (d.set x b) = nfree sb d := by
  rw [nfree, nfree]
  congr 1
  refine Finset.filter_congr fun c hc => ?_
  rw [Disk.bit_set hsb hx (Finset.mem_range.mp hc)]

include hlt

theorem dinode_set {j : Nat} (hj : j < sb.ninodes) :
    (d.set x b).dinode sb j = d.dinode sb j :=
  Disk.dinode_set hsb hx (Nat.lt_of_le_of_lt (Nat.zero_le _) hlt) hj b

theorem table_set : (d.set x b).table sb = d.table sb :=
  Disk.table_congr fun _ hj => dinode_set hsb hx hlt b hj

end

theorem Mid.write (hsb : sb.Ordered start) (h : Mid sb start d i ip sz) {l : Place}
    (hl : ptrs (setNode (d.table sb) i ip) d l = some x) (hk : l.2 ≠ NDIRECT) (b : Block) :
    Mid sb start (d.set x b) i ip sz := by
  obtain ⟨hlo, hlt, -⟩ := h.held hl
  refine ⟨?_, fun c hc hcs => ?_⟩
  · rw [table_set hsb hlo hlt]
    refine (h.tidy.write hl hk b).congr (fun _ _ => rfl) (fun _ _ => rfl) fun y => ?_
    constructor
    · rintro ⟨hy, hb⟩
      rw [Disk.bit_set hsb hlo hy.2] at hb
      exact ⟨hy, hb⟩
    · rintro ⟨hy, hb⟩
      refine ⟨hy, ?_⟩
      rw [Disk.bit_set hsb hlo hy.2]
      exact hb
  · rw [Disk.bit_set hsb hlo hcs]
    exact h.metaSet c hc hcs

/-- A byte whose block was held before, and is not the one written, stays. -/
theorem Kept.byteAt {T T' : Nat → DiskInode} {free all : Nat → Prop} {j k y o : Nat} {b : Block}
    (hk : Kept T d T' d₁) (hown : Owned (Ref.ptrs T' d₁) free all)
    (hl : Ref.ptrs T' d₁ (i, ptrOf k) = some x)
    (hy : Ref.ptrs T d (j, ptrOf (o / BSIZE)) = some y) (hne : (j, o / BSIZE) ≠ (i, k)) :
    (T' j).byteAt (d₁.set x b) o = (T j).byteAt d o := by
  have hy' := hk.ptrs _ _ hy
  have hxy : y ≠ x := by
    rintro rfl
    have := hown.one _ _ _ hy' hl
    have h1 : j = i := congrArg Prod.fst this
    have h2 : o / BSIZE = k := ptrOf_inj (congrArg Prod.snd this)
    exact hne (by rw [h1, h2])
  rw [DiskInode.byteAt, ptr_write hown hl (ptrOf_ne k), (ptrs_some.mp hy').2.2,
    Disk.set_ne hxy, hk.bytes _ _ hy (ptrOf_ne _), DiskInode.byteAt, (ptrs_some.mp hy).2.2]

/-- The bytes `src` are written into the block at `off`. -/
theorem Kept.byteAt_write {T T' : Nat → DiskInode} {free all : Nat → Prop} {o : Nat}
    (off : Nat) (src : List UInt8) (hk : Kept T d T' d₁) (hown : Owned (Ref.ptrs T' d₁) free all)
    (hl : Ref.ptrs T' d₁ (i, ptrOf (off / BSIZE)) = some x)
    (hblk : off % BSIZE + src.length ≤ BSIZE)
    (hheld : ¬ (off ≤ o ∧ o < off + src.length) →
      ∃ y, Ref.ptrs T d (i, ptrOf (o / BSIZE)) = some y) :
    (T' i).byteAt (d₁.set x ((d₁ x).write (off % BSIZE) src)) o =
      if off ≤ o ∧ o < off + src.length then src.getD (o - off) 0 else (T i).byteAt d o := by
  have hblk : off % 512 + src.length ≤ 512 := hblk
  by_cases hb : o / BSIZE = off / BSIZE
  · have hptr : (T' i).ptr (d₁.set x ((d₁ x).write (off % BSIZE) src)) (ptrOf (o / BSIZE)) = x := by
      rw [ptr_write hown hl (ptrOf_ne _), hb, (ptrs_some.mp hl).2.2]
    have hb : o / 512 = off / 512 := hb
    rw [DiskInode.byteAt, hptr, Disk.set_same, Block.get_write (mod_lt_BSIZE o)]
    by_cases hin : off ≤ o ∧ o < off + src.length
    · rw [if_pos hin,
        if_pos (by show off % 512 ≤ o % 512 ∧ o % 512 < off % 512 + src.length; omega)]
      congr 1
      show o % 512 - off % 512 = o - off
      omega
    · rw [if_neg hin,
        if_neg (by show ¬ (off % 512 ≤ o % 512 ∧ o % 512 < off % 512 + src.length); omega)]
      obtain ⟨y, hy⟩ := hheld hin
      have hxy : y = x := by
        have hy' := hk.ptrs _ _ hy
        rw [show o / BSIZE = off / BSIZE from hb, hl] at hy'
        exact (Option.some.inj hy').symm
      rw [DiskInode.byteAt, (ptrs_some.mp hy).2.2, hxy,
        hk.bytes _ _ (hxy ▸ hy) (ptrOf_ne _)]
  · have hin : ¬ (off ≤ o ∧ o < off + src.length) := by
      have hb : o / 512 ≠ off / 512 := hb
      omega
    obtain ⟨y, hy⟩ := hheld hin
    rw [if_neg hin]
    exact hk.byteAt hown hl hy fun he => hb (congrArg Prod.snd he)

/-- One round of the loop. -/
theorem wrote_round (hsb : sb.Ordered start) (h : Mid sb start d i ip sz)
    (src : List UInt8) (hoff : off ≤ sz) (hsrc : 0 < src.length) (hblk : off % BSIZE + src.length ≤ BSIZE)
    (hn : off / BSIZE < MAXFILE) :
    (bmap sb d ip (off / BSIZE) = .error .outOfBlocks ∧
        nfree sb d < mapCost d ip (off / BSIZE)) ∨
      ∃ d₁ ip₁ x, bmap sb d ip (off / BSIZE) = .ok (d₁, ip₁, x) ∧
        Mapped sb start d i ip (off / BSIZE) (max sz (off + src.length)) d₁ ip₁ x ∧
        Wrote sb start d i ip sz off src (d₁.set x ((d₁ x).write (off % BSIZE) src)) ip₁
          (mapCost d ip (off / BSIZE)) := by
  have hblk : off % 512 + src.length ≤ 512 := hblk
  rcases bmap_spec hsb h hn (max sz (off + src.length))
    (by show off / 512 * 512 ≤ sz; omega) (le_max_left _ _)
    (by show off / 512 * 512 < max sz (off + src.length); omega)
    (by show max sz (off + src.length) ≤ max sz ((off / 512 + 1) * 512); omega)
    with he | ⟨d₁, ip₁, x, he, hp⟩
  · exact Or.inl he
  refine Or.inr ⟨d₁, ip₁, x, he, hp, ?_⟩
  have hm := hp.moved
  have hl : ptrs (setNode (d₁.table sb) i ip₁) d₁ (i, ptrOf (off / BSIZE)) = some x :=
    ptrs_some.mpr ⟨ptrOf_lt hn, hp.pos, by rw [setNode_same]; exact hp.ptr⟩
  obtain ⟨hlo, hlt, -⟩ := hm.mid.held hl
  have htab : d₁.table sb = d.table sb := Disk.table_congr hm.dinode
  -- the bytes below `sz` had their block before
  have hheld : ∀ o < sz, ptrs (setNode (d.table sb) i ip) d (i, ptrOf (o / BSIZE)) =
      some (ip.ptr d (ptrOf (o / BSIZE))) := by
    intro o ho
    obtain ⟨hlt', hne⟩ := h.ptr_ne ho
    exact ptrs_some.mpr ⟨ptrOf_lt hlt', hne, by rw [setNode_same]⟩
  refine ⟨hm.mid.write hsb hl (ptrOf_ne _) _, hm.file, fun j hj => ?_, fun o ho => ?_,
    fun j hj o ho => ?_, ?_, hm.still⟩
  · rw [dinode_set hsb hlo hlt _ hj, hm.dinode j hj]
  · have hb := Kept.byteAt_write off src (o := o) hm.kept hm.mid.tidy.owned hl hblk
      fun hin => ⟨_, hheld o (by omega)⟩
    rw [setNode_same, setNode_same] at hb
    exact hb
  · have hsp := h.tidy.others j hj
    rw [setNode_ne hj] at hsp
    have hle : (d.table sb j).size.toNat ≤ 71680 := hsp.le
    have hn' : o / BSIZE < MAXFILE := by
      show o / 512 < 140
      omega
    have hne := (hsp.exact _ hn').mpr (by show o / 512 * 512 < _; omega)
    have hy : ptrs (setNode (d.table sb) i ip) d (j, ptrOf (o / BSIZE)) =
        some ((d.table sb j).ptr d (ptrOf (o / BSIZE))) :=
      ptrs_some.mpr ⟨ptrOf_lt hn', hne, by rw [setNode_ne hj]⟩
    have := hm.kept.byteAt (b := (d₁ x).write (off % BSIZE) src) hm.mid.tidy.owned hl hy
      fun he => hj (congrArg Prod.fst he)
    rw [setNode_ne hj, setNode_ne hj, htab] at this
    exact this
  · rw [nfree_set hsb hlo]
    exact hm.cost

/-- The block at `off` is missing only at the end of the file. -/
theorem Mid.ptr_eq_zero (h : Mid sb start d i ip sz) (hn : n < MAXFILE) :
    ip.ptr d (ptrOf n) = 0 ↔ sz ≤ n * 512 := by
  have hex := h.tidy.fits.exact _ hn
  rw [setNode_same] at hex
  rw [← not_iff_not, ← ne_eq, hex]
  exact ⟨fun h' => Nat.not_le.mpr h', fun h' => Nat.lt_of_not_le h'⟩

theorem mapCost_le_need (h : Mid sb start d i ip sz) (hoff : off ≤ sz) {e : Nat} (he : off < e)
    (hn : off / BSIZE < MAXFILE) : mapCost d ip (off / BSIZE) ≤ need ip sz e := by
  refine Nat.add_le_add ?_ ?_
  · have hz : ip.ptr d (ptrOf (off / BSIZE)) = 0 ↔ sz ≤ off / 512 * 512 := h.ptr_eq_zero hn
    simp only [hz]
    show _ ≤ (max sz e + 511) / 512 - (sz + 511) / 512
    split <;> omega
  · by_cases hd : NDIRECT ≤ off / BSIZE ∧ ip.indirect = 0
    · have hlt : NDIRECT * BSIZE < e := by
        have hd : 12 ≤ off / 512 := hd.1
        show 6144 < e
        omega
      rw [if_pos hd, if_pos ⟨hlt, hd.2⟩]
    · rw [if_neg hd]
      exact Nat.zero_le _

/-- What a round allocates, the rest of the write does not. -/
theorem need_round (h : Mid sb start d i ip sz) (hoff : off ≤ sz) {e m : Nat} (hm : 0 < m)
    (hblk : off % BSIZE + m ≤ BSIZE) (he : off + m ≤ e) (hn : off / BSIZE < MAXFILE)
    (hp : Mapped sb start d i ip (off / BSIZE) (max sz (off + m)) d' ip' x) :
    need ip sz e = mapCost d ip (off / BSIZE) + need ip' (max sz (off + m)) e := by
  have hz : ip.ptr d (ptrOf (off / BSIZE)) = 0 ↔ sz ≤ off / 512 * 512 := h.ptr_eq_zero hn
  have hblk : off % 512 + m ≤ 512 := hblk
  have hi1 := hp.indirect
  have hi2 := hp.indirect_new
  have hA : nblocks (max sz e) - nblocks sz =
      (if ip.ptr d (ptrOf (off / BSIZE)) = 0 then 1 else 0) +
        (nblocks (max (max sz (off + m)) e) - nblocks (max sz (off + m))) := by
    simp only [hz]
    show (max sz e + 511) / 512 - (sz + 511) / 512 = _ +
      ((max (max sz (off + m)) e + 511) / 512 - (max sz (off + m) + 511) / 512)
    split <;> omega
  have hB : (if NDIRECT * BSIZE < e ∧ ip.indirect = 0 then 1 else 0) =
      (if NDIRECT ≤ off / BSIZE ∧ ip.indirect = 0 then 1 else 0) +
        if NDIRECT * BSIZE < e ∧ ip'.indirect = 0 then 1 else 0 := by
    by_cases hd : NDIRECT ≤ off / BSIZE
    · have hlt : NDIRECT * BSIZE < e := by
        have hd : 12 ≤ off / 512 := hd
        show 6144 < e
        omega
      rw [if_neg (c := NDIRECT * BSIZE < e ∧ ip'.indirect = 0) fun h' => hi1 hd h'.2]
      simp only [hlt, hd, true_and, Nat.add_zero]
    · rw [hi2 (Nat.lt_of_not_le hd), if_neg (c := NDIRECT ≤ _ ∧ _) fun h' => hd h'.1,
        Nat.zero_add]
  rw [need, need, mapCost, hA, hB]
  omega

/-- A file that reaches behind its direct blocks has its indirect block. -/
theorem Mid.indirect_ne (h : Mid sb start d i ip sz) (hsz : NDIRECT * BSIZE < sz) :
    ip.indirect ≠ 0 := by
  intro h0
  obtain ⟨-, hne⟩ := h.ptr_ne hsz
  rw [show NDIRECT * BSIZE / BSIZE = NDIRECT + 0 from rfl, ptrOf_entry, DiskInode.ptr_entry,
    if_pos h0] at hne
  exact hne rfl

theorem need_nil (h : Mid sb start d i ip sz) (hoff : off ≤ sz) : need ip sz off = 0 := by
  rw [need, max_eq_left hoff, Nat.sub_self, if_neg]
  exact fun h' => h.indirect_ne (Nat.lt_of_lt_of_le h'.1 hoff) h'.2

/-- The whole write. -/
theorem writeiLoop_spec (hsb : sb.Ordered start) : ∀ (fuel : Nat) {d : Disk} {ip : DiskInode}
    {sz off : Nat} (src : List UInt8), src.length ≤ fuel → Mid sb start d i ip sz → off ≤ sz →
    off + src.length ≤ MAXFILE * BSIZE →
    (writeiLoop sb fuel d ip off src = .error .outOfBlocks ∧
        nfree sb d < need ip sz (off + src.length)) ∨
      ∃ d' ip', writeiLoop sb fuel d ip off src = .ok (d', ip', off + src.length) ∧
        Wrote sb start d i ip sz off src d' ip' (need ip sz (off + src.length))
  | 0, d, ip, sz, off, src, hlen, h, hoff, _ => by
      obtain rfl : src = [] := List.length_eq_zero_iff.mp (by omega)
      refine Or.inr ⟨d, ip, rfl, ?_⟩
      rw [List.length_nil, Nat.add_zero, need_nil h hoff]
      exact Wrote.nil h hoff
  | fuel + 1, d, ip, sz, off, src, hlen, h, hoff, hend => by
      by_cases h0 : src = []
      · subst h0
        refine Or.inr ⟨d, ip, rfl, ?_⟩
        rw [List.length_nil, Nat.add_zero, need_nil h hoff]
        exact Wrote.nil h hoff
      · have hpos : 0 < src.length := List.length_pos_iff.mpr h0
        have hend' : off + src.length ≤ 71680 := hend
        have hn : off / BSIZE < MAXFILE := by
          show off / 512 < 140
          omega
        simp only [writeiLoop, if_neg h0]
        generalize hm : min src.length (BSIZE - off % BSIZE) = m
        obtain ⟨hm0, hmle, hblk⟩ : 0 < m ∧ m ≤ src.length ∧ off % BSIZE + m ≤ BSIZE := by
          have := mod_lt_BSIZE off
          omega
        have htake : (src.take m).length = m := List.length_take_of_le hmle
        have hdrop : (src.drop m).length = src.length - m := List.length_drop
        have hround := wrote_round hsb h (src.take m) hoff (by omega) (by omega) hn
        rw [htake] at hround
        rcases hround with ⟨he, hc⟩ | ⟨d₁, ip₁, x, he, hp, hw⟩
        · left
          rw [he]
          exact ⟨rfl, Nat.lt_of_lt_of_le hc (mapCost_le_need h hoff (by omega) hn)⟩
        · rw [he, ok_bind]
          have hneed := need_round h hoff hm0 hblk (e := off + src.length) (by omega) hn hp
          have hmid := hw.mid
          rw [htake] at hmid
          rcases writeiLoop_spec hsb fuel (src.drop m) (by omega) hmid
            (le_max_right sz (off + m)) (by omega) with ⟨hl, hc⟩ | ⟨d', ip', hl, hw'⟩
          · left
            have := hw.cost
            rw [hdrop, show off + m + (src.length - m) = off + src.length by omega] at hc
            exact ⟨hl, by omega⟩
          · right
            rw [hdrop, show off + m + (src.length - m) = off + src.length by omega] at hl hw'
            refine ⟨d', ip', hl, ?_⟩
            have := hw.append (by rw [htake]; exact hw')
            rw [List.take_append_drop] at this
            rw [hneed]
            exact this

end Xv6.Ref.Inodes
