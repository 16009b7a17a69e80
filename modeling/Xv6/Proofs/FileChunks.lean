import Xv6.Proofs.FileWrite

/-!
# Writing in chunks

`filewrite` splits a write at multiples of `fwMax` bytes, wherever the blocks of the file
lie, and gives each chunk to `writei` with the offset the chunk before it left. Chunk by
chunk the file is what one write of all of them would have made it (`Grown`), and the
blocks that the chunks allocate add up to those of the one write, so that the disk is full
for both or for neither. A chunk that would end behind the largest file is refused whole;
what is in the file then is as many chunks as fit.
-/

namespace Xv6.Ref.Inodes

open Xv6.Lib

variable {sb : Superblock} {start : Nat} {s s' s'' : Files} {p : Iptr}

/-! ## As many chunks as fit -/

/-- The bytes of a write of `n` bytes at `o` that are written: all of them, or the whole
chunks that end within the largest file. -/
def wholeChunks (o n : Nat) : Nat :=
  if o + n ≤ MAXFILE * BSIZE then n else (MAXFILE * BSIZE - o) / fwMax * fwMax

/-- That is the longest prefix that ends at the end of a chunk and fits. -/
theorem wholeChunks_greatest {o n : Nat} (ho : o ≤ MAXFILE * BSIZE) :
    IsGreatest {m | m ≤ n ∧ (m = n ∨ fwMax ∣ m) ∧ o + m ≤ MAXFILE * BSIZE}
      (wholeChunks o n) := by
  have ho : o ≤ 71680 := ho
  have hdiv : ∀ m, fwMax ∣ m ↔ m % 1536 = 0 := fun m => Nat.dvd_iff_mod_eq_zero
  refine ⟨⟨?_, ?_, ?_⟩, fun m hm => ?_⟩
  · show (if o + n ≤ 71680 then n else (71680 - o) / 1536 * 1536) ≤ n
    split <;> omega
  · rw [hdiv]
    show (if o + n ≤ 71680 then n else (71680 - o) / 1536 * 1536) = n ∨
      (if o + n ≤ 71680 then n else (71680 - o) / 1536 * 1536) % 1536 = 0
    split <;> omega
  · show o + (if o + n ≤ 71680 then n else (71680 - o) / 1536 * 1536) ≤ 71680
    split <;> omega
  · obtain ⟨hle, hm, hfit⟩ := hm
    rw [hdiv] at hm
    have hfit : o + m ≤ 71680 := hfit
    show m ≤ if o + n ≤ 71680 then n else (71680 - o) / 1536 * 1536
    split <;> omega

theorem wholeChunks_fits {o n : Nat} (h : o + n ≤ MAXFILE * BSIZE) : wholeChunks o n = n :=
  if_pos h

theorem wholeChunks_lt {o n : Nat} (ho : o ≤ MAXFILE * BSIZE) (h : ¬ o + n ≤ MAXFILE * BSIZE) :
    wholeChunks o n < n := by
  have h : ¬ o + n ≤ 71680 := h
  have ho : o ≤ 71680 := ho
  show (if o + n ≤ 71680 then n else (71680 - o) / 1536 * 1536) < n
  rw [if_neg h]
  omega

/-- The next chunk does not fit: nothing more is written. -/
theorem wholeChunks_stop {o n : Nat} (ho : o ≤ MAXFILE * BSIZE)
    (h : ¬ o + min n fwMax ≤ MAXFILE * BSIZE) : wholeChunks o n = 0 := by
  have h : ¬ o + min n 1536 ≤ 71680 := h
  have ho : o ≤ 71680 := ho
  show (if o + n ≤ 71680 then n else (71680 - o) / 1536 * 1536) = 0
  rw [if_neg (by omega)]
  omega

/-- It fits: it is written, and then what fits of the rest. -/
theorem wholeChunks_go {o n : Nat} (h : o + min n fwMax ≤ MAXFILE * BSIZE) :
    wholeChunks o n = min n fwMax + wholeChunks (o + min n fwMax) (n - min n fwMax) := by
  have h : o + min n 1536 ≤ 71680 := h
  show (if o + n ≤ 71680 then n else (71680 - o) / 1536 * 1536) = min n 1536 +
    if o + min n 1536 + (n - min n 1536) ≤ 71680 then n - min n 1536
      else (71680 - (o + min n 1536)) / 1536 * 1536
  by_cases hfit : o + n ≤ 71680
  · rw [if_pos hfit, if_pos (by omega)]
    omega
  · rw [if_neg hfit, if_neg (by omega)]
    omega

/-! ## The blocks they take -/

theorem IsFile.mid (h : IsFile sb start s p) : Mid sb start s.disk (s.icache p).inum
    (s.inode sb p) (s.inode sb p).size.toNat := by
  have hmid := h.inv.block.mid (s.icache p).inum
  have hty : (s.disk.dinode sb (s.icache p).inum).type ≠ 0 := by
    have := h.type
    rw [Files.inode] at this
    rw [this]
    decide
  rwa [table_eq h.inum hty] at hmid

theorem IsFile.size_le (h : IsFile sb start s p) :
    (s.inode sb p).size.toNat ≤ MAXFILE * BSIZE := h.mid.tidy.fits.le

theorem nblocks_mono {a b : Nat} (h : a ≤ b) : nblocks a ≤ nblocks b :=
  Nat.div_le_div_right (Nat.add_le_add_right h _)

theorem need_mono (ip : DiskInode) (sz : Nat) {e e' : Nat} (h : e ≤ e') :
    need ip sz e ≤ need ip sz e' := by
  refine Nat.add_le_add (Nat.sub_le_sub_right (nblocks_mono (by omega)) _) ?_
  by_cases hi : NDIRECT * BSIZE < e ∧ ip.indirect = 0
  · rw [if_pos hi, if_pos ⟨Nat.lt_of_lt_of_le hi.1 h, hi.2⟩]
  · rw [if_neg hi]
    exact Nat.zero_le _

/-- What a chunk allocates, the rest of the write does not. -/
theorem ChunkWritten.need_rest {off e : Nat} {src : List UInt8}
    (h : ChunkWritten sb start s p off src s') (he : off + src.length ≤ e) :
    need (s.inode sb p) (s.inode sb p).size.toNat e =
      need (s.inode sb p) (s.inode sb p).size.toNat (off + src.length) +
        need (s'.inode sb p) (s'.inode sb p).size.toNat e := by
  have hsize := h.size
  generalize hsz : (s.inode sb p).size.toNat = sz at hsize ⊢
  have hblocks : nblocks (max sz e) - nblocks sz = nblocks (max sz (off + src.length)) -
      nblocks sz + (nblocks (max (max sz (off + src.length)) e) -
        nblocks (max sz (off + src.length))) := by
    have h1 := nblocks_mono (Nat.le_max_left sz (off + src.length))
    have h2 := nblocks_mono (Nat.le_max_left (max sz (off + src.length)) e)
    rw [show max (max sz (off + src.length)) e = max sz e by omega] at h2 ⊢
    omega
  have hind : (if NDIRECT * BSIZE < e ∧ (s.inode sb p).indirect = 0 then 1 else 0) =
      (if NDIRECT * BSIZE < off + src.length ∧ (s.inode sb p).indirect = 0 then 1 else 0) +
        if NDIRECT * BSIZE < e ∧ (s'.inode sb p).indirect = 0 then 1 else 0 := by
    by_cases h0 : (s.inode sb p).indirect = 0
    · by_cases hlt : NDIRECT * BSIZE < off + src.length
      · -- The chunk has brought the indirect block.
        have hne : (s'.inode sb p).indirect ≠ 0 := by
          refine h.file.mid.indirect_ne ?_
          rw [hsize]
          exact Nat.lt_of_lt_of_le hlt (Nat.le_max_right _ _)
        rw [if_pos ⟨Nat.lt_of_lt_of_le hlt he, h0⟩, if_pos ⟨hlt, h0⟩, if_neg fun h' => hne h'.2]
      · rw [h.indirect (Or.inl (Nat.le_of_not_lt hlt)),
          if_neg (c := NDIRECT * BSIZE < off + src.length ∧ _) fun h' => hlt h'.1, Nat.zero_add]
    · rw [h.indirect (Or.inr h0), if_neg fun h' => h0 h'.2, if_neg fun h' => h0 h'.2]
  rw [need, need, need, hsize, hblocks, hind]
  omega

/-! ## The loop -/

/-- From `s` to `s'` the bytes `bs` have come into the file at `off`. -/
structure Grown (sb : Superblock) (start : Nat) (s : Files) (p : Iptr) (off : Nat)
    (bs : List UInt8) (s' : Files) : Prop where
  file : IsFile sb start s' p
  size : (s'.inode sb p).size.toNat = max (s.inode sb p).size.toNat (off + bs.length)
  content : (s'.inode sb p).content s'.disk =
    ((s.inode sb p).content s.disk).take off ++ bs ++
      ((s.inode sb p).content s.disk).drop (off + bs.length)
  cost : nfree sb s'.disk + need (s.inode sb p) (s.inode sb p).size.toNat (off + bs.length) =
    nfree sb s.disk

theorem content_length (v : DiskInode) (d : Disk) : (v.content d).length = v.size.toNat := by
  rw [DiskInode.content, List.length_map, List.length_range]

theorem Grown.nil (h : IsFile sb start s p) {off : Nat}
    (hoff : off ≤ (s.inode sb p).size.toNat) : Grown sb start s p off [] s := by
  refine ⟨h, ?_, ?_, ?_⟩
  · exact (Nat.max_eq_left hoff).symm
  · rw [List.append_nil, List.length_nil, Nat.add_zero, List.take_append_drop]
  · rw [List.length_nil, Nat.add_zero, need_nil h.mid hoff, Nat.add_zero]

theorem Grown.chunk {off : Nat} {src bs : List UInt8}
    (hoff : off ≤ (s.inode sb p).size.toNat) (h : ChunkWritten sb start s p off src s')
    (h' : Grown sb start s' p (off + src.length) bs s'') :
    Grown sb start s p off (src ++ bs) s'' := by
  have hassoc : off + (src ++ bs).length = off + src.length + bs.length := by
    rw [List.length_append, Nat.add_assoc]
  refine ⟨h'.file, ?_, ?_, ?_⟩
  · rw [h'.size, h.size, hassoc]
    omega
  · rw [h'.content, h.content]
    exact splice_snoc (by rw [content_length]; exact hoff)
  · have h1 := h.cost
    have h2 := h'.cost
    rw [hassoc, h.need_rest (by omega)]
    omega

/-- `ilock` reads the inode if need be, and changes nothing else. -/
theorem ilock_same (h : IsFile sb start s p) :
    ∃ s', ilock sb s p = .ok s' ∧ IsFile sb start s' p ∧ s'.locked p ∧ s'.disk = s.disk ∧
      s'.inode sb p = s.inode sb p := by
  obtain ⟨s', hs, hfile, hlocked, hdisk, hinum⟩ := ilock_file h
  exact ⟨s', hs, hfile, hlocked, hdisk, by rw [Files.inode, Files.inode, hdisk, hinum]⟩

theorem writeInode_refused (devsw : Nat → Devsw) (h : IsFile sb start s p) (hp : s.locked p)
    (src : List UInt8) (hlen : src.length < 2 ^ 32) {off : BitVec 32}
    (hr : ¬ inRange (s.inode sb p) off src.length) :
    writeInode sb devsw s p src off =
      .ok (s.update p s.disk (s.icache p).din, none) := by
  obtain ⟨hlt, hd, ht⟩ := h.inv.cache p hp
  have hty : (s.icache p).din.type = T_FILE := by rw [← hd]; exact h.type
  rw [show s.inode sb p = (s.icache p).din from hd] at hr
  rw [writeInode, writei_notInRange devsw (by rw [hty]; decide) hlen hr]
  rfl

variable (devsw : Nat → Devsw) {src : List UInt8}

/-- What the loop gives from `off`, with `i` bytes written: it has no block left for the
chunks that fit, or it has written them. -/
def LoopGives (sb : Superblock) (start : Nat) (p : Iptr) (src : List UInt8) (s : Files)
    (off : BitVec 32) (i : Nat) (x : Except FwPanic (Files × BitVec 32 × Nat)) : Prop :=
  (x = .error (.inode .outOfBlocks) ∧
    nfree sb s.disk < need (s.inode sb p) (s.inode sb p).size.toNat
      (off.toNat + wholeChunks off.toNat (src.length - i))) ∨
  ∃ s', x = .ok (s', off + BitVec.ofNat 32 (wholeChunks off.toNat (src.length - i)),
      i + wholeChunks off.toNat (src.length - i)) ∧
    Grown sb start s p off.toNat
      ((src.drop i).take (wholeChunks off.toNat (src.length - i))) s'

variable {off : BitVec 32} {i : Nat} {x : Except FwPanic (Files × BitVec 32 × Nat)}

/-- Only the disk and the inode count of the state before. -/
theorem LoopGives.of_same (hd : s'.disk = s.disk) (hi : s'.inode sb p = s.inode sb p)
    (h : LoopGives sb start p src s' off i x) : LoopGives sb start p src s off i x := by
  rcases h with ⟨he, hfull⟩ | ⟨s₂, he, hg⟩
  · rw [hd, hi] at hfull
    exact Or.inl ⟨he, hfull⟩
  · obtain ⟨hfile, hsize, hcontent, hcost⟩ := hg
    rw [hi] at hsize
    rw [hd, hi] at hcontent hcost
    exact Or.inr ⟨s₂, he, hfile, hsize, hcontent, hcost⟩

/-- Nothing is left, or the next chunk does not fit. -/
theorem LoopGives.stop (h : IsFile sb start s p) (hoff : off.toNat ≤ (s.inode sb p).size.toNat)
    (hm : wholeChunks off.toNat (src.length - i) = 0) :
    LoopGives sb start p src s off i (.ok (s, off, i)) := by
  refine Or.inr ⟨s, ?_, ?_⟩
  · rw [hm, BitVec.add_zero, Nat.add_zero]
  · rw [hm, List.take_zero]
    exact Grown.nil h hoff

/-- A chunk, and what the loop gives after it. -/
theorem LoopGives.chunk (hoff : off.toNat ≤ (s.inode sb p).size.toNat)
    (hfit : off.toNat + (nextChunk src i).length ≤ MAXFILE * BSIZE)
    (hw : ChunkWritten sb start s p off.toNat (nextChunk src i) s')
    (h : LoopGives sb start p src s' (off + BitVec.ofNat 32 (nextChunk src i).length)
      (i + (nextChunk src i).length) x) : LoopGives sb start p src s off i x := by
  have hend : (off + BitVec.ofNat 32 (nextChunk src i).length).toNat =
      off.toNat + (nextChunk src i).length := by
    have hfit : off.toNat + (nextChunk src i).length ≤ 71680 := hfit
    rw [BitVec.toNat_add, BitVec.toNat_ofNat]
    omega
  have hgo : wholeChunks off.toNat (src.length - i) = (nextChunk src i).length +
      wholeChunks (off.toNat + (nextChunk src i).length)
        (src.length - (i + (nextChunk src i).length)) := by
    rw [nextChunk_length] at hfit ⊢
    rw [Nat.sub_add_eq]
    exact wholeChunks_go hfit
  unfold LoopGives at h ⊢
  rw [hend] at h
  rw [hgo]
  generalize wholeChunks (off.toNat + (nextChunk src i).length)
    (src.length - (i + (nextChunk src i).length)) = m at h ⊢
  rcases h with ⟨he, hfull⟩ | ⟨s₂, he, hg⟩
  · left
    refine ⟨he, ?_⟩
    have hcost := hw.cost
    rw [hw.need_rest (e := off.toNat + ((nextChunk src i).length + m)) (by omega),
      ← Nat.add_assoc]
    omega
  · right
    refine ⟨s₂, ?_, ?_⟩
    · rw [he, BitVec.ofNat_add, BitVec.add_assoc, Nat.add_assoc]
    · have hsplit : (src.drop i).take ((nextChunk src i).length + m) =
          nextChunk src i ++ (src.drop (i + (nextChunk src i).length)).take m := by
        rw [← nextChunk_append src i, List.take_length_add_append]
      rw [hsplit]
      exact Grown.chunk hoff hw hg

theorem filewriteLoop_spec (src : List UInt8) (hsb : sb.Ordered start) (fuel : Nat) :
    ∀ {s : Files} {off : BitVec 32} {i : Nat}, IsFile sb start s p →
      off.toNat ≤ (s.inode sb p).size.toNat → src.length - i ≤ fuel →
      LoopGives sb start p src s off i (filewriteLoop sb devsw p src fuel s off i) := by
  have hnone : ∀ {s : Files} {off : BitVec 32} {i : Nat}, IsFile sb start s p →
      off.toNat ≤ (s.inode sb p).size.toNat → src.length ≤ i →
      LoopGives sb start p src s off i (.ok (s, off, i)) := by
    intro s off i h hoff hi
    refine LoopGives.stop h hoff ?_
    rw [Nat.sub_eq_zero_of_le hi]
    exact wholeChunks_fits (Nat.le_trans hoff h.size_le)
  induction fuel with
  | zero =>
      intro s off i h hoff hfuel
      exact hnone h hoff (by omega)
  | succ fuel ih =>
      intro s off i h hoff hfuel
      rw [filewriteLoop]
      by_cases hi : i < src.length
      · obtain ⟨s₁, hlock, hfile, hlocked, hdisk, hinode⟩ := ilock_same h
        rw [if_pos hi, hlock]
        dsimp only
        refine LoopGives.of_same hdisk hinode ?_
        rw [← hinode] at hoff
        have hc := nextChunk_length src i
        by_cases hfit : off.toNat + (nextChunk src i).length ≤ MAXFILE * BSIZE
        · rcases writeInode_chunk hsb devsw hfile hlocked (nextChunk src i) ⟨hoff, hfit⟩
            with ⟨he, hfull⟩ | ⟨s₂, he, hw⟩
          · rw [he]
            refine Or.inl ⟨rfl, Nat.lt_of_lt_of_le hfull (need_mono _ _ ?_)⟩
            rw [wholeChunks_go (by rwa [← hc]), ← hc]
            omega
          · rw [he]
            dsimp only
            have hpos : (nextChunk src i).length > 0 := by
              rw [hc]
              exact lt_min (by omega) (by decide)
            rw [if_pos hpos, if_neg (not_not_intro rfl)]
            refine LoopGives.chunk hoff hfit hw (ih hw.file ?_ (by omega))
            have hend : off.toNat + (nextChunk src i).length ≤ 71680 := hfit
            rw [BitVec.toNat_add, BitVec.toNat_ofNat, hw.size]
            omega
        · have hlen : (nextChunk src i).length < 2 ^ 32 := by
            rw [hc]
            exact Nat.lt_of_le_of_lt (Nat.min_le_right _ _) (by decide)
          rw [writeInode_refused devsw hfile hlocked _ hlen fun hr => hfit hr.2, update_self]
          refine LoopGives.stop hfile hoff (wholeChunks_stop ?_ ?_)
          · exact Nat.le_trans hoff hfile.size_le
          · rwa [hc] at hfit
      · rw [if_neg hi]
        exact hnone h hoff (Nat.le_of_not_lt hi)

/-! ## The loop as a run of one process -/

section Alone

variable {devsw} {P : Type} [DecidableEq P] {q : P} {c : Shared P} {r : Option Nat}

/-- Where a call ends that nobody disturbs. -/
def EndsWith (src : List UInt8) (c : Shared P) (q : P) :
    Except FwPanic (Files × BitVec 32 × Nat) → Prop
  | .ok (files, off, i) =>
      c.files = files ∧ c.off = off ∧ c.pc q = .returned src i ∧ c.holder = none
  | .error (.inode e) => ∃ i, c.pc q = .panic src i e
  | .error .shortFilewrite => c.pc q = .panicShort

/-- The steps of `q` alone lead there. -/
def Leads (sb : Superblock) (devsw : Nat → Devsw) (src : List UInt8) (c : Shared P) (q : P)
    (x : Except FwPanic (Files × BitVec 32 × Nat)) : Prop :=
  ∃ c', Reach (fwStep sb devsw) (fun _ a => a = .step q) c c' ∧ EndsWith src c' q x

theorem Leads.here (h : EndsWith src c q x) : Leads sb devsw src c q x := ⟨c, .refl, h⟩

theorem Leads.step {c' : Shared P} (hs : fwRun sb devsw c q = some c')
    (h : Leads sb devsw src c' q x) : Leads sb devsw src c q x := by
  obtain ⟨c₁, hreach, hend⟩ := h
  have hone : Reach (fwStep sb devsw) (fun _ a => a = .step q) c c' := .tail .refl rfl hs
  exact ⟨c₁, hone.trans hreach, hend⟩

theorem Leads.returned (hpc : c.pc q = .loop src i) (hfree : c.holder = none)
    (hi : ¬ i < src.length) : Leads sb devsw src c q (.ok (c.files, c.off, i)) := by
  have hs : fwRun sb devsw c q = some (c.setPc q (.returned src i)) := by
    rw [fwRun, hpc]
    dsimp only
    rw [if_neg hi]
  exact .step hs (.here ⟨rfl, rfl, Function.update_self _ _ _, hfree⟩)

/-- `iunlock` and `end_op`. -/
theorem Leads.wrote (hpc : c.pc q = .wrote src i r)
    (h : ∀ {c' : Shared P}, c'.files = c.files → c'.ip = c.ip → c'.off = c.off →
      c'.holder = none → c'.pc q = .ended src i r → Leads sb devsw src c' q x) :
    Leads sb devsw src c q x := by
  have hs : fwRun sb devsw c q =
      some { c.setPc q (.unlocked src i r) with holder := none } := by
    rw [fwRun, hpc]
  refine .step hs ?_
  have hpc₁ : ({ c.setPc q (.unlocked src i r) with holder := none } : Shared P).pc q =
      .unlocked src i r := Function.update_self _ _ _
  have hs₁ : fwRun sb devsw { c.setPc q (.unlocked src i r) with holder := none } q =
      some ({ c.setPc q (.unlocked src i r) with holder := none }.setPc q (.ended src i r)) := by
    rw [fwRun, hpc₁]
  exact .step hs₁ (h rfl rfl rfl rfl (Function.update_self _ _ _))

/-- The tests on what `writei` returned. -/
theorem Leads.ended {k : Nat} (hpc : c.pc q = .ended src i (some k)) (hfree : c.holder = none)
    (h : ∀ {c' : Shared P}, c'.files = c.files → c'.ip = c.ip → c'.off = c.off →
      c'.holder = none → c'.pc q = .loop src (i + k) → k = (nextChunk src i).length →
      Leads sb devsw src c' q x) :
    Leads sb devsw src c q
      (if k ≠ (nextChunk src i).length then .error .shortFilewrite else x) := by
  by_cases hk : k ≠ (nextChunk src i).length
  · have hs : fwRun sb devsw c q = some (c.setPc q .panicShort) := by
      rw [fwRun, hpc]
      exact if_pos hk
    rw [if_pos hk]
    exact .step hs (.here (Function.update_self _ _ _))
  · have hs : fwRun sb devsw c q = some (c.setPc q (.loop src (i + k))) := by
      rw [fwRun, hpc]
      exact if_neg hk
    rw [if_neg hk]
    exact .step hs (h rfl rfl rfl hfree (Function.update_self _ _ _) (Decidable.of_not_not hk))

/-- From `writei` on, given what the loop does in the next round. -/
theorem Leads.locked {fuel : Nat} (hpc : c.pc q = .locked src i)
    (h : ∀ {c' : Shared P} {k : Nat}, c'.ip = c.ip → c'.holder = none →
      c'.pc q = .loop src (i + k) → k = (nextChunk src i).length → Leads sb devsw src c' q
        (filewriteLoop sb devsw c'.ip src fuel c'.files c'.off (i + k))) :
    Leads sb devsw src c q
      (match writeInode sb devsw c.files c.ip (nextChunk src i) c.off with
      | .error e => .error (.inode e)
      | .ok (s, none) => .ok (s, c.off, i)
      | .ok (s, some r) =>
          let off := if r > 0 then c.off + BitVec.ofNat 32 r else c.off
          if r ≠ (nextChunk src i).length then .error .shortFilewrite
          else filewriteLoop sb devsw c.ip src fuel s off (i + r)) := by
  have hs : fwRun sb devsw c q = some (fwWrite sb devsw c q src i) := by rw [fwRun, hpc]
  refine .step hs ?_
  rw [fwWrite]
  rcases writeInode sb devsw c.files c.ip (nextChunk src i) c.off with e | ⟨files, _ | k⟩
  · exact .here ⟨i, Function.update_self _ _ _⟩
  · refine .wrote (i := i) (r := none) (Function.update_self _ _ _) ?_
    intro c' hfiles hip hoff hfree hpc'
    have hs' : fwRun sb devsw c' q = some (c'.setPc q (.returned src i)) := by
      rw [fwRun, hpc']
    exact .step hs' (.here ⟨hfiles, hoff, Function.update_self _ _ _, hfree⟩)
  · dsimp only
    have hnext : ∀ {c₁ : Shared P} {off : BitVec 32}, c₁.files = files → c₁.ip = c.ip →
        c₁.off = off → c₁.pc q = .wrote src i (some k) → Leads sb devsw src c₁ q
          (if k ≠ (nextChunk src i).length then .error .shortFilewrite
            else filewriteLoop sb devsw c.ip src fuel files off (i + k)) := by
      intro c₁ off hfiles₁ hip₁ hoff₁ hpc₁
      refine .wrote hpc₁ fun hfiles₂ hip₂ hoff₂ hfree₂ hpc₂ => .ended hpc₂ hfree₂ ?_
      intro c₃ hfiles₃ hip₃ hoff₃ hfree₃ hpc₃ hk
      have hip : c₃.ip = c.ip := hip₃.trans (hip₂.trans hip₁)
      have hloop := h hip hfree₃ hpc₃ hk
      rwa [hip, hfiles₃, hfiles₂, hfiles₁, hoff₃, hoff₂, hoff₁] at hloop
    split
    · exact hnext rfl rfl rfl (Function.update_self _ _ _)
    · exact hnext rfl rfl rfl (Function.update_self _ _ _)

/-- Every round of the loop is what the steps of one process do when no other takes one. -/
theorem filewriteLoop_leads (sb : Superblock) (src : List UInt8) (q : P) (fuel : Nat) :
    ∀ {c : Shared P} {i : Nat}, c.pc q = .loop src i → c.holder = none →
      src.length - i ≤ fuel →
      Leads sb devsw src c q (filewriteLoop sb devsw c.ip src fuel c.files c.off i) := by
  induction fuel with
  | zero =>
      intro c i hpc hfree hfuel
      exact .returned hpc hfree (by omega)
  | succ fuel ih =>
      intro c i hpc hfree hfuel
      rw [filewriteLoop]
      by_cases hi : i < src.length
      · have hpos : 0 < (nextChunk src i).length := by
          rw [nextChunk_length]
          exact lt_min (by omega) (by decide)
        have hbegin : fwRun sb devsw c q = some (c.setPc q (.begun src i)) := by
          rw [fwRun, hpc]
          dsimp only
          rw [if_pos hi]
        rw [if_pos hi]
        refine .step hbegin ?_
        cases hlock : ilock sb c.files c.ip with
        | error e =>
            have hs : fwRun sb devsw (c.setPc q (.begun src i)) q =
                some { (c.setPc q (.begun src i)).setPc q (.panic src i e) with
                  holder := some q } := by
              simp only [fwRun, Shared.setPc, Function.update_self, hfree, if_true, hlock]
            exact .step hs (.here ⟨i, Function.update_self _ _ _⟩)
        | ok files =>
            have hs : fwRun sb devsw (c.setPc q (.begun src i)) q =
                some { (c.setPc q (.begun src i)).setPc q (.locked src i) with
                  files := files, holder := some q } := by
              simp only [fwRun, Shared.setPc, Function.update_self, hfree, if_true, hlock]
            refine .step hs (.locked (Function.update_self _ _ _) ?_)
            intro c' k _ hfree' hpc' hk
            exact ih hpc' hfree' (by omega)
      · rw [if_neg hi]
        exact .returned hpc hfree hi

end Alone

/-! ## `filewrite` and one `writei` -/

/-- `ilock` and one `writei` of everything. -/
def writeFile (sb : Superblock) (devsw : Nat → Devsw) (s : Files) (p : Iptr) (src : List UInt8)
    (off : BitVec 32) : Except Panic (Files × Option Nat) := do
  let s ← ilock sb s p
  writeInode sb devsw s p src off

/-- `ilock` and one `readi`. -/
def readFile (sb : Superblock) (devsw : Nat → Devsw) (s : Files) (p : Iptr) (off n : BitVec 32) :
    Except Panic (Option (List UInt8)) := do
  let s ← ilock sb s p
  let (_, r) ← readInode sb devsw s p off n
  return r

/-- What is read depends on the size and the content only. -/
theorem readFile_eq (h : IsFile sb start s p) (off n : BitVec 32) :
    (badRead (s.inode sb p) off n → readFile sb devsw s p off n = .ok none) ∧
      (¬ badRead (s.inode sb p) off n → readFile sb devsw s p off n =
        .ok (some ((((s.inode sb p).content s.disk).drop off.toNat).take n.toNat))) := by
  obtain ⟨s₁, hlock, hfile, hlocked, hdisk, hinode⟩ := ilock_same h
  obtain ⟨hlt, hd, ht⟩ := hfile.inv.cache p hlocked
  have hdin : (s₁.icache p).din = s.inode sb p := hd.symm.trans hinode
  have hdev : (s₁.icache p).din.type ≠ T_DEV := by
    rw [hdin, h.type]
    decide
  have hread := readi_eq devsw hfile.inv.block hlt hd ht hdev off n
  rw [hdin, hdisk] at hread
  refine ⟨fun hb => ?_, fun hb => ?_⟩
  · rw [readFile, hlock, ok_bind, readInode, hdin, hdisk, hread.1 hb]
    rfl
  · rw [readFile, hlock, ok_bind, readInode, hdin, hdisk, hread.2 hb]
    rfl

theorem readFile_same (h : IsFile sb start s p) (h' : IsFile sb start s' p)
    (hsize : (s'.inode sb p).size.toNat = (s.inode sb p).size.toNat)
    (hcontent : (s'.inode sb p).content s'.disk = (s.inode sb p).content s.disk)
    (off n : BitVec 32) : readFile sb devsw s' p off n = readFile sb devsw s p off n := by
  obtain ⟨hbad, hgood⟩ := readFile_eq devsw h off n
  obtain ⟨hbad', hgood'⟩ := readFile_eq devsw h' off n
  have hiff : badRead (s'.inode sb p) off n ↔ badRead (s.inode sb p) off n := by
    rw [badRead, badRead, hsize]
  by_cases hb : badRead (s.inode sb p) off n
  · rw [hbad hb, hbad' (hiff.mpr hb)]
  · rw [hgood hb, hgood' fun hb' => hb (hiff.mp hb'), hcontent]

/-- One `writei` of bytes that fit. -/
theorem writeFile_spec (src : List UInt8) (hsb : sb.Ordered start) (h : IsFile sb start s p)
    (hoff : off.toNat ≤ (s.inode sb p).size.toNat)
    (hfit : off.toNat + src.length ≤ MAXFILE * BSIZE) :
    (writeFile sb devsw s p src off = .error .outOfBlocks ∧ nfree sb s.disk <
        need (s.inode sb p) (s.inode sb p).size.toNat (off.toNat + src.length)) ∨
      ∃ s', writeFile sb devsw s p src off = .ok (s', some src.length) ∧
        Grown sb start s p off.toNat src s' := by
  obtain ⟨s₁, hlock, hfile, hlocked, hdisk, hinode⟩ := ilock_same h
  rw [writeFile, hlock, ok_bind]
  rw [← hinode] at hoff
  rcases writeInode_chunk hsb devsw hfile hlocked src ⟨hoff, hfit⟩ with ⟨he, hfull⟩ | ⟨s₂, he, hw⟩
  · rw [hinode, hdisk] at hfull
    exact Or.inl ⟨he, hfull⟩
  · obtain ⟨hfile₂, -, -, hsize, hcontent, hcost, -⟩ := hw
    rw [hinode] at hsize
    rw [hinode, hdisk] at hcontent hcost
    exact Or.inr ⟨s₂, he, hfile₂, hsize, hcontent, hcost⟩

theorem filewrite_spec (src : List UInt8) (hsb : sb.Ordered start) (h : IsFile sb start s p)
    (hoff : off.toNat ≤ (s.inode sb p).size.toNat) :
    (filewrite sb devsw p src true s off = .error (.inode .outOfBlocks) ∧
      nfree sb s.disk < need (s.inode sb p) (s.inode sb p).size.toNat
        (off.toNat + wholeChunks off.toNat src.length)) ∨
    ∃ s', filewrite sb devsw p src true s off =
        .ok (s', off + BitVec.ofNat 32 (wholeChunks off.toNat src.length),
          if off.toNat + src.length ≤ MAXFILE * BSIZE then some src.length else none) ∧
      Grown sb start s p off.toNat (src.take (wholeChunks off.toNat src.length)) s' := by
  have hloop := filewriteLoop_spec devsw src hsb src.length h hoff (i := 0) (Nat.sub_le _ _)
  rw [filewrite, if_neg Bool.true_eq_false_eq_False]
  rcases hloop with ⟨he, hfull⟩ | ⟨s', he, hg⟩
  · rw [he]
    exact Or.inl ⟨rfl, hfull⟩
  · rw [he]
    refine Or.inr ⟨s', ?_, hg⟩
    dsimp only
    rw [Nat.zero_add, Nat.sub_zero]
    by_cases hfit : off.toNat + src.length ≤ MAXFILE * BSIZE
    · rw [if_pos hfit, if_pos (wholeChunks_fits hfit)]
    · have hlt := wholeChunks_lt (Nat.le_trans hoff h.size_le) hfit
      rw [if_neg hfit, if_neg (Nat.ne_of_lt hlt)]

/-- `filewrite` of a regular file from an offset within it writes the longest prefix of
whole chunks that fits, if the free map has the blocks for it. A write that fits returns
its length and leaves what one `writei` leaves, also for every `readi`; one that does not
returns -1. With fewer free blocks `balloc` panics, for the one `writei` as well. In no
case is a write short. -/
theorem filewrite_chunks (hsb : sb.Ordered start) (h : IsFile sb start s p) (src : List UInt8)
    (off : BitVec 32) (hoff : off.toNat ≤ (s.inode sb p).size.toNat) :
    IsGreatest {m | m ≤ src.length ∧ (m = src.length ∨ fwMax ∣ m) ∧
        off.toNat + m ≤ MAXFILE * BSIZE} (wholeChunks off.toNat src.length) ∧
    (need (s.inode sb p) (s.inode sb p).size.toNat
          (off.toNat + wholeChunks off.toNat src.length) ≤ nfree sb s.disk →
      ∃ s', filewrite sb devsw p src true s off =
          .ok (s', off + BitVec.ofNat 32 (wholeChunks off.toNat src.length),
            if off.toNat + src.length ≤ MAXFILE * BSIZE then some src.length else none) ∧
        Grown sb start s p off.toNat (src.take (wholeChunks off.toNat src.length)) s' ∧
        (off.toNat + src.length ≤ MAXFILE * BSIZE →
          ∃ s₁, writeFile sb devsw s p src off = .ok (s₁, some src.length) ∧
            (s'.inode sb p).content s'.disk = (s₁.inode sb p).content s₁.disk ∧
            (s'.inode sb p).size = (s₁.inode sb p).size ∧
            ∀ off' n, readFile sb devsw s' p off' n = readFile sb devsw s₁ p off' n)) ∧
    (nfree sb s.disk < need (s.inode sb p) (s.inode sb p).size.toNat
          (off.toNat + wholeChunks off.toNat src.length) →
      filewrite sb devsw p src true s off = .error (.inode .outOfBlocks) ∧
        (off.toNat + src.length ≤ MAXFILE * BSIZE →
          writeFile sb devsw s p src off = .error .outOfBlocks)) := by
  refine ⟨wholeChunks_greatest (Nat.le_trans hoff h.size_le), fun hfree => ?_, fun hfull => ?_⟩
  · rcases filewrite_spec devsw src hsb h hoff with ⟨-, hfull⟩ | ⟨s', he, hg⟩
    · exact absurd hfull (Nat.not_lt_of_le hfree)
    · refine ⟨s', he, hg, fun hfit => ?_⟩
      rw [wholeChunks_fits hfit] at hfree hg
      rw [List.take_length] at hg
      rcases writeFile_spec devsw src hsb h hoff hfit with ⟨-, hfull⟩ | ⟨s₁, he₁, hg₁⟩
      · exact absurd hfull (Nat.not_lt_of_le hfree)
      · have hcontent := hg.content.trans hg₁.content.symm
        have hsize := hg.size.trans hg₁.size.symm
        exact ⟨s₁, he₁, hcontent, BitVec.eq_of_toNat_eq hsize,
          readFile_same devsw hg₁.file hg.file hsize hcontent⟩
  · refine ⟨?_, fun hfit => ?_⟩
    · rcases filewrite_spec devsw src hsb h hoff with ⟨he, -⟩ | ⟨s', -, hg⟩
      · exact he
      · have hcost := hg.cost
        have hlen : (src.take (wholeChunks off.toNat src.length)).length =
            wholeChunks off.toNat src.length :=
          List.length_take_of_le (wholeChunks_greatest (Nat.le_trans hoff h.size_le)).1.1
        rw [hlen] at hcost
        omega
    · rw [wholeChunks_fits hfit] at hfull
      rcases writeFile_spec devsw src hsb h hoff hfit with ⟨he, -⟩ | ⟨s₁, -, hg⟩
      · exact he
      · have hcost := hg.cost
        omega

/-- A byte behind the end of the file of a disk with one free block. -/
theorem filewrite_chunks_tiny : ∃ s', filewrite (tinySb 6) (fun _ => ⟨none, none⟩) 0 [7] true
      (tinyFiles 6) 512 = .ok (s', 513, some 1) ∧
    Grown (tinySb 6) 4 (tinyFiles 6) 0 512 [7] s' := by
  have hin := tinyFiles_inode 6 (by decide) (by decide)
  have h := filewrite_chunks (fun _ => ⟨none, none⟩) (tinySb_ordered 6 (by decide))
    (tinyFiles_isFile 6 (by decide) (by decide)) [7] 512 (by rw [hin]; decide)
  obtain ⟨s', he, hg, -⟩ := h.2.1 (by
    rw [hin, show (tinyFiles 6).disk = tinyDisk 6 from rfl, tinyDisk_nfree (by decide)]
    decide)
  exact ⟨s', he, hg⟩

/-- With no free block the same write is in range, and both panic. -/
theorem filewrite_out_of_blocks :
    IsFile (tinySb 5) 4 (tinyFiles 5) 0 ∧
      ((tinyFiles 5).inode (tinySb 5) 0).size.toNat = 512 ∧
      filewrite (tinySb 5) (fun _ => ⟨none, none⟩) 0 [7] true (tinyFiles 5) 512 =
        .error (.inode .outOfBlocks) ∧
      writeFile (tinySb 5) (fun _ => ⟨none, none⟩) (tinyFiles 5) 0 [7] 512 =
        .error .outOfBlocks := by
  have hin := tinyFiles_inode 5 (by decide) (by decide)
  have hfile := tinyFiles_isFile 5 (by decide) (by decide)
  have hsb := tinySb_ordered 5 (by decide)
  have hoff : (512 : BitVec 32).toNat ≤ ((tinyFiles 5).inode (tinySb 5) 0).size.toNat := by
    rw [hin]
    decide
  have hnone : nfree (tinySb 5) (tinyFiles 5).disk = 0 := tinyDisk_nfree (by decide)
  refine ⟨hfile, by rw [hin]; rfl, ?_, ?_⟩
  · rcases filewrite_spec (fun _ => ⟨none, none⟩) [7] hsb hfile hoff
      with ⟨he, -⟩ | ⟨s', -, hg⟩
    · exact he
    · have hcost := hg.cost
      rw [hin, hnone] at hcost
      exact absurd hcost (Nat.ne_of_gt (Nat.lt_of_lt_of_le (by decide) (Nat.le_add_left _ _)))
  · rcases writeFile_spec (fun _ => ⟨none, none⟩) [7] hsb hfile hoff (by decide)
      with ⟨he, -⟩ | ⟨s', -, hg⟩
    · exact he
    · have hcost := hg.cost
      rw [hin, hnone] at hcost
      exact absurd hcost (Nat.ne_of_gt (Nat.lt_of_lt_of_le (by decide) (Nat.le_add_left _ _)))

theorem filewriteLoop_leads_tiny :
    Leads (tinySb 6) (fun _ => ⟨none, none⟩) [7]
      ⟨tinyFiles 6, 0, 512, true, none, fun _ => .loop [7] 0, [], fun _ => [7]⟩ ()
      (filewriteLoop (tinySb 6) (fun _ => ⟨none, none⟩) 0 [7] 1 (tinyFiles 6) 512 0) :=
  filewriteLoop_leads _ _ _ 1 rfl rfl (by decide)

end Xv6.Ref.Inodes
