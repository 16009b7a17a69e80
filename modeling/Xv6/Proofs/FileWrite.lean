import Xv6.Lib.Sum
import Xv6.Proofs.BlockRuns
import Xv6.Ref.FileWrite

/-!
# Writes through a shared descriptor are not lost

Whoever holds the inode's lock finds `f->off` where the last chunk ended, because the
offset is advanced before the lock is given back. So the chunks lie one behind the other
(`Contiguous`), and the file is what it was with all of them in between
(`FwInv.content`). What a process has asked for and not yet written is its `rest`.
-/

namespace Xv6.Ref.Inodes

open Xv6.Lib

variable {sb : Superblock} {start : Nat}

/-! ## One chunk -/

/-- The inode behind a pointer, as it is on the disk. -/
def Files.inode (sb : Superblock) (s : Files) (p : Iptr) : DiskInode :=
  s.disk.dinode sb (s.icache p).inum

/-- A regular file that is referenced. -/
structure IsFile (sb : Superblock) (start : Nat) (s : Files) (p : Iptr) : Prop where
  inv : FilesInv sb start s
  ref : 0 < (s.icache p).ref
  inum : (s.icache p).inum < sb.ninodes
  type : (s.inode sb p).type = T_FILE

theorem ilock_file {s : Files} {p : Iptr} (h : IsFile sb start s p) :
    ∃ s', ilock sb s p = .ok s' ∧ IsFile sb start s' p ∧ s'.locked p ∧
      s'.disk = s.disk ∧ (s'.icache p).inum = (s.icache p).inum := by
  rw [ilock, if_neg (by have := h.ref; omega)]
  split
  · next hv => exact ⟨s, rfl, h, ⟨h.ref, hv⟩, rfl, rfl⟩
  · next hv =>
      have hty : ¬ (s.disk.dinode sb (s.icache p).inum).type = 0 := by
        have := h.type
        rw [Files.inode] at this
        rw [this]
        decide
      dsimp only
      rw [if_neg hty]
      refine ⟨_, rfl, ⟨?_, by simpa using h.ref, by simpa using h.inum, ?_⟩,
        ⟨by simpa using h.ref, by simp⟩, rfl, by simp⟩
      · have hlock := h.inv.ilock (p := p) h.inum
        rw [ilock, if_neg (by have := h.ref; omega), if_neg hv] at hlock
        dsimp only at hlock
        rw [if_neg hty] at hlock
        exact hlock
      · rw [Files.inode, setInode_same]
        exact h.type

/-- The bytes `src` have been written to the file at `off`. -/
structure ChunkWritten (sb : Superblock) (start : Nat) (s : Files) (p : Iptr) (off : Nat)
    (src : List UInt8) (s' : Files) : Prop where
  file : IsFile sb start s' p
  locked : s'.locked p
  inum : (s'.icache p).inum = (s.icache p).inum
  size : (s'.inode sb p).size.toNat = max (s.inode sb p).size.toNat (off + src.length)
  content : (s'.inode sb p).content s'.disk =
    ((s.inode sb p).content s.disk).take off ++ src ++
      ((s.inode sb p).content s.disk).drop (off + src.length)
  cost : nfree sb s'.disk + need (s.inode sb p) (s.inode sb p).size.toNat (off + src.length) =
    nfree sb s.disk
  indirect : off + src.length ≤ NDIRECT * BSIZE ∨ (s.inode sb p).indirect ≠ 0 →
    (s'.inode sb p).indirect = (s.inode sb p).indirect

theorem writeInode_chunk (hsb : sb.Ordered start) (devsw : Nat → Devsw) {s : Files} {p : Iptr}
    (h : IsFile sb start s p) (hp : s.locked p) (src : List UInt8) {off : BitVec 32}
    (hr : inRange (s.inode sb p) off src.length) :
    (writeInode sb devsw s p src off = .error .outOfBlocks ∧ nfree sb s.disk <
        need (s.inode sb p) (s.inode sb p).size.toNat (off.toNat + src.length)) ∨
      ∃ s', writeInode sb devsw s p src off = .ok (s', some src.length) ∧
        ChunkWritten sb start s p off.toNat src s' := by
  obtain ⟨hlt, hd, ht⟩ := h.inv.cache p hp
  have hty : (s.icache p).din.type = T_FILE := by rw [← hd]; exact h.type
  have hin : s.inode sb p = (s.icache p).din := hd
  rw [hin] at hr ⊢
  rcases writei_inRange devsw hsb h.inv.block hlt hd ht (by rw [hty]; decide) hr
    with ⟨he, hfull⟩ | ⟨d', ip', he, hcost, hind, hw⟩
  · left
    rw [writeInode, he]
    exact ⟨rfl, hfull⟩
  · right
    have hin' : (s.update p d' ip').inode sb p = ip' := by
      simp [Files.inode, Files.update, hw.inode]
    refine ⟨s.update p d' ip', by rw [writeInode, he]; rfl, ⟨?_, ?_, ?_, ?_⟩, ?_,
      by simp [Files.update], ?_, ?_, ?_, ?_⟩
    · refine h.inv.change hw.block (fun j hj hne => hw.dinode j hj hne) rfl (fun hr => hr)
        (fun _ _ => ⟨hlt, hw.inode, ?_⟩) (Or.inr hp.1)
      show ip'.type ≠ 0
      rw [hw.same, hd]
      exact ht
    · simpa [Files.update] using h.ref
    · simpa [Files.update] using h.inum
    · rw [hin', hw.same, hd, hty]
    · exact ⟨by simpa [Files.update] using hp.1, by simpa [Files.update] using hp.2⟩
    · rw [hin', hin, ← hd]
      exact hw.size
    · rw [hin', hin, ← hd]
      refine hw.content ?_
      rw [hd]
      exact hr.1
    · rw [hin]
      exact hcost
    · rw [hin', hin]
      exact hind

/-! ## The chunks -/

variable {P : Type}

/-- The bytes of the chunks, in the order they were written. -/
def bytes (hist : List (Chunk P)) : List UInt8 := (hist.map Chunk.data).flatten

/-- The chunks lie one behind the other from offset `o` on. -/
def Contiguous : Nat → List (Chunk P) → Prop
  | _, [] => True
  | o, c :: cs => c.off = o ∧ Contiguous (o + c.data.length) cs

@[simp] theorem bytes_snoc (hist : List (Chunk P)) (c : Chunk P) :
    bytes (hist ++ [c]) = bytes hist ++ c.data := by
  simp [bytes]

theorem bytes_cons (c : Chunk P) (cs : List (Chunk P)) : bytes (c :: cs) = c.data ++ bytes cs := by
  simp [bytes]

theorem Contiguous.snoc {o : Nat} {hist : List (Chunk P)} {c : Chunk P}
    (h : Contiguous o hist) (hc : c.off = o + (bytes hist).length) :
    Contiguous o (hist ++ [c]) := by
  induction hist generalizing o with
  | nil => exact ⟨hc, trivial⟩
  | cons b bs ih =>
      refine ⟨h.1, ih h.2 ?_⟩
      rw [hc, bytes_cons, List.length_append, Nat.add_assoc]

theorem Contiguous.off {o : Nat} {pre post : List (Chunk P)} {c : Chunk P}
    (h : Contiguous o (pre ++ c :: post)) : c.off = o + (bytes pre).length := by
  induction pre generalizing o with
  | nil => exact h.1
  | cons b bs ih => rw [ih h.2, bytes_cons, List.length_append, Nat.add_assoc]

/-- Writing one more chunk behind those already in the file. -/
theorem splice_snoc {c bs chunk : List UInt8} {o : Nat} (ho : o ≤ c.length) :
    (c.take o ++ bs ++ c.drop (o + bs.length)).take (o + bs.length) ++ chunk ++
        (c.take o ++ bs ++ c.drop (o + bs.length)).drop (o + bs.length + chunk.length) =
      c.take o ++ (bs ++ chunk) ++ c.drop (o + (bs ++ chunk).length) := by
  have hlen : (c.take o ++ bs).length = o + bs.length := by
    rw [List.length_append, List.length_take, min_eq_left ho]
  rw [← hlen, List.take_left, List.drop_append, List.drop_eq_nil_of_le (by omega), hlen,
    List.nil_append, List.drop_drop, List.length_append]
  simp only [List.append_assoc]
  congr 4
  omega

/-! ## The processes -/

/-- What the process still has to write. -/
def FwPc.rest : FwPc → List UInt8
  | .loop src i | .begun src i | .locked src i | .returned src i | .panic src i _ => src.drop i
  | .wrote src i _ | .unlocked src i _ | .ended src i _ =>
      src.drop (i + (nextChunk src i).length)
  | _ => []

/-- The process is between `ilock` and `iunlock`. -/
def FwPc.inside : FwPc → Bool
  | .locked _ _ | .wrote _ _ _ | .panic _ _ _ => true
  | _ => false

/-- Every chunk is written whole. -/
def FwPc.fine : FwPc → Prop
  | .begun src i | .locked src i => i < src.length
  | .wrote src i r | .unlocked src i r | .ended src i r => r = some (nextChunk src i).length
  | .returned src i => src.length ≤ i
  | .panicShort => False
  | _ => True

theorem nextChunk_length (src : List UInt8) (i : Nat) :
    (nextChunk src i).length = min (src.length - i) fwMax := by
  simp [nextChunk]

theorem nextChunk_append (src : List UInt8) (i : Nat) :
    nextChunk src i ++ src.drop (i + (nextChunk src i).length) = src.drop i := by
  rw [nextChunk_length, ← List.drop_drop]
  exact List.take_append_drop ..

variable [DecidableEq P]

/-- What process `p` has written. -/
def wroteBy (hist : List (Chunk P)) (p : P) : List UInt8 := bytes (hist.filter (·.proc = p))

theorem wroteBy_snoc (hist : List (Chunk P)) (c : Chunk P) (p : P) :
    wroteBy (hist ++ [c]) p = wroteBy hist p ++ if c.proc = p then c.data else [] := by
  rw [wroteBy, wroteBy, List.filter_append]
  by_cases hc : c.proc = p
  · rw [List.filter_singleton, if_pos hc, decide_eq_true hc, cond_true, bytes_snoc]
  · rw [List.filter_singleton, if_neg hc, decide_eq_false hc, cond_false, List.append_nil,
      List.append_nil]

structure FwInv [Fintype P] (sb : Superblock) (start : Nat) (s₀ s : Shared P) : Prop where
  begins : s₀.off.toNat ≤ ((s₀.files.inode sb s₀.ip).content s₀.files.disk).length
  file : IsFile sb start s.files s.ip
  same : s.ip = s₀.ip ∧ (s.files.icache s.ip).inum = (s₀.files.icache s₀.ip).inum
  holder : ∀ p, (s.pc p).inside = true ↔ s.holder = some p
  valid : ∀ p src i, s.pc p = .locked src i → s.files.locked s.ip
  fine : ∀ p, (s.pc p).fine
  /-- The offset is behind the last chunk, -/
  off : s.off.toNat = s₀.off.toNat + (bytes s.hist).length
  chunks : Contiguous s₀.off.toNat s.hist
  size : s.off.toNat ≤ (s.files.inode sb s.ip).size.toNat
  /-- and the chunks are in the file. -/
  content : (s.files.inode sb s.ip).content s.files.disk =
    ((s₀.files.inode sb s₀.ip).content s₀.files.disk).take s₀.off.toNat ++ bytes s.hist ++
      ((s₀.files.inode sb s₀.ip).content s₀.files.disk).drop
        (s₀.off.toNat + (bytes s.hist).length)
  order : ∀ p, wroteBy s.hist p ++ (s.pc p).rest = s.asked p
  total : (bytes s.hist).length + ∑ p, (s.pc p).rest.length = ∑ p, (s.asked p).length
  limit : s₀.off.toNat + ∑ p, (s.asked p).length ≤ MAXFILE * BSIZE

variable [Fintype P] {s₀ s s' : Shared P} {p : P}

/-- Nobody has called `filewrite` yet. -/
structure Start (sb : Superblock) (start : Nat) (s : Shared P) : Prop where
  file : IsFile sb start s.files s.ip
  user : ∀ p, s.pc p = .user
  holder : s.holder = none
  hist : s.hist = []
  asked : ∀ p, s.asked p = []
  off : s.off.toNat ≤ (s.files.inode sb s.ip).size.toNat

theorem Start.inv (h : Start sb start s) : FwInv sb start s s where
  begins := by
    rw [DiskInode.content, List.length_map, List.length_range]
    exact h.off
  file := h.file
  same := ⟨rfl, rfl⟩
  holder := by
    intro p
    rw [h.user p, h.holder]
    constructor <;> rintro ⟨⟩
  valid := by
    intro p src i hp
    rw [h.user p] at hp
    cases hp
  fine := by
    intro p
    rw [h.user p]
    trivial
  off := by rw [h.hist]; rfl
  chunks := by rw [h.hist]; trivial
  size := h.off
  content := by
    rw [h.hist]
    simp [bytes]
  order := by
    intro p
    rw [h.hist, h.user p, h.asked p]
    rfl
  total := by
    rw [h.hist]
    simp [h.user, h.asked, FwPc.rest, bytes]
  limit := by
    have hmid := h.file.inv.block.mid (s.files.icache s.ip).inum
    have hty : (s.files.disk.dinode sb (s.files.icache s.ip).inum).type ≠ 0 := by
      have := h.file.type
      rw [Files.inode] at this
      rw [this]
      decide
    rw [table_eq h.file.inum hty] at hmid
    have hle := hmid.tidy.fits.le
    have hoff := h.off
    rw [Files.inode] at hoff
    simp only [h.asked, List.length_nil, Finset.sum_const_zero, Nat.add_zero]
    exact hoff.trans hle

/-- A step of `p` that writes nothing. -/
theorem FwInv.go (h : FwInv sb start s₀ s) {v : FwPc} {files : Files} {o : Option P}
    (hfile : IsFile sb start files s.ip) (hdisk : files.disk = s.files.disk)
    (hinum : (files.icache s.ip).inum = (s.files.icache s.ip).inum)
    (hholder : ∀ q, (Function.update s.pc p v q).inside = true ↔ o = some q)
    (hvalid : ∀ q src i, Function.update s.pc p v q = .locked src i → files.locked s.ip)
    (hfine : v.fine) (hrest : v.rest = (s.pc p).rest) :
    FwInv sb start s₀ { s.setPc p v with files := files, holder := o } := by
  have hin : files.inode sb s.ip = s.files.inode sb s.ip := by
    rw [Files.inode, Files.inode, hdisk, hinum]
  have hrest' : ∀ q, (Function.update s.pc p v q).rest = (s.pc q).rest := by
    intro q
    by_cases hq : q = p
    · rw [hq, Function.update_self, hrest]
    · rw [Function.update_of_ne hq]
  refine ⟨h.begins, hfile, ⟨h.same.1, hinum.trans h.same.2⟩, hholder, hvalid, fun q => ?_, h.off, h.chunks,
    ?_, ?_, fun q => ?_, ?_, h.limit⟩
  · show (Function.update s.pc p v q).fine
    by_cases hq : q = p
    · rw [hq, Function.update_self]
      exact hfine
    · rw [Function.update_of_ne hq]
      exact h.fine q
  · show s.off.toNat ≤ (files.inode sb s.ip).size.toNat
    rw [hin]
    exact h.size
  · show (files.inode sb s.ip).content files.disk = _
    rw [hin, hdisk]
    exact h.content
  · show wroteBy s.hist q ++ (Function.update s.pc p v q).rest = _
    rw [hrest' q]
    exact h.order q
  · show _ + ∑ q, (Function.update s.pc p v q).rest.length = _
    simp only [hrest']
    exact h.total

/-- Outside of the lock, or without leaving it. -/
theorem FwInv.stay (h : FwInv sb start s₀ s) {v : FwPc}
    (hin : v.inside = (s.pc p).inside) (hlocked : ∀ src i, v ≠ .locked src i)
    (hfine : v.fine) (hrest : v.rest = (s.pc p).rest) :
    FwInv sb start s₀ (s.setPc p v) := by
  refine h.go (o := s.holder) h.file rfl rfl (fun q => ?_) (fun q src i hq => ?_) hfine hrest
  · rw [← h.holder q]
    by_cases hq : q = p
    · rw [hq, Function.update_self, hin]
    · rw [Function.update_of_ne hq]
  · by_cases he : q = p
    · rw [he, Function.update_self] at hq
      exact absurd hq (hlocked src i)
    · rw [Function.update_of_ne he] at hq
      exact h.valid q src i hq

theorem fwWrite_inv (hsb : sb.Ordered start) (devsw : Nat → Devsw) (h : FwInv sb start s₀ s)
    {src : List UInt8} {i : Nat} (hp : s.pc p = .locked src i) :
    FwInv sb start s₀ (fwWrite sb devsw s p src i) := by
  have hfine := h.fine p
  rw [hp] at hfine
  have hi : i < src.length := hfine
  set chunk := nextChunk src i with hchunk
  have hlen : chunk.length = min (src.length - i) fwMax := nextChunk_length src i
  have hpos : 0 < chunk.length := by
    rw [hlen]
    exact lt_min (by omega) (by decide)
  have hrest : (s.pc p).rest = chunk ++ src.drop (i + chunk.length) := by
    rw [hp]
    exact (nextChunk_append src i).symm
  -- the chunk is part of what is still to be written
  have hroom : s.off.toNat + chunk.length ≤ MAXFILE * BSIZE := by
    have hone : (s.pc p).rest.length ≤ ∑ q, (s.pc q).rest.length :=
      Finset.single_le_sum (f := fun q => (s.pc q).rest.length) (fun _ _ => Nat.zero_le _)
        (Finset.mem_univ p)
    rw [hrest, List.length_append] at hone
    have := h.total
    have := h.limit
    have := h.off
    omega
  rw [fwWrite]
  rcases writeInode_chunk hsb devsw h.file (h.valid p src i hp) chunk
    ⟨h.size, hroom⟩ with ⟨he, -⟩ | ⟨files, he, hfile, hlocked, hinum, hsize, hcontent, -, -⟩
  · rw [he]
    refine h.stay (by rw [hp]; rfl) (fun _ _ => nofun) trivial ?_
    rw [hp]
    rfl
  · rw [he]
    dsimp only
    rw [if_pos hpos]
    have hadd : (s.off + BitVec.ofNat 32 chunk.length).toNat = s.off.toNat + chunk.length := by
      have hmax : s.off.toNat + chunk.length ≤ 71680 := hroom
      rw [BitVec.toNat_add, BitVec.toNat_ofNat]
      omega
    have hbytes : bytes (s.hist ++ [⟨p, s.off.toNat, chunk⟩]) = bytes s.hist ++ chunk :=
      bytes_snoc ..
    have hother : ∀ q, q ≠ p →
        Function.update s.pc p (.wrote src i (some chunk.length)) q = s.pc q := fun q hq =>
      Function.update_of_ne hq ..
    have hself : Function.update s.pc p (.wrote src i (some chunk.length)) p =
        .wrote src i (some chunk.length) := Function.update_self ..
    refine ⟨h.begins, hfile, ⟨h.same.1, hinum.trans h.same.2⟩, fun q => ?_, fun q src' i' hq => hlocked,
      fun q => ?_, ?_, ?_, ?_, ?_, fun q => ?_, ?_, h.limit⟩
    · show (Function.update s.pc p _ q).inside = true ↔ s.holder = some q
      rw [← h.holder q]
      by_cases hq : q = p
      · rw [hq, hself, hp]
        exact ⟨fun _ => rfl, fun _ => rfl⟩
      · rw [hother q hq]
    · show (Function.update s.pc p _ q).fine
      by_cases hq : q = p
      · rw [hq, hself]
        rfl
      · rw [hother q hq]
        exact h.fine q
    · show (s.off + BitVec.ofNat 32 chunk.length).toNat = _ + (bytes (s.hist ++ [_])).length
      rw [hadd, hbytes, List.length_append, h.off, Nat.add_assoc]
    · exact h.chunks.snoc h.off
    · show (s.off + BitVec.ofNat 32 chunk.length).toNat ≤ (files.inode sb s.ip).size.toNat
      rw [hadd, hsize]
      exact le_max_right ..
    · show (files.inode sb s.ip).content files.disk =
        _ ++ bytes (s.hist ++ [⟨p, s.off.toNat, chunk⟩]) ++ _
      rw [hcontent, h.content, hbytes, h.off]
      exact splice_snoc h.begins
    · show wroteBy (s.hist ++ [⟨p, s.off.toNat, chunk⟩]) q ++ (Function.update s.pc p _ q).rest =
        s.asked q
      rw [wroteBy_snoc, ← h.order q]
      by_cases hq : q = p
      · rw [hq, hself, hrest, if_pos rfl, List.append_assoc]
        rfl
      · rw [hother q hq, if_neg (Ne.symm hq), List.append_nil]
    · show (bytes (s.hist ++ [⟨p, s.off.toNat, chunk⟩])).length +
        ∑ q, (Function.update s.pc p (.wrote src i (some chunk.length)) q).rest.length =
          ∑ q, (s.asked q).length
      have hsum := sum_change (i := p)
        (f := fun q =>
          (Function.update s.pc p (.wrote src i (some chunk.length)) q).rest.length)
        (g := fun q => (s.pc q).rest.length) fun q hq => by rw [hother q hq]
      have hlast : (FwPc.wrote src i (some chunk.length)).rest = src.drop (i + chunk.length) := rfl
      rw [hself, hrest, hlast, List.length_append] at hsum
      have := h.total
      rw [hbytes, List.length_append]
      omega

theorem fwRun_inv (hsb : sb.Ordered start) (devsw : Nat → Devsw) (h : FwInv sb start s₀ s)
    (hs : fwRun sb devsw s p = some s') : FwInv sb start s₀ s' := by
  have hfine := h.fine p
  have hholder := h.holder p
  rw [fwRun] at hs
  cases hp : s.pc p with simp only [hp] at hs hfine hholder
  | user | panicShort | panic src i e => cases hs
  | loop src i =>
      cases hs
      split
      · next hi => exact h.stay (by rw [hp]; rfl) (fun _ _ => nofun) hi (by rw [hp]; rfl)
      · next hi =>
          exact h.stay (by rw [hp]; rfl) (fun _ _ => nofun) (Nat.le_of_not_lt hi) (by rw [hp]; rfl)
  | begun src i =>
      split at hs
      · next hfree =>
          obtain ⟨files, he, hfile, hlocked, hdisk, hinum⟩ := ilock_file h.file
          rw [he] at hs
          cases hs
          refine h.go hfile hdisk hinum (fun q => ?_) (fun _ _ _ _ => hlocked) hfine
            (by rw [hp]; rfl)
          by_cases hq : q = p
          · rw [hq, Function.update_self]
            exact ⟨fun _ => rfl, fun _ => rfl⟩
          · rw [Function.update_of_ne hq, h.holder q, hfree]
            exact ⟨nofun, fun he => absurd (Option.some.inj he).symm hq⟩
      · cases hs
  | locked src i =>
      cases hs
      exact fwWrite_inv hsb devsw h hp
  | wrote src i r =>
      cases hs
      have hme : s.holder = some p := hholder.mp rfl
      refine h.go h.file rfl rfl (fun q => ?_) (fun q src' i' hq => ?_) hfine (by rw [hp]; rfl)
      · by_cases hq : q = p
        · rw [hq, Function.update_self]
          exact ⟨nofun, nofun⟩
        · rw [Function.update_of_ne hq, h.holder q, hme]
          exact ⟨fun he => absurd (Option.some.inj he).symm hq, nofun⟩
      · by_cases he : q = p
        · rw [he, Function.update_self] at hq
          cases hq
        · rw [Function.update_of_ne he] at hq
          exact h.valid q src' i' hq
  | unlocked src i r =>
      cases hs
      exact h.stay (by rw [hp]; rfl) (fun _ _ => nofun) hfine (by rw [hp]; rfl)
  | ended src i r =>
      have hr : r = some (nextChunk src i).length := hfine
      subst hr
      simp only [ne_eq, not_true_eq_false, if_false] at hs
      cases hs
      exact h.stay (by rw [hp]; rfl) (fun _ _ => nofun) trivial (by rw [hp]; rfl)
  | returned src i =>
      cases hs
      refine h.stay (by rw [hp]; rfl) (fun _ _ => nofun) trivial ?_
      rw [hp]
      exact (List.drop_eq_nil_of_le hfine).symm

theorem fwInv_step (hsb : sb.Ordered start) (devsw : Nat → Devsw) {a : FwAct P}
    (h : FwInv sb start s₀ s) (hok : withinMax s₀.off.toNat s a)
    (hs : fwStep sb devsw s a = some s') : FwInv sb start s₀ s' := by
  cases a with
  | step p => exact fwRun_inv hsb devsw h hs
  | filewrite p src =>
      rw [fwStep] at hs
      split at hs
      · cases hs
      · next hp =>
          have hp : s.pc p = .user := not_not.mp hp
          split at hs
          · cases hs
            exact h
          · cases hs
            have hother : ∀ {α : Type} {f : P → α} {v : α} {q : P}, q ≠ p →
                Function.update f p v q = f q := fun hq => Function.update_of_ne hq ..
            have hlen : ∑ q, (Function.update s.asked p (s.asked p ++ src) q).length =
                ∑ q, (s.asked q).length + src.length := by
              have hsum := sum_change (i := p)
                (f := fun q => (Function.update s.asked p (s.asked p ++ src) q).length)
                (g := fun q => (s.asked q).length) fun q hq => by rw [hother hq]
              rw [Function.update_self, List.length_append] at hsum
              omega
            have hrest : ∑ q, (Function.update s.pc p (.loop src 0) q).rest.length =
                ∑ q, (s.pc q).rest.length + src.length := by
              have hsum := sum_change (i := p)
                (f := fun q => (Function.update s.pc p (.loop src 0) q).rest.length)
                (g := fun q => (s.pc q).rest.length) fun q hq => by rw [hother hq]
              rw [Function.update_self, hp] at hsum
              exact hsum
            refine ⟨h.begins, h.file, h.same, fun q => ?_, fun q src' i' hq => ?_, fun q => ?_,
              h.off, h.chunks, h.size, h.content, fun q => ?_, ?_, ?_⟩
            · show (Function.update s.pc p _ q).inside = true ↔ s.holder = some q
              rw [← h.holder q]
              by_cases hq : q = p
              · rw [hq, Function.update_self, hp]
                exact ⟨nofun, nofun⟩
              · rw [hother hq]
            · have hq : Function.update s.pc p (.loop src 0) q = .locked src' i' := hq
              by_cases he : q = p
              · rw [he, Function.update_self] at hq
                cases hq
              · rw [hother he] at hq
                exact h.valid q src' i' hq
            · show (Function.update s.pc p _ q).fine
              by_cases hq : q = p
              · rw [hq, Function.update_self]
                trivial
              · rw [hother hq]
                exact h.fine q
            · show wroteBy s.hist q ++ (Function.update s.pc p _ q).rest =
                Function.update s.asked p _ q
              have hord := h.order q
              by_cases hq : q = p
              · subst hq
                rw [hp] at hord
                rw [Function.update_self, Function.update_self, ← hord, List.append_assoc]
                rfl
              · rw [hother hq, hother hq]
                exact hord
            · show (bytes s.hist).length + ∑ q, (Function.update s.pc p _ q).rest.length =
                ∑ q, (Function.update s.asked p _ q).length
              rw [hrest, hlen]
              have := h.total
              omega
            · show _ + ∑ q, (Function.update s.asked p _ q).length ≤ _
              rw [hlen]
              exact (Nat.add_assoc ..).symm.trans_le hok

/-- What holds of a file that is written to through one descriptor. -/
structure SharedWrites (sb : Superblock) (s₀ s : Shared P) : Prop where
  /-- The chunks lie one behind the other, from the first offset on, -/
  chunks : ∀ pre c post, s.hist = pre ++ c :: post →
    c.off = s₀.off.toNat + (bytes pre).length
  off : s.off.toNat = s₀.off.toNat + (bytes s.hist).length
  /-- and the file has all of them, next to what it had. -/
  content : (s.files.inode sb s.ip).content s.files.disk =
    ((s₀.files.inode sb s₀.ip).content s₀.files.disk).take s₀.off.toNat ++ bytes s.hist ++
      ((s₀.files.inode sb s₀.ip).content s₀.files.disk).drop
        (s₀.off.toNat + (bytes s.hist).length)
  size : s.off.toNat ≤ (s.files.inode sb s.ip).size.toNat
  /-- A process's chunks are what it has asked for, in order, but for what is left. -/
  order : ∀ p, wroteBy s.hist p ++ (s.pc p).rest = s.asked p
  /-- `filewrite` writes everything before it returns. -/
  returns : ∀ p src i, s.pc p = .returned src i → src.length ≤ i
  short : ∀ p, s.pc p ≠ .panicShort
  /-- When no call is in progress, the offset has moved by all that was asked for. -/
  total : (∀ p, s.pc p = .user) → s.off.toNat = s₀.off.toNat + ∑ p, (s.asked p).length

theorem shared_writes (hsb : sb.Ordered start) (devsw : Nat → Devsw)
    (hstart : Start sb start s₀) (h : Reach (fwStep sb devsw) (withinMax s₀.off.toNat) s₀ s) :
    SharedWrites sb s₀ s := by
  have hinv : FwInv sb start s₀ s :=
    h.invariant hstart.inv fun s s' a hi hok hs => fwInv_step hsb devsw hi hok hs
  refine ⟨fun pre c post hh => ?_, hinv.off, hinv.content, hinv.size, hinv.order,
    fun p src i hp => ?_, fun p hp => ?_, fun hu => ?_⟩
  · have hc := hinv.chunks
    rw [hh] at hc
    exact hc.off
  · have hf := hinv.fine p
    rw [hp] at hf
    exact hf
  · have hf := hinv.fine p
    rw [hp] at hf
    exact hf
  · have htotal := hinv.total
    simp only [hu, FwPc.rest, List.length_nil, Finset.sum_const_zero, Nat.add_zero] at htotal
    rw [hinv.off, htotal]

/-- The file of the tiny disk, referenced once. -/
def tinyFiles (size : Nat) : Files :=
  (bootFiles (tinyDisk size)).setInode 0 fun _ => ⟨1, 1, false, DiskInode.zero⟩

theorem tinyFiles_icache (size : Nat) :
    (tinyFiles size).icache 0 = ⟨1, 1, false, DiskInode.zero⟩ := by
  rw [tinyFiles, setInode_same]

theorem tinyFiles_inode (size : Nat) (hlo : 5 ≤ size) (hs : size ≤ BPB) :
    (tinyFiles size).inode (tinySb size) 0 = tinyInode := by
  rw [Files.inode, tinyFiles_icache]
  exact tinyDisk_dinode size hlo hs (by decide)

theorem tinyFiles_isFile (size : Nat) (hlo : 5 ≤ size) (hs : size ≤ BPB) :
    IsFile (tinySb size) 4 (tinyFiles size) 0 := by
  have hrest : ∀ p, p ≠ 0 → (tinyFiles size).icache p = ⟨0, 0, false, DiskInode.zero⟩ :=
    fun p hp => if_neg hp
  have hinv : FilesInv (tinySb size) 4 (tinyFiles size) := by
    refine ⟨tinyDisk_blockInv size hlo hs, fun p hp => ?_, fun p q hp hq _ => ?_⟩
    · have hv := hp.2
      by_cases h0 : p = 0
      · rw [h0] at hv
        cases hv
      · rw [hrest p h0] at hv
        cases hv
    · have hzero : ∀ r, 0 < ((tinyFiles size).icache r).ref → r = 0 := by
        intro r hr
        by_contra h0
        rw [hrest r h0] at hr
        exact absurd hr (Nat.lt_irrefl 0)
      rw [hzero p hp, hzero q hq]
  refine ⟨hinv, ?_, ?_, ?_⟩
  · rw [tinyFiles_icache]
    exact Nat.one_pos
  · rw [tinyFiles_icache]
    show 1 < 8
    decide
  · rw [tinyFiles_inode size hlo hs]
    rfl

/-- Two processes that share a descriptor of the file of the tiny disk, at its end. -/
def tinyShared : Shared Bool where
  files := tinyFiles 6
  ip := 0
  off := 512
  writable := true
  holder := none
  pc := fun _ => .user
  hist := []
  asked := fun _ => []

theorem tinyShared_start : Start (tinySb 6) 4 tinyShared := by
  refine ⟨tinyFiles_isFile 6 (by decide) (by decide), fun _ => rfl, rfl, rfl, fun _ => rfl, ?_⟩
  rw [show tinyShared.files.inode (tinySb 6) tinyShared.ip = tinyInode from
    tinyFiles_inode 6 (by decide) (by decide)]
  decide

/-- One of them writes while the other is behind its `begin_op`. -/
theorem shared_writes_tiny :
    ∃ s, (s.off = 515 ∧ s.pc true = .returned [1, 2] 2 ∧ s.pc false = .returned [3] 1) ∧
      SharedWrites (tinySb 6) tinyShared s := by
  have hrun : (exec (fwStep (tinySb 6) fun _ => ⟨none, none⟩) (withinMax 512) tinyShared
      ([.filewrite true [1, 2], .filewrite false [3], .step false] ++
        List.replicate 7 (.step true) ++ List.replicate 6 (.step false))).any
      (fun s => s.off = 515 ∧ s.pc true = .returned [1, 2] 2 ∧
        s.pc false = .returned [3] 1) = true := by
    decide +kernel
  obtain ⟨s, hs, ht⟩ := exists_reach_of_exec hrun
  exact ⟨s, of_decide_eq_true ht,
    shared_writes (tinySb_ordered 6 (by decide)) _ tinyShared_start hs⟩

end Xv6.Ref.Inodes
