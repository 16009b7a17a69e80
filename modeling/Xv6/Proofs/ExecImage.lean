import Xv6.Proofs.ExecStack
import Xv6.Proofs.FileArray

/-!
# The image of a program

What `exec` has put together is what the file says, when the segments are given in order:
a segment then begins behind everything that was loaded before, so nothing it holds is
written again and the memory behind its bytes is still zero.
-/

namespace Xv6.Ref.Vm

open Xv6.Lib

variable {k : Kernel} {m m' : Phys} {c : List UInt8}

/-! ## Reading from the bytes of a file -/

theorem readAll_file {off n : Nat} {bs : List UInt8} (h : readAll (fileReader c) off n = some bs) :
    bs = (c.drop off).take n ∧ off + n ≤ c.length := by
  have hlen := readAll_length h
  rw [readAll, fileReader] at h
  split at h
  · cases h
  · next bs' hbs =>
      split at hbs
      · cases hbs
      · next hin =>
          cases hbs
          split at h
          · cases h
            refine ⟨rfl, ?_⟩
            rw [List.length_take, List.length_drop] at hlen
            omega
          · cases h

theorem getD_slice {off n j : Nat} (hj : j < n) :
    ((c.drop off).take n).getD j 0 = c.getD (off + j) 0 := by
  simp only [List.getD_eq_getElem?_getD, List.getElem?_take_of_lt hj, List.getElem?_drop]

/-- The offsets at which a segment's pages are read do not wrap round: each is one page
behind one inside the file. -/
theorem page_offset {off sz : Nat} (hfile : c.length + PGSIZE ≤ 2 ^ 32) (hoff : off < 2 ^ 32)
    (h : Readable (fileReader c) off sz) (p : Nat) (hp : p * PGSIZE < sz) :
    (off + p * PGSIZE) % 2 ^ 32 = off + p * PGSIZE := by
  have hfile' : c.length + 4096 ≤ 2 ^ 32 := hfile
  induction p with
  | zero =>
      rw [Nat.zero_mul, Nat.add_zero]
      exact Nat.mod_eq_of_lt hoff
  | succ p ih =>
      have hp' : (p + 1) * 4096 < sz := hp
      have hprev : p * PGSIZE < sz :=
        Nat.lt_of_le_of_lt (Nat.mul_le_mul_right _ (Nat.le_succ p)) hp
      have hread := h (p * PGSIZE) hprev
      rw [Nat.mul_div_cancel p (show 0 < PGSIZE by decide), ih hprev] at hread
      obtain ⟨bs, hbs⟩ := Option.isSome_iff_exists.mp hread
      have hin : off + p * 4096 + min 4096 (sz - p * 4096) ≤ c.length := (readAll_file hbs).2
      show (off + (p + 1) * 4096) % 2 ^ 32 = off + (p + 1) * 4096
      omega

theorem segByte_file {off sz j : Nat} (hfile : c.length + PGSIZE ≤ 2 ^ 32) (hoff : off < 2 ^ 32)
    (h : Readable (fileReader c) off sz) (hj : j < sz) :
    segByte (fileReader c) off sz j = c.getD (off + j) 0 ∧ off + j < c.length := by
  have hpage : j / PGSIZE * PGSIZE < sz := Nat.lt_of_le_of_lt (Nat.div_mul_le_self _ _) hj
  have hread := h j hj
  rw [page_offset hfile hoff h _ hpage] at hread
  obtain ⟨bs, hbs⟩ := Option.isSome_iff_exists.mp hread
  obtain ⟨rfl, hin⟩ := readAll_file hbs
  have hin : off + j / 4096 * 4096 + min 4096 (sz - j / 4096 * 4096) ≤ c.length := hin
  rw [segByte, page_offset hfile hoff h _ hpage, hbs, Option.getD_some, getD_slice]
  · have hsum : off + j / PGSIZE * PGSIZE + j % PGSIZE = off + j := by
      show off + j / 4096 * 4096 + j % 4096 = off + j
      omega
    rw [hsum]
    exact ⟨rfl, by omega⟩
  · show j % 4096 < min 4096 (sz - j / 4096 * 4096)
    omega

/-- What `readi` returns from an inode that is not a device. -/
theorem readi_fileReader {sb : Superblock} {start i off n : Nat} {d : Disk} {ip : DiskInode}
    (devsw : Nat → Inodes.Devsw) (h : Inodes.BlockInv sb start d) (hi : i < sb.ninodes)
    (hip : d.dinode sb i = ip) (ht : ip.type ≠ 0) (hdev : ip.type ≠ T_DEV) (hoff : off < 2 ^ 32)
    (hn : n < 2 ^ 32) :
    Inodes.readi sb devsw d ip (BitVec.ofNat 32 off) (BitVec.ofNat 32 n) =
      .ok (d, ip, fileReader (ip.content d) off n) := by
  have hlen : (ip.content d).length = ip.size.toNat := by simp [DiskInode.content]
  have hoff' : (BitVec.ofNat 32 off).toNat = off := by
    rw [BitVec.toNat_ofNat, Nat.mod_eq_of_lt hoff]
  have hn' : (BitVec.ofNat 32 n).toNat = n := by
    rw [BitVec.toNat_ofNat, Nat.mod_eq_of_lt hn]
  obtain ⟨hbad, hgood⟩ := Inodes.readi_eq devsw h hi hip ht hdev (BitVec.ofNat 32 off)
    (BitVec.ofNat 32 n)
  rw [Inodes.badRead, hoff', hn'] at hbad hgood
  rw [fileReader, hlen]
  split
  · exact hbad (by omega)
  · exact hgood (by omega)

/-! ## Segments in order -/

/-- The segments are given in ascending order and have no byte in common. -/
def InOrder (phs : List Proghdr) : Prop :=
  (segments phs).Pairwise fun a b => a.vaddr + a.memsz ≤ b.vaddr

theorem loaded_out {rd : Reader} {img : Nat → UInt8} {ph : Proghdr} {va : Nat}
    (h : va < ph.vaddr ∨ ph.vaddr + ph.filesz ≤ va) : loaded rd img ph va = img va :=
  if_neg (by omega)

theorem loaded_in {rd : Reader} {img : Nat → UInt8} {ph : Proghdr} {i : Nat} (h : i < ph.filesz) :
    loaded rd img ph (ph.vaddr + i) = segByte rd ph.off ph.filesz i := by
  rw [loaded, if_pos (by omega), Nat.add_sub_cancel_left]

/-- What is loaded stays when all segments to come begin behind it. -/
theorem place_fold {rd : Reader} {segs : List Proghdr} : ∀ {sz : Nat} (img : Nat → UInt8),
    (∀ ph ∈ segs, ph.Checked rd) → (∀ ph ∈ segs, sz ≤ ph.vaddr) →
    segs.Pairwise (fun a b => a.vaddr + a.memsz ≤ b.vaddr) →
    (segs.foldl (place rd) (sz, img)).1 = (segs.getLast?.elim sz fun ph => ph.vaddr + ph.memsz) ∧
      (∀ va, va < PGROUNDUP sz → (segs.foldl (place rd) (sz, img)).2 va = img va) ∧
      ∀ ph ∈ segs, (∀ i, i < ph.filesz →
          (segs.foldl (place rd) (sz, img)).2 (ph.vaddr + i) = segByte rd ph.off ph.filesz i) ∧
        (∀ i, ph.filesz ≤ i → i < ph.memsz →
          (segs.foldl (place rd) (sz, img)).2 (ph.vaddr + i) = 0) ∧
        ph.vaddr + ph.memsz ≤ (segs.foldl (place rd) (sz, img)).1 := by
  induction segs with
  | nil =>
      intro sz img _ _ _
      exact ⟨rfl, fun _ _ => rfl, nofun⟩
  | cons ph segs ih =>
      intro sz img hchk hsz hord
      obtain ⟨hfirst, hord⟩ := List.pairwise_cons.mp hord
      have hph := hchk ph List.mem_cons_self
      have hle := hsz ph List.mem_cons_self
      have hmax : max sz (ph.vaddr + ph.memsz) = ph.vaddr + ph.memsz := by omega
      -- the segment begins on a page of its own
      have hup : PGROUNDUP sz ≤ ph.vaddr := by
        have hal : ph.vaddr % 4096 = 0 := hph.aligned
        show (sz + 4096 - 1) / 4096 * 4096 ≤ ph.vaddr
        omega
      rw [List.foldl_cons, place, hmax]
      generalize himg : loaded rd (upTo (PGROUNDUP sz) img 0) ph = img₁
      obtain ⟨hend, hbelow, hsegs⟩ := ih img₁ (fun x hx => hchk x (List.mem_cons_of_mem _ hx))
        hfirst hord
      have hfits := le_PGROUNDUP (ph.vaddr + ph.memsz)
      refine ⟨?_, fun va hva => ?_, fun x hx => ?_⟩
      · rw [hend]
        cases hl : segs.getLast? with
        | none =>
            obtain rfl := List.getLast?_eq_none_iff.mp hl
            rfl
        | some x => rw [List.getLast?_cons, hl]; rfl
      · rw [hbelow va (by omega), ← himg, loaded_out (by omega), upTo_lt hva]
      · rcases List.mem_cons.mp hx with rfl | hx
        · have hfilesz := hph.filesz
          refine ⟨fun i hi => ?_, fun i h1 h2 => ?_, ?_⟩
          · rw [hbelow _ (by omega), ← himg, loaded_in hi]
          · rw [hbelow _ (by omega), ← himg, loaded_out (by omega), upTo_ge (by omega)]
          · rw [hend]
            cases hl : segs.getLast? with
            | none => exact Nat.le_refl _
            | some y =>
                have hy := hfirst y (List.mem_of_getLast? hl)
                exact Nat.le_trans hy (Nat.le_add_right _ _)
        · exact hsegs x hx

/-! ## `exec` on a file -/

theorem noHole_of_short {base : Nat} {argv : List (List UInt8)} :
    ∀ {sp : Nat}, (∀ s ∈ argv, s.length < PGSIZE) → NoHole base sp argv := by
  induction argv with
  | nil => exact fun _ => trivial
  | cons s argv ih =>
      intro sp h
      have hs : s.length < 4096 := h s List.mem_cons_self
      exact ⟨Or.inl (by omega), fun _ => ih fun x hx => h x (List.mem_cons_of_mem _ hx)⟩

/-- The headers the file begins with. -/
def fileElf (c : List UInt8) : Elfhdr := Elfhdr.ofBytes (c.take elfhdrSize)

def fileHeaders (c : List UInt8) : Option (List Proghdr) :=
  headers (fileReader c) (fileElf c).phnum (fileElf c).phoff

/-- A segment is in place: the bytes of the file, and zeroes behind them. -/
structure InPlace (c : List UInt8) (img : Nat → UInt8) (ph : Proghdr) : Prop where
  file : ∀ i, i < ph.filesz → ph.off + i < c.length ∧ img (ph.vaddr + i) = c.getD (ph.off + i) 0
  zero : ∀ i, ph.filesz ≤ i → i < ph.memsz → img (ph.vaddr + i) = 0

theorem headers_off {rd : Reader} : ∀ {n off : Nat} {phs : List Proghdr},
    headers rd n off = some phs → ∀ ph ∈ phs, ph.off < 2 ^ 32
  | 0, off, phs, h => by
      cases h
      nofun
  | n + 1, off, phs, h => by
      rw [headers] at h
      split at h
      · cases h
      · next bs hbs =>
          obtain ⟨phs', hphs, rfl⟩ := Option.map_eq_some_iff.mp h
          intro ph hph
          rcases List.mem_cons.mp hph with rfl | hph
          · exact word_lt bs 4
          · exact headers_off hphs ph hph

/-- An executable with one segment of 4 bytes, which gets 8 bytes of memory. -/
def tinyElf : List UInt8 :=
  [0x7f, 0x45, 0x4c, 0x46] ++ List.replicate 20 0 ++ [2, 0, 0, 0, 52, 0, 0, 0] ++
    List.replicate 12 0 ++ [1, 0] ++ List.replicate 6 0 ++
    [1, 0, 0, 0, 84, 0, 0, 0, 0, 0, 0, 0, 0, 0, 0, 0, 4, 0, 0, 0, 8, 0, 0, 0] ++
    List.replicate 8 0 ++ [0x90, 0x90, 0xeb, 0xfe]

end Xv6.Ref.Vm
