import Xv6.Proofs.DirContent
import Xv6.Proofs.MkfsContent

/-!
# The kernel reads what `mkfs` wrote

On the image the kernel finds the superblock, the inode of every file with the size of what
was read of it, and behind the inode, through `bmap`, its bytes. The root directory is
readable as far as it has entries; its size is rounded up, to a block that need not exist,
but `dirlookup` of a name that is there stops before.
-/

namespace Xv6.Ref.Mkfs

open Xv6.Lib
open Xv6.Ref.Inodes (Files Iptr Devsw badRead cname deInum deName namecmp isEntry)

variable {s : Image} {d : Disk} {i : Nat} {type : BitVec 16} {c : List UInt8}
  {files : List Input} {fs : Files} {p : Iptr}

/-! ## The image at the end -/

/-- Inode `i` is on the disk, and the bytes `c` behind it. -/
structure OnDisk (d : Disk) (i : Nat) (type : BitVec 16) (c : List UInt8) : Prop where
  type : (d.dinode sb i).type = type
  le : c.length ≤ (d.dinode sb i).size.toNat
  spans : Spans (d.dinode sb i) d c.length
  bytes : ((d.dinode sb i).content d).take c.length = c

theorem Holds.onDisk {s : Image} (h : Holds s files) {d : Disk} (hi : 0 < i)
    (hlt : i < files.length + 2) (hd : ∀ b, data b → d b = s.disk b) {v : DiskInode}
    (hv : d.dinode sb i = v) (hty : v.type = (s.disk.dinode sb i).type)
    (ha : v.addrs = (s.disk.dinode sb i).addrs)
    (hle : (s.disk.dinode sb i).size.toNat ≤ v.size.toNat) :
    OnDisk d i (typeOf i) (s.content i) := by
  have hin : i < NINODES := Nat.lt_of_lt_of_le (by rw [h.count]; exact hlt) h.whole.count
  have hlen := content_length s i
  refine ⟨?_, by rw [hlen, hv]; exact hle, ?_, ?_⟩
  · rw [hv, hty, (h.whole.used i hi (by rw [h.count]; exact hlt)).type]
  · rw [hlen, hv]
    exact (h.whole.spans_frame hin hd).congr fun k => DiskInode.ptr_of_addrs ha k
  · have hframe := h.whole.content_frame hin hd
    rw [hv, hlen, ← hframe, DiskInode.content, DiskInode.content, ← List.map_take,
      List.take_range, Nat.min_eq_left hle]
    refine List.map_congr_left fun o _ => ?_
    rw [DiskInode.byteAt, DiskInode.byteAt, DiskInode.ptr_of_addrs ha]

theorem main_total (hinodes : files.length + 1 < NINODES) (hopen : ∀ f ∈ files, f.opens)
    (hfit : ∀ f ∈ files, f.bytes.length ≤ MAXFILE * BSIZE)
    (hroom : blocksFor (16 * (files.length + 2)) + fileBlocks files ≤ FSSIZE - nmeta) :
    ∃ s, main files = some s ∧ s.disk 1 = superblock ∧
      OnDisk s.disk ROOTINO T_DIR (rootBytes files) ∧
      ∀ (k : Nat) (f : Input), files[k]? = some f →
        OnDisk s.disk (k + 2) T_FILE f.bytes ∧
          (s.disk.dinode sb (k + 2)).size.toNat = f.bytes.length := by
  have hroot : ROOTINO = 1 := rfl
  have hnin : NINODES = 200 := rfl
  obtain ⟨s₁, he₁, h₁⟩ := makeRoot_total
  obtain ⟨s₂, he₂, h₂⟩ := addFiles_total files h₁
    (by rw [List.length_nil]; omega) hopen hfit (by
      have hsz : FSSIZE = 1000 := rfl
      have hmeta : nmeta = 59 := rfl
      rw [List.length_nil, Nat.zero_add, show fileBlocks [] = 0 from rfl]
      omega)
  rw [List.nil_append] at h₂
  have hlen := (h₂.whole.part 0).len
  -- `fixRoot` and `balloc` write an inode block and the free map
  obtain ⟨sz, hsz⟩ : ∃ sz, BitVec.ofNat 32
    (((s₂.disk.dinode sb ROOTINO).size.toNat / BSIZE + 1) * BSIZE) = sz := ⟨_, rfl⟩
  obtain ⟨v, hv⟩ : ∃ v, { s₂.disk.dinode sb ROOTINO with size := sz } = v := ⟨_, rfl⟩
  have hfix : fixRoot s₂ = some { s₂ with disk := s₂.disk.setDinode sb ROOTINO v } := by
    simp only [fixRoot, rinode_eq hlen (i := ROOTINO) (by decide), Option.bind_eq_bind,
      Option.bind_some, hsz, hv]
    exact winode_eq hlen (by decide) v
  have hused : s₂.freeblock < BSIZE * 8 :=
    Nat.lt_of_le_of_lt (h₂.whole.part 0).hi (by decide)
  generalize hd : (s₂.disk.setDinode sb ROOTINO v).set sb.bmapstart (usedMap s₂.freeblock) = d
  have hmain : main files = some { s₂ with disk := d } := by
    have hput := wsect_eq (s := { s₂ with disk := s₂.disk.setDinode sb ROOTINO v })
      (x := sb.bmapstart) (by decide) hlen (usedMap s₂.freeblock)
    simp only [main, he₁, he₂, hfix, Option.bind_eq_bind, Option.bind_some, balloc, if_pos hused,
      hput]
    rw [← hd]
    rfl
  have hdata : ∀ b, data b → d b = s₂.disk b := by
    intro b hb
    rw [← hd, Disk.set_ne fun he => absurd hb.1 (by rw [he]; decide),
      setDinode_data (by decide) b hb.1]
  have hdin : ∀ j < NINODES, d.dinode sb j =
      if ROOTINO = j then v else s₂.disk.dinode sb j := by
    intro j hj
    rw [← Disk.dinode_setDinode, Disk.dinode, ← hd,
      Disk.set_ne (Nat.ne_of_lt (iblock_lt_bmapstart (Nat.lt_trans hj (by decide)))), Disk.dinode]
  refine ⟨_, hmain, ?_, ?_, fun k f hk => ?_⟩
  · have hlow := h₂.whole.low 1 (by decide)
    rw [if_pos rfl] at hlow
    rw [← hlow]
    show d 1 = s₂.disk 1
    rw [← hd]
    exact (Disk.set_ne (by decide)).trans (Disk.set_ne (by decide))
  · rw [← h₂.root]
    refine h₂.onDisk (by decide) (by omega) hdata ((hdin _ (by decide)).trans (if_pos rfl))
      (by rw [← hv]) (by rw [← hv]) ?_
    have hsize := content_length s₂ ROOTINO
    rw [h₂.length_root] at hsize
    rw [← hv]
    show _ ≤ sz.toNat
    rw [← hsz, ← hsize, BitVec.toNat_ofNat]
    show 16 * (files.length + 2) ≤ (16 * (files.length + 2) / 512 + 1) * 512 % 2 ^ 32
    omega
  · have hlt : k < files.length := (List.getElem?_eq_some_iff.mp hk).1
    have hdk : d.dinode sb (k + 2) = s₂.disk.dinode sb (k + 2) :=
      (hdin _ (by omega)).trans (if_neg (by omega))
    have hty : typeOf (k + 2) = T_FILE := if_neg (by omega)
    rw [← h₂.file k f hk, ← hty]
    refine ⟨h₂.onDisk (by omega) (by omega) hdata hdk rfl rfl (Nat.le_refl _), ?_⟩
    show (d.dinode sb (k + 2)).size.toNat = _
    rw [hdk, content_length]

theorem readsb_superblock (h : d 1 = superblock) : Inodes.readsb d = sb := by
  rw [Inodes.readsb, h]
  decide +kernel

/-! ## Through the inode cache -/

/-- The kernel has a reference to an inode of this disk that it has not read yet. -/
structure Unread (fs : Files) (d : Disk) (p : Iptr) (i : Nat) : Prop where
  disk : fs.disk = d
  inum : (fs.icache p).inum = i
  ref : 0 < (fs.icache p).ref
  valid : (fs.icache p).valid = false

/-- `ilock` has read it. -/
structure Read (fs : Files) (d : Disk) (p : Iptr) (i : Nat) : Prop where
  disk : fs.disk = d
  din : (fs.icache p).din = d.dinode sb i

theorem OnDisk.ilock (h : OnDisk d i type c) (ht : type ≠ 0) (hu : Unread fs d p i) :
    ∃ fs', Inodes.ilock sb fs p = .ok fs' ∧ Read fs' d p i := by
  have hty : (fs.disk.dinode sb (fs.icache p).inum).type ≠ 0 := by
    rw [hu.disk, hu.inum, h.type]
    exact ht
  refine ⟨fs.setInode p fun q => { q with din := d.dinode sb i, valid := true }, ?_, hu.disk, ?_⟩
  · have href := hu.ref
    rw [Inodes.ilock, if_neg (by omega), hu.valid, if_neg Bool.false_ne_true]
    dsimp only
    rw [if_neg hty, hu.disk, hu.inum]
  · rw [Inodes.setInode_same]

/-- `readi` within the bytes that are there. -/
theorem OnDisk.readInode (h : OnDisk d i type c) (hdev : type ≠ T_DEV) (devsw : Nat → Devsw)
    (hr : Read fs d p i) (off n : BitVec 32)
    (hb : ¬ badRead (d.dinode sb i) off n)
    (hle : min (off.toNat + n.toNat) (d.dinode sb i).size.toNat ≤ c.length) :
    Inodes.readInode sb devsw fs p off n =
      .ok (fs, some ((c.drop off.toNat).take n.toNat)) := by
  have hread : Inodes.readi sb devsw d (d.dinode sb i) off n = _ :=
    Inodes.readi_has devsw (by rw [h.type]; exact hdev)
      (fun o ho => Inodes.Spans.has h.spans ho) hb hle
  have hlen : ((d.dinode sb i).content d).length = (d.dinode sb i).size.toNat := by
    rw [DiskInode.content, List.length_map, List.length_range]
  have hslice : (((d.dinode sb i).content d).drop off.toNat).take n.toNat =
      (c.drop off.toNat).take n.toNat := by
    have hbytes := h.bytes
    by_cases hsz : (d.dinode sb i).size.toNat ≤ c.length
    · rw [List.take_of_length_le (by rw [hlen]; exact hsz)] at hbytes
      rw [hbytes]
    · generalize hL : c.length = L at hle hsz hbytes
      rw [← hbytes, List.drop_take, List.take_take, Nat.min_eq_left (by omega)]
  rw [Inodes.readInode, hr.disk, hr.din, hread, ok_bind, hslice]
  have hself := Inodes.update_self fs p
  rw [hr.disk, hr.din] at hself
  dsimp only
  rw [hself]
  rfl

/-! ## The root directory -/

theorem dirent_deInum {inum : Nat} (hi : inum < 2 ^ 16) (name : List UInt8) :
    deInum (dirent inum name) = inum := by
  show (UInt8.ofNat inum).toNat + 2 ^ 8 * (UInt8.ofNat (inum / 2 ^ 8)).toNat = inum
  rw [UInt8.toNat_ofNat', UInt8.toNat_ofNat']
  omega

theorem dirent_cname (inum : Nat) (name : List UInt8) :
    cname (deName (dirent inum name)) = cname name := by
  have hname : deName (dirent inum name) =
      name.take DIRSIZ ++ List.replicate (DIRSIZ - name.length) 0 := rfl
  have hzero : (List.replicate (DIRSIZ - name.length) (0 : UInt8)).takeWhile (· ≠ 0) = [] := by
    cases DIRSIZ - name.length with
    | zero => rfl
    | succ n => rfl
  have hlen : (name.take DIRSIZ ++ List.replicate (DIRSIZ - name.length) 0).length ≤ DIRSIZ := by
    rw [List.length_append, List.length_take, List.length_replicate]
    omega
  rw [hname, cname, cname, List.take_of_length_le hlen, List.takeWhile_append, hzero,
    List.append_nil]
  split
  · next hall => exact ((List.takeWhile_prefix _).eq_of_length hall).symm
  · rfl

/-- The first of the entries with the name. -/
structure FirstNamed (files : List Input) (name : List UInt8) (m : Nat)
    (e : Nat × List UInt8) : Prop where
  entry : (rootEntries files)[m]? = some e
  same : cname e.2 = cname name
  first : ∀ m' < m, ∀ e', (rootEntries files)[m']? = some e' → cname e'.2 ≠ cname name

theorem rootEntries_file {k : Nat} {f : Input} (hk : files[k]? = some f) :
    (rootEntries files)[k + 2]? = some (k + 2, f.stored) := by
  rw [rootEntries, List.getElem?_cons_succ, List.getElem?_cons_succ, List.getElem?_mapIdx, hk]
  rfl

theorem exists_firstNamed {k : Nat} {f : Input} (hk : files[k]? = some f) :
    ∃ m e, FirstNamed files f.stored m e ∧ m ≤ k + 2 := by
  have hex : ∃ m, ∃ e : Nat × List UInt8,
      (rootEntries files)[m]? = some e ∧ cname e.2 = cname f.stored :=
    ⟨k + 2, _, rootEntries_file hk, rfl⟩
  classical
  obtain ⟨e, he, hsame⟩ := Nat.find_spec hex
  refine ⟨Nat.find hex, e, ⟨he, hsame, fun m' hm' e' he' hsame' => ?_⟩, ?_⟩
  · exact Nat.find_min hex hm' ⟨e', he', hsame'⟩
  · exact Nat.find_min' hex ⟨_, rootEntries_file hk, rfl⟩

/-- `dirlookup` goes through the entries until one has the name. -/
theorem dirlookupLoop_first {devsw : Nat → Devsw} {entry : Nat → List UInt8} {m : Nat}
    (name : List UInt8) (hm : 16 * m < (fs.icache p).din.size.toNat)
    (hread : ∀ k ≤ m, Inodes.readInode sb devsw fs p (BitVec.ofNat 32 (16 * k)) 16 =
      .ok (fs, some (entry k)))
    (hlen : ∀ k ≤ m, (entry k).length = 16) (hyes : isEntry name (entry m) = true)
    (hno : ∀ k < m, isEntry name (entry k) = false) :
    ∀ fuel k, k ≤ m → m < k + fuel →
      Inodes.dirlookupLoop sb devsw p name fuel fs (16 * k) =
        .ok (fs, some (deInum (entry m), 16 * m)) := by
  intro fuel
  induction fuel with
  | zero => omega
  | succ fuel ih =>
      intro k hk hfuel
      rw [Inodes.dirlookupLoop, if_pos (by omega), hread k hk, ok_bind]
      dsimp only
      rw [if_neg (by rw [hlen k hk]; exact not_not_intro rfl)]
      by_cases hkm : k = m
      · subst hkm
        rw [if_pos (of_decide_eq_true hyes)]
      · rw [if_neg (of_decide_eq_false (hno k (by omega)))]
        exact ih (k + 1) (by omega) (by omega)

/-- The entry at index `m` of the directory. -/
theorem rootBytes_entry {m : Nat} {e : Nat × List UInt8} (he : (rootEntries files)[m]? = some e) :
    ((rootBytes files).drop (16 * m)).take 16 = dirent e.1 e.2 := by
  rw [rootBytes]
  generalize rootEntries files = es at he
  induction es generalizing m with
  | nil => cases he
  | cons x es ih =>
      rw [List.map_cons, List.flatten_cons]
      cases m with
      | zero =>
          cases he
          rw [Nat.mul_zero, List.drop_zero, List.take_append_of_le_length (by rw [dirent_length]),
            List.take_of_length_le (by rw [dirent_length])]
      | succ m =>
          rw [show 16 * (m + 1) = 16 + 16 * m by omega, ← List.drop_drop,
            List.drop_left' (dirent_length _ _)]
          exact ih he

theorem rootEntries_length (files : List Input) :
    (rootEntries files).length = files.length + 2 := by
  rw [rootEntries, List.length_cons, List.length_cons, List.length_mapIdx]

/-- Every entry has an inode number from 1 on. -/
theorem rootEntries_inum {m : Nat} {e : Nat × List UInt8}
    (he : (rootEntries files)[m]? = some e) : 0 < e.1 ∧ e.1 ≤ files.length + 1 := by
  have hlt : m < files.length + 2 := by
    rw [← rootEntries_length]
    exact (List.getElem?_eq_some_iff.mp he).1
  rw [rootEntries] at he
  rcases m with _ | _ | m
  · cases he
    omega
  · cases he
    omega
  · rw [List.getElem?_cons_succ, List.getElem?_cons_succ, List.getElem?_mapIdx] at he
    obtain ⟨f, hf, rfl⟩ := Option.map_eq_some_iff.mp he
    dsimp only
    omega

theorem isEntry_dirent {e : Nat × List UInt8} (hpos : 0 < e.1) (hlt : e.1 < 2 ^ 16)
    (name : List UInt8) :
    isEntry name (dirent e.1 e.2) = decide (cname name = cname e.2) := by
  rw [isEntry, dirent_deInum hlt, namecmp, dirent_cname]
  simp [Nat.ne_of_gt hpos]

/-- What the kernel finds on the image. -/
structure ReadsBack (s : Image) (files : List Input) : Prop where
  super : Inodes.readsb s.disk = sb
  file : ∀ (devsw : Nat → Devsw) (k : Nat) (f : Input), files[k]? = some f →
    ∀ (fs : Files) (p : Iptr), Unread fs s.disk p (k + 2) →
    ∃ fs', Inodes.ilock sb fs p = .ok fs' ∧
      (fs'.icache p).din.size.toNat = f.bytes.length ∧
      ∀ off n : BitVec 32, off.toNat ≤ f.bytes.length → off.toNat + n.toNat < 2 ^ 32 →
        Inodes.readInode sb devsw fs' p off n =
          .ok (fs', some ((f.bytes.drop off.toNat).take n.toNat))
  entry : ∀ (devsw : Nat → Devsw) (k : Nat) (f : Input), files[k]? = some f →
    ∀ (fs : Files) (p : Iptr), Unread fs s.disk p ROOTINO →
    ∃ fs' m e, Inodes.ilock sb fs p = .ok fs' ∧ FirstNamed files f.stored m e ∧
      Inodes.dirlookup sb devsw fs' p (f.stored.take DIRSIZ) =
        (Inodes.iget fs' e.1).map fun r => (r.1, some (r.2, 16 * m))

theorem OnDisk.dirlookup {k : Nat} {f : Input} (h : OnDisk d ROOTINO T_DIR (rootBytes files))
    (hinodes : files.length + 1 < NINODES) (devsw : Nat → Devsw) (hk : files[k]? = some f)
    (hr : Read fs d p ROOTINO) :
    ∃ m e, FirstNamed files f.stored m e ∧
      Inodes.dirlookup sb devsw fs p (f.stored.take DIRSIZ) =
        (Inodes.iget fs e.1).map fun r => (r.1, some (r.2, 16 * m)) := by
  have hnin : NINODES = 200 := rfl
  obtain ⟨m, e, hfirst, hm⟩ := exists_firstNamed hk
  refine ⟨m, e, hfirst, ?_⟩
  have hklt : k < files.length := (List.getElem?_eq_some_iff.mp hk).1
  have hlen := rootBytes_length files
  have hle := h.le
  rw [hlen] at hle
  have hname : cname (f.stored.take DIRSIZ) = cname f.stored := by
    rw [cname, List.take_take, Nat.min_self, cname]
  -- the entries up to the one found
  have hents : ∀ j ≤ m, ∃ x, (rootEntries files)[j]? = some x := by
    intro j hj
    refine ⟨_, List.getElem?_eq_getElem ?_⟩
    rw [rootEntries_length]
    omega
  have hread : ∀ j ≤ m, Inodes.readInode sb devsw fs p (BitVec.ofNat 32 (16 * j)) 16 =
      .ok (fs, some (((rootBytes files).drop (16 * j)).take 16)) := by
    intro j hj
    have hoff : (BitVec.ofNat 32 (16 * j)).toNat = 16 * j := by
      rw [BitVec.toNat_ofNat, Nat.mod_eq_of_lt (by omega)]
    have h16 : (16 : BitVec 32).toNat = 16 := rfl
    have := h.readInode (by decide) devsw hr (BitVec.ofNat 32 (16 * j)) 16
      (by rw [badRead, hoff, h16]; omega) (by rw [hoff, h16, hlen]; omega)
    rwa [hoff, h16] at this
  have hloop := dirlookupLoop_first (m := m) (f.stored.take DIRSIZ)
    (by rw [hr.din]; omega) hread ?_ ?_ ?_ Inodes.dirRounds 0 (Nat.zero_le _)
    (by show m < 0 + 4481; omega)
  · have hdir : (fs.icache p).din.type = T_DIR := by rw [hr.din, h.type]
    have hinum := rootEntries_inum hfirst.entry
    rw [rootBytes_entry hfirst.entry, dirent_deInum (by omega)] at hloop
    rw [Inodes.dirlookup, if_neg (not_not_intro hdir), show (0 : Nat) = 16 * 0 from rfl, hloop,
      ok_bind]
    dsimp only
    cases Inodes.iget fs e.1 with
    | ok r => rfl
    | error x => rfl
  · intro j hj
    rw [List.length_take, List.length_drop, hlen]
    omega
  · rw [rootBytes_entry hfirst.entry]
    have hinum := rootEntries_inum hfirst.entry
    rw [isEntry_dirent hinum.1 (by omega), decide_eq_true_iff, hname, hfirst.same]
  · intro j hj
    obtain ⟨x, hx⟩ := hents j (Nat.le_of_lt hj)
    rw [rootBytes_entry hx]
    have hinum := rootEntries_inum hx
    rw [isEntry_dirent hinum.1 (by omega), decide_eq_false_iff_not, hname]
    exact fun he => hfirst.first j hj x hx he.symm

/-- `mkfs` succeeds on files that it can open and that fit, and on its image the kernel reads
back what was read of each, under the first `DIRSIZ` bytes of its name. -/
theorem mkfs_read_back (files : List Input) (hopen : ∀ f ∈ files, f.opens)
    (hfit : ∀ f ∈ files, f.bytes.length ≤ MAXFILE * BSIZE)
    (hblocks : blocksFor (16 * (files.length + 2)) + fileBlocks files ≤ FSSIZE - nmeta)
    (hinodes : files.length + 1 < NINODES) :
    ∃ s, main files = some s ∧ ReadsBack s files := by
  obtain ⟨s, hmain, hsuper, hroot, hfile⟩ := main_total hinodes hopen hfit hblocks
  refine ⟨s, hmain, readsb_superblock hsuper, fun devsw k f hk fs p hu => ?_,
    fun devsw k f hk fs p hu => ?_⟩
  · obtain ⟨hdisk, hsize⟩ := hfile k f hk
    obtain ⟨fs', hlock, hr⟩ := hdisk.ilock (by decide) hu
    refine ⟨fs', hlock, by rw [hr.din, hsize], fun off n hoff hn => ?_⟩
    refine hdisk.readInode (by decide) devsw hr off n ?_ (by rw [hsize]; exact Nat.min_le_right _ _)
    rw [badRead, hsize]
    omega
  · obtain ⟨fs', hlock, hr⟩ := hroot.ilock (by decide) hu
    obtain ⟨m, e, hfirst, hlook⟩ := hroot.dirlookup hinodes devsw hk hr
    exact ⟨fs', m, e, hlock, hfirst, hlook⟩

/-- A file read in two pieces, whose name has the prefix of the build. -/
theorem mkfs_read_back_one :
    ∃ s, main [⟨[0x5f, 0x61], some [[1, 2], [3]]⟩] = some s ∧
      ReadsBack s [⟨[0x5f, 0x61], some [[1, 2], [3]]⟩] := by
  refine mkfs_read_back _ (fun f hf => ?_) (fun f hf => ?_) (by decide) (by decide)
  · rw [List.mem_singleton.mp hf]
    exact ⟨by decide, by simp⟩
  · rw [List.mem_singleton.mp hf]
    decide

end Xv6.Ref.Mkfs
