import Xv6.Ref.Layout

/-!
# Blocks, inodes and directories in the kernel (`fs.c`)

The layer between the system calls and the buffer cache: the block allocator, the
inode cache, the content of inodes and the entries of directories, as functions on
the disk the kernel sees — log and buffer cache are behind `bread` and `log_write`,
which are a read and a write of that disk. Panics are errors. The functions run one
after the other; callers hold the locks the source asks for.
-/

namespace Xv6.Ref.Inodes

inductive Panic where
  | outOfBlocks         -- `balloc: out of blocks`
  | freeingFreeBlock    -- `freeing free block`
  | bmapOutOfRange      -- `bmap: out of range`
  | ialloc              -- `ialloc: no inodes`
  | iget                -- `iget: no inodes`
  | ilock               -- `ilock`
  | noType              -- `ilock: no type`
  | notDir              -- `dirlookup not DIR`
  | dirlookupRead       -- `dirlookup read`
  | dirlinkRead         -- `dirlink read`
  | dirlink             -- `dirlink`
  | unlinkWritei        -- `unlink: writei`
  deriving DecidableEq

/-- `memmove(sb, bp->data, sizeof(*sb))`. -/
def readsb (d : Disk) : Superblock where
  size := (d 1).word 0
  nblocks := (d 1).word 1
  ninodes := (d 1).word 2
  nlog := (d 1).word 3
  logstart := (d 1).word 4
  inodestart := (d 1).word 5
  bmapstart := (d 1).word 6

variable (sb : Superblock)

/-! ## Blocks -/

/-- A zeroed free block. The two loops of the source visit the blocks `b + bi` in
increasing order, and `BBLOCK(b)` is `BBLOCK(b + bi)` because `b` is a multiple of
`BPB`. -/
def balloc (d : Disk) : Except Panic (Disk × Nat) :=
  match (List.range sb.size).find? fun b => !d.bit sb b with
  | some b => .ok ((d.setBit sb b).set b zeroBlock, b)
  | none => .error .outOfBlocks

def bfree (d : Disk) (b : Nat) : Except Panic Disk :=
  if d.bit sb b then .ok (d.clearBit sb b) else .error .freeingFreeBlock

/-! ## The content of an inode

`ip` is the copy of the disk inode in `struct inode`; the functions that change it
return it. -/

/-- `dip->type = ip->type; …; log_write(bp)`. -/
def iupdate (d : Disk) (inum : Nat) (ip : DiskInode) : Disk := d.setDinode sb inum ip

/-- `if((addr = ip->addrs[NDIRECT]) == 0) ip->addrs[NDIRECT] = addr = balloc(ip->dev);` -/
def loadIndirect (d : Disk) (ip : DiskInode) : Except Panic (Disk × DiskInode) :=
  if ip.addrs (Fin.last NDIRECT) = 0 then do
    let (d, addr) ← balloc sb d
    return (d, ip.setAddr (Fin.last NDIRECT) addr)
  else .ok (d, ip)

/-- The block of file block `bn`. -/
def bmap (d : Disk) (ip : DiskInode) (bn : Nat) : Except Panic (Disk × DiskInode × Nat) :=
  if h : bn < NDIRECT then
    let k : Fin (NDIRECT + 1) := ⟨bn, Nat.lt_succ_of_lt h⟩
    if ip.addrs k = 0 then do
      let (d, addr) ← balloc sb d
      return (d, ip.setAddr k addr, addr)
    else .ok (d, ip, (ip.addrs k).toNat)
  else if bn - NDIRECT < NINDIRECT then do
    let (d, ip) ← loadIndirect sb d ip
    let a := d ip.indirect
    if a.word (bn - NDIRECT) = 0 then
      let (d, addr) ← balloc sb d
      return (d.set ip.indirect (a.setWord (bn - NDIRECT) addr), ip, addr)
    else return (d, ip, a.word (bn - NDIRECT))
  else .error .bmapOutOfRange

/-- The loop of `itrunc` over the direct blocks. -/
def truncDirect : List (Fin (NDIRECT + 1)) → Disk → DiskInode →
    Except Panic (Disk × DiskInode)
  | [], d, ip => .ok (d, ip)
  | i :: is, d, ip =>
      if ip.addrs i = 0 then truncDirect is d ip
      else do
        let d ← bfree sb d (ip.addrs i).toNat
        truncDirect is d (ip.setAddr i 0)

/-- The loop of `itrunc` over the entries of the indirect block. -/
def truncEntries (a : Block) : List Nat → Disk → Except Panic Disk
  | [], d => .ok d
  | j :: js, d =>
      if a.word j = 0 then truncEntries a js d
      else do
        let d ← bfree sb d (a.word j)
        truncEntries a js d

/-- The indirect block of a file: its entries are freed, then the block. -/
def truncIndirect (d : Disk) (ip : DiskInode) : Except Panic (Disk × DiskInode) :=
  if ip.addrs (Fin.last NDIRECT) = 0 then .ok (d, ip)
  else do
    let d ← truncEntries sb (d ip.indirect) (List.range NINDIRECT) d
    let d ← bfree sb d ip.indirect
    return (d, ip.setAddr (Fin.last NDIRECT) 0)

def itrunc (d : Disk) (inum : Nat) (ip : DiskInode) : Except Panic (Disk × DiskInode) := do
  let (d, ip) ← truncDirect sb ((List.finRange NDIRECT).map Fin.castSucc) d ip
  let (d, ip) ← truncIndirect sb d ip
  let ip := { ip with size := 0 }
  return (iupdate sb d inum ip, ip)

/-- `struct devsw`, with what a driver's function returns; `none` is `-1`. -/
structure Devsw where
  read : Option (Nat → Option (List UInt8))
  write : Option (List UInt8 → Option Nat)

def NDEV : Int := 10

/-- `ip->major < 0 || ip->major >= NDEV`. -/
def badMajor (ip : DiskInode) : Prop := ip.major.toInt < 0 ∨ ip.major.toInt ≥ NDEV

instance (ip : DiskInode) : Decidable (badMajor ip) := by
  unfold badMajor
  infer_instance

/-- The loop of `readi`; every round takes at least one of the `n` bytes. -/
def readiLoop : Nat → Disk → DiskInode → Nat → Nat → List UInt8 →
    Except Panic (Disk × DiskInode × List UInt8)
  | 0, d, ip, _, _, dst => .ok (d, ip, dst)
  | fuel + 1, d, ip, off, n, dst =>
      if n = 0 then .ok (d, ip, dst)
      else do
        let (d, ip, addr) ← bmap sb d ip (off / BSIZE)
        let m := min n (BSIZE - off % BSIZE)
        readiLoop fuel d ip (off + m) (n - m) (dst ++ (d addr).read (off % BSIZE) m)

/-- The bytes read, or `none` for `-1`. -/
def readi (devsw : Nat → Devsw) (d : Disk) (ip : DiskInode) (off n : BitVec 32) :
    Except Panic (Disk × DiskInode × Option (List UInt8)) :=
  if ip.type = T_DEV then
    if badMajor ip then .ok (d, ip, none)
    else match (devsw ip.major.toNat).read with
      | none => .ok (d, ip, none)
      | some read => .ok (d, ip, read n.toNat)
  else if off > ip.size ∨ off + n < off then .ok (d, ip, none)
  else do
    let n := if off + n > ip.size then ip.size - off else n
    let (d, ip, dst) ← readiLoop sb n.toNat d ip off.toNat n.toNat []
    return (d, ip, some dst)

/-- The loop of `writei`, which returns the offset it ends at. -/
def writeiLoop : Nat → Disk → DiskInode → Nat → List UInt8 →
    Except Panic (Disk × DiskInode × Nat)
  | 0, d, ip, off, _ => .ok (d, ip, off)
  | fuel + 1, d, ip, off, src =>
      if src = [] then .ok (d, ip, off)
      else do
        let (d, ip, addr) ← bmap sb d ip (off / BSIZE)
        let m := min src.length (BSIZE - off % BSIZE)
        writeiLoop fuel (d.set addr ((d addr).write (off % BSIZE) (src.take m))) ip (off + m)
          (src.drop m)

/-- Writes the bytes `src`, whose number is an `uint`; the count written, or `none` for
`-1`. -/
def writei (devsw : Nat → Devsw) (d : Disk) (inum : Nat) (ip : DiskInode) (src : List UInt8)
    (off : BitVec 32) : Except Panic (Disk × DiskInode × Option Nat) :=
  let n := BitVec.ofNat 32 src.length
  if ip.type = T_DEV then
    if badMajor ip then .ok (d, ip, none)
    else match (devsw ip.major.toNat).write with
      | none => .ok (d, ip, none)
      | some write => .ok (d, ip, write src)
  else if off > ip.size ∨ off + n < off then .ok (d, ip, none)
  else if (off + n).toNat > MAXFILE * BSIZE then .ok (d, ip, none)
  else do
    let (d, ip, off) ← writeiLoop sb src.length d ip off.toNat src
    if src.length > 0 ∧ off > ip.size.toNat then
      let ip := { ip with size := BitVec.ofNat 32 off }
      return (iupdate sb d inum ip, ip, some src.length)
    else return (d, ip, some src.length)

/-! ## The inode cache -/

/-- `struct inode`: `din` is the copy of the disk inode. -/
structure Inode where
  inum : Nat
  ref : Nat
  valid : Bool
  din : DiskInode

/-- A pointer into the inode cache. -/
abbrev Iptr := Fin NINODE

structure Files where
  disk : Disk
  icache : Iptr → Inode

def Files.setInode (s : Files) (p : Iptr) (f : Inode → Inode) : Files :=
  { s with icache := fun q => if q = p then f (s.icache q) else s.icache q }

/-- The disk and the copy in the cache, as a function on the content left them. -/
def Files.update (s : Files) (p : Iptr) (d : Disk) (ip : DiskInode) : Files :=
  { s.setInode p fun i => { i with din := ip } with disk := d }

def iget (s : Files) (inum : Nat) : Except Panic (Files × Iptr) :=
  match (List.finRange NINODE).find? fun p =>
      0 < (s.icache p).ref && (s.icache p).inum = inum with
  | some p => .ok (s.setInode p fun i => { i with ref := i.ref + 1 }, p)
  | none =>
      match (List.finRange NINODE).find? fun p => (s.icache p).ref = 0 with
      | some p =>
          .ok (s.setInode p fun i => { i with inum := inum, ref := 1, valid := false }, p)
      | none => .error .iget

def idup (s : Files) (p : Iptr) : Files := s.setInode p fun i => { i with ref := i.ref + 1 }

/-- Reads the inode from the disk if need be; the lock itself is not shown. -/
def ilock (s : Files) (p : Iptr) : Except Panic Files :=
  if (s.icache p).ref < 1 then .error .ilock
  else if (s.icache p).valid then .ok s
  else
    let dip := s.disk.dinode sb (s.icache p).inum
    if dip.type = 0 then .error .noType
    else .ok (s.setInode p fun i => { i with din := dip, valid := true })

/-- `itrunc(ip); ip->type = 0; iupdate(ip); ip->valid = 0;` -/
def freeInode (s : Files) (p : Iptr) : Except Panic Files := do
  let ip := s.icache p
  let (d, din) ← itrunc sb s.disk ip.inum ip.din
  let din := { din with type := 0 }
  let s := s.update p (iupdate sb d ip.inum din) din
  return s.setInode p fun i => { i with valid := false }

def iput (s : Files) (p : Iptr) : Except Panic Files := do
  let ip := s.icache p
  let s ← if ip.valid ∧ ip.din.nlink = 0 ∧ ip.ref = 1 then freeInode sb s p else .ok s
  return s.setInode p fun i => { i with ref := i.ref - 1 }

def ialloc (s : Files) (type : BitVec 16) : Except Panic (Files × Iptr) :=
  match (List.range' 1 (sb.ninodes - 1)).find? fun inum =>
      (s.disk.dinode sb inum).type = 0 with
  | some inum =>
      iget { s with disk := s.disk.setDinode sb inum { DiskInode.zero with type := type } } inum
  | none => .error .ialloc

/-- The system calls' changes to a locked inode: `ip->major = …; ip->minor = …;
ip->nlink = …; iupdate(ip)`. -/
def setLinks (s : Files) (p : Iptr) (major minor nlink : BitVec 16) : Files :=
  let ip := { (s.icache p).din with major := major, minor := minor, nlink := nlink }
  s.update p (iupdate sb s.disk (s.icache p).inum ip) ip

def readInode (devsw : Nat → Devsw) (s : Files) (p : Iptr) (off n : BitVec 32) :
    Except Panic (Files × Option (List UInt8)) := do
  let (d, ip, r) ← readi sb devsw s.disk (s.icache p).din off n
  return (s.update p d ip, r)

def writeInode (devsw : Nat → Devsw) (s : Files) (p : Iptr) (src : List UInt8)
    (off : BitVec 32) : Except Panic (Files × Option Nat) := do
  let (d, ip, r) ← writei sb devsw s.disk (s.icache p).inum (s.icache p).din src off
  return (s.update p d ip, r)

/-! ## Directories -/

/-- What a C string of at most `DIRSIZ` bytes says. -/
def cname (s : List UInt8) : List UInt8 := (s.take DIRSIZ).takeWhile (· ≠ 0)

/-- `strncmp(s, t, DIRSIZ) == 0`. -/
def namecmp (s t : List UInt8) : Bool := cname s = cname t

/-- `de.inum` of the 16 bytes of a `struct dirent`. -/
def deInum (de : List UInt8) : Nat := (de.getD 0 0).toNat + 2 ^ 8 * (de.getD 1 0).toNat

def deName (de : List UInt8) : List UInt8 := de.drop 2

/-- `strncpy(de.name, name, DIRSIZ); de.inum = inum`. -/
def mkDirent (inum : Nat) (name : List UInt8) : List UInt8 :=
  [UInt8.ofNat inum, UInt8.ofNat (inum / 2 ^ 8)] ++
    (cname name ++ List.replicate (DIRSIZ - (cname name).length) 0)

variable (devsw : Nat → Devsw)

/-- The loop of `dirlookup` from offset `off`: the entry's inode number and offset. -/
def dirlookupLoop (p : Iptr) (name : List UInt8) : Nat → Files → Nat →
    Except Panic (Files × Option (Nat × Nat))
  | 0, s, _ => .ok (s, none)
  | fuel + 1, s, off =>
      if off < (s.icache p).din.size.toNat then do
        let (s, r) ← readInode sb devsw s p (BitVec.ofNat 32 off) 16
        match r with
        | some de =>
            if de.length ≠ 16 then .error .dirlookupRead
            else if deInum de ≠ 0 ∧ namecmp name (deName de) then .ok (s, some (deInum de, off))
            else dirlookupLoop p name fuel s (off + 16)
        | none => .error .dirlookupRead
      else .ok (s, none)

/-- The number of rounds in a directory of `MAXFILE` blocks. -/
def dirRounds : Nat := MAXFILE * BSIZE / 16 + 1

def dirlookup (s : Files) (p : Iptr) (name : List UInt8) :
    Except Panic (Files × Option (Iptr × Nat)) := do
  if (s.icache p).din.type ≠ T_DIR then .error .notDir
  else
    match ← dirlookupLoop sb devsw p name dirRounds s 0 with
    | (s, some (inum, off)) =>
        let (s, q) ← iget s inum
        return (s, some (q, off))
    | (s, none) => return (s, none)

/-- `Look for an empty dirent`: its offset, or the end. -/
def emptyDirent (p : Iptr) : Nat → Files → Nat → Except Panic (Files × Nat)
  | 0, s, off => .ok (s, off)
  | fuel + 1, s, off =>
      if off < (s.icache p).din.size.toNat then do
        let (s, r) ← readInode sb devsw s p (BitVec.ofNat 32 off) 16
        match r with
        | some de =>
            if de.length ≠ 16 then .error .dirlinkRead
            else if deInum de = 0 then .ok (s, off)
            else emptyDirent p fuel s (off + 16)
        | none => .error .dirlinkRead
      else .ok (s, off)

/-- Whether the entry was written; `false` is `-1`. -/
def dirlink (s : Files) (p : Iptr) (name : List UInt8) (inum : Nat) :
    Except Panic (Files × Bool) := do
  match ← dirlookup sb devsw s p name with
  | (s, some (q, _)) =>
      let s ← iput sb s q
      return (s, false)
  | (s, none) =>
      let (s, off) ← emptyDirent sb devsw p dirRounds s 0
      let (s, r) ← writeInode sb devsw s p (mkDirent inum name) (BitVec.ofNat 32 off)
      if r = some 16 then return (s, true) else .error .dirlink

/-- `sys_unlink` once entry and inodes `dp` and `ip` are found and locked: erases the
entry at `off` and drops the links and the references. -/
def unlinkEntry (s : Files) (dp ip : Iptr) (off : BitVec 32) : Except Panic Files := do
  let (s, r) ← writeInode sb devsw s dp (List.replicate 16 0) off
  if r = some 16 then
    let v := (s.icache dp).din
    let s := if (s.icache ip).din.type = T_DIR
      then setLinks sb s dp v.major v.minor (v.nlink - 1) else s
    let s ← iput sb s dp
    let v := (s.icache ip).din
    let s := setLinks sb s ip v.major v.minor (v.nlink - 1)
    iput sb s ip
  else .error .unlinkWritei

/-! ## Sequences of operations -/

inductive FileOp where
  | iget (inum : Nat)
  | idup (p : Iptr)
  | ilock (p : Iptr)
  | iput (p : Iptr)
  | ialloc (type : BitVec 16)
  | setLinks (p : Iptr) (major minor nlink : BitVec 16)
  | readi (devsw : Nat → Devsw) (p : Iptr) (off n : BitVec 32)
  | writei (devsw : Nat → Devsw) (p : Iptr) (src : List UInt8) (off : BitVec 32)
  | dirlookup (p : Iptr) (name : List UInt8)
  | dirlink (p : Iptr) (name : List UInt8) (inum : Nat)
  | unlink (dp ip : Iptr) (off : BitVec 32)

/-- A locked inode: it is referenced and has been read from the disk. -/
def Files.locked (s : Files) (p : Iptr) : Prop :=
  0 < (s.icache p).ref ∧ (s.icache p).valid = true

instance (s : Files) (p : Iptr) : Decidable (s.locked p) := by
  unfold Files.locked
  infer_instance

/-- What an operation does; a pointer has to be referenced, and locked where the
operation asks for it. -/
def FileOp.run (devsw : Nat → Devsw) (s : Files) : FileOp → Option (Except Panic Files)
  | .iget inum => some ((Inodes.iget s inum).map Prod.fst)
  | .idup p => if 0 < (s.icache p).ref then some (.ok (Inodes.idup s p)) else none
  | .ilock p =>
      -- an inode's number is below `ninodes`
      if 0 < (s.icache p).ref ∧ (s.icache p).inum < sb.ninodes
      then some (Inodes.ilock sb s p) else none
  | .iput p => if 0 < (s.icache p).ref then some (Inodes.iput sb s p) else none
  | .ialloc type => some ((Inodes.ialloc sb s type).map Prod.fst)
  | .setLinks p major minor nlink =>
      if s.locked p then some (.ok (Inodes.setLinks sb s p major minor nlink)) else none
  | .readi dev p off n =>
      if s.locked p then some ((readInode sb dev s p off n).map Prod.fst) else none
  | .writei dev p src off =>
      if s.locked p ∧ src.length < 2 ^ 32
      then some ((writeInode sb dev s p src off).map Prod.fst) else none
  | .dirlookup p name =>
      if s.locked p then some ((Inodes.dirlookup sb devsw s p name).map Prod.fst) else none
  | .dirlink p name inum =>
      if s.locked p then some ((Inodes.dirlink sb devsw s p name inum).map Prod.fst) else none
  | .unlink dp ip off =>
      if s.locked dp ∧ s.locked ip ∧ dp ≠ ip
      then some (unlinkEntry sb devsw s dp ip off) else none

/-- A step: an operation that returns. -/
def fileStep (devsw : Nat → Devsw) (s : Files) (op : FileOp) : Option Files :=
  match op.run sb devsw s with
  | some (.ok s') => some s'
  | _ => none

end Xv6.Ref.Inodes
