import Xv6.Ref.Layout

/-!
# `mkfs`: the first image (`mkfs.c`)

The program writes the zeroed image, the superblock and the root directory, then
one inode with its data per input file, and the free map last. It keeps two
counters, the next inode and the next block, and checks neither; what stops it is
`rsect`, which fails behind the last sector of the image, and its `assert`s. A run
that stops with a status other than 0 has no image: `none`.

Opening, seeking and writing the image itself is taken to succeed. The host's byte
order does not show, because everything that reaches the image went through
`xint` or `xshort`.
-/

namespace Xv6.Ref.Mkfs

def NINODES : Nat := 200

def nbitmap : Nat := FSSIZE / (BSIZE * 8) + 1

def ninodeblocks : Nat := NINODES / IPB + 1

def nlog : Nat := LOGSIZE

def nmeta : Nat := 2 + nlog + ninodeblocks + nbitmap

def sb : Superblock where
  size := FSSIZE
  nblocks := FSSIZE - nmeta
  ninodes := NINODES
  nlog := nlog
  logstart := 2
  inodestart := 2 + nlog
  bmapstart := 2 + nlog + ninodeblocks

/-- `sizeof(sb)` bytes of the superblock, in a block of zeroes. -/
def superblock : Block :=
  ((((((zeroBlock.setWord 0 sb.size).setWord 1 sb.nblocks).setWord 2 sb.ninodes).setWord 3
    sb.nlog).setWord 4 sb.logstart).setWord 5 sb.inodestart).setWord 6 sb.bmapstart

/-- The image file, which is `len` sectors long, and the two counters. -/
structure Image where
  disk : Disk
  len : Nat
  freeinode : Nat
  freeblock : Nat

/-- The sector that `sec * BSIZE`, an `uint`, is the offset of. -/
def sector (sec : Nat) : Nat := sec * BSIZE % 2 ^ 32 / BSIZE

def wsect (s : Image) (sec : Nat) (buf : Block) : Image :=
  { s with disk := s.disk.set (sector sec) buf, len := max s.len (sector sec + 1) }

def rsect (s : Image) (sec : Nat) : Option Block :=
  if sector sec < s.len then some (s.disk (sector sec)) else none

def winode (s : Image) (inum : Nat) (ip : DiskInode) : Option Image := do
  let bn := sb.iblock inum
  let buf ← rsect s bn
  return wsect s bn (buf.setDinode (inum % IPB) ip)

def rinode (s : Image) (inum : Nat) : Option DiskInode := do
  let buf ← rsect s (sb.iblock inum)
  return buf.dinode (inum % IPB)

/-- Allocates the next inode, with one link. -/
def ialloc (s : Image) (type : BitVec 16) : Option (Image × Nat) := do
  let inum := s.freeinode
  let s := { s with freeinode := s.freeinode + 1 }
  let s ← winode s inum { DiskInode.zero with type := type, nlink := 1 }
  return (s, inum)

/-- `freeblock++`. -/
def nextBlock (s : Image) : Image × Nat :=
  ({ s with freeblock := s.freeblock + 1 }, s.freeblock)

/-- The indirect block is allocated if there is none. -/
def indirectBlock (s : Image) (din : DiskInode) : Image × DiskInode :=
  if din.addrs (Fin.last NDIRECT) = 0 then
    let (s, x) := nextBlock s
    (s, din.setAddr (Fin.last NDIRECT) x)
  else (s, din)

/-- The block for file block `fbn`, with the state and the inode in memory. -/
def fileBlock (s : Image) (din : DiskInode) (fbn : Nat) : Option (Image × DiskInode × Nat) :=
  if h : fbn < NDIRECT then
    let k : Fin (NDIRECT + 1) := ⟨fbn, Nat.lt_succ_of_lt h⟩
    if din.addrs k = 0 then
      let (s, x) := nextBlock s
      let din := din.setAddr k x
      some (s, din, (din.addrs k).toNat)
    else some (s, din, (din.addrs k).toNat)
  else
    let (s, din) := indirectBlock s din
    match rsect s din.indirect with
    | none => none
    | some indirect =>
        if indirect.word (fbn - NDIRECT) = 0 then
          let (s, x) := nextBlock s
          let indirect := indirect.setWord (fbn - NDIRECT) x
          some (wsect s din.indirect indirect, din, indirect.word (fbn - NDIRECT))
        else some (s, din, indirect.word (fbn - NDIRECT))

/-- The loop of `iappend` over the bytes `p`, of which every round takes at least
one. -/
def iappendLoop : Nat → Image → DiskInode → Nat → List UInt8 →
    Option (Image × DiskInode × Nat)
  | 0, s, din, off, _ => some (s, din, off)
  | fuel + 1, s, din, off, p =>
      if p = [] then some (s, din, off)
      else
        let fbn := off / BSIZE
        if fbn < MAXFILE then do
          let (s, din, x) ← fileBlock s din fbn
          let n1 := min p.length ((fbn + 1) * BSIZE - off)
          let buf ← rsect s x
          let s := wsect s x (buf.write (off - fbn * BSIZE) (p.take n1))
          iappendLoop fuel s din (off + n1) (p.drop n1)
        else none

def iappend (s : Image) (inum : Nat) (p : List UInt8) : Option Image := do
  let din ← rinode s inum
  let (s, din, off) ← iappendLoop p.length s din din.size.toNat p
  winode s inum { din with size := BitVec.ofNat 32 off }

/-- The bits of the first `used` blocks. -/
def usedMap (used : Nat) : Block :=
  (List.range used).foldl (fun buf i => buf.setBit i) zeroBlock

def balloc (s : Image) (used : Nat) : Option Image :=
  if used < BSIZE * 8 then some (wsect s sb.bmapstart (usedMap used)) else none

/-- A `struct dirent`; `strncpy` fills the name up with zeroes. -/
def dirent (inum : Nat) (name : List UInt8) : List UInt8 :=
  [UInt8.ofNat inum, UInt8.ofNat (inum / 2 ^ 8)] ++
    (name.take DIRSIZ ++ List.replicate (DIRSIZ - name.length) 0)

/-- An argument: its name, and what `read` returns, call after call, once it is
open; `none` if it cannot be opened. -/
structure Input where
  name : List UInt8
  reads : Option (List (List UInt8))

/-- `while((cc = read(fd, buf, sizeof(buf))) > 0) iappend(inum, buf, cc)`. -/
def copyFile (s : Image) (inum : Nat) : List (List UInt8) → Option Image
  | [] => some s
  | buf :: rest =>
      if buf = [] then some s
      else do
        let s ← iappend s inum buf
        copyFile s inum rest

/-- One round of the loop over the arguments. -/
def addFile (s : Image) (f : Input) : Option Image :=
  if f.name.contains 0x2f then none    -- `assert(index(argv[i], '/') == 0)`
  else do
    let reads ← f.reads
    -- a leading `_` is not part of the name
    let name := if f.name.head? = some 0x5f then f.name.tail else f.name
    let (s, inum) ← ialloc s T_FILE
    let s ← iappend s ROOTINO (dirent inum name)
    copyFile s inum reads

def addFiles (s : Image) : List Input → Option Image
  | [] => some s
  | f :: rest => do
      let s ← addFile s f
      addFiles s rest

/-- The zeroed image with its superblock. -/
def blank : Image :=
  wsect ⟨fun _ => zeroBlock, FSSIZE, 1, nmeta⟩ 1 superblock

/-- The root directory with `.` and `..`. -/
def makeRoot (s : Image) : Option Image := do
  let (s, rootino) ← ialloc s T_DIR
  if rootino = ROOTINO then
    let s ← iappend s rootino (dirent rootino [0x2e])
    iappend s rootino (dirent rootino [0x2e, 0x2e])
  else none

/-- `fix size of root inode dir`. -/
def fixRoot (s : Image) : Option Image := do
  let din ← rinode s ROOTINO
  winode s ROOTINO
    { din with size := BitVec.ofNat 32 ((din.size.toNat / BSIZE + 1) * BSIZE) }

/-- The image of the files, if the program exits with status 0. -/
def main (files : List Input) : Option Image := do
  let s ← makeRoot blank
  let s ← addFiles s files
  let s ← fixRoot s
  balloc s s.freeblock

end Xv6.Ref.Mkfs
