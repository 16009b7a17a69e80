import Xv6.Ref.Log

/-!
# The layout of the disk (`fs.h`)

What the bytes of an image mean: where an inode's 64 bytes and a block's bit of
the free map are, and which block is the `n`th of a file. `mkfs` and the kernel
overlay the same structs on the same blocks, so the readers and writers here
serve both.
-/

namespace Xv6.Ref

structure Superblock where
  size : Nat
  nblocks : Nat
  ninodes : Nat
  nlog : Nat
  logstart : Nat
  inodestart : Nat
  bmapstart : Nat
  deriving DecidableEq

/-- `IBLOCK(i, sb)`. -/
def Superblock.iblock (sb : Superblock) (i : Nat) : Nat := i / IPB + sb.inodestart

/-- `BBLOCK(b, sb)`. -/
def Superblock.bblock (sb : Superblock) (b : Nat) : Nat := b / BPB + sb.bmapstart

/-! ## Inodes -/

def T_DIR : BitVec 16 := 1

def T_FILE : BitVec 16 := 2

def T_DEV : BitVec 16 := 3

/-- `struct dinode`. -/
structure DiskInode where
  type : BitVec 16
  major : BitVec 16
  minor : BitVec 16
  nlink : BitVec 16
  size : BitVec 32
  addrs : Fin (NDIRECT + 1) → BitVec 32

def DiskInode.zero : DiskInode := ⟨0, 0, 0, 0, 0, fun _ => 0⟩

/-- The 16 words of a `struct dinode`. -/
def DiskInode.word (d : DiskInode) : Nat → Nat
  | 0 => d.type.toNat + 2 ^ 16 * d.major.toNat
  | 1 => d.minor.toNat + 2 ^ 16 * d.nlink.toNat
  | 2 => d.size.toNat
  | w + 3 => if h : w < NDIRECT + 1 then (d.addrs ⟨w, h⟩).toNat else 0

/-- `((struct dinode*)data)[k]`. -/
def Block.dinode (b : Block) (k : Nat) : DiskInode where
  type := BitVec.ofNat 16 (b.word (16 * k))
  major := BitVec.ofNat 16 (b.word (16 * k) / 2 ^ 16)
  minor := BitVec.ofNat 16 (b.word (16 * k + 1))
  nlink := BitVec.ofNat 16 (b.word (16 * k + 1) / 2 ^ 16)
  size := BitVec.ofNat 32 (b.word (16 * k + 2))
  addrs :=
    let a := Vector.ofFn fun i : Fin (NDIRECT + 1) => BitVec.ofNat 32 (b.word (16 * k + 3 + i.val))
    fun i => a[i]

/-- `((struct dinode*)data)[k] = d`. -/
def Block.setDinode (b : Block) (k : Nat) (d : DiskInode) : Block :=
  fun j =>
    if j.val / 64 = k then
      UInt8.ofNat (d.word (j.val / 4 % 16) / 2 ^ (8 * (j.val % 4)))
    else b j

/-- The inode `inum` as the disk has it. -/
def Disk.dinode (d : Disk) (sb : Superblock) (inum : Nat) : DiskInode :=
  (d (sb.iblock inum)).dinode (inum % IPB)

def Disk.set (d : Disk) (n : Nat) (b : Block) : Disk := fun m => if m = n then b else d m

def Disk.setDinode (d : Disk) (sb : Superblock) (inum : Nat) (v : DiskInode) : Disk :=
  d.set (sb.iblock inum) ((d (sb.iblock inum)).setDinode (inum % IPB) v)

/-! ## The free map -/

/-- `1 << (i % 8)`, of which a byte is kept. -/
def bitMask (i : Nat) : UInt8 := UInt8.ofNat (2 ^ (i % 8))

/-- `data[i / 8]`. -/
def Block.get (b : Block) (i : Nat) : UInt8 := if h : i < BSIZE then b ⟨i, h⟩ else 0

def Block.put (b : Block) (i : Nat) (v : UInt8) : Block :=
  fun j => if j.val = i then v else b j

/-- `data[i/8] & (1 << (i%8))`. -/
def Block.bit (b : Block) (i : Nat) : Bool := b.get (i / 8) &&& bitMask i ≠ 0

/-- `data[i/8] |= 1 << (i%8)`. -/
def Block.setBit (b : Block) (i : Nat) : Block :=
  b.put (i / 8) (b.get (i / 8) ||| bitMask i)

/-- `data[i/8] &= ~(1 << (i%8))`. -/
def Block.clearBit (b : Block) (i : Nat) : Block :=
  b.put (i / 8) (b.get (i / 8) &&& ~~~ bitMask i)

def Disk.bit (d : Disk) (sb : Superblock) (n : Nat) : Bool :=
  (d (sb.bblock n)).bit (n % BPB)

def Disk.setBit (d : Disk) (sb : Superblock) (n : Nat) : Disk :=
  d.set (sb.bblock n) ((d (sb.bblock n)).setBit (n % BPB))

def Disk.clearBit (d : Disk) (sb : Superblock) (n : Nat) : Disk :=
  d.set (sb.bblock n) ((d (sb.bblock n)).clearBit (n % BPB))

/-! ## The blocks of a file -/

def zeroBlock : Block := fun _ => 0

/-- `addrs[k] = b`. -/
def DiskInode.setAddr (v : DiskInode) (k : Fin (NDIRECT + 1)) (b : Nat) : DiskInode :=
  { v with addrs := fun i => if i = k then BitVec.ofNat 32 b else v.addrs i }

/-- The indirect block, or 0. -/
def DiskInode.indirect (v : DiskInode) : Nat := (v.addrs (Fin.last NDIRECT)).toNat

/-- The block addresses an inode holds: `addrs[k]` up to the indirect block's,
then the entries of the indirect block. -/
def DiskInode.ptr (v : DiskInode) (d : Disk) (k : Nat) : Nat :=
  if h : k < NDIRECT + 1 then (v.addrs ⟨k, h⟩).toNat
  else if v.addrs (Fin.last NDIRECT) = 0 then 0
  else (d (v.addrs (Fin.last NDIRECT)).toNat).word (k - (NDIRECT + 1))

/-- The number of addresses an inode can hold. -/
abbrev NPTR : Nat := NDIRECT + 1 + NINDIRECT

/-- Where the address of the `n`th block of a file is held. -/
def ptrOf (n : Nat) : Nat := if n < NDIRECT then n else n + 1

/-- `memmove(data + o, src, n)` for the `n` bytes `src`. -/
def Block.write (b : Block) (o : Nat) (src : List UInt8) : Block :=
  fun j => if o ≤ j.val ∧ j.val < o + src.length then src.getD (j.val - o) 0 else b j

/-- `memmove(dst, data + o, n)`. -/
def Block.read (b : Block) (o n : Nat) : List UInt8 := (List.range n).map fun k => b.get (o + k)

end Xv6.Ref
