import Xv6.Lib.Trail
import Xv6.Ref.FileWrite

/-!
# What a write logs (`fs.c`)

`writei` and the functions it calls, with the blocks they call `log_write` on. Apart from
that they are the functions of `Ref/Inodes.lean`.
-/

namespace Xv6.Ref.Inodes.Logging

open Xv6.Lib

/-- Functions of `fs.c` with their calls of `log_write`. -/
abbrev FsTrail (α : Type) := Trail Nat Panic α

variable (sb : Superblock)

/-- `log_write` on the buffer of block `b`. -/
def logWrite (b : Nat) : FsTrail Unit := Trail.tell b

def balloc (d : Disk) : FsTrail (Disk × Nat) :=
  match (List.range sb.size).find? fun b => !d.bit sb b with
  | some b => do
      logWrite (sb.bblock b)
      -- `bzero(dev, b + bi)`
      logWrite b
      pure ((d.setBit sb b).set b zeroBlock, b)
  | none => Trail.fail .outOfBlocks

def loadIndirect (d : Disk) (ip : DiskInode) : FsTrail (Disk × DiskInode) :=
  if ip.addrs (Fin.last NDIRECT) = 0 then do
    let (d, addr) ← balloc sb d
    pure (d, ip.setAddr (Fin.last NDIRECT) addr)
  else pure (d, ip)

def bmap (d : Disk) (ip : DiskInode) (bn : Nat) : FsTrail (Disk × DiskInode × Nat) :=
  if h : bn < NDIRECT then
    let k : Fin (NDIRECT + 1) := ⟨bn, Nat.lt_succ_of_lt h⟩
    if ip.addrs k = 0 then do
      let (d, addr) ← balloc sb d
      pure (d, ip.setAddr k addr, addr)
    else pure (d, ip, (ip.addrs k).toNat)
  else if bn - NDIRECT < NINDIRECT then do
    let (d, ip) ← loadIndirect sb d ip
    let a := d ip.indirect
    if a.word (bn - NDIRECT) = 0 then
      let (d, addr) ← balloc sb d
      logWrite ip.indirect
      pure (d.set ip.indirect (a.setWord (bn - NDIRECT) addr), ip, addr)
    else pure (d, ip, a.word (bn - NDIRECT))
  else Trail.fail .bmapOutOfRange

def iupdate (d : Disk) (inum : Nat) (ip : DiskInode) : FsTrail Disk := do
  logWrite (sb.iblock inum)
  pure (d.setDinode sb inum ip)

def writeiLoop : Nat → Disk → DiskInode → Nat → List UInt8 → FsTrail (Disk × DiskInode × Nat)
  | 0, d, ip, off, _ => pure (d, ip, off)
  | fuel + 1, d, ip, off, src =>
      if src = [] then pure (d, ip, off)
      else do
        let (d, ip, addr) ← bmap sb d ip (off / BSIZE)
        let m := min src.length (BSIZE - off % BSIZE)
        logWrite addr
        writeiLoop fuel (d.set addr ((d addr).write (off % BSIZE) (src.take m))) ip (off + m)
          (src.drop m)

def writei (devsw : Nat → Devsw) (d : Disk) (inum : Nat) (ip : DiskInode) (src : List UInt8)
    (off : BitVec 32) : FsTrail (Disk × DiskInode × Option Nat) :=
  let n := BitVec.ofNat 32 src.length
  if ip.type = T_DEV then
    if badMajor ip then pure (d, ip, none)
    else match (devsw ip.major.toNat).write with
      | none => pure (d, ip, none)
      | some write => pure (d, ip, write src)
  else if off > ip.size ∨ off + n < off then pure (d, ip, none)
  else if (off + n).toNat > MAXFILE * BSIZE then pure (d, ip, none)
  else do
    let (d, ip, off) ← writeiLoop sb src.length d ip off.toNat src
    if src.length > 0 ∧ off > ip.size.toNat then
      let ip := { ip with size := BitVec.ofNat 32 off }
      let d ← iupdate sb d inum ip
      pure (d, ip, some src.length)
    else pure (d, ip, some src.length)

end Xv6.Ref.Inodes.Logging
