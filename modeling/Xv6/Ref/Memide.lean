import Xv6.Ref.Log

/-!
# Disk buffers and the disk in memory (`buf.h`, `memide.c`)

`memide.c` keeps the disk image in memory, so its `iderw` is one function of a
buffer and the disk. `disksize` is the image's size in blocks.
-/

namespace Xv6.Ref

/-- `struct buf` as the disk driver sees it: `B_VALID`, `B_DIRTY`, the block, and its
data. -/
structure DiskBuf where
  valid : Bool
  dirty : Bool
  dev : Nat
  blockno : Nat
  data : Block

/-- The panics of the two versions of `iderw` and of `idestart`. -/
inductive RwPanic where
  | notLocked
  | nothingToDo
  | notDisk1
  | outOfRange
  | noDisk1
  | incorrectBlockno
  deriving DecidableEq

/-- `(b->flags & (B_VALID|B_DIRTY)) == B_VALID`. -/
def DiskBuf.synced (b : DiskBuf) : Bool := b.valid && !b.dirty

/-- `iderw` of `memide.c`. -/
def memIderw (disksize : Nat) (holding : Bool) (b : DiskBuf) (memdisk : Disk) :
    Except RwPanic (DiskBuf × Disk) :=
  if !holding then .error .notLocked
  else if b.synced then .error .nothingToDo
  else if b.dev ≠ 1 then .error .notDisk1
  else if b.blockno ≥ disksize then .error .outOfRange
  else if b.dirty then
    .ok ({ b with dirty := false, valid := true },
      Function.update memdisk b.blockno b.data)
  else .ok ({ b with data := memdisk b.blockno, valid := true }, memdisk)

end Xv6.Ref
