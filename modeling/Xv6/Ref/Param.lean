import Mathlib

/-!
# The kernel's fixed sizes

`param.h` and the constants of `fs.h` that the models read, under the names
the source gives them.
-/

namespace Xv6.Ref

/-- Block size in bytes. -/
abbrev BSIZE : Nat := 512

/-- The most blocks one file system operation writes. -/
abbrev MAXOPBLOCKS : Nat := 10

/-- The most data blocks in the on-disk log. -/
abbrev LOGSIZE : Nat := MAXOPBLOCKS * 3

/-- Buffers of the buffer cache. -/
abbrev NBUF : Nat := MAXOPBLOCKS * 3

/-- The most processes. -/
abbrev NPROC : Nat := 64

instance nproc_neZero : NeZero NPROC := ⟨by decide⟩

/-- One process, or one CPU. -/
instance one_neZero : NeZero 1 := ⟨by decide⟩

instance two_neZero : NeZero 2 := ⟨by decide⟩

/-- Open files per process. -/
abbrev NOFILE : Nat := 16

/-- Open files per system. -/
abbrev NFILE : Nat := 100

/-- Entries of the inode cache. -/
abbrev NINODE : Nat := 50

abbrev ROOTINO : Nat := 1

/-- Blocks of the disk image. -/
abbrev FSSIZE : Nat := 1000

/-- Block addresses in an inode, the last of them the indirect block's. -/
abbrev NDIRECT : Nat := 12

instance (priority := 2000) ndirect_neZero : NeZero (NDIRECT + 1) := ⟨by decide⟩

abbrev NINDIRECT : Nat := BSIZE / 4

/-- The most blocks of a file. -/
abbrev MAXFILE : Nat := NDIRECT + NINDIRECT

/-- Inodes per block; a `struct dinode` has 64 bytes. -/
abbrev IPB : Nat := BSIZE / 64

/-- Bitmap bits per block. -/
abbrev BPB : Nat := BSIZE * 8

/-- The bytes of a name in a directory entry. -/
abbrev DIRSIZ : Nat := 14

/-- The console's `major` number. -/
abbrev CONSOLE : Int := 1

abbrev O_RDONLY : Nat := 0x000

abbrev O_WRONLY : Nat := 0x001

abbrev O_RDWR : Nat := 0x002

abbrev O_CREATE : Nat := 0x200

end Xv6.Ref
