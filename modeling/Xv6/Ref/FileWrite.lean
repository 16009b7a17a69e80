import Xv6.Lib.Trans
import Xv6.Ref.Inodes

/-!
# Writing through a shared descriptor (`file.c`)

Processes that share one `struct file` of an inode call `filewrite`. A step ends where
another process can get in: at `begin_op` and `end_op`, which may wait for others, and
at the sleep lock of the inode. What `writei` does is `Ref/Inodes.lean`. A process that
panics stops with the lock it holds.

`hist` and `asked` record the chunks that `writei` was given and what the processes
have asked for; no modelled code reads them.
-/

namespace Xv6.Ref.Inodes

/-- `int max = ((MAXOPBLOCKS-1-1-2) / 2) * 512`. -/
def fwMax : Nat := ((MAXOPBLOCKS - 1 - 1 - 2) / 2) * 512

/-- Where a process is in `filewrite(f, src, n)`, with `i` bytes written. -/
inductive FwPc where
  | user
  /-- At `while(i < n)`. -/
  | loop (src : List UInt8) (i : Nat)
  /-- Behind `begin_op`, `ilock`, `writei`, `iunlock` and `end_op`. -/
  | begun (src : List UInt8) (i : Nat)
  | locked (src : List UInt8) (i : Nat)
  | wrote (src : List UInt8) (i : Nat) (r : Option Nat)
  | unlocked (src : List UInt8) (i : Nat) (r : Option Nat)
  | ended (src : List UInt8) (i : Nat) (r : Option Nat)
  /-- `return i == n ? n : -1`. -/
  | returned (src : List UInt8) (i : Nat)
  | panicShort
  | panic (src : List UInt8) (i : Nat) (e : Panic)
  deriving DecidableEq

/-- What one call of `writei` wrote. -/
structure Chunk (P : Type) where
  proc : P
  off : Nat
  data : List UInt8

/-- The `struct file` of an inode, the inode's lock, and the processes. -/
structure Shared (P : Type) where
  files : Files
  ip : Iptr
  off : BitVec 32
  writable : Bool
  /-- Who holds `ip->lock`. -/
  holder : Option P
  pc : P → FwPc
  hist : List (Chunk P)
  asked : P → List UInt8

inductive FwAct (P : Type) where
  /-- Call `filewrite` with these bytes. -/
  | filewrite (p : P) (src : List UInt8)
  | step (p : P)

/-- `addr + i` and `n1`: the bytes of the next chunk. -/
def nextChunk (src : List UInt8) (i : Nat) : List UInt8 :=
  (src.drop i).take (min (src.length - i) fwMax)

section

variable {P : Type} [DecidableEq P] (sb : Superblock) (devsw : Nat → Devsw)

def Shared.setPc (s : Shared P) (p : P) (pc : FwPc) : Shared P :=
  { s with pc := Function.update s.pc p pc }

/-- `if ((r = writei(f->ip, addr + i, f->off, n1)) > 0) f->off += r;` -/
def fwWrite (s : Shared P) (p : P) (src : List UInt8) (i : Nat) : Shared P :=
  match writeInode sb devsw s.files s.ip (nextChunk src i) s.off with
  | .error e => s.setPc p (.panic src i e)
  | .ok (files, none) => { s.setPc p (.wrote src i none) with files := files }
  | .ok (files, some r) =>
      if r > 0 then
        { s.setPc p (.wrote src i (some r)) with
          files := files
          off := s.off + BitVec.ofNat 32 r
          hist := s.hist ++ [⟨p, s.off.toNat, nextChunk src i⟩] }
      else { s.setPc p (.wrote src i (some r)) with files := files }

def fwRun (s : Shared P) (p : P) : Option (Shared P) :=
  match s.pc p with
  | .loop src i => some (s.setPc p (if i < src.length then .begun src i else .returned src i))
  | .begun src i =>
      if s.holder = none then
        match ilock sb s.files s.ip with
        | .ok files => some { s.setPc p (.locked src i) with files := files, holder := some p }
        | .error e => some { s.setPc p (.panic src i e) with holder := some p }
      else none
  | .locked src i => some (fwWrite sb devsw s p src i)
  | .wrote src i r => some { s.setPc p (.unlocked src i r) with holder := none }
  | .unlocked src i r => some (s.setPc p (.ended src i r))
  | .ended src i r =>
      match r with
      | none => some (s.setPc p (.returned src i))
      | some r =>
          if r ≠ (nextChunk src i).length then some (s.setPc p .panicShort)
          else some (s.setPc p (.loop src (i + r)))
  | .returned _ _ => some (s.setPc p .user)
  | .user | .panicShort | .panic _ _ _ => none

def fwStep (s : Shared P) : FwAct P → Option (Shared P)
  | .filewrite p src =>
      if s.pc p ≠ .user then none
      else if s.writable = false then some s
      else
        some { s.setPc p (.loop src 0) with
          asked := Function.update s.asked p (s.asked p ++ src) }
  | .step p => fwRun sb devsw s p

end

/-! ## One call alone -/

/-- How `filewrite` can panic. -/
inductive FwPanic where
  | inode (e : Panic)
  | shortFilewrite
  deriving DecidableEq

section

variable (sb : Superblock) (devsw : Nat → Devsw) (p : Iptr) (src : List UInt8)

/-- The loop of `filewrite` with nobody else about, `i` bytes written: the offset and the
count it ends with. Every round that goes on writes a byte at least. -/
def filewriteLoop : Nat → Files → BitVec 32 → Nat → Except FwPanic (Files × BitVec 32 × Nat)
  | 0, s, off, i => .ok (s, off, i)
  | fuel + 1, s, off, i =>
      if i < src.length then
        match ilock sb s p with
        | .error e => .error (.inode e)
        | .ok s =>
            match writeInode sb devsw s p (nextChunk src i) off with
            | .error e => .error (.inode e)
            | .ok (s, none) => .ok (s, off, i)
            | .ok (s, some r) =>
                let off := if r > 0 then off + BitVec.ofNat 32 r else off
                if r ≠ (nextChunk src i).length then .error .shortFilewrite
                else filewriteLoop fuel s off (i + r)
      else .ok (s, off, i)

/-- `filewrite` of an inode: the files, `f->off` and the return value, `none` for -1. -/
def filewrite (writable : Bool) (s : Files) (off : BitVec 32) :
    Except FwPanic (Files × BitVec 32 × Option Nat) :=
  if writable = false then .ok (s, off, none)
  else
    match filewriteLoop sb devsw p src src.length s off 0 with
    | .error e => .error e
    | .ok (s, off, i) => .ok (s, off, if i = src.length then some src.length else none)

end

/-- The total of what is asked for stays within the largest file. -/
def withinMax {P : Type} [Fintype P] (off₀ : Nat) (s : Shared P) : FwAct P → Prop
  | .filewrite _ src => off₀ + ∑ p, (s.asked p).length + src.length ≤ MAXFILE * BSIZE
  | .step _ => True

instance {P : Type} [Fintype P] (off₀ : Nat) (s : Shared P) :
    (a : FwAct P) → Decidable (withinMax off₀ s a)
  | .filewrite _ _ => inferInstanceAs (Decidable (_ ≤ _))
  | .step _ => inferInstanceAs (Decidable True)

end Xv6.Ref.Inodes
