import Xv6.Lib.Circular
import Xv6.Ref.Memide

/-!
# The buffer cache (`bio.c`)

`binit`, `bget`, `bread`, `bwrite` and `brelse`, by any number of processes, over the
disk in memory of `memide.c`. The list of the buffers is kept by its `prev` and `next`
pointers, with `none` for `bcache.head`. A step is a section under `bcache.lock`, taking
or giving back a buffer's sleep lock, or what the holder of a buffer does with it.

`log_write` is here for what it does to the buffer. It pins it by `B_DIRTY`; the log's
own list and its panics (`Ref/LogOps.lean`) are left out, so that here it may be called
at any time. A commit reads, copies and writes blocks by the same functions.
-/

namespace Xv6.Ref.Bio

open Xv6.Lib

/-- A position in the list of the buffers: `bcache.head`, or `&bcache.buf[b]`. -/
abbrev Node := Option (Fin NBUF)

/-- `bcache`, where the fields of a `struct buf` that the disk driver knows are in
`buf`. -/
structure Bcache where
  next : Node → Node
  prev : Node → Node
  buf : Fin NBUF → DiskBuf
  refcnt : Fin NBUF → Nat

def DiskBuf.zero : DiskBuf where
  valid := false
  dirty := false
  dev := 0
  blockno := 0
  data := fun _ => 0

/-- `b->next = bcache.head.next; b->prev = &bcache.head; …`, as in `binit` and in
`brelse`. -/
def Bcache.putFront (c : Bcache) (b : Fin NBUF) : Bcache :=
  { c with next := (pushFront c.next c.prev b).1, prev := (pushFront c.next c.prev b).2 }

/-- `b->next->prev = b->prev; b->prev->next = b->next;` -/
def Bcache.takeOut (c : Bcache) (b : Fin NBUF) : Bcache :=
  { c with next := (unlink c.next c.prev b).1, prev := (unlink c.next c.prev b).2 }

/-- `bcache` before `binit`, with the two assignments to its head. -/
def Bcache.empty : Bcache where
  next := fun _ => none
  prev := fun _ => none
  buf := fun _ => DiskBuf.zero
  refcnt := fun _ => 0

def binit : Bcache := (List.finRange NBUF).foldl Bcache.putFront Bcache.empty

/-- `b->dev == dev && b->blockno == blockno`. -/
def DiskBuf.isFor (b : DiskBuf) (dev blockno : Nat) : Bool := b.dev == dev && b.blockno == blockno

/-- `b->refcnt == 0 && (b->flags & B_DIRTY) == 0`. -/
def Bcache.unused (c : Bcache) (b : Fin NBUF) : Bool := c.refcnt b == 0 && !(c.buf b).dirty

/-- What the section of `bget` comes to: a buffer and the new cache, the panic, or a
loop over the list that does not end. -/
inductive Bget where
  | found (b : Fin NBUF) (c : Bcache)
  | noBuffers
  | spins

/-- The section of `bget`, up to `acquiresleep`. -/
def bget (c : Bcache) (dev blockno : Nat) : Bget :=
  match scan c.next (fun b => DiskBuf.isFor (c.buf b) dev blockno) (NBUF + 1) (c.next none) with
  | .found b => .found b { c with refcnt := Function.update c.refcnt b (c.refcnt b + 1) }
  | .spins => .spins
  | .missing =>
      match scan c.prev c.unused (NBUF + 1) (c.prev none) with
      | .found b =>
          .found b
            { c with
              buf := Function.update c.buf b
                { c.buf b with dev := dev, blockno := blockno, valid := false, dirty := false }
              refcnt := Function.update c.refcnt b 1 }
      | .missing => .noBuffers
      | .spins => .spins

/-- The section of `brelse`, after `releasesleep`. -/
def brelse (c : Bcache) (b : Fin NBUF) : Bcache :=
  let c := { c with refcnt := Function.update c.refcnt b (c.refcnt b - 1) }
  if c.refcnt b = 0 then (c.takeOut b).putFront b else c

/-! ## Processes -/

/-- Where a process is. -/
inductive Pc where
  /-- Outside of the functions of this file. -/
  | running
  /-- In `bget(dev, blockno)`, at `acquiresleep(&b->lock)`. -/
  | waiting (b : Fin NBUF) (dev blockno : Nat)
  /-- In `bread(dev, blockno)`, with `b` from `bget`. -/
  | locked (b : Fin NBUF) (dev blockno : Nat)
  /-- `bread(dev, blockno)` has returned `b`. -/
  | returned (b : Fin NBUF) (dev blockno : Nat)
  /-- In `brelse(b)`, behind `releasesleep`. -/
  | releasing (b : Fin NBUF)
  deriving DecidableEq

def Pc.outside : Pc → Bool
  | .running | .returned .. => true
  | _ => false

/-- The cache, the sleep locks of the buffers, the disk and the processes. The last two
fields are not the kernel's. `left dev blockno` is what the last `bwrite` or `log_write`
left in the block, and `unsaved b` says that the holder of `b` has changed it since. -/
structure State (P : Type) where
  cache : Bcache
  lock : Fin NBUF → Option P
  disk : Disk
  pc : P → Pc
  left : Nat → Nat → Block
  unsaved : Fin NBUF → Bool

def State.init (P : Type) (disk : Disk) : State P where
  cache := binit
  lock := fun _ => none
  disk := disk
  pc := fun _ => .running
  left := fun _ => disk
  unsaved := fun _ => false

variable {P : Type} [DecidableEq P]

def State.goto (s : State P) (p : P) (pc : Pc) : State P :=
  { s with pc := Function.update s.pc p pc }

def State.setBuf (s : State P) (b : Fin NBUF) (v : DiskBuf) : State P :=
  { s with cache.buf := Function.update s.cache.buf b v }

/-- The content of `b` is what its block now has. -/
def State.keep (s : State P) (b : Fin NBUF) (v : DiskBuf) : State P :=
  { s with
    left := Function.update s.left v.dev (Function.update (s.left v.dev) v.blockno v.data)
    unsaved := Function.update s.unsaved b false }

/-- `iderw(b)` by `p`. -/
def State.iderw (disksize : Nat) (s : State P) (p : P) (b : Fin NBUF) (v : DiskBuf) :
    Option (State P) :=
  match memIderw disksize (s.lock b = some p) v s.disk with
  | .ok (v, disk) => some { s.setBuf b v with disk := disk }
  | .error _ => none

inductive Action where
  /-- `bread(dev, blockno)` is called. -/
  | bread (dev blockno : Nat)
  | acquiresleep
  /-- The rest of `bread`. -/
  | fetch
  /-- The holder of `b` changes its data. -/
  | modify (b : Fin NBUF) (data : Block)
  | bwrite (b : Fin NBUF)
  | logWrite (b : Fin NBUF)
  /-- `brelse(b)` is called, up to `releasesleep`. -/
  | brelse (b : Fin NBUF)
  /-- The section of `brelse`. -/
  | drop

/-- One step of process `p`. A panic stops the system, so it is no step. -/
def step (disksize : Nat) (s : State P) (a : P × Action) : Option (State P) :=
  let p := a.1
  match a.2 with
  | .bread dev blockno =>
      if (s.pc p).outside then
        match bget s.cache dev blockno with
        | .found b c => some ({ s with cache := c }.goto p (.waiting b dev blockno))
        | .noBuffers | .spins => none
      else none
  | .acquiresleep =>
      match s.pc p with
      | .waiting b dev blockno =>
          if s.lock b = none then
            some ({ s with lock := Function.update s.lock b (some p) }.goto p
              (.locked b dev blockno))
          else none
      | _ => none
  | .fetch =>
      match s.pc p with
      | .locked b dev blockno =>
          if (s.cache.buf b).valid then some (s.goto p (.returned b dev blockno))
          else (s.iderw disksize p b (s.cache.buf b)).map (·.goto p (.returned b dev blockno))
      | _ => none
  | .modify b data =>
      if (s.pc p).outside ∧ s.lock b = some p then
        some ({ s.setBuf b { s.cache.buf b with data := data } with
          unsaved := Function.update s.unsaved b true }.goto p .running)
      else none
  | .bwrite b =>
      -- the test for `holdingsleep` is also the one in `iderw`
      if (s.pc p).outside ∧ s.lock b = some p then
        (s.iderw disksize p b { s.cache.buf b with dirty := true }).map
          fun t => (t.keep b (s.cache.buf b)).goto p .running
      else none
  | .logWrite b =>
      if (s.pc p).outside ∧ s.lock b = some p then
        some (((s.setBuf b { s.cache.buf b with dirty := true }).keep b (s.cache.buf b)).goto p
          .running)
      else none
  | .brelse b =>
      if (s.pc p).outside ∧ s.lock b = some p then
        some ({ s with lock := Function.update s.lock b none }.goto p (.releasing b))
      else none
  | .drop =>
      match s.pc p with
      | .releasing b => some ({ s with cache := brelse s.cache b }.goto p .running)
      | _ => none

/-- A changed buffer is not given back before `bwrite` or `log_write`. -/
def savesFirst (s : State P) (a : P × Action) : Prop :=
  match a.2 with
  | .brelse b => s.unsaved b = false
  | _ => True

instance (s : State P) (a : P × Action) : Decidable (savesFirst s a) := by
  unfold savesFirst
  split <;> infer_instance

end Xv6.Ref.Bio
