import Xv6.Lib.Linked
import Xv6.Lib.Monitor
import Xv6.Ref.Memide

/-!
# The disk driver (`ide.c`)

Processes call `iderw` on buffers whose sleep lock they hold, the device works on one
command at a time, and `ideintr` runs on an interrupt. All of them are parties of
`Lib/Monitor.lean` under `idelock`; a buffer is the channel its process sleeps on.

The device takes a command while it is not busy. When it is done it has the
sectors of a write, or offers those of a read at its data port, and raises an
interrupt. `ideintr` also runs on interrupts that come while the queue is empty;
the handler's wait for `idelock` is part of the interrupt's way to the processor.

Two fields record history and are read by no modelled code: the requests in the
order they were queued, and what happened to the buffers, which is what
`memide.c` has to do for the same effect.
-/

namespace Xv6.Ref.Ide

open Xv6.Lib

abbrev SECTOR_SIZE : Nat := 512

/-! ## The device -/

/-- The task file as `idestart` fills it in with `outb`. -/
structure Regs where
  count : Nat
  lba0 : Nat
  lba1 : Nat
  lba2 : Nat
  /-- Port `0x1f6`: the drive in bit 4, and the high bits of the sector. -/
  device : Nat

def Regs.drive (r : Regs) : Nat := r.device / 16 % 2

def Regs.sector (r : Regs) : Nat :=
  r.lba0 + 2 ^ 8 * r.lba1 + 2 ^ 16 * r.lba2 + 2 ^ 24 * (r.device % 16)

/-- A command: its registers, and the data of a write. -/
structure Cmd where
  regs : Regs
  write : Option Block

/-- What `idestart` sends for a buffer. A block is one sector. -/
def command (b : DiskBuf) : Cmd :=
  let sectorPerBlock := BSIZE / SECTOR_SIZE
  let sector := b.blockno * sectorPerBlock
  { regs :=
      { count := sectorPerBlock
        lba0 := sector % 2 ^ 8
        lba1 := sector / 2 ^ 8 % 2 ^ 8
        lba2 := sector / 2 ^ 16 % 2 ^ 8
        device := 0xe0 + b.dev % 2 * 2 ^ 4 + sector / 2 ^ 24 % 2 ^ 4 }
    write := if b.dirty then some b.data else none }

/-! ## The driver -/

/-- Who runs: a process, a processor's interrupt handler, or the device. -/
inductive Party (P : Type) where
  | proc (p : P)
  | intr (cpu : Nat)
  | device
  deriving DecidableEq

/-- What happened to a buffer: its owner changed it, or its request completed. -/
inductive Event (B : Type) where
  | set (b : B) (v : DiskBuf)
  | complete (b : B)

structure Driver (P B : Type) where
  buf : B → DiskBuf
  /-- Who holds `b->lock`. -/
  owner : B → Option P
  idequeue : Option B
  qnext : B → Option B
  havedisk1 : Bool
  /-- The command the device works on. -/
  busy : Option Cmd
  irq : Bool
  /-- The sector at the data port. -/
  port : Block
  /-- The sectors of the drives. -/
  disk : Nat → Disk
  queued : List B
  hist : List (Event B)

inductive Place (B : Type) where
  /-- A process outside of `iderw`, a handler waiting for an interrupt, or the device. -/
  | idle
  /-- `iderw(b)`: `acquire`, `b->qnext = 0`, the walk with `pp` to the end of the queue, -/
  | rwAcquire (b : B)
  | rwInit (b : B)
  | rwWalk (b : B) (pp : Option B)
  /-- and with `k` requests queued before, `idestart`, the loop, and `release`. -/
  | rwStart (b : B) (k : Nat)
  | rwWait (b : B) (k : Nat)
  | rwRelease (b : B) (k : Nat)
  /-- `ideintr` with `idelock`: the test of the queue, data and flags, `wakeup`,
  `idestart`, `release`. -/
  | intrTest
  | intrData (b : B)
  | intrWake (b : B)
  | intrStart
  | intrRelease
  | panic (e : RwPanic)
  /-- A panic with `idelock`. -/
  | panicLocked (e : RwPanic)
  deriving DecidableEq

/-- What a process does next: take or give back the lock of a buffer, change a
buffer, or call `iderw`. -/
inductive UserCall (B : Type) where
  | lock (b : B)
  | unlock (b : B)
  | set (b : B) (v : DiskBuf)
  | iderw (b : B)

abbrev IdeInstr (P B : Type) := Instr (Driver P B) B (Place B)

section

variable {P B : Type} [DecidableEq P] [DecidableEq B]

/-- A process outside of `iderw`. A buffer is changed by its owner, or by `bget`
while nobody has it. -/
def user (p : P) (d : Driver P B) : UserCall B → IdeInstr P B
  | .lock b =>
      if d.owner b = none then
        .go { d with owner := Function.update d.owner b (some p) } .idle
      else .halt
  | .unlock b =>
      if d.owner b = some p then
        .go { d with owner := Function.update d.owner b none } .idle
      else .halt
  | .set b v =>
      if d.owner b = none ∨ d.owner b = some p then
        .go { d with buf := Function.update d.buf b v, hist := d.hist ++ [.set b v] } .idle
      else .halt
  | .iderw b =>
      if d.owner b ≠ some p then .go d (.panic .notLocked)
      else if (d.buf b).synced then .go d (.panic .nothingToDo)
      else if (d.buf b).dev ≠ 0 ∧ d.havedisk1 = false then .go d (.panic .noDisk1)
      else .go d (.rwAcquire b)

/-- An interrupt of the device, or one while the queue is empty. -/
def interrupt (d : Driver P B) : IdeInstr P B :=
  if d.irq = true ∨ d.idequeue = none then .acquire .intrTest else .halt

/-- The device finishes its command. -/
def device (d : Driver P B) : IdeInstr P B :=
  match d.busy with
  | none => .halt
  | some cmd =>
      match cmd.write with
      | some data =>
          .go
            { d with
              busy := none
              irq := true
              disk := Function.update d.disk cmd.regs.drive
                (Function.update (d.disk cmd.regs.drive) cmd.regs.sector data) } .idle
      | none =>
          .go
            { d with
              busy := none
              irq := true
              port := d.disk cmd.regs.drive cmd.regs.sector } .idle

/-- `idestart(b)`; `idewait` spins while the device is busy. -/
def idestart (d : Driver P B) (b : B) (next : Place B) : IdeInstr P B :=
  if (d.buf b).blockno ≥ FSSIZE then .go d (.panicLocked .incorrectBlockno)
  else if d.busy.isSome then .halt
  else .go { d with busy := some (command (d.buf b)) } next

/-- One round of `for(pp=&idequeue; *pp; pp=&(*pp)->qnext)`, and `*pp = b` behind it. -/
def rwWalk (d : Driver P B) (b : B) (pp : Option B) : IdeInstr P B :=
  match slot d.qnext d.idequeue pp with
  | some c => .go d (.rwWalk b (some c))
  | none =>
      let d := { d with queued := d.queued ++ [b] }
      match pp with
      | none => .go { d with idequeue := some b } (.rwStart b (d.queued.length - 1))
      | some c =>
          .go { d with qnext := Function.update d.qnext c (some b) }
            (.rwStart b (d.queued.length - 1))

/-- Start disk if necessary. -/
def rwStart (d : Driver P B) (b : B) (k : Nat) : IdeInstr P B :=
  if d.idequeue = some b then idestart d b (.rwWait b k) else .go d (.rwWait b k)

/-- First queued buffer is the active request. -/
def intrTest (d : Driver P B) : IdeInstr P B :=
  match d.idequeue with
  | none => .go { d with irq := false } .intrRelease
  | some b => .go { d with irq := false, idequeue := d.qnext b } (.intrData b)

/-- Start disk on next buf in queue. -/
def intrStart (d : Driver P B) : IdeInstr P B :=
  match d.idequeue with
  | none => .go d .intrRelease
  | some b => idestart d b .intrRelease

/-- `ideintr` with the first queued buffer: the data of a read, and the flags. -/
def intrData (d : Driver P B) (b : B) : IdeInstr P B :=
  let v := d.buf b
  if v.dirty = false ∧ d.busy.isSome then .halt
  else
    let data := if v.dirty then v.data else d.port
    .go
      { d with
        buf := Function.update d.buf b { v with data := data, valid := true, dirty := false }
        hist := d.hist ++ [.complete b] } (.intrWake b)

def ideCode : Code (Party P) (UserCall B) (Driver P B) B (Place B)
  | party, call, d, place =>
      match place with
      | .idle =>
          match party with
          | .proc p => user p d call
          | .intr _ => interrupt d
          | .device => device d
      | .rwAcquire b => .acquire (.rwInit b)
      | .rwInit b =>
          .go { d with qnext := Function.update d.qnext b none } (.rwWalk b none)
      | .rwWalk b pp => rwWalk d b pp
      | .rwStart b k => rwStart d b k
      | .rwWait b k =>
          if (d.buf b).synced then .go d (.rwRelease b k) else .sleep b (.rwWait b k)
      | .rwRelease _ _ => .release .idle
      | .intrTest => intrTest d
      | .intrData b => intrData d b
      | .intrWake b => .wakeup b .intrStart
      | .intrStart => intrStart d
      | .intrRelease => .release .idle
      | .panic _ | .panicLocked _ => .halt

abbrev IdeState (P B : Type) := Mon (Party P) (Driver P B) B (Place B)

/-- Nothing queued and nothing locked. -/
def Driver.boot (buf : B → DiskBuf) (havedisk1 : Bool) (port : Block) (disk : Nat → Disk) :
    Driver P B where
  buf := buf
  owner := fun _ => none
  idequeue := none
  qnext := fun _ => none
  havedisk1 := havedisk1
  busy := none
  irq := false
  port := port
  disk := disk
  queued := []
  hist := []

def ideStep : IdeState P B → MonAct (Party P) (UserCall B) → Option (IdeState P B) :=
  Mon.step ideCode

/-- `iderw` is called on a buffer the process has locked, of device 1 and of a block on
the disk. -/
def callsOk (s : IdeState P B) : MonAct (Party P) (UserCall B) → Prop
  | .run (.proc p) (.iderw b) =>
      s.pc (.proc p) = .at .idle →
        s.data.owner b = some p ∧ (s.data.buf b).dev = 1 ∧ (s.data.buf b).blockno < FSSIZE
  | _ => True

instance (s : IdeState P B) : (a : MonAct (Party P) (UserCall B)) → Decidable (callsOk s a)
  | .run (.proc _) (.iderw _) => inferInstanceAs (Decidable (_ → _))
  | .run (.proc _) (.lock _) | .run (.proc _) (.unlock _) | .run (.proc _) (.set _ _)
  | .run (.intr _) _ | .run .device _ | .kill _ => inferInstanceAs (Decidable True)

/-! ## What `memide.c` does for the same requests -/

def completions (hist : List (Event B)) : List B :=
  hist.filterMap fun
    | .set _ _ => none
    | .complete b => some b

/-- The buffers and the disk of `memide.c`. -/
structure Memide (B : Type) where
  buf : B → DiskBuf
  disk : Disk

/-- The buffer is changed, or its owner calls `iderw`. -/
def Memide.step (m : Memide B) : Event B → Except RwPanic (Memide B)
  | .set b v => .ok { m with buf := Function.update m.buf b v }
  | .complete b => do
      let (v, disk) ← memIderw FSSIZE true (m.buf b) m.disk
      return { buf := Function.update m.buf b v, disk := disk }

def Memide.run (m : Memide B) (hist : List (Event B)) : Except RwPanic (Memide B) :=
  hist.foldlM Memide.step m

end

end Xv6.Ref.Ide
