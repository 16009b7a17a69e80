import Xv6.Ref.Block

/-!
# The redo log (`log.c`)

What `commit` and `recover_from_log` do to the disk, block write by block
write. The machine keeps a buffer cache above the disk; `log_write` only
changes cached buffers and pins them, so the disk moves in `bwrite` and
nowhere else. Every `bwrite` is recorded in `sent`, and a power failure is a
cut in that record: the disk then holds the writes before the cut and nothing
else of the machine survives.

The buffer cache is `bio.c`'s seen from the log. A block that is cached is
read from the cache; one that is not is read from the disk into a recycled
buffer. Which buffers a miss recycles is decided by the LRU list, of which
the log only relies on `bget`'s own test: a buffer marked `B_DIRTY` is never
recycled. So the choice is an arbitrary function of the miss count, and
whatever is proved holds for every replacement order.
-/

namespace Xv6.Ref

/-- `log.start` and `log.size`, as `initlog` reads them from the superblock. -/
structure LogDev where
  start : Nat
  size : Nat
  deriving DecidableEq

/-- The blocks of the log: the header block and the log blocks behind it. -/
def LogDev.area (lg : LogDev) (b : Nat) : Prop :=
  lg.start ≤ b ∧ b < lg.start + lg.size

instance (lg : LogDev) (b : Nat) : Decidable (lg.area b) :=
  inferInstanceAs (Decidable (_ ∧ _))

/-- A valid buffer: its data and whether `B_DIRTY` is set. -/
structure Buf where
  data : Block
  dirty : Bool

abbrev Disk := Nat → Block

/-- The disk, and what a boot keeps in memory. -/
structure Sys where
  disk : Disk
  /-- The valid buffers of `bcache`, by block number. -/
  cache : Nat → Option Buf
  /-- `log.lh.block[0 .. log.lh.n)`. -/
  block : List Nat
  /-- The block writes issued so far, oldest first. -/
  sent : List (Nat × Block)
  /-- Which clean buffers the next cache miss recycles. -/
  recycle : Nat → Nat → Bool
  misses : Nat

/-- The cache after `bget` has recycled buffers for a miss: a dirty buffer
stays. -/
def recycled (s : Sys) : Nat → Option Buf :=
  fun c =>
    match s.cache c with
    | none => none
    | some buf =>
        if buf.dirty = false ∧ s.recycle s.misses c = true then none
        else some buf

/-- `bread`: the cached data, or a read of the disk. -/
def bread (s : Sys) (b : Nat) : Block × Sys :=
  match s.cache b with
  | some buf => (buf.data, s)
  | none =>
      (s.disk b,
        { s with
          cache := Function.update (recycled s) b (some ⟨s.disk b, false⟩)
          misses := s.misses + 1 })

/-- `bwrite` of a buffer that holds `data`: the block reaches the disk and
`iderw` clears `B_DIRTY`. -/
def bwrite (s : Sys) (b : Nat) (data : Block) : Sys :=
  { s with
    disk := Function.update s.disk b data
    cache := Function.update s.cache b (some ⟨data, false⟩)
    sent := s.sent ++ [(b, data)] }

/-! ## The header block -/

/-- `hb->n = lh.n; hb->block[i] = lh.block[i]` for `i < n`, from entry `i`
on. Entries past `n` keep what the buffer held. -/
def putBlocks (hb : Block) : Nat → List Nat → Block
  | _, [] => hb
  | i, b :: bs => putBlocks (hb.setWord (i + 1) b) (i + 1) bs

/-- The header block as `write_head` fills it in. -/
def putHead (hb : Block) (block : List Nat) : Block :=
  putBlocks (hb.setWord 0 block.length) 0 block

/-- The block list `read_head` finds in a header block. -/
def getHead (hb : Block) : List Nat :=
  (List.range (hb.word 0)).map fun i => hb.word (i + 1)

def readHead (lg : LogDev) (s : Sys) : Sys :=
  let (hb, s) := bread s lg.start
  { s with block := getHead hb }

def writeHead (lg : LogDev) (s : Sys) : Sys :=
  let (hb, s) := bread s lg.start
  bwrite s lg.start (putHead hb s.block)

/-! ## Copying to and from the log -/

/-- The loop of `write_log` from entry `tail` on: the cached block goes to
its log block. -/
def writeLogFrom (lg : LogDev) : List Nat → Nat → Sys → Sys
  | [], _, s => s
  | b :: bs, tail, s =>
      let (_, s) := bread s (lg.start + tail + 1)
      let (src, s) := bread s b
      writeLogFrom lg bs (tail + 1) (bwrite s (lg.start + tail + 1) src)

def writeLog (lg : LogDev) (s : Sys) : Sys :=
  writeLogFrom lg s.block 0 s

/-- The loop of `install_trans` from entry `tail` on: the log block goes to
its home location. -/
def installTransFrom (lg : LogDev) : List Nat → Nat → Sys → Sys
  | [], _, s => s
  | b :: bs, tail, s =>
      let (lbuf, s) := bread s (lg.start + tail + 1)
      let (_, s) := bread s b
      installTransFrom lg bs (tail + 1) (bwrite s b lbuf)

def installTrans (lg : LogDev) (s : Sys) : Sys :=
  installTransFrom lg s.block 0 s

def recoverFromLog (lg : LogDev) (s : Sys) : Sys :=
  let s := readHead lg s
  let s := installTrans lg s
  writeHead lg { s with block := [] }

def commit (lg : LogDev) (s : Sys) : Sys :=
  if s.block.length > 0 then
    let s := writeLog lg s
    let s := writeHead lg s
    let s := installTrans lg s
    writeHead lg { s with block := [] }
  else s

/-! ## `log_write` -/

/-- The scan of `log_write`: an entry for the same block absorbs the write,
otherwise the block is appended. -/
def absorb : List Nat → Nat → List Nat
  | [], b => [b]
  | x :: xs, b => if x = b then b :: xs else x :: absorb xs b

/-- The test `log_write` makes before it takes the lock. -/
def tooBig (lg : LogDev) (block : List Nat) : Prop :=
  block.length ≥ LOGSIZE ∨ block.length ≥ lg.size - 1

instance (lg : LogDev) (block : List Nat) : Decidable (tooBig lg block) :=
  inferInstanceAs (Decidable (_ ∨ _))

/-- `log_write` of a buffer that now holds `data`, inside a transaction;
`none` is the panic. -/
def logWrite (lg : LogDev) (s : Sys) (b : Nat) (data : Block) : Option Sys :=
  if tooBig lg s.block then none
  else
    some { s with
      block := absorb s.block b
      cache := Function.update s.cache b (some ⟨data, true⟩) }

/-- One use of a block inside an operation: `bread`, change the data,
`log_write`, `brelse`. -/
abbrev Mod := Nat × (Block → Block)

def modify (lg : LogDev) (s : Sys) (m : Mod) : Option Sys :=
  let (data, s) := bread s m.1
  logWrite lg s m.1 (m.2 data)

/-- The modifications of a group transaction, in the order they are made. -/
def modifyAll (lg : LogDev) : Sys → List Mod → Option Sys
  | s, [] => some s
  | s, m :: ms =>
      match modify lg s m with
      | none => none
      | some s' => modifyAll lg s' ms

/-! ## Power failures -/

/-- A disk after some block writes. -/
def applyWrites (d : Disk) (ws : List (Nat × Block)) : Disk :=
  ws.foldl (fun d w => Function.update d w.1 w.2) d

/-- Memory as a boot finds it, over the disk the last run left. -/
def boot (recycle : Nat → Nat → Bool) (d : Disk) : Sys where
  disk := d
  cache := fun _ => none
  block := []
  sent := []
  recycle := recycle
  misses := 0

/-- The block writes `f` issues from `s`. -/
def writesOf (f : Sys → Sys) (s : Sys) : List (Nat × Block) :=
  (f s).sent.drop s.sent.length

/-- The disk if the power fails after the first `k` block writes of `f`. -/
def cutAfter (f : Sys → Sys) (s : Sys) (k : Nat) : Disk :=
  applyWrites s.disk ((writesOf f s).take k)

/-- A machine that is running, or one that lost power. -/
inductive Machine where
  | up (s : Sys)
  | down (d : Disk)

def Machine.disk : Machine → Disk
  | .up s => s.disk
  | .down d => d

/-- What can happen to a machine, as far as the log is concerned. -/
inductive Event where
  /-- A group transaction runs and its `commit` completes. -/
  | group (ms : List Mod)
  /-- A group transaction runs and the power fails after `k` of the block
  writes of its `commit`. -/
  | groupCut (ms : List Mod) (k : Nat)
  /-- The machine is switched on, also after a failure at any other time, and
  recovery runs to its end. -/
  | recover (recycle : Nat → Nat → Bool)
  /-- The machine is switched on and the power fails after `k` of the block
  writes of the recovery. -/
  | recoverCut (recycle : Nat → Nat → Bool) (k : Nat)

/-- A `log_write` that panics stops the machine before anything of the group
is written; a transaction needs a running machine. -/
def play (lg : LogDev) : Machine → Event → Machine
  | .up s, .group ms =>
      match modifyAll lg s ms with
      | none => .down s.disk
      | some s' => .up (commit lg s')
  | .up s, .groupCut ms k =>
      match modifyAll lg s ms with
      | none => .down s.disk
      | some s' => .down (cutAfter (commit lg) s' k)
  | .down d, .group _ => .down d
  | .down d, .groupCut _ _ => .down d
  | m, .recover rc => .up (recoverFromLog lg (boot rc m.disk))
  | m, .recoverCut rc k =>
      .down (cutAfter (recoverFromLog lg) (boot rc m.disk) k)

def playAll (lg : LogDev) (m : Machine) (evs : List Event) : Machine :=
  evs.foldl (play lg) m

end Xv6.Ref
