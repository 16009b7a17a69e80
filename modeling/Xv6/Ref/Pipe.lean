import Xv6.Lib.Ring
import Xv6.Lib.Trans

/-!
# Pipes (`pipe.c`)

One pipe and the processes that use it, any number of them. A process calls
`pipewrite`, `piperead` or `pipeclose` and then runs through it one statement at
a time, in any interleaving with the others: what a process does between two
looks at something shared is one step, an `acquire` waits until the lock is
free, and `sleep` is taken apart into the pieces between which others can run.
`kill` can hit anybody at any time.

Of the process table only what `sleep`, `wakeup` and `kill` do to these
processes is here: `chan p` is the channel `p` is SLEEPING on, and `none` when
it is in any other state.

`stored`, `taken` and the numbers `fresh` in the program counters are history,
as is the reader's buffer `got` beyond its length: no modelled code reads them.
-/

namespace Xv6.Ref

open Xv6.Lib

abbrev PIPESIZE : Nat := 512

theorem PIPESIZE_pos : 0 < PIPESIZE := by decide

/-- `&p->nread` and `&p->nwrite` as channels. -/
inductive PipeChan where
  | nread
  | nwrite
  deriving DecidableEq

/-- A call that is suspended in `sleep`. -/
inductive Suspended where
  | write (rest : List UInt8) (n : Nat)
  | read (n : Nat)
  deriving DecidableEq

/-- Where a process is. `n` is the argument of the call; `rest` are the bytes
`addr[i..n)` still to be stored, and `fresh` counts those stored since the call
began or last woke the readers; `got` are the bytes `addr[0..i)` copied out. -/
inductive PipePc where
  | idle
  /-- `acquire(&p->lock)`, at the start or at the end of `sleep`. -/
  | wAcquire (rest : List UInt8) (n : Nat)
  /-- The head of the `for` and of the `while`. -/
  | wLoop (rest : List UInt8) (n fresh : Nat)
  /-- The pipe was full. -/
  | wFull (rest : List UInt8) (n fresh : Nat)
  /-- `wakeup(&p->nread)` before the sleep. -/
  | wWakeup (rest : List UInt8) (n fresh : Nat)
  /-- `wakeup(&p->nread)` behind the loop. -/
  | wEnd (n fresh : Nat)
  /-- `release` and `return n`. -/
  | wReturn (n : Nat)
  | rAcquire (n : Nat)
  /-- The head of the `while`. -/
  | rLoop (n : Nat)
  /-- The pipe was empty and some writer open. -/
  | rEmpty (n : Nat)
  /-- The head of the `for`. -/
  | rCopy (n : Nat) (got : List UInt8)
  /-- `wakeup(&p->nwrite)`. -/
  | rEnd (n : Nat) (got : List UInt8)
  /-- `release` and `return i`. -/
  | rReturn (n : Nat) (got : List UInt8)
  /-- `pipeclose`. -/
  | cAcquire (writable : Bool)
  | cOpen (writable : Bool)
  | cWakeup (writable : Bool)
  | cRelease
  /-- `sleep`: before `acquire(&ptable.lock)`, -/
  | sleep (k : Suspended)
  /-- before `release(lk)`, -/
  | sleepRelease (k : Suspended)
  /-- before `p->chan = chan; p->state = SLEEPING; sched()`, -/
  | sleepSched (k : Suspended)
  /-- and behind `sched`. -/
  | slept (k : Suspended)
  deriving DecidableEq

structure Pipe (P : Type) where
  data : Fin PIPESIZE → UInt8
  nread : BitVec 32
  nwrite : BitVec 32
  readopen : Bool
  writeopen : Bool
  /-- The page went back to `kfree`. -/
  freed : Bool
  /-- Who holds `p->lock`, and `ptable.lock`. -/
  lock : Option P
  ptable : Option P
  pc : P → PipePc
  chan : P → Option PipeChan
  killed : P → Bool
  /-- The bytes stored and the bytes copied out so far. -/
  stored : List UInt8
  taken : List UInt8

/-- Behind `pipealloc`. The page is not cleared. -/
def Pipe.alloc (P : Type) (data : Fin PIPESIZE → UInt8) : Pipe P where
  data := data
  nread := 0
  nwrite := 0
  readopen := true
  writeopen := true
  freed := false
  lock := none
  ptable := none
  pc := fun _ => .idle
  chan := fun _ => none
  killed := fun _ => false
  stored := []
  taken := []

inductive PipeAct (P : Type) where
  /-- `p` calls `pipewrite` with these bytes, -/
  | pipewrite (p : P) (addr : List UInt8)
  | piperead (p : P) (n : Nat)
  | pipeclose (p : P) (writable : Bool)
  /-- or goes on. -/
  | step (p : P)
  | kill (p : P)
  deriving DecidableEq

variable {P : Type} [DecidableEq P]

/-- The bytes in the pipe, the oldest first. -/
def Pipe.buffered (s : Pipe P) : List UInt8 :=
  Ring.buffered PIPESIZE_pos s.data s.nread s.nwrite

def Pipe.goto (s : Pipe P) (p : P) (pc : PipePc) : Pipe P :=
  { s with pc := fun q => if q = p then pc else s.pc q }

/-- `acquire(&p->lock)`. -/
def Pipe.acquire (s : Pipe P) (p : P) (pc : PipePc) : Option (Pipe P) :=
  if s.lock = none then some { s.goto p pc with lock := some p } else none

/-- `release(&p->lock)`. -/
def Pipe.release (s : Pipe P) (p : P) (pc : PipePc) : Option (Pipe P) :=
  some { s.goto p pc with lock := none }

/-- `wakeup(c)`, which is one critical section of `ptable.lock`. -/
def Pipe.wakeup (s : Pipe P) (c : PipeChan) (p : P) (pc : PipePc) : Option (Pipe P) :=
  if s.ptable = none then
    some { s.goto p pc with
      chan := fun q => if s.chan q = some c then none else s.chan q }
  else none

/-- `p->data[p->nwrite++ % PIPESIZE] = b`. -/
def Pipe.store (s : Pipe P) (b : UInt8) : Pipe P :=
  { s with
    data := Ring.put s.data (Ring.cell PIPESIZE_pos s.nwrite) b
    nwrite := s.nwrite + 1
    stored := s.stored ++ [b] }

/-- `p->data[p->nread++ % PIPESIZE]`. -/
def Pipe.front (s : Pipe P) : UInt8 := s.data (Ring.cell PIPESIZE_pos s.nread)

def Pipe.take (s : Pipe P) : Pipe P :=
  { s with nread := s.nread + 1, taken := s.taken ++ [s.front] }

def pipewrite (s : Pipe P) (p : P) : PipePc → Option (Pipe P)
  | .wAcquire rest n => s.acquire p (.wLoop rest n 0)
  | .wLoop [] n fresh => some (s.goto p (.wEnd n fresh))
  | .wLoop (b :: rest) n fresh =>
      if s.nwrite = s.nread + BitVec.ofNat 32 PIPESIZE then
        some (s.goto p (.wFull (b :: rest) n fresh))
      else some ((s.store b).goto p (.wLoop rest n (fresh + 1)))
  | .wFull rest n fresh =>
      -- `return -1`.
      if s.readopen = false ∨ s.killed p = true then s.release p .idle
      else some (s.goto p (.wWakeup rest n fresh))
  | .wWakeup rest n _ => s.wakeup .nread p (.sleep (.write rest n))
  | .wEnd n _ => s.wakeup .nread p (.wReturn n)
  | .wReturn _ => s.release p .idle
  | _ => none

def piperead (s : Pipe P) (p : P) : PipePc → Option (Pipe P)
  | .rAcquire n => s.acquire p (.rLoop n)
  | .rLoop n =>
      if s.nread = s.nwrite ∧ s.writeopen = true then some (s.goto p (.rEmpty n))
      else some (s.goto p (.rCopy n []))
  | .rEmpty n =>
      -- `return -1`.
      if s.killed p = true then s.release p .idle
      else some (s.goto p (.sleep (.read n)))
  | .rCopy n got =>
      if got.length < n then
        if s.nread = s.nwrite then some (s.goto p (.rEnd n got))
        else some (s.take.goto p (.rCopy n (got ++ [s.front])))
      else some (s.goto p (.rEnd n got))
  | .rEnd n got => s.wakeup .nwrite p (.rReturn n got)
  | .rReturn _ _ => s.release p .idle
  | _ => none

def pipeclose (s : Pipe P) (p : P) : PipePc → Option (Pipe P)
  | .cAcquire writable => s.acquire p (.cOpen writable)
  | .cOpen writable =>
      if writable = true then some ({ s with writeopen := false }.goto p (.cWakeup true))
      else some ({ s with readopen := false }.goto p (.cWakeup false))
  | .cWakeup writable =>
      s.wakeup (if writable = true then .nread else .nwrite) p .cRelease
  | .cRelease =>
      if s.readopen = false ∧ s.writeopen = false then
        some { s.goto p .idle with lock := none, freed := true }
      else s.release p .idle
  | _ => none

/-- What the call sleeps on. -/
def Suspended.chan : Suspended → PipeChan
  | .write _ _ => .nwrite
  | .read _ => .nread

/-- Where the call goes on, with `acquire(lk)` at the end of `sleep`. -/
def Suspended.resume : Suspended → PipePc
  | .write rest n => .wAcquire rest n
  | .read n => .rAcquire n

def sleepStep (s : Pipe P) (p : P) : PipePc → Option (Pipe P)
  | .sleep k =>
      if s.ptable = none then some { s.goto p (.sleepRelease k) with ptable := some p }
      else none
  | .sleepRelease k => s.release p (.sleepSched k)
  | .sleepSched k =>
      -- The scheduler releases `ptable.lock`.
      some { s.goto p (.slept k) with
        ptable := none
        chan := fun q => if q = p then some k.chan else s.chan q }
  | .slept k => if s.chan p = none then some (s.goto p k.resume) else none
  | _ => none

/-- The next step of process `p`. -/
def Pipe.next (s : Pipe P) (p : P) : Option (Pipe P) :=
  match s.pc p with
  | .idle => none
  | .wAcquire .. | .wLoop .. | .wFull .. | .wWakeup .. | .wEnd .. | .wReturn .. =>
      pipewrite s p (s.pc p)
  | .rAcquire .. | .rLoop .. | .rEmpty .. | .rCopy .. | .rEnd .. | .rReturn .. =>
      piperead s p (s.pc p)
  | .cAcquire .. | .cOpen .. | .cWakeup .. | .cRelease => pipeclose s p (s.pc p)
  | .sleep .. | .sleepRelease .. | .sleepSched .. | .slept .. => sleepStep s p (s.pc p)

/-- A process that is not in a call makes one. -/
def Pipe.call (s : Pipe P) (p : P) (pc : PipePc) : Option (Pipe P) :=
  if s.pc p = .idle then some (s.goto p pc) else none

/-- Nobody uses the pipe once its page is freed. -/
def pipeStep (s : Pipe P) (a : PipeAct P) : Option (Pipe P) :=
  if s.freed = true then none
  else
    match a with
    | .pipewrite p addr => s.call p (.wAcquire addr addr.length)
    | .piperead p n => s.call p (.rAcquire n)
    | .pipeclose p writable => s.call p (.cAcquire writable)
    | .step p => s.next p
    | .kill p =>
        if s.ptable = none then
          some { s with
            killed := fun q => if q = p then true else s.killed q
            chan := fun q => if q = p then none else s.chan q }
        else none

end Xv6.Ref
