import Xv6.Ref.Proc
import Xv6.Lib.Trans

/-!
# Processes, CPUs and `ptable.lock`

The kernel as an interleaving of its threads: the scheduler thread of every
CPU and the kernel thread of every process. A step is a critical section of
`ptable.lock`, or a piece of one, or a piece of code outside it. Pieces are
cut where `ticks` is read or where other threads can see the difference:

* `ticks` is not protected by `ptable.lock`, so a tick can fall between any
  two reads of it — between the two statements of the accounting loop, between
  `ctime` and `last_check` in `allocproc`;
* `fork` sets the new slot up outside the lock and gives it back there when an
  allocation fails;
* `waitx` reads the times of the slot it freed after it released the lock.

The lock travels with the CPU across `swtch`: a dispatch hands it to the
process, `sched` hands it back to the scheduler.

`ran` and the record in `Reaped` are history: no modelled code reads them.
-/

namespace Xv6.Ref

open Xv6.Lib

/-- A child as `waitx` found it: its slot and pid, and for the statements the
times it had as a ZOMBIE. -/
structure Reaped where
  slot : Slot
  pid : Int
  rtime : Ticks
  ctime : Ticks
  deriving DecidableEq

/-- Where the kernel thread of a process is. -/
inductive KPc where
  /-- User code, or kernel code that has nothing to do with the table. -/
  | user
  /-- Not started: the first dispatch enters `forkret`. -/
  | forkret
  /-- In `setpriority`, about to call `yield`. -/
  | toYield
  /-- In `yield`, behind `sched`, called from `k`. -/
  | yield (k : KPc)
  /-- In `sleep` with another lock than `ptable.lock`, behind `sched`. -/
  | sleep
  /-- In `allocproc` for slot `np`, holding the lock. -/
  | alloc (np : Slot)
  /-- In `allocproc`, about to `kalloc` the stack of `np`. -/
  | kalloc (np : Slot)
  /-- In `fork`, about to `copyuvm` for `np`. -/
  | copyuvm (np : Slot)
  /-- In `fork`, `np` set up and not yet RUNNABLE. -/
  | publish (np : Slot)
  /-- In `wait` (`x = false`) or `waitx`, holding the lock, before a pass. -/
  | scan (x : Bool)
  /-- In the `sleep` of `wait` or `waitx`, behind `sched`. -/
  | waitSleep (x : Bool)
  /-- In `waitx`, lock released; the reads of `*rtime = p->rtime` and of
  `*wtime = ticks - p->ctime - p->rtime`, one at a time. -/
  | waitx1 (z : Reaped)
  | waitx2 (z : Reaped) (rtime : Ticks)
  | waitx3 (z : Reaped) (rtime ticks : Ticks)
  | waitx4 (z : Reaped) (rtime ticks ctime : Ticks)
  /-- `waitx` returns `z.pid` with these values stored; `ticks` is the value
  it read for `*wtime`. -/
  | waitxRet (z : Reaped) (rtime wtime ticks : Ticks)
  deriving DecidableEq

/-- Where the scheduler thread of a CPU is. -/
inductive SchedPc where
  /-- At the head of its loop. -/
  | top
  /-- In the accounting loop, before slot `i`. -/
  | acct (i : Slot)
  /-- In the accounting loop, `rtime` of slot `i` updated with this value of
  `ticks` and `last_check` not yet. -/
  | acct' (i : Slot) (read : Ticks)
  /-- At the policy switch. -/
  | switch
  /-- Switched away to `c->proc`. -/
  | away (k : Resume)
  /-- Back from `swtch`, holding the lock. -/
  | back (k : Resume)
  deriving DecidableEq

/-- Who holds `ptable.lock`. -/
inductive Holder (C : Nat) where
  | cpu (c : Fin C)
  | proc (i : Slot)
  deriving DecidableEq

structure Kern (C : Nat) where
  ticks : Ticks
  nextpid : Int
  proc : Table
  kpc : Slot → KPc
  lock : Option (Holder C)
  /-- `c->proc`. -/
  cpu : Fin C → Option Slot
  sched : Fin C → SchedPc
  /-- How often `ticks` was incremented while the process was RUNNING, since
  `allocproc` created it. -/
  ran : Slot → Nat

/-- Behind `userinit`, before any CPU entered `scheduler`. -/
def Kern.boot (C : Nat) : Kern C where
  ticks := 0
  nextpid := 2
  proc := Function.update (fun _ => Proc.zero) initproc
    { Proc.zero with state := .RUNNABLE, pid := 1, priority := 60 }
  kpc := Function.update (fun _ => .user) initproc .forkret
  lock := none
  cpu := fun _ => none
  sched := fun _ => .top
  ran := fun _ => 0

inductive KAct (C : Nat) where
  /-- The timer interrupt of CPU 0 increments `ticks`. -/
  | tick
  /-- Some code calls `wakeup(a)`. -/
  | wakeup (a : Nat)
  /-- Some code calls `kill(pid)`. -/
  | kill (pid : Int)
  /-- CPU `c`'s scheduler takes the lock. -/
  | schedLock (c : Fin C)
  /-- The next statement of the accounting loop. -/
  | schedAcct (c : Fin C)
  /-- On to the next dispatch, or to the end of the pass. -/
  | schedGo (c : Fin C)
  /-- What the process on CPU `c` does next: release the lock it was
  dispatched with, -/
  | release (c : Fin C)
  /-- take a timer interrupt and `yield`, unless the policy is FCFS, -/
  | timer (c : Fin C)
  /-- `setpriority`, and the `yield` at its end, -/
  | setpriority (c : Fin C) (n : Int)
  | yield (c : Fin C)
  /-- `sleep` on some address, -/
  | sleep (c : Fin C) (a : Nat)
  | exit (c : Fin C)
  /-- `fork`, piece by piece; the allocations succeed or fail, -/
  | fork (c : Fin C)
  | forkAlloc (c : Fin C)
  | forkKalloc (c : Fin C) (ok : Bool)
  | forkCopy (c : Fin C) (ok : Bool)
  | forkPublish (c : Fin C)
  /-- `wait` or `waitx`, piece by piece. -/
  | waitCall (c : Fin C) (x : Bool)
  | waitScan (c : Fin C)
  | waitxRead (c : Fin C)
  | waitxDone (c : Fin C)
  deriving DecidableEq

variable {C : Nat}

def Kern.setProc (s : Kern C) (i : Slot) (f : Proc → Proc) : Kern C :=
  { s with proc := s.proc.modify i f }

def Kern.setKpc (s : Kern C) (i : Slot) (pc : KPc) : Kern C :=
  { s with kpc := Function.update s.kpc i pc }

def Kern.setSched (s : Kern C) (c : Fin C) (pc : SchedPc) : Kern C :=
  { s with sched := Function.update s.sched c pc }

/-- `ticks++`. -/
def tick (s : Kern C) : Kern C :=
  { s with
    ticks := s.ticks + 1
    ran := fun i => if (s.proc i).state = .RUNNING then s.ran i + 1 else s.ran i }

/-! ## The scheduler thread -/

/-- `p++` in the accounting loop. -/
def acctNext (i : Slot) : SchedPc :=
  if h : i.val + 1 < NPROC then .acct ⟨i.val + 1, h⟩ else .switch

/-- One statement of the accounting loop. -/
def schedAcct (s : Kern C) (c : Fin C) : Option (Kern C) :=
  match s.sched c with
  | .acct i =>
      if (s.proc i).state = .RUNNING then
        some ((s.setProc i fun p =>
          { p with rtime := p.rtime + (s.ticks - p.lastCheck) }).setSched c
            (.acct' i s.ticks))
      else
        some ((s.setProc i fun p => { p with lastCheck := s.ticks }).setSched c
          (acctNext i))
  | .acct' i _ =>
      some ((s.setProc i fun p => { p with lastCheck := s.ticks }).setSched c
        (acctNext i))
  | _ => none

/-- `c->proc = p; p->state = RUNNING; swtch(...)`. -/
def dispatch (s : Kern C) (c : Fin C) (p : Slot) (k : Resume) : Kern C :=
  { (s.setProc p fun q => { q with state := .RUNNING }).setSched c (.away k) with
    cpu := Function.update s.cpu c (some p)
    lock := some (.proc p) }

/-- The end of the pass. -/
def endPass (s : Kern C) (c : Fin C) : Kern C :=
  { s.setSched c .top with cpu := Function.update s.cpu c none, lock := none }

/-- The next dispatch of CPU `c`, from where its scheduler is. -/
def schedNext (flag : Char) (s : Kern C) (c : Fin C) :
    Option (Option (Slot × Resume)) :=
  match s.sched c with
  | .switch => some (schedSwitch flag s.proc s.ticks)
  | .back k => some (schedResume s.proc k)
  | _ => none

def schedGo (flag : Char) (s : Kern C) (c : Fin C) : Option (Kern C) :=
  match schedNext flag s c with
  | none => none
  | some none => some (endPass s c)
  | some (some (p, k)) => some (dispatch s c p k)

/-! ## The process on a CPU -/

/-- `sched()`: back to the scheduler of the CPU, with the lock. -/
def enterSched (s : Kern C) (c : Fin C) (i : Slot) (pc : KPc) : Option (Kern C) :=
  match s.sched c with
  | .away k => some { (s.setKpc i pc).setSched c (.back k) with lock := some (.cpu c) }
  | _ => none

/-- Behind `sched`, for the callers that only release the lock. -/
def release (s : Kern C) (i : Slot) : Option (Kern C) :=
  match s.kpc i with
  | .forkret => some { s.setKpc i .user with lock := none }
  | .yield k => some { s.setKpc i k with lock := none }
  | .sleep =>
      some { (s.setProc i fun p => { p with chan := none }).setKpc i .user with
        lock := none }
  | .waitSleep x =>
      -- `lk` is `ptable.lock`: the pass starts over with the lock held.
      some ((s.setProc i fun p => { p with chan := none }).setKpc i (.scan x))
  | _ => none

/-- `yield`, returning to `k`. -/
def yield (s : Kern C) (c : Fin C) (i : Slot) (k : KPc) : Option (Kern C) :=
  enterSched (s.setProc i fun p => { p with state := .RUNNABLE }) c i (.yield k)

def setpriority (s : Kern C) (i : Slot) (n : Int) : Option (Kern C) :=
  if s.kpc i ≠ .user then none
  else if n > 100 ∨ n < 0 then some s
  else
    let s' := s.setProc i fun p => { p with priority := n }
    if n < (s.proc i).priority then some (s'.setKpc i .toYield) else some s'

def sleep (s : Kern C) (c : Fin C) (i : Slot) (chan : Chan) (pc : KPc) :
    Option (Kern C) :=
  enterSched (s.setProc i fun p => { p with chan := some chan, state := .SLEEPING })
    c i pc

/-- A process that exits never runs again: nothing is behind its `sched`. -/
def exit (s : Kern C) (c : Fin C) (i : Slot) : Option (Kern C) :=
  if s.kpc i ≠ .user ∨ i = initproc then none
  else enterSched { s with proc := exitSection i s.ticks s.proc } c i .user

/-- The search of `allocproc` and its first assignments. -/
def fork (s : Kern C) (i : Slot) : Option (Kern C) :=
  if s.kpc i ≠ .user then none
  else
    match findUnused s.proc with
    | none => some s
    | some np =>
        some { (s.setProc np (allocproc s.nextpid s.ticks)).setKpc i (.alloc np) with
          nextpid := s.nextpid + 1
          lock := some (.proc i)
          ran := Function.update s.ran np 0 }

def forkAlloc (s : Kern C) (i : Slot) : Option (Kern C) :=
  match s.kpc i with
  | .alloc np =>
      some { (s.setProc np (allocproc' s.ticks)).setKpc i (.kalloc np) with lock := none }
  | _ => none

/-- `kalloc` of the kernel stack. -/
def forkKalloc (s : Kern C) (i : Slot) (ok : Bool) : Option (Kern C) :=
  match s.kpc i with
  | .kalloc np =>
      if ok = true then some (s.setKpc i (.copyuvm np))
      else some ((s.setProc np fun p => { p with state := .UNUSED }).setKpc i .user)
  | _ => none

/-- `copyuvm`, and the assignment of `np->parent`. -/
def forkCopy (s : Kern C) (i : Slot) (ok : Bool) : Option (Kern C) :=
  match s.kpc i with
  | .copyuvm np =>
      if ok = true then
        some ((s.setProc np fun p => { p with parent := some i }).setKpc i (.publish np))
      else some ((s.setProc np fun p => { p with state := .UNUSED }).setKpc i .user)
  | _ => none

/-- The last critical section of `fork`. -/
def forkPublish (s : Kern C) (i : Slot) : Option (Kern C) :=
  match s.kpc i with
  | .publish np =>
      some (((s.setProc np fun p => { p with state := .RUNNABLE }).setKpc i .user).setKpc
        np .forkret)
  | _ => none

def waitCall (s : Kern C) (i : Slot) (x : Bool) : Option (Kern C) :=
  if s.kpc i = .user then some { s.setKpc i (.scan x) with lock := some (.proc i) }
  else none

/-- One pass of `wait` or `waitx` and what it ends in. -/
def waitScan (s : Kern C) (c : Fin C) (i : Slot) : Option (Kern C) :=
  match s.kpc i with
  | .scan x =>
      match (if x = true then waitx i s.ticks s.proc else wait i s.ticks s.proc) with
      | (.reaped j pid, t) =>
          let z : Reaped := ⟨j, pid, (s.proc j).rtime, (s.proc j).ctime⟩
          some { s.setKpc i (if x = true then .waitx1 z else .user) with
            proc := t, lock := none }
      | (.fail, t) => some { s.setKpc i .user with proc := t, lock := none }
      | (.sleep, t) => sleep { s with proc := t } c i (.proc i) (.waitSleep x)
  | _ => none

/-- The reads of `waitx` behind the release of the lock. -/
def waitxRead (s : Kern C) (i : Slot) : Option (Kern C) :=
  match s.kpc i with
  | .waitx1 z => some (s.setKpc i (.waitx2 z (s.proc z.slot).rtime))
  | .waitx2 z rt => some (s.setKpc i (.waitx3 z rt s.ticks))
  | .waitx3 z rt tk => some (s.setKpc i (.waitx4 z rt tk (s.proc z.slot).ctime))
  | .waitx4 z rt tk ct =>
      some (s.setKpc i (.waitxRet z rt (tk - ct - (s.proc z.slot).rtime) tk))
  | _ => none

def waitxDone (s : Kern C) (i : Slot) : Option (Kern C) :=
  match s.kpc i with
  | .waitxRet _ _ _ _ => some (s.setKpc i .user)
  | _ => none

/-- An `acquire(&ptable.lock)` waits until the lock is free. -/
def locked {α : Type} (s : Kern C) (x : Option α) : Option α :=
  if s.lock = none then x else none

/-- Code that runs while it holds the lock. -/
def holding {α : Type} (s : Kern C) (w : Holder C) (x : Option α) : Option α :=
  if s.lock = some w then x else none

/-- Code of the process CPU `c` is running. -/
def onCpu (s : Kern C) (c : Fin C) (f : Slot → Option (Kern C)) : Option (Kern C) :=
  match s.cpu c, s.sched c with
  | some i, .away _ => f i
  | _, _ => none

def kernStep (flag : Char) (s : Kern C) : KAct C → Option (Kern C)
  | .tick => some (tick s)
  | .wakeup a => locked s (some { s with proc := wakeup1 (.addr a) s.proc })
  | .kill pid => locked s (some { s with proc := (kill pid s.proc).getD s.proc })
  | .schedLock c =>
      if s.sched c = .top then
        locked s (some { s.setSched c (.acct 0) with lock := some (.cpu c) })
      else none
  | .schedAcct c => holding s (.cpu c) (schedAcct s c)
  | .schedGo c => holding s (.cpu c) (schedGo flag s c)
  | .release c => onCpu s c fun i => holding s (.proc i) (release s i)
  | .timer c =>
      onCpu s c fun i =>
        if flag ≠ 'F' then locked s (yield s c i (s.kpc i)) else none
  | .setpriority c n => onCpu s c fun i => setpriority s i n
  | .yield c =>
      onCpu s c fun i =>
        if s.kpc i = .toYield then locked s (yield s c i .user) else none
  | .sleep c a =>
      onCpu s c fun i =>
        if s.kpc i = .user then locked s (sleep s c i (.addr a) .sleep) else none
  | .exit c => onCpu s c fun i => locked s (exit s c i)
  | .fork c => onCpu s c fun i => locked s (fork s i)
  | .forkAlloc c => onCpu s c fun i => holding s (.proc i) (forkAlloc s i)
  | .forkKalloc c ok => onCpu s c fun i => forkKalloc s i ok
  | .forkCopy c ok => onCpu s c fun i => forkCopy s i ok
  | .forkPublish c => onCpu s c fun i => locked s (forkPublish s i)
  | .waitCall c x => onCpu s c fun i => locked s (waitCall s i x)
  | .waitScan c => onCpu s c fun i => holding s (.proc i) (waitScan s c i)
  | .waitxRead c => onCpu s c fun i => waitxRead s i
  | .waitxDone c => onCpu s c fun i => waitxDone s i

/-! ## Reading a step back -/

theorem locked_some {α : Type} {s : Kern C} {x : Option α} {y : α} :
    locked s x = some y ↔ s.lock = none ∧ x = some y := by
  unfold locked
  split <;> simp_all

theorem holding_some {α : Type} {s : Kern C} {w : Holder C} {x : Option α} {y : α} :
    holding s w x = some y ↔ s.lock = some w ∧ x = some y := by
  unfold holding
  split <;> simp_all

theorem onCpu_some {s s' : Kern C} {c : Fin C} {f : Slot → Option (Kern C)} :
    onCpu s c f = some s' ↔
      ∃ i k, s.cpu c = some i ∧ s.sched c = .away k ∧ f i = some s' := by
  unfold onCpu
  split <;> simp_all

theorem enterSched_some {s s' : Kern C} {c : Fin C} {i : Slot} {pc : KPc}
    (h : enterSched s c i pc = some s') :
    ∃ k, s.sched c = .away k ∧
      s' = { (s.setKpc i pc).setSched c (.back k) with lock := some (.cpu c) } := by
  unfold enterSched at h
  split at h
  · next k hk => exact ⟨k, hk, (Option.some.inj h).symm⟩
  · cases h

theorem schedGo_some {flag : Char} {s s' : Kern C} {c : Fin C}
    (h : schedGo flag s c = some s') :
    (schedNext flag s c = some none ∧ s' = endPass s c) ∨
      ∃ p k, schedNext flag s c = some (some (p, k)) ∧ s' = dispatch s c p k := by
  unfold schedGo at h
  split at h
  · cases h
  · next hn => exact Or.inl ⟨hn, (Option.some.inj h).symm⟩
  · next p k hn => exact Or.inr ⟨p, k, hn, (Option.some.inj h).symm⟩

@[simp] theorem setProc_apply (s : Kern C) (i j : Slot) (f : Proc → Proc) :
    (s.setProc i f).proc j = if j = i then f (s.proc i) else s.proc j := rfl

@[simp] theorem setProc_sched (s : Kern C) (i : Slot) (f : Proc → Proc) :
    (s.setProc i f).sched = s.sched := rfl

@[simp] theorem setProc_cpu (s : Kern C) (i : Slot) (f : Proc → Proc) :
    (s.setProc i f).cpu = s.cpu := rfl

@[simp] theorem setProc_kpc (s : Kern C) (i : Slot) (f : Proc → Proc) :
    (s.setProc i f).kpc = s.kpc := rfl

@[simp] theorem setProc_lock (s : Kern C) (i : Slot) (f : Proc → Proc) :
    (s.setProc i f).lock = s.lock := rfl

@[simp] theorem setProc_ticks (s : Kern C) (i : Slot) (f : Proc → Proc) :
    (s.setProc i f).ticks = s.ticks := rfl

@[simp] theorem setProc_ran (s : Kern C) (i : Slot) (f : Proc → Proc) :
    (s.setProc i f).ran = s.ran := rfl

@[simp] theorem setKpc_proc (s : Kern C) (i : Slot) (pc : KPc) :
    (s.setKpc i pc).proc = s.proc := rfl

@[simp] theorem setKpc_apply (s : Kern C) (i j : Slot) (pc : KPc) :
    (s.setKpc i pc).kpc j = if j = i then pc else s.kpc j := by
  simp only [Kern.setKpc, Function.update_apply]

@[simp] theorem setKpc_sched (s : Kern C) (i : Slot) (pc : KPc) :
    (s.setKpc i pc).sched = s.sched := rfl

@[simp] theorem setKpc_cpu (s : Kern C) (i : Slot) (pc : KPc) :
    (s.setKpc i pc).cpu = s.cpu := rfl

@[simp] theorem setKpc_lock (s : Kern C) (i : Slot) (pc : KPc) :
    (s.setKpc i pc).lock = s.lock := rfl

@[simp] theorem setKpc_ticks (s : Kern C) (i : Slot) (pc : KPc) :
    (s.setKpc i pc).ticks = s.ticks := rfl

@[simp] theorem setKpc_ran (s : Kern C) (i : Slot) (pc : KPc) :
    (s.setKpc i pc).ran = s.ran := rfl

@[simp] theorem setSched_proc (s : Kern C) (c : Fin C) (pc : SchedPc) :
    (s.setSched c pc).proc = s.proc := rfl

@[simp] theorem setSched_apply (s : Kern C) (c d : Fin C) (pc : SchedPc) :
    (s.setSched c pc).sched d = if d = c then pc else s.sched d := by
  simp only [Kern.setSched, Function.update_apply]

@[simp] theorem setSched_cpu (s : Kern C) (c : Fin C) (pc : SchedPc) :
    (s.setSched c pc).cpu = s.cpu := rfl

@[simp] theorem setSched_kpc (s : Kern C) (c : Fin C) (pc : SchedPc) :
    (s.setSched c pc).kpc = s.kpc := rfl

@[simp] theorem setSched_lock (s : Kern C) (c : Fin C) (pc : SchedPc) :
    (s.setSched c pc).lock = s.lock := rfl

@[simp] theorem setSched_ticks (s : Kern C) (c : Fin C) (pc : SchedPc) :
    (s.setSched c pc).ticks = s.ticks := rfl

@[simp] theorem setSched_ran (s : Kern C) (c : Fin C) (pc : SchedPc) :
    (s.setSched c pc).ran = s.ran := rfl

end Xv6.Ref
