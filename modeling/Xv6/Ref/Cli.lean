import Xv6.Lib.Trans

/-!
# Interrupts off and on (`pushcli`, `popcli` and `sched`)

Kernel threads on CPUs, as far as the interrupt flag goes. A thread is the scheduler of a
CPU or the kernel thread of a process; what it runs is any sequence of calls, so `acquire`
and `release`, which are `pushcli` and `popcli` around other code, are sequences of these
steps too.

`pushcli` is two steps, because an interrupt can come between `readeflags` and `cli`, and
its handler can give up the CPU. Everything behind `cli` touches only the CPU's own
record with interrupts off, so nothing can come between. A trap goes through an interrupt
gate, which clears the flag, or for a system call through a trap gate, which does not; the
return from it restores the flag the code it came from had.

`left` and `own` are history: no code reads them.
-/

namespace Xv6.Ref.Cli

/-- A kernel thread. -/
inductive Thread (C : Nat) (P : Type) where
  | sched (c : Fin C)
  | proc (p : P)
  deriving DecidableEq

/-- `struct cpu`, with the `FL_IF` of its `eflags` and the thread it runs. -/
structure Cpu (C : Nat) (P : Type) where
  ncli : Int
  intena : Bool
  flagIF : Bool
  thread : Thread C P

/-- Where a thread is. -/
inductive Place where
  /-- There is no such process yet. -/
  | unborn
  /-- Created by `allocproc`: the first dispatch enters `forkret`. -/
  | fresh
  | running
  /-- Behind `swtch`. In `sched` of a process that is with its `intena` in a local. -/
  | switched (intena : Bool)
  deriving DecidableEq

structure Kthread where
  place : Place
  /-- The `eflags & FL_IF` of a `pushcli` that has not got to `cli`. -/
  eflags : Option Bool
  /-- The code that traps interrupted, the last one first: its `eflags` as above, and the
  flag to return with. -/
  traps : List (Option Bool × Bool)
  /-- Calls of `pushcli` less calls of `popcli`, for a new process with the one of the
  `acquire` it is dispatched under. -/
  depth : Nat
  /-- The flag when `depth` left 0. -/
  left : Bool
  /-- Whether it was a `pushcli` of this thread that took `depth` from 0. -/
  own : Bool

inductive Panic where
  | popcliInterruptible
  | popcli
  | schedLocks
  | schedInterruptible
  deriving DecidableEq

structure Machine (C : Nat) (P : Type) where
  cpu : Fin C → Cpu C P
  thread : Thread C P → Kthread
  panicked : Option Panic

variable {C : Nat} {P : Type}

/-- Each CPU in front of its scheduler's loop, interrupts off; no processes. -/
def Machine.boot (C : Nat) (P : Type) : Machine C P where
  cpu := fun c => { ncli := 0, intena := false, flagIF := false, thread := .sched c }
  thread := fun
    | .sched _ =>
        { place := .running, eflags := none, traps := [], depth := 0, left := false, own := false }
    | .proc _ =>
        { place := .unborn, eflags := none, traps := [], depth := 0, left := false, own := false }
  panicked := none

/-! ## The functions -/

/-- `pushcli` from `cli()` on. -/
def pushcli (eflags : Bool) (c : Cpu C P) : Cpu C P :=
  let c := { c with flagIF := false }
  let c := if c.ncli = 0 then { c with intena := eflags } else c
  { c with ncli := c.ncli + 1 }

def popcli (c : Cpu C P) : Except Panic (Cpu C P) :=
  if c.flagIF = true then .error .popcliInterruptible
  else
    let c := { c with ncli := c.ncli - 1 }
    if c.ncli < 0 then .error .popcli
    else if c.ncli = 0 ∧ c.intena = true then .ok { c with flagIF := true }
    else .ok c

/-- The tests of `sched`, and the `intena` it keeps. -/
def sched (c : Cpu C P) : Except Panic Bool :=
  if c.ncli ≠ 1 then .error .schedLocks
  else if c.flagIF = true then .error .schedInterruptible
  else .ok c.intena

/-! ## Steps -/

inductive Act (C : Nat) (P : Type) where
  /-- The thread on CPU `c` calls `pushcli` and reads its flags, -/
  | readeflags (c : Fin C)
  /-- clears the flag and counts, -/
  | cli (c : Fin C)
  | popcli (c : Fin C)
  /-- traps, through a trap gate or an interrupt gate, -/
  | trap (c : Fin C) (istrap : Bool)
  /-- returns from a trap, -/
  | iret (c : Fin C)
  /-- calls `sched`. -/
  | sched (c : Fin C)
  /-- The scheduler of CPU `c` executes `sti` at the head of its loop, -/
  | sti (c : Fin C)
  /-- or switches to a process. -/
  | swtch (c : Fin C) (p : P)
  /-- `allocproc` and the rest of `fork`. -/
  | fork (p : P)

def Machine.setCpu (s : Machine C P) (c : Fin C) (x : Cpu C P) : Machine C P :=
  { s with cpu := Function.update s.cpu c x }

@[simp] theorem setCpu_cpu (s : Machine C P) (c d : Fin C) (x : Cpu C P) :
    (s.setCpu c x).cpu d = if d = c then x else s.cpu d := Function.update_apply ..

@[simp] theorem setCpu_thread (s : Machine C P) (c : Fin C) (x : Cpu C P) :
    (s.setCpu c x).thread = s.thread := rfl

@[simp] theorem setCpu_panicked (s : Machine C P) (c : Fin C) (x : Cpu C P) :
    (s.setCpu c x).panicked = s.panicked := rfl

variable [DecidableEq P]

def Machine.setThread (s : Machine C P) (t : Thread C P) (k : Kthread) : Machine C P :=
  { s with thread := Function.update s.thread t k }

/-- The thread that CPU `c` runs. -/
def Machine.current (s : Machine C P) (c : Fin C) : Kthread := s.thread (s.cpu c).thread

def Machine.setCurrent (s : Machine C P) (c : Fin C) (k : Kthread) : Machine C P :=
  s.setThread (s.cpu c).thread k

@[simp] theorem setThread_thread (s : Machine C P) (t u : Thread C P) (k : Kthread) :
    (s.setThread t k).thread u = if u = t then k else s.thread u := Function.update_apply ..

@[simp] theorem setThread_cpu (s : Machine C P) (t : Thread C P) (k : Kthread) :
    (s.setThread t k).cpu = s.cpu := rfl

@[simp] theorem setThread_panicked (s : Machine C P) (t : Thread C P) (k : Kthread) :
    (s.setThread t k).panicked = s.panicked := rfl

def stepReadeflags (s : Machine C P) (c : Fin C) : Option (Machine C P) :=
  if (s.current c).eflags = none then
    some (s.setCurrent c { s.current c with eflags := some (s.cpu c).flagIF })
  else none

def stepCli (s : Machine C P) (c : Fin C) : Option (Machine C P) :=
  let k := s.current c
  match k.eflags with
  | none => none
  | some e =>
      let k := if k.depth = 0 then { k with left := (s.cpu c).flagIF, own := true } else k
      some ((s.setCurrent c { k with eflags := none, depth := k.depth + 1 }).setCpu c
        (pushcli e (s.cpu c)))

def stepPopcli (s : Machine C P) (c : Fin C) : Option (Machine C P) :=
  let k := s.current c
  if k.eflags ≠ none then none
  else
    match popcli (s.cpu c) with
    | .error e => some { s with panicked := some e }
    | .ok x => some ((s.setCurrent c { k with depth := k.depth - 1 }).setCpu c x)

/-- The hardware takes a trap only with the flag set; a system call comes from user code,
where it is. -/
def stepTrap (s : Machine C P) (c : Fin C) (istrap : Bool) : Option (Machine C P) :=
  let k := s.current c
  if (s.cpu c).flagIF = true then
    some ((s.setCurrent c { k with eflags := none, traps := (k.eflags, true) :: k.traps }).setCpu
      c { s.cpu c with flagIF := istrap })
  else none

def stepIret (s : Machine C P) (c : Fin C) : Option (Machine C P) :=
  let k := s.current c
  match k.traps with
  | [] => none
  | (e, f) :: rest =>
      if k.eflags = none then
        some ((s.setCurrent c { k with eflags := e, traps := rest }).setCpu c
          { s.cpu c with flagIF := f })
      else none

/-- `sched` of a process: on to the scheduler of the CPU. -/
def stepSched (s : Machine C P) (c : Fin C) : Option (Machine C P) :=
  match (s.cpu c).thread with
  | .sched _ => none
  | .proc _ =>
      if (s.current c).eflags ≠ none then none
      else
        match sched (s.cpu c) with
        | .error e => some { s with panicked := some e }
        | .ok intena =>
            some (((s.setCurrent c { s.current c with place := .switched intena }).setThread
              (.sched c) { s.thread (.sched c) with place := .running }).setCpu c
                { s.cpu c with thread := .sched c })

/-- Is the scheduler of CPU `c` running, and does it hold the locks of `n` `acquire`s? -/
def Machine.scheduling (s : Machine C P) (c : Fin C) (n : Nat) : Prop :=
  (s.cpu c).thread = .sched c ∧ (s.current c).eflags = none ∧ (s.current c).traps = [] ∧
    (s.current c).depth = n

instance (s : Machine C P) (c : Fin C) (n : Nat) : Decidable (s.scheduling c n) :=
  inferInstanceAs (Decidable (_ ∧ _))

def stepSti (s : Machine C P) (c : Fin C) : Option (Machine C P) :=
  if s.scheduling c 0 then some (s.setCpu c { s.cpu c with flagIF := true }) else none

/-- `swtch` in `scheduler`, which holds `ptable.lock` and no other. A process that comes
back to `sched` puts its `intena` on the CPU it is on now; a new one finds there what the
scheduler left. -/
def stepSwtch (s : Machine C P) (c : Fin C) (p : P) : Option (Machine C P) :=
  if s.scheduling c 1 then
    let away := s.setThread (.sched c)
      { s.thread (.sched c) with place := .switched (s.cpu c).intena }
    let k := s.thread (.proc p)
    match k.place with
    | .fresh =>
        some ((away.setThread (.proc p) { k with place := .running }).setCpu c
          { s.cpu c with thread := .proc p })
    | .switched intena =>
        some ((away.setThread (.proc p) { k with place := .running }).setCpu c
          { s.cpu c with thread := .proc p, intena := intena })
    | _ => none
  else none

/-- The new process is to return to user code, where the flag is set. -/
def stepFork (s : Machine C P) (p : P) : Option (Machine C P) :=
  if (s.thread (.proc p)).place = .unborn then
    some (s.setThread (.proc p)
      { place := .fresh, eflags := none, traps := [(none, true)], depth := 1, left := false,
        own := false })
  else none

/-- A panic stops the machine. -/
def step (s : Machine C P) (a : Act C P) : Option (Machine C P) :=
  if s.panicked ≠ none then none
  else
    match a with
    | .readeflags c => stepReadeflags s c
    | .cli c => stepCli s c
    | .popcli c => stepPopcli s c
    | .trap c istrap => stepTrap s c istrap
    | .iret c => stepIret s c
    | .sched c => stepSched s c
    | .sti c => stepSti s c
    | .swtch c p => stepSwtch s c p
    | .fork p => stepFork s p

end Xv6.Ref.Cli
