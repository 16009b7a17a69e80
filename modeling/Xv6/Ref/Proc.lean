import Xv6.Ref.Param

/-!
# The process table (`proc.c`)

The fields of `struct proc` that scheduling, `fork`, `exit`, `wait` and
`waitx` read and write, and what the critical sections of `ptable.lock` do to
the table. Which process runs where, and who may enter which section when, is
`Kernel.lean`'s business; the functions here are the sections' bodies.

Pointers to table entries are slot numbers and a null pointer is `none`. The
channels processes sleep on are addresses; the only ones the table code itself
uses are the processes' own.
-/

namespace Xv6.Ref

abbrev Slot := Fin NPROC

/-- `enum procstate`. -/
inductive Procstate where
  | UNUSED
  | EMBRYO
  | SLEEPING
  | RUNNABLE
  | RUNNING
  | ZOMBIE
  deriving DecidableEq, Repr

/-- What a process sleeps on. -/
inductive Chan where
  /-- A `struct proc`: its owner waits for a child. -/
  | proc (p : Slot)
  /-- Any other address. -/
  | addr (a : Nat)
  deriving DecidableEq

abbrev Ticks := BitVec 32

structure Proc where
  state : Procstate
  /-- An `int`; `nextpid++` past its range is undefined. -/
  pid : Int
  parent : Option Slot
  chan : Option Chan
  killed : Bool
  ctime : Ticks
  etime : Ticks
  rtime : Ticks
  lastCheck : Ticks
  priority : Int
  deriving DecidableEq

/-- An entry of the zero-initialised table. -/
def Proc.zero : Proc where
  state := .UNUSED
  pid := 0
  parent := none
  chan := none
  killed := false
  ctime := 0
  etime := 0
  rtime := 0
  lastCheck := 0
  priority := 0

abbrev Table := Slot → Proc

/-- The slots in the order the loops over `ptable.proc` visit them. -/
abbrev slots : List Slot := List.finRange NPROC

/-- `initproc`: `userinit` runs `allocproc` on the empty table. -/
abbrev initproc : Slot := 0

def Table.modify (t : Table) (i : Slot) (f : Proc → Proc) : Table :=
  fun j => if j = i then f (t i) else t j

@[simp] theorem Table.modify_same (t : Table) (i : Slot) (f : Proc → Proc) :
    t.modify i f i = f (t i) := if_pos rfl

theorem Table.modify_other (t : Table) {i j : Slot} (h : j ≠ i) (f : Proc → Proc) :
    t.modify i f j = t j := if_neg h

/-! ## `allocproc`, `wakeup1`, `exit` -/

/-- The search of `allocproc`: the first `UNUSED` slot. -/
def findUnused (t : Table) : Option Slot :=
  slots.find? fun i => (t i).state = .UNUSED

/-- `found:` up to the assignment of `ctime`. -/
def allocproc (nextpid : Int) (ticks : Ticks) (p : Proc) : Proc :=
  { p with state := .EMBRYO, pid := nextpid, ctime := ticks, rtime := 0 }

/-- The rest of the critical section of `allocproc`. It reads `ticks` a second
time. -/
def allocproc' (ticks : Ticks) (p : Proc) : Proc :=
  { p with lastCheck := ticks, priority := 60 }

def wakeup1 (chan : Chan) (t : Table) : Table :=
  fun i =>
    if (t i).state = .SLEEPING ∧ (t i).chan = some chan then
      { t i with state := .RUNNABLE }
    else t i

/-- The loop of `exit` that passes abandoned children to `init`. -/
def reparent (cur : Slot) : List Slot → Table → Table
  | [], t => t
  | i :: is, t =>
      if (t i).parent = some cur then
        let t' := t.modify i fun p => { p with parent := some initproc }
        if (t' i).state = .ZOMBIE then reparent cur is (wakeup1 (.proc initproc) t')
        else reparent cur is t'
      else reparent cur is t

/-- The critical section of `exit`, up to `sched`. A null `parent` is no
sleeper's channel. -/
def exitSection (cur : Slot) (ticks : Ticks) (t : Table) : Table :=
  let t :=
    match (t cur).parent with
    | some q => wakeup1 (.proc q) t
    | none => t
  let t := reparent cur slots t
  t.modify cur fun p => { p with state := .ZOMBIE, etime := ticks }

/-! ## `wait` and `waitx` -/

/-- How one pass over the table in `wait` ends. -/
inductive WaitScan where
  /-- Slot `i` was a zombie child; its pid is the return value. -/
  | reaped (i : Slot) (pid : Int)
  /-- No children, or killed: return -1. -/
  | fail
  /-- Sleep on the process's own address and scan again. -/
  | sleep
  deriving DecidableEq

/-- The assignments of `wait` to a zombie child. -/
def reap (ticks : Ticks) (p : Proc) : Proc :=
  { p with
    pid := 0, parent := none, killed := false, state := .UNUSED, etime := ticks }

/-- The loop of `wait` over the table, `havekids` so far in `kids`. -/
def waitLoop (cur : Slot) (ticks : Ticks) (t : Table) :
    List Slot → Bool → WaitScan × Table
  | [], kids =>
      if kids = false ∨ (t cur).killed = true then (.fail, t)
      else (.sleep, t)
  | i :: is, kids =>
      if (t i).parent ≠ some cur then waitLoop cur ticks t is kids
      else if (t i).state = .ZOMBIE then
        (.reaped i (t i).pid, t.modify i (reap ticks))
      else waitLoop cur ticks t is true

/-- The pass of `wait`. -/
def wait (cur : Slot) (ticks : Ticks) (t : Table) : WaitScan × Table :=
  waitLoop cur ticks t slots false

/-- The assignments of `waitx` to a zombie child. -/
def reapx (ticks : Ticks) (p : Proc) : Proc :=
  { p with
    pid := 0, parent := none, killed := false, state := .UNUSED, etime := ticks }

/-- The loop of `waitx` over the table. -/
def waitxLoop (cur : Slot) (ticks : Ticks) (t : Table) :
    List Slot → Bool → WaitScan × Table
  | [], kids =>
      if kids = false ∨ (t cur).killed = true then (.fail, t)
      else (.sleep, t)
  | i :: is, kids =>
      if (t i).parent ≠ some cur then waitxLoop cur ticks t is kids
      else if (t i).state = .ZOMBIE then
        (.reaped i (t i).pid, t.modify i (reapx ticks))
      else waitxLoop cur ticks t is true

/-- The pass of `waitx`, up to the release of the lock. -/
def waitx (cur : Slot) (ticks : Ticks) (t : Table) : WaitScan × Table :=
  waitxLoop cur ticks t slots false

/-! ## `kill` -/

/-- `kill`: the first slot with that pid, whatever its state. -/
def kill (pid : Int) (t : Table) : Option Table :=
  match slots.find? fun i => (t i).pid = pid with
  | none => none
  | some i =>
      some (t.modify i fun p =>
        { p with
          killed := true
          state := if p.state = .SLEEPING then .RUNNABLE else p.state })

/-! ## `scheduler`

The policy switch has no `break`: case 1 runs on into case 2, and both into
case 4. A pass is therefore one piece of code with several places where it
switches to a process, and `Resume` names the place to continue from when that
process comes back. -/

inductive Resume where
  /-- Behind the dispatch of case 1. -/
  | fcfs
  /-- In the second loop of case 2, behind slot `i`. -/
  | prio (i : Slot) (chosen : Int)
  /-- In the loop of case 4, behind slot `i`. -/
  | rr (i : Slot)
  deriving DecidableEq

/-- `scheduler_strat` from the first character of `SCHEDFLAG`. -/
def schedStrat (flag : Char) : Int :=
  if flag = 'F' then 1
  else if flag = 'P' then 2
  else if flag = 'M' then 3
  else if flag = 'R' then 4
  else -1

/-- The selection loop of case 1: the best so far and `min_ctime`. The
comparison is unsigned. -/
def fcfsLoop (t : Table) : List Slot → Option Slot → Ticks → Option Slot
  | [], toRun, _ => toRun
  | i :: is, toRun, minCtime =>
      if (t i).state ≠ .RUNNABLE then fcfsLoop t is toRun minCtime
      else if (t i).ctime < minCtime then fcfsLoop t is (some i) (t i).ctime
      else fcfsLoop t is toRun minCtime

def fcfsPick (t : Table) (ticks : Ticks) : Option Slot :=
  fcfsLoop t slots none (ticks + 1000)

/-- The first loop of case 2. -/
def priorityChosen (t : Table) : List Slot → Int → Int
  | [], chosen => chosen
  | i :: is, chosen =>
      if (t i).state ≠ .RUNNABLE then priorityChosen t is chosen
      else if (t i).priority < chosen then priorityChosen t is (t i).priority
      else priorityChosen t is chosen

/-- The slots a loop over the table still visits behind slot `i`. -/
def slotsAfter (i : Slot) : List Slot := slots.filter fun j => i < j

/-- The loop of case 4 over the slots `is`. -/
def case4 (t : Table) : List Slot → Option (Slot × Resume)
  | [] => none
  | i :: is => if (t i).state ≠ .RUNNABLE then case4 t is else some (i, .rr i)

/-- The second loop of case 2 over the slots `is`, and what follows it. -/
def case2Loop (t : Table) (chosen : Int) : List Slot → Option (Slot × Resume)
  | [] => case4 t slots
  | i :: is =>
      if chosen = 101 then case4 t slots
      else if (t i).state ≠ .RUNNABLE then case2Loop t chosen is
      else if (t i).priority = chosen then some (i, .prio i chosen)
      else case2Loop t chosen is

def case2 (t : Table) : Option (Slot × Resume) :=
  case2Loop t (priorityChosen t slots 101) slots

def case1 (t : Table) (ticks : Ticks) : Option (Slot × Resume) :=
  match fcfsPick t ticks with
  | some i => some (i, .fcfs)
  | none => case2 t

/-- From the switch to the first dispatch of the pass, or to its end. -/
def schedSwitch (flag : Char) (t : Table) (ticks : Ticks) :
    Option (Slot × Resume) :=
  match schedStrat flag with
  | 1 => case1 t ticks
  | 2 => case2 t
  | 3 => case4 t slots
  | 4 => case4 t slots
  | _ => none

/-- From the return of a context switch to the next dispatch, or to the end
of the pass. -/
def schedResume (t : Table) : Resume → Option (Slot × Resume)
  | .fcfs => case2 t
  | .prio i chosen => case2Loop t chosen (slotsAfter i)
  | .rr i => case4 t (slotsAfter i)

end Xv6.Ref
