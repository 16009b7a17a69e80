import Xv6.Lib.Monitor

/-!
# Sleep locks

`acquiresleep`, `releasesleep` and `holdingsleep` of `sleeplock.c`, by any number
of processes on one lock. The fields of the lock are behind its inner spinlock
`lk->lk`; the sleepers' channel is the lock itself, so there is only one channel.
`sleep`, `wakeup` and `kill` of `proc.c` are those of `Lib/Monitor.lean`, with
`ptable.lock` as the table lock.
-/

namespace Xv6.Ref

open Xv6.Lib

/-- `struct sleeplock` without its inner spinlock and its name. -/
structure Sleeplock where
  locked : Bool
  pid : Nat
  deriving DecidableEq

def initsleeplock : Sleeplock where
  locked := false
  pid := 0

/-- What a process outside of these functions calls next: the one that takes the
lock (or gives it back, if the process has it), or `holdingsleep`. -/
inductive SleepCall where
  | lock
  | holding
  deriving DecidableEq

/-- The next operation of a process. `held` says whether the process has the lock
when it calls `holdingsleep`. -/
inductive SleepPlace where
  | outside
  /-- `acquiresleep`: `acquire`, the loop, `release`. -/
  | acquire
  | test
  | acquired
  /-- Between `acquiresleep` and `releasesleep`. -/
  | inside
  /-- `releasesleep`: `acquire`, the two assignments, `wakeup`, `release`. -/
  | release
  | clear
  | wake
  | released
  /-- `holdingsleep`: `acquire`, the comparison, `release`. -/
  | holding (held : Bool)
  | compare (held : Bool)
  | answer (held r : Bool)
  deriving DecidableEq

/-- The three functions, where `pid` gives `myproc()->pid`. -/
def sleepCode {P : Type} (pid : P → Nat) : Code P SleepCall Sleeplock Unit SleepPlace
  | p, call, lk, place =>
      match place with
      | .outside =>
          match call with
          | .lock => .go lk .acquire
          | .holding => .go lk (.holding false)
      | .acquire => .acquire .test
      | .test =>
          if lk.locked then .sleep () .test
          else .go { locked := true, pid := pid p } .acquired
      | .acquired => .release .inside
      | .inside =>
          match call with
          | .lock => .go lk .release
          | .holding => .go lk (.holding true)
      | .release => .acquire .clear
      | .clear => .go { locked := false, pid := 0 } .wake
      | .wake => .wakeup () .released
      | .released => .release .outside
      | .holding held => .acquire (.compare held)
      | .compare held => .go lk (.answer held (lk.locked && lk.pid == pid p))
      | .answer held _ => .release (if held then .inside else .outside)

abbrev SleepState (P : Type) := Mon P Sleeplock Unit SleepPlace

def SleepState.init (P : Type) : SleepState P := Mon.init P Unit initsleeplock .outside

def sleeplockStep {P : Type} [DecidableEq P] (pid : P → Nat) :
    SleepState P → MonAct P SleepCall → Option (SleepState P) :=
  Mon.step (sleepCode pid)

/-- The process has taken the lock and not given it back yet. -/
def SleepPlace.has : SleepPlace → Bool
  | .acquired | .inside | .release | .clear => true
  | .holding held | .compare held | .answer held _ => held
  | _ => false

end Xv6.Ref
