import Xv6.Lib.Monitor
import Xv6.Ref.Log

/-!
# `begin_op`, `end_op` and `commit` with their locks

The code of `Ref/LogOps.lean` once more, with `log.lock`, `ptable.lock` and the
insides of `sleep` and `wakeup` (`Lib/Monitor.lean`). Everybody sleeps on `&log`, so
there is one channel. `commit` runs without the lock, one log block or one phase
at a time; the contents of the blocks are in `Ref/Log.lean`. A process that panics
stops where it is, and the others run on.
-/

namespace Xv6.Ref

open Xv6.Lib

/-- The fields of `struct log` that these functions share. -/
structure LogLock where
  /-- `log.lh.block[0 .. log.lh.n)`. -/
  block : List Nat
  outstanding : Int
  committing : Bool
  deriving DecidableEq

def LogLock.init : LogLock where
  block := []
  outstanding := 0
  committing := false

/-- What an operation does next: `log_write` or `end_op`. -/
inductive OpCall where
  | logWrite (b : Nat)
  | endOp
  deriving DecidableEq

inductive LogPlace where
  /-- Not inside an operation. -/
  | user
  /-- `begin_op`: `acquire`, the loop, `release`. -/
  | beginAcquire
  | beginTest
  | beginRelease
  /-- Between `begin_op` and `end_op`. -/
  | op
  /-- `log_write`, past its tests: `acquire`, the search and the update, `release`. -/
  | writeAcquire (b : Nat)
  | writeAppend (b : Nat)
  | writeRelease
  /-- `end_op`: `acquire`, the decrement with the tests, `wakeup`, `release`. -/
  | endAcquire
  | endTest
  | endWakeup
  | endRelease (doCommit : Bool)
  | commit
  | writeLog (tail : Nat)
  | writeHead
  | installTrans (tail : Nat)
  | clear
  | eraseHead
  /-- Back in `end_op`: `acquire`, `committing = 0`, `wakeup`, `release`. -/
  | finishAcquire
  | finishClear
  | finishWakeup
  | finishRelease
  | panicTooBig
  | panicOutside
  | panicCommitting
  deriving DecidableEq

variable {P : Type}

/-- One round of the loop of `begin_op`. -/
def beginTest (d : LogLock) : Instr LogLock Unit LogPlace :=
  if d.committing = true then .sleep () .beginTest
  else if (d.block.length : Int) + (d.outstanding + 1) * MAXOPBLOCKS > LOGSIZE then
    -- this op might exhaust log space; wait for commit.
    .sleep () .beginTest
  else .go { d with outstanding := d.outstanding + 1 } .beginRelease

/-- `end_op` behind its first `acquire`. -/
def endTest (d : LogLock) : Instr LogLock Unit LogPlace :=
  let d := { d with outstanding := d.outstanding - 1 }
  if d.committing = true then .go d .panicCommitting
  else if d.outstanding = 0 then .go { d with committing := true } (.endRelease true)
  else
    -- begin_op() may be waiting for log space.
    .go d .endWakeup

def logCode (lg : LogDev) : Code P OpCall LogLock Unit LogPlace
  | _, call, d, place =>
      match place with
      | .user => .go d .beginAcquire
      | .beginAcquire => .acquire .beginTest
      | .beginTest => beginTest d
      | .beginRelease => .release .op
      | .op =>
          match call with
          | .logWrite b =>
              if tooBig lg d.block then .go d .panicTooBig
              else if d.outstanding < 1 then .go d .panicOutside
              else .go d (.writeAcquire b)
          | .endOp => .go d .endAcquire
      | .writeAcquire b => .acquire (.writeAppend b)
      | .writeAppend b => .go { d with block := absorb d.block b } .writeRelease
      | .writeRelease => .release .op
      | .endAcquire => .acquire .endTest
      | .endTest => endTest d
      | .endWakeup => .wakeup () (.endRelease false)
      | .endRelease doCommit => .release (if doCommit then .commit else .user)
      | .commit => .go d (if d.block.length > 0 then .writeLog 0 else .finishAcquire)
      | .writeLog tail =>
          .go d (if tail < d.block.length then .writeLog (tail + 1) else .writeHead)
      | .writeHead => .go d (.installTrans 0)
      | .installTrans tail =>
          .go d (if tail < d.block.length then .installTrans (tail + 1) else .clear)
      | .clear => .go { d with block := [] } .eraseHead
      | .eraseHead => .go d .finishAcquire
      | .finishAcquire => .acquire .finishClear
      | .finishClear => .go { d with committing := false } .finishWakeup
      | .finishWakeup => .wakeup () .finishRelease
      | .finishRelease => .release .user
      | .panicTooBig | .panicOutside | .panicCommitting => .halt

abbrev LogState (P : Type) := Mon P LogLock Unit LogPlace

def LogState.init (P : Type) : LogState P := Mon.init P Unit LogLock.init .user

def logLockStep [DecidableEq P] (lg : LogDev) :
    LogState P → MonAct P OpCall → Option (LogState P) :=
  Mon.step (logCode lg)

/-- What a process counts as. -/
inductive LogRole where
  | out
  /-- Admitted by `begin_op`, and not yet taken off `outstanding` by `end_op`. -/
  | op
  /-- From the moment `end_op` decides to commit, -/
  | commit
  /-- with the log empty again, until it clears `committing`. -/
  | cleared
  | panicked
  deriving DecidableEq

def LogPlace.role : LogPlace → LogRole
  | .user | .beginAcquire | .beginTest | .endWakeup | .endRelease false | .finishWakeup
  | .finishRelease => .out
  | .beginRelease | .op | .writeAcquire _ | .writeAppend _ | .writeRelease | .endAcquire
  | .endTest | .panicTooBig | .panicOutside => .op
  | .endRelease true | .commit | .writeLog _ | .writeHead | .installTrans _ | .clear => .commit
  | .eraseHead | .finishAcquire | .finishClear => .cleared
  | .panicCommitting => .panicked

def logRole (s : LogState P) (p : P) : LogRole := (s.pc p).place.role

end Xv6.Ref
