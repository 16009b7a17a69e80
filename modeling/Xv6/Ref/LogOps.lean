import Xv6.Ref.Log
import Xv6.Lib.Trans

/-!
# File system operations and the log (`begin_op`, `log_write`, `end_op`)

Any number of processes run operations between `begin_op` and `end_op`, and
the last one out commits for all of them. A step is one critical section of
`log.lock`, or one piece of code between two of them: `log_write` reads
`log.lh.n` for its panic test *before* it takes the lock, so the test and the
update are two steps and other processes can get in between.

Two fields record history for the statements and are read by no modelled
code: the blocks each operation has had logged, and the blocks `log_write` was
called on since the last commit.
-/

namespace Xv6.Ref

open Xv6.Lib

/-- Where a process is in the log code. -/
inductive OpPc where
  /-- Not inside an operation. -/
  | user
  /-- In `begin_op`, about to test whether it may start. -/
  | begin
  /-- In `begin_op`, SLEEPING on `&log`. -/
  | asleep
  /-- Between `begin_op` and `end_op`; `log_write` has returned for the blocks
  in `done`. -/
  | inOp (done : List Nat)
  /-- In `log_write(b)`, past its tests and not yet holding the lock. -/
  | inWrite (done : List Nat) (b : Nat)
  /-- In `write_log`, at entry `tail`. -/
  | writeLog (tail : Nat)
  /-- `write_head` and `install_trans`. -/
  | install
  /-- The `write_head` that clears the log. -/
  | clear
  /-- Back in `end_op`, `commit` done. -/
  | finish
  deriving DecidableEq

inductive LogPanic where
  | tooBig
  | outsideTrans
  | committing
  deriving DecidableEq

/-- `struct log` without the geometry, and the processes. -/
structure LogOps (N : Nat) where
  /-- `log.lh.block[0 .. log.lh.n)`. -/
  block : List Nat
  outstanding : Int
  committing : Bool
  pc : Fin N → OpPc
  panic : Option LogPanic
  /-- The blocks `log_write` was called on since the last commit. -/
  passed : List Nat
  deriving DecidableEq

inductive OpAct (N : Nat) where
  /-- Call `begin_op`. -/
  | enter (p : Fin N)
  /-- One round of `begin_op`'s loop. -/
  | tryBegin (p : Fin N)
  /-- `kill` wakes a sleeper. -/
  | kick (p : Fin N)
  /-- Call `log_write(b)` and run its tests. -/
  | logWrite (p : Fin N) (b : Nat)
  /-- The critical section of `log_write`. -/
  | logAppend (p : Fin N)
  /-- The first critical section of `end_op`. -/
  | endOp (p : Fin N)
  /-- The next piece of `commit`. -/
  | commit (p : Fin N)
  /-- The second critical section of `end_op`. -/
  | finish (p : Fin N)
  deriving DecidableEq

variable {N : Nat}

def LogOps.init : LogOps N where
  block := []
  outstanding := 0
  committing := false
  pc := fun _ => .user
  panic := none
  passed := []

/-- `wakeup(&log)`. -/
def wakeLog (pc : Fin N → OpPc) : Fin N → OpPc :=
  fun p => if pc p = .asleep then .begin else pc p

def LogOps.setPc (s : LogOps N) (p : Fin N) (v : OpPc) : LogOps N :=
  { s with pc := Function.update s.pc p v }

/-- One round of the loop of `begin_op`. -/
def beginOp (s : LogOps N) (p : Fin N) : LogOps N :=
  if s.committing = true then s.setPc p .asleep
  else if (s.block.length : Int) + (s.outstanding + 1) * MAXOPBLOCKS > LOGSIZE then
    -- this op might exhaust log space; wait for commit.
    s.setPc p .asleep
  else { s.setPc p (.inOp []) with outstanding := s.outstanding + 1 }

/-- The tests at the head of `log_write`. -/
def logWriteTest (lg : LogDev) (s : LogOps N) (p : Fin N) (done : List Nat)
    (b : Nat) : LogOps N :=
  if tooBig lg s.block then { s with panic := some .tooBig }
  else if s.outstanding < 1 then { s with panic := some .outsideTrans }
  else { s.setPc p (.inWrite done b) with passed := absorb s.passed b }

/-- The critical section of `log_write`. -/
def logWriteLocked (s : LogOps N) (p : Fin N) (done : List Nat) (b : Nat) :
    LogOps N :=
  { s.setPc p (.inOp (absorb done b)) with block := absorb s.block b }

/-- The first critical section of `end_op`. -/
def endOp (s : LogOps N) (p : Fin N) : LogOps N :=
  let s := { s with outstanding := s.outstanding - 1 }
  if s.committing = true then { s with panic := some .committing }
  else if s.outstanding = 0 then
    -- `commit` has nothing to do when nothing was logged.
    let next := if s.block.length > 0 then OpPc.writeLog 0 else .finish
    { s.setPc p next with committing := true }
  else
    -- begin_op() may be waiting for log space.
    { s with pc := wakeLog (Function.update s.pc p .user) }

/-- `commit`, one log block or one phase at a time. -/
def commitStep (s : LogOps N) (p : Fin N) : Option (LogOps N) :=
  match s.pc p with
  | .writeLog tail =>
      if tail < s.block.length then some (s.setPc p (.writeLog (tail + 1)))
      else some (s.setPc p .install)
  | .install => some { s.setPc p .clear with block := [], passed := [] }
  | .clear => some (s.setPc p .finish)
  | _ => none

/-- The second critical section of `end_op`. -/
def finishOp (s : LogOps N) (p : Fin N) : LogOps N :=
  { s with committing := false, pc := wakeLog (Function.update s.pc p .user) }

/-- A machine that panicked takes no further step. -/
def logStep (lg : LogDev) (s : LogOps N) (a : OpAct N) : Option (LogOps N) :=
  if s.panic.isSome then none
  else
    match a with
    | .enter p => if s.pc p = .user then some (s.setPc p .begin) else none
    | .tryBegin p => if s.pc p = .begin then some (beginOp s p) else none
    | .kick p => if s.pc p = .asleep then some (s.setPc p .begin) else none
    | .logWrite p b =>
        match s.pc p with
        | .inOp done => some (logWriteTest lg s p done b)
        | _ => none
    | .logAppend p =>
        match s.pc p with
        | .inWrite done b => some (logWriteLocked s p done b)
        | _ => none
    | .endOp p =>
        match s.pc p with
        | .inOp _ => some (endOp s p)
        | _ => none
    | .commit p => commitStep s p
    | .finish p => if s.pc p = .finish then some (finishOp s p) else none

/-- The log `mkfs` creates: `sb.nlog = LOGSIZE`. -/
def mkfsLog (start : Nat) : LogDev := ⟨start, LOGSIZE⟩

/-- The distinct blocks the current operation has had logged. -/
def OpPc.done : OpPc → List Nat
  | .inOp done => done
  | .inWrite done _ => done
  | _ => []

/-- Every operation calls `log_write` on at most `MAXOPBLOCKS` distinct
blocks. -/
def opLimit (s : LogOps N) : OpAct N → Prop
  | .logWrite p b => (absorb (s.pc p).done b).length ≤ MAXOPBLOCKS
  | _ => True

instance (s : LogOps N) : (a : OpAct N) → Decidable (opLimit s a)
  | .logWrite p b =>
      inferInstanceAs (Decidable ((absorb (s.pc p).done b).length ≤ MAXOPBLOCKS))
  | .enter _ | .tryBegin _ | .kick _ | .logAppend _ | .endOp _ | .commit _
  | .finish _ => inferInstanceAs (Decidable True)

end Xv6.Ref
