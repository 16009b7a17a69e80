import Xv6.Lib.Ring
import Xv6.Lib.Trans

/-!
# Console input (`console.c`)

The interrupt handler `consoleintr` and any number of processes in `consoleread`.
`input` is read and changed under `cons.lock`, so a step is what one of them does
from taking the lock until it gives it up: a whole interrupt, or a reader's way to
its next `sleep` or its return. `sleep` holds `ptable.lock`, which `wakeup` needs,
from before the release until the process is SLEEPING. Only `kill`, which does not
take `cons.lock`, can come between the look at `killed` and the sleep and find
nobody to wake.

`echoed`, `taken` and `eofs` are history: what `consputc` has put on the screen for
a key and not erased, what readers have moved `input.r` past, and how many calls
with a positive length have returned no byte.
-/

namespace Xv6.Ref.Cons

open Xv6.Lib

abbrev INPUT_BUF : Nat := 128

theorem INPUT_BUF_pos : 0 < INPUT_BUF := by decide

/-- `C(x)`, Control-x. -/
def C (x : Char) : UInt8 := UInt8.ofNat (x.toNat - '@'.toNat)

def newline : UInt8 := 10

/-- Where a process is. `n` bytes are still wanted of `target`, and `got` are those
already at `dst`. -/
inductive Reader where
  /-- Before a call, or after one that returned -1. -/
  | idle
  | reading (target n : Nat) (got : List UInt8)
  /-- SLEEPING on `&input.r`. -/
  | sleeping (target n : Nat) (got : List UInt8)
  | returned (target : Nat) (got : List UInt8)

def Reader.wakeup : Reader → Reader
  | .sleeping target n got => .reading target n got
  | x => x

structure Console (P : Type) where
  buf : Fin INPUT_BUF → UInt8
  r : BitVec 32
  w : BitVec 32
  e : BitVec 32
  reader : P → Reader
  killed : P → Bool
  echoed : List UInt8
  taken : List UInt8
  eofs : Nat

variable {P : Type}

/-- `input.buf[i % INPUT_BUF]`. -/
def Console.byte (s : Console P) (i : BitVec 32) : UInt8 := s.buf (Ring.cell INPUT_BUF_pos i)

/-- `input.e--; consputc(BACKSPACE)`. -/
def Console.erase (s : Console P) : Console P :=
  { s with e := s.e - 1, echoed := s.echoed.dropLast }

/-- The loop of `C('U')`, from `n` bytes between `w` and `e`: with none left the
loop's own condition ends it. -/
def Console.killLine : Nat → Console P → Console P
  | 0, s => s
  | n + 1, s =>
      if s.e ≠ s.w ∧ s.byte (s.e - 1) ≠ newline then killLine n s.erase else s

/-- `input.buf[input.e++ % INPUT_BUF] = c; consputc(c)`. -/
def Console.store (s : Console P) (c : UInt8) : Console P :=
  { s with
    buf := Ring.put s.buf (Ring.cell INPUT_BUF_pos s.e) c
    e := s.e + 1
    echoed := s.echoed ++ [c] }

/-- `input.w = input.e; wakeup(&input.r)`. -/
def Console.commit (s : Console P) : Console P :=
  { s with w := s.e, reader := fun p => (s.reader p).wakeup }

/-- The `switch` of `consoleintr`. -/
def Console.key (s : Console P) (c : UInt8) : Console P :=
  -- only sets `doprocdump`
  if c = C 'P' then s
  else if c = C 'U' then s.killLine (Ring.count s.w s.e)
  else if c = C 'H' ∨ c = 0x7f then if s.e ≠ s.w then s.erase else s
  else if c ≠ 0 ∧ (s.e - s.r).toNat < INPUT_BUF then
    let c := if c = 13 then newline else c
    let s := s.store c
    if c = newline ∨ c = C 'D' ∨ s.e = s.r + BitVec.ofNat 32 INPUT_BUF then s.commit else s
  else s

/-- The keys are what `getc` returns until it has no more. -/
def Console.consoleintr (s : Console P) (keys : List UInt8) : Console P := keys.foldl Console.key s

/-- `input.r++`. -/
def Console.take (s : Console P) : Console P :=
  { s with r := s.r + 1, taken := s.taken ++ [s.byte s.r] }

variable [DecidableEq P]

def Console.set (s : Console P) (p : P) (x : Reader) : Console P :=
  { s with reader := Function.update s.reader p x }

/-- `return target - n`. -/
def Console.ret (s : Console P) (p : P) (target : Nat) (got : List UInt8) : Console P :=
  { s.set p (.returned target got) with
    eofs := if 0 < target ∧ got = [] then s.eofs + 1 else s.eofs }

/-- The loops of `consoleread`, from the head of the outer one until `p` sleeps or
returns. (A length below zero is read like zero.) -/
def consoleread (p : P) (target : Nat) : Nat → List UInt8 → Console P → Console P
  | 0, got, s => s.ret p target got
  | n + 1, got, s =>
      if s.r = s.w then
        if s.killed p then s.set p .idle
        else s.set p (.sleeping target (n + 1) got)
      else
        let c := s.byte s.r
        let t := s.take
        if c = C 'D' then
          -- `^D` is saved for the next call unless nothing was read before it
          (if n + 1 < target then { t with r := t.r - 1, taken := s.taken } else t).ret p target got
        else if c = newline then t.ret p target (got ++ [c])
        else consoleread p target n (got ++ [c]) t

inductive ConsoleOp (P : Type) where
  | intr (keys : List UInt8)
  | read (p : P) (n : Nat)
  | run (p : P)
  /-- `kill`, which wakes `p` unless it came too early for that. -/
  | kill (p : P) (wakes : Bool)

def consoleStep (s : Console P) : ConsoleOp P → Option (Console P)
  | .intr keys => some (s.consoleintr keys)
  | .read p n =>
      match s.reader p with
      | .idle | .returned .. => some (s.set p (.reading n n []))
      | _ => none
  | .run p =>
      match s.reader p with
      | .reading target n got => some (consoleread p target n got s)
      | _ => none
  | .kill p wakes =>
      let s := { s with killed := Function.update s.killed p true }
      some (if wakes then s.set p (s.reader p).wakeup else s)

def Console.boot (P : Type) : Console P :=
  { buf := fun _ => 0, r := 0, w := 0, e := 0, reader := fun _ => .idle, killed := fun _ => false,
    echoed := [], taken := [], eofs := 0 }

end Xv6.Ref.Cons
