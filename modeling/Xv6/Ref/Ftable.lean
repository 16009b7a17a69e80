import Xv6.Ref.Proc
import Xv6.Lib.Trans

/-!
# Open files (`file.c`, the descriptor part of `sysfile.c` and `proc.c`)

`ftable`, the processes' descriptors, and the two ends of every pipe, as
`open`, `pipe`, `dup`, `close`, `fork` and `exit` leave them. A system call is
one step here: what is between the calls is the subject. Every allocation and
every check that looks at something else can fail; the outcome is an argument of
the call.

A pipe is numbered in the order the pipes were made, so that a page that is
used again is another pipe; `freed` counts how often `pipeclose` gave its page
back. The inode that `open` finds is a number: the directory tree is
`Sysfile.lean`'s business.

A `panic` is `none`.
-/

namespace Xv6.Ref.Ftable

open Xv6.Ref

inductive FdType where
  | FD_NONE
  | FD_PIPE
  | FD_INODE
  deriving DecidableEq

/-- `struct file`. -/
structure File where
  type : FdType
  ref : Nat
  readable : Bool
  writable : Bool
  pipe : Nat
  ip : Nat
  off : Nat
  deriving DecidableEq

def File.zero : File := ⟨.FD_NONE, 0, false, false, 0, 0, 0⟩

/-- What `pipeclose` reads and writes. -/
structure PipeEnds where
  readopen : Bool
  writeopen : Bool
  freed : Nat
  deriving DecidableEq

abbrev Fidx := Fin NFILE

abbrev Fd := Fin NOFILE

structure Files where
  file : Fidx → File
  /-- The state of a process between system calls: UNUSED, RUNNABLE, ZOMBIE. -/
  state : Slot → Procstate
  ofile : Slot → Fd → Option Fidx
  /-- The number of pipes made so far. -/
  npipe : Nat
  pipe : Nat → PipeEnds

/-- `init` has been made and has not opened anything. -/
def Files.boot : Files where
  file := fun _ => File.zero
  state := fun i => if i = initproc then .RUNNABLE else .UNUSED
  ofile := fun _ _ => none
  npipe := 0
  pipe := fun _ => ⟨false, false, 0⟩

def Files.setFile (s : Files) (f : Fidx) (g : File → File) : Files :=
  { s with file := fun f' => if f' = f then g (s.file f) else s.file f' }

def Files.setOfile (s : Files) (p : Slot) (fd : Fd) (v : Option Fidx) : Files :=
  { s with ofile := fun p' fd' => if p' = p ∧ fd' = fd then v else s.ofile p' fd' }

def Files.setPipe (s : Files) (k : Nat) (g : PipeEnds → PipeEnds) : Files :=
  { s with pipe := fun k' => if k' = k then g (s.pipe k) else s.pipe k' }

def Files.setState (s : Files) (p : Slot) (st : Procstate) : Files :=
  { s with state := fun p' => if p' = p then st else s.state p' }

/-! ## `file.c` and `pipe.c` -/

def filealloc (s : Files) : Option (Fidx × Files) :=
  match (List.finRange NFILE).find? fun f => (s.file f).ref = 0 with
  | none => none
  | some f => some (f, s.setFile f fun g => { g with ref := 1 })

def filedup (s : Files) (f : Fidx) : Option Files :=
  if (s.file f).ref < 1 then none
  else some (s.setFile f fun g => { g with ref := g.ref + 1 })

def pipeclose (s : Files) (k : Nat) (writable : Bool) : Files :=
  let s := s.setPipe k fun e =>
    if writable = true then { e with writeopen := false } else { e with readopen := false }
  if (s.pipe k).readopen = false ∧ (s.pipe k).writeopen = false then
    s.setPipe k fun e => { e with freed := e.freed + 1 }
  else s

/-- The inode behind a closed file is given to `iput`. -/
def fileclose (s : Files) (f : Fidx) : Option Files :=
  let ff := s.file f
  if ff.ref < 1 then none
  else if ff.ref - 1 > 0 then some (s.setFile f fun g => { g with ref := g.ref - 1 })
  else
    let s := s.setFile f fun g => { g with ref := 0, type := .FD_NONE }
    match ff.type with
    | .FD_PIPE => some (pipeclose s ff.pipe ff.writable)
    | .FD_INODE => some s
    | .FD_NONE => some s

/-- The error path of `pipealloc`: close what was allocated. -/
def pipeallocBad (s : Files) : List Fidx → Option Files
  | [] => some s
  | f :: fs =>
      match fileclose s f with
      | none => none
      | some s => pipeallocBad s fs

/-- `pipealloc`; `page` says whether `kalloc` succeeds. -/
def pipealloc (s : Files) (page : Bool) : Option (Option (Fidx × Fidx) × Files) :=
  match filealloc s with
  | none => some (none, s)
  | some (f0, s) =>
      match filealloc s with
      | none => (pipeallocBad s [f0]).map fun s => (none, s)
      | some (f1, s) =>
          if page = false then (pipeallocBad s [f0, f1]).map fun s => (none, s)
          else
            let p := s.npipe
            let s := { s.setPipe p (fun _ => ⟨true, true, 0⟩) with npipe := p + 1 }
            let s := s.setFile f0 fun g =>
              { g with type := .FD_PIPE, readable := true, writable := false, pipe := p }
            let s := s.setFile f1 fun g =>
              { g with type := .FD_PIPE, readable := false, writable := true, pipe := p }
            some (some (f0, f1), s)

/-! ## Descriptors -/

def fdalloc (s : Files) (p : Slot) (f : Fidx) : Option (Fd × Files) :=
  match (List.finRange NOFILE).find? fun fd => s.ofile p fd = none with
  | none => none
  | some fd => some (fd, s.setOfile p fd (some f))

/-- `argfd` with the integer the user passed. -/
def argfd (s : Files) (p : Slot) (fd : Int) : Option (Fd × Fidx) :=
  if h : 0 ≤ fd ∧ fd < NOFILE then
    match s.ofile p ⟨fd.toNat, by omega⟩ with
    | none => none
    | some f => some (⟨fd.toNat, by omega⟩, f)
  else none

def sysDup (s : Files) (p : Slot) (fd : Int) : Option (Int × Files) :=
  match argfd s p fd with
  | none => some (-1, s)
  | some (_, f) =>
      match fdalloc s p f with
      | none => some (-1, s)
      | some (fd', s) => (filedup s f).map fun s => ((fd'.val : Int), s)

def sysClose (s : Files) (p : Slot) (fd : Int) : Option (Int × Files) :=
  match argfd s p fd with
  | none => some (-1, s)
  | some (fd, f) => (fileclose (s.setOfile p fd none) f).map fun s => (0, s)

/-- `sys_open`, with what `create` or `namei` and the check for a directory end
in: no inode, or inode `ip`. -/
def sysOpen (s : Files) (p : Slot) (ip : Option Nat) (omode : Nat) :
    Option (Int × Files) :=
  match ip with
  | none => some (-1, s)
  | some ip =>
      match filealloc s with
      | none => some (-1, s)
      | some (f, s) =>
          match fdalloc s p f with
          | none => (fileclose s f).map fun s => (-1, s)
          | some (fd, s) =>
              some (fd.val, s.setFile f fun g =>
                { g with
                  type := .FD_INODE
                  ip := ip
                  off := 0
                  readable := omode &&& O_WRONLY = 0
                  writable := omode &&& O_WRONLY ≠ 0 ∨ omode &&& O_RDWR ≠ 0 })

/-- The error path of `sys_pipe`. -/
def sysPipeBad (s : Files) (p : Slot) (fd0 : Option Fd) (rf wf : Fidx) :
    Option (Int × Files) :=
  let s :=
    match fd0 with
    | none => s
    | some fd0 => s.setOfile p fd0 none
  match fileclose s rf with
  | none => none
  | some s => (fileclose s wf).map fun s => (-1, s)

/-- `sys_pipe`; `ptr` says whether the user's pointer is good. -/
def sysPipe (s : Files) (p : Slot) (ptr page : Bool) : Option (Int × Files) :=
  if ptr = false then some (-1, s)
  else
    match pipealloc s page with
    | none => none
    | some (none, s) => some (-1, s)
    | some (some (rf, wf), s) =>
        match fdalloc s p rf with
        | none => sysPipeBad s p none rf wf
        | some (fd0, s) =>
            match fdalloc s p wf with
            | none => sysPipeBad s p (some fd0) rf wf
            | some (_, s) => some (0, s)

/-! ## Processes -/

/-- The loop of `fork` over the descriptors. -/
def forkLoop (s : Files) (p np : Slot) : List Fd → Option Files
  | [] => some s
  | fd :: fds =>
      match s.ofile p fd with
      | none => forkLoop s p np fds
      | some f =>
          match filedup s f with
          | none => none
          | some s => forkLoop (s.setOfile np fd (some f)) p np fds

/-- `fork`; `mem` says whether the stack and the page table could be allocated.
The result is the new slot's number, in place of its pid. -/
def fork (s : Files) (p : Slot) (mem : Bool) : Option (Int × Files) :=
  match slots.find? fun i => s.state i = .UNUSED with
  | none => some (-1, s)
  | some np =>
      if mem = false then some (-1, s)
      else
        (forkLoop s p np (List.finRange NOFILE)).map fun s =>
          ((np.val : Int), s.setState np .RUNNABLE)

/-- The loop of `exit` over the descriptors. -/
def exitLoop (s : Files) (p : Slot) : List Fd → Option Files
  | [] => some s
  | fd :: fds =>
      match s.ofile p fd with
      | none => exitLoop s p fds
      | some f =>
          match fileclose s f with
          | none => none
          | some s => exitLoop (s.setOfile p fd none) p fds

def exit (s : Files) (p : Slot) : Option Files :=
  if p = initproc then none
  else (exitLoop s p (List.finRange NOFILE)).map fun s => s.setState p .ZOMBIE

inductive FileCall where
  | open (ip : Option Nat) (omode : Nat)
  | pipe (ptr page : Bool)
  | dup (fd : Int)
  | close (fd : Int)
  | fork (mem : Bool)
  | exit
  deriving DecidableEq

/-- The system call `c` of process `p`. -/
def call (s : Files) (p : Slot) : FileCall → Option Files
  | .open ip omode => (sysOpen s p ip omode).map (·.2)
  | .pipe ptr page => (sysPipe s p ptr page).map (·.2)
  | .dup fd => (sysDup s p fd).map (·.2)
  | .close fd => (sysClose s p fd).map (·.2)
  | .fork mem => (fork s p mem).map (·.2)
  | .exit => exit s p

inductive FileAct where
  | call (p : Slot) (c : FileCall)
  /-- Some parent's `wait` frees the slot of an exited process. -/
  | reap (p : Slot)
  deriving DecidableEq

def step (s : Files) : FileAct → Option Files
  | .call p c => if s.state p = .RUNNABLE then call s p c else none
  | .reap p => if s.state p = .ZOMBIE then some (s.setState p .UNUSED) else none

end Xv6.Ref.Ftable
