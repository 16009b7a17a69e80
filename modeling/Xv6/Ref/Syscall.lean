import Xv6.Lib.Trail
import Xv6.Ref.Exec
import Xv6.Ref.Proc

/-!
# System calls (`syscall.c`)

How a system call gets from the trap to its handler, and how a handler gets its arguments
off the user stack. Addresses, arguments and registers are 32-bit words; a word is an
`int` where the source compares it as one.

The kernel reads user memory through the user's own page table, so an address that has not
been checked reads whatever is mapped there, the kernel included. The functions below
therefore keep a log of the addresses they dereference. A return value of -1 is a failure
of the computation; what was read up to there stays in the log.
-/

namespace Xv6.Ref.Syscall

open Xv6.Lib

abbrev Addr := BitVec 32

/-- What `syscall.c` reads of `myproc()`: its size, the saved stack pointer and the bytes
behind every address. -/
structure Curproc where
  sz : BitVec 32
  esp : BitVec 32
  mem : Addr → UInt8

inductive Access where
  /-- `fetchint(addr)` or `fetchstr(addr)` was called. -/
  | fetchint (addr : Addr)
  | fetchstr (addr : Addr)
  /-- The byte at `addr` was read. -/
  | deref (addr : Addr)
  deriving DecidableEq

abbrev Fetch := Trail Access Unit

variable (u : Curproc)

/-! ## Fetching arguments -/

/-- `*s`. -/
def load (s : Addr) : Fetch UInt8 := ⟨.ok (u.mem s), [.deref s]⟩

/-- `*(int*)(addr)`, little-endian. -/
def loadInt (addr : Addr) : Fetch (BitVec 32) := do
  let b0 ← load u addr
  let b1 ← load u (addr + 1)
  let b2 ← load u (addr + 2)
  let b3 ← load u (addr + 3)
  return b3.toBitVec ++ b2.toBitVec ++ b1.toBitVec ++ b0.toBitVec

def fetchint (addr : Addr) : Fetch (BitVec 32) := do
  Trail.tell (.fetchint addr)
  if addr ≥ u.sz ∨ addr + 4 > u.sz then Trail.fail ()
  else loadInt u addr

/-- `for(s = *pp; s < ep; s++)` with `n` bytes left up to `ep`. -/
def fetchstrLoop : Nat → Addr → Fetch Addr
  | 0, _ => Trail.fail ()
  | n + 1, s => do
      let c ← load u s
      if c = 0 then return s else fetchstrLoop n (s + 1)

/-- The string's address and its length. The length is an `int`, but with `sz` up to
`KERNBASE` it is never a negative one. -/
def fetchstr (addr : Addr) : Fetch (Addr × BitVec 32) := do
  Trail.tell (.fetchstr addr)
  if addr ≥ u.sz then Trail.fail ()
  else
    let s ← fetchstrLoop u (u.sz - addr).toNat addr
    return (addr, s - addr)

def argint (n : BitVec 32) : Fetch (BitVec 32) := fetchint u (u.esp + 4 + 4 * n)

def argptr (n size : BitVec 32) : Fetch Addr := do
  let i ← argint u n
  if size.slt 0 ∨ i ≥ u.sz ∨ i + size > u.sz then Trail.fail ()
  else return i

def argstr (n : BitVec 32) : Fetch (Addr × BitVec 32) := do
  let addr ← argint u n
  fetchstr u addr

/-- The loop of `sys_exec` that collects the arguments, at index `i` of `argv` with `n`
elements of the array left. -/
def execArgvLoop (uargv : Addr) : Nat → BitVec 32 → Fetch (List (Addr × BitVec 32))
  | 0, _ => Trail.fail ()
  | n + 1, i => do
      let uarg ← fetchint u (uargv + 4 * i)
      if uarg = 0 then return []
      else
        let arg ← fetchstr u uarg
        let rest ← execArgvLoop uargv n (i + 1)
        return arg :: rest

/-- `sys_exec` up to `exec(path, argv)`: what that is called with. -/
def sysExecArgs : Fetch ((Addr × BitVec 32) × List (Addr × BitVec 32)) := do
  let path ← argstr u 0
  let uargv ← argint u 1
  let argv ← execArgvLoop u uargv Vm.MAXARG 0
  return (path, argv)

/-! ## `syscall` -/

/-- The `sys_` functions. -/
inductive Handler where
  | fork | exit | wait | pipe | read | kill | exec | fstat | chdir | dup | getpid | sbrk
  | sleep | uptime | open | write | mknod | unlink | link | mkdir | close | waitx
  | setpriority
  deriving DecidableEq

abbrev SYS_fork : Nat := 1
abbrev SYS_exit : Nat := 2
abbrev SYS_wait : Nat := 3
abbrev SYS_pipe : Nat := 4
abbrev SYS_read : Nat := 5
abbrev SYS_kill : Nat := 6
abbrev SYS_exec : Nat := 7
abbrev SYS_fstat : Nat := 8
abbrev SYS_chdir : Nat := 9
abbrev SYS_dup : Nat := 10
abbrev SYS_getpid : Nat := 11
abbrev SYS_sbrk : Nat := 12
abbrev SYS_sleep : Nat := 13
abbrev SYS_uptime : Nat := 14
abbrev SYS_open : Nat := 15
abbrev SYS_write : Nat := 16
abbrev SYS_mknod : Nat := 17
abbrev SYS_unlink : Nat := 18
abbrev SYS_link : Nat := 19
abbrev SYS_mkdir : Nat := 20
abbrev SYS_close : Nat := 21
abbrev SYS_waitx : Nat := 22
abbrev SYS_setpriority : Nat := 23

/-- The designated initialisers of `syscalls[]`. -/
def syscallsInit : List (Nat × Handler) :=
  [(SYS_fork, .fork), (SYS_exit, .exit), (SYS_wait, .wait), (SYS_waitx, .waitx),
    (SYS_pipe, .pipe), (SYS_read, .read), (SYS_kill, .kill), (SYS_exec, .exec),
    (SYS_fstat, .fstat), (SYS_chdir, .chdir), (SYS_dup, .dup), (SYS_getpid, .getpid),
    (SYS_sbrk, .sbrk), (SYS_sleep, .sleep), (SYS_uptime, .uptime), (SYS_open, .open),
    (SYS_write, .write), (SYS_mknod, .mknod), (SYS_unlink, .unlink), (SYS_link, .link),
    (SYS_mkdir, .mkdir), (SYS_close, .close)]

/-- `NELEM(syscalls)`: the array ends behind its largest index. -/
def nelemSyscalls : Nat := syscallsInit.foldl (fun n e => max n (e.1 + 1)) 0

/-- `syscalls[num]`, null where nothing initialises it. -/
def syscalls (num : Nat) : Option Handler :=
  (syscallsInit.find? fun e => e.1 = num).map (·.2)

/-- The process table and the process that trapped, with its registers. `yields` counts
its calls of `yield`. -/
structure Trapped where
  proc : Table
  cur : Slot
  user : Curproc
  eax : BitVec 32
  yields : Nat

/-- `syscall`, where `call` is what the handlers do: the value they return and the state
they leave. -/
def syscall (call : Handler → Trapped → BitVec 32 × Trapped) (s : Trapped) : Trapped :=
  let unknown : Trapped := { s with eax := -1 }
  if 0 < s.eax.toInt ∧ s.eax.toNat < nelemSyscalls then
    match syscalls s.eax.toNat with
    | some h => { (call h s).2 with eax := (call h s).1 }
    | none => unknown
  else unknown

/-- `setpriority`, to its return or to its call of `yield`. -/
def setpriority (priority : BitVec 32) (s : Trapped) : BitVec 32 × Trapped :=
  if priority.toInt > 100 ∨ priority.toInt < 0 then (-1, s)
  else
    let old := (s.proc s.cur).priority
    let s' := { s with
      proc := s.proc.modify s.cur fun p => { p with priority := priority.toInt } }
    (BitVec.ofInt 32 old,
      if priority.toInt < old then { s' with yields := s'.yields + 1 } else s')

def sysSetpriority (s : Trapped) : BitVec 32 × Trapped :=
  match (argint s.user 0).result with
  | .error _ => (-1, s)
  | .ok p => setpriority p s

/-- The handlers, with `others` for those that this model does not go into. -/
def handlers (others : Handler → Trapped → BitVec 32 × Trapped) (h : Handler) (s : Trapped) :
    BitVec 32 × Trapped :=
  if h = .setpriority then sysSetpriority s else others h s

end Xv6.Ref.Syscall
