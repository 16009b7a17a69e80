import Xv6.Ref.Exec
import Xv6.Ref.Ftable

/-!
# Who holds the pages (`main.c`, `proc.c`, `pipe.c`)

The kernel from its boot on, as far as pages change hands: `fork`, `exec`,
`exit`, `wait`, `waitx`, `sbrk`, `pipe` and `close`. One system call is one
step. Open files are those of `Ftable.lean`; to them comes the page each pipe
lives in.

`p->pgdir` of a slot that `wait` has freed keeps its value, as in the source.
`wait` without an exited child returns `-1` or sleeps; neither changes anything
here.
-/

namespace Xv6.Ref.Vm

open Xv6.Ref

/-- What `struct proc` says about memory, and what `exec` sets besides. -/
structure Mproc where
  parent : Option Slot
  kstack : Nat
  pgdir : Pgdir
  sz : Nat
  eip : Nat
  esp : Nat
  name : List UInt8

def Mproc.zero : Mproc := ⟨none, 0, Pgdir.empty 0, 0, 0, 0, []⟩

structure Machine where
  phys : Phys
  kpgdir : Pgdir
  /-- The stacks `startothers` allocated. -/
  cpuStacks : List Nat
  files : Ftable.Files
  /-- The page of each pipe. -/
  page : Nat → Nat
  proc : Slot → Mproc

def Machine.setProc (s : Machine) (p : Slot) (g : Mproc → Mproc) : Machine :=
  { s with proc := fun q => if q = p then g (s.proc p) else s.proc q }

/-! ## Boot -/

/-- The loop of `startothers`, once for each other CPU. -/
def startothers : Nat → Phys → Except Stop (List Nat × Phys)
  | 0, m => .ok ([], m)
  | n + 1, m =>
      match kalloc m with
      | none => .error .bootMemory
      | some (stack, m) => do
          let (cpuStacks, m) ← startothers n m
          .ok (stack :: cpuStacks, m)

/-- The machine with the process that `userinit` has made. -/
def Machine.booted (m : Phys) (kpgdir : Pgdir) (cpuStacks : List Nat) (kstack : Nat)
    (pgdir : Pgdir) : Machine where
  phys := m
  kpgdir := kpgdir
  cpuStacks := cpuStacks
  files := Ftable.Files.boot
  page := fun _ => 0
  proc := fun p => if p = initproc then
      { Mproc.zero with kstack := kstack, pgdir := pgdir, sz := PGSIZE, esp := PGSIZE }
    else Mproc.zero

/-- `main` up to the scheduler, on `ncpu` CPUs: `kinit1`, `kvmalloc`,
`startothers`, `kinit2`, `userinit`. -/
def boot (k : Kernel) (ncpu : Nat) (initcode : List UInt8) : Except Stop Machine := do
  let m ← freerange k ⟨[], fun _ _ => 0⟩ k.endAddr (P2V (4 * 1024 * 1024))
  match ← setupkvm k m with
  | (none, _) => .error .bootMemory
  | (some kpgdir, m) => do
      let (cpuStacks, m) ← startothers (ncpu - 1) m
      let m ← freerange k m (P2V (4 * 1024 * 1024)) (P2V PHYSTOP)
      match kalloc m with
      | none => .error .bootMemory
      | some (kstack, m) => do
          match ← setupkvm k m with
          | (none, _) => .error .userinit
          | (some pgdir, m) => do
              let (m, pgdir) ← inituvm m pgdir initcode
              .ok (Machine.booted m kpgdir cpuStacks kstack pgdir)

/-! ## Pipes -/

/-- `fileclose`; it gives the page back if this was the pipe's last end. -/
def fileclose (k : Kernel) (s : Machine) (f : Ftable.Fidx) : Except Stop Machine :=
  match Ftable.fileclose s.files f with
  | none => .error .fileclose
  | some files =>
      let i := (s.files.file f).pipe
      if (files.pipe i).freed = (s.files.pipe i).freed then .ok { s with files := files }
      else do
        let m ← kfree k s.phys (s.page i)
        .ok { s with files := files, phys := m }

/-- `pipealloc`; with two files and no page it fails like without the files. -/
def pipealloc (s : Machine) : Except Stop (Option (Ftable.Fidx × Ftable.Fidx) × Machine) :=
  match kalloc s.phys with
  | none =>
      match Ftable.pipealloc s.files false with
      | none => .error .fileclose
      | some (r, files) => .ok (r, { s with files := files })
  | some (pg, m) =>
      match Ftable.pipealloc s.files true with
      | none => .error .fileclose
      | some (none, files) => .ok (none, { s with files := files })
      | some (some fs, files) =>
          .ok (some fs, { s with
            files := files
            phys := m
            page := fun i => if i = s.files.npipe then pg else s.page i })

/-- The error path of `sys_pipe`. -/
def sysPipeBad (k : Kernel) (s : Machine) (p : Slot) (fd0 : Option Ftable.Fd)
    (rf wf : Ftable.Fidx) : Except Stop Machine := do
  let files :=
    match fd0 with
    | none => s.files
    | some fd0 => s.files.setOfile p fd0 none
  let s ← fileclose k { s with files := files } rf
  fileclose k s wf

/-- `sys_pipe`; `ptr` says whether the user's pointer is good. -/
def sysPipe (k : Kernel) (s : Machine) (p : Slot) (ptr : Bool) : Except Stop Machine :=
  if ptr = false then .ok s
  else do
    match ← pipealloc s with
    | (none, s) => .ok s
    | (some (rf, wf), s) =>
        match Ftable.fdalloc s.files p rf with
        | none => sysPipeBad k s p none rf wf
        | some (fd0, files) =>
            match Ftable.fdalloc files p wf with
            | none => sysPipeBad k { s with files := files } p (some fd0) rf wf
            | some (_, files) => .ok { s with files := files }

def sysClose (k : Kernel) (s : Machine) (p : Slot) (fd : Int) : Except Stop Machine :=
  match Ftable.argfd s.files p fd with
  | none => .ok s
  | some (fd, f) => fileclose k { s with files := s.files.setOfile p fd none } f

/-! ## Processes -/

/-- `fork`. The child is `EMBRYO` while it is made; nothing here looks at it
before it is `RUNNABLE`. -/
def fork (k : Kernel) (s : Machine) (p : Slot) : Except Stop Machine :=
  match slots.find? fun i => s.files.state i = .UNUSED with
  | none => .ok s
  | some np =>
      match kalloc s.phys with
      | none => .ok (s.setProc np fun r => { r with kstack := 0 })
      | some (kstack, m) => do
          match ← copyuvm k m (s.proc p).pgdir (s.proc p).sz with
          | (none, m) => do
              let m ← kfree k m kstack
              .ok { s.setProc np fun r => { r with kstack := 0, pgdir := Pgdir.empty 0 } with
                phys := m }
          | (some d, m) =>
              match Ftable.forkLoop s.files p np (List.finRange NOFILE) with
              | none => .error .filedup
              | some files =>
                  .ok { s.setProc np fun _ =>
                      { s.proc p with parent := some p, kstack := kstack, pgdir := d } with
                    phys := m
                    files := files.setState np .RUNNABLE }

/-- `exec` with the commit. -/
def sysExec (k : Kernel) (s : Machine) (p : Slot) (ip : Option Reader) (path : List UInt8)
    (argv : List (List UInt8)) : Except Stop Machine := do
  match ← exec k s.phys ip path argv with
  | (none, m) => .ok { s with phys := m }
  | (some image, m) => do
      let m ← freevm k m (s.proc p).pgdir
      .ok { s.setProc p fun r =>
          { r with
            pgdir := image.pgdir
            sz := image.sz
            eip := image.eip
            esp := image.esp
            name := image.name } with phys := m }

/-- `growproc`; `n` is an `int`. -/
def growproc (k : Kernel) (s : Machine) (p : Slot) (n : Int) : Except Stop Machine :=
  let sz := (s.proc p).sz
  let newsz := (((sz : Int) + n) % 2 ^ 32).toNat
  if n > 0 then do
    let (m, d, sz') ← allocuvm k s.phys (s.proc p).pgdir sz newsz
    .ok { s.setProc p fun r =>
        { r with pgdir := d, sz := if sz' = 0 then sz else sz' } with phys := m }
  else if n < 0 then do
    let (m, d, sz') ← deallocuvm k s.phys (s.proc p).pgdir sz newsz
    .ok { s.setProc p fun r =>
        { r with pgdir := d, sz := if sz' = 0 then sz else sz' } with phys := m }
  else .ok s

/-- `growproc` with what it returns. -/
def growprocResult (k : Kernel) (s : Machine) (p : Slot) (n : Int) :
    Except Stop (Int × Machine) :=
  let sz := (s.proc p).sz
  let newsz := (((sz : Int) + n) % 2 ^ 32).toNat
  if n > 0 then do
    let (m, d, sz') ← allocuvm k s.phys (s.proc p).pgdir sz newsz
    if sz' = 0 then .ok (-1, { s.setProc p fun r => { r with pgdir := d } with phys := m })
    else .ok (0, { s.setProc p fun r => { r with pgdir := d, sz := sz' } with phys := m })
  else if n < 0 then do
    let (m, d, sz') ← deallocuvm k s.phys (s.proc p).pgdir sz newsz
    if sz' = 0 then .ok (-1, { s.setProc p fun r => { r with pgdir := d } with phys := m })
    else .ok (0, { s.setProc p fun r => { r with pgdir := d, sz := sz' } with phys := m })
  else .ok (0, s)

/-- The loop of `exit` over the descriptors. -/
def exitLoop (k : Kernel) (s : Machine) (p : Slot) : List Ftable.Fd → Except Stop Machine
  | [] => .ok s
  | fd :: fds =>
      match s.files.ofile p fd with
      | none => exitLoop k s p fds
      | some f => do
          let s ← fileclose k s f
          exitLoop k { s with files := s.files.setOfile p fd none } p fds

/-- `exit`: the descriptors are closed and the children go to `init`; stack and
page table are left to `wait`. -/
def exit (k : Kernel) (s : Machine) (p : Slot) : Except Stop Machine :=
  if p = initproc then .error .initExiting
  else do
    let s ← exitLoop k s p (List.finRange NOFILE)
    .ok { s with
      proc := fun q =>
        if (s.proc q).parent = some p then { s.proc q with parent := some initproc }
        else s.proc q
      files := s.files.setState p .ZOMBIE }

/-- The body `wait` and `waitx` have in common: the first exited child is freed. -/
def reap (k : Kernel) (s : Machine) (p : Slot) : Except Stop Machine :=
  match slots.find? fun q =>
      decide ((s.proc q).parent = some p) && decide (s.files.state q = .ZOMBIE) with
  | none => .ok s
  | some q => do
      let m ← kfree k s.phys (s.proc q).kstack
      let m ← freevm k m (s.proc q).pgdir
      .ok { s.setProc q fun r => { r with kstack := 0, parent := none, name := [] } with
        phys := m
        files := s.files.setState q .UNUSED }

def wait (k : Kernel) (s : Machine) (p : Slot) : Except Stop Machine := reap k s p

/-- `sys_waitx`; `ptrs` says whether the user's pointers are good. -/
def waitx (k : Kernel) (s : Machine) (p : Slot) (ptrs : Bool) : Except Stop Machine :=
  if ptrs = false then .ok s else reap k s p

inductive PageCall where
  | fork
  | exec (ip : Option Reader) (path : List UInt8) (argv : List (List UInt8))
  | exit
  | wait
  | waitx (ptrs : Bool)
  | sbrk (n : Int)
  | pipe (ptr : Bool)
  | close (fd : Int)

def call (k : Kernel) (s : Machine) (p : Slot) : PageCall → Except Stop Machine
  | .fork => fork k s p
  | .exec ip path argv => sysExec k s p ip path argv
  | .exit => exit k s p
  | .wait => wait k s p
  | .waitx ptrs => waitx k s p ptrs
  | .sbrk n => growproc k s p n
  | .pipe ptr => sysPipe k s p ptr
  | .close fd => sysClose k s p fd

/-- A process makes a call and returns from it; a call that stops the machine
has no successor. -/
def pageStep (k : Kernel) (s : Machine) (a : Slot × PageCall) : Option Machine :=
  if s.files.state a.1 = .RUNNABLE then (call k s a.1 a.2).toOption else none

end Xv6.Ref.Vm
