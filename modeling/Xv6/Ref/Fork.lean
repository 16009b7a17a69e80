import Xv6.Ref.Pages

/-!
# `fork` as a whole (`proc.c`)

`fork` of `Pages.lean` with the rest of what it reads and writes: the pid, the state the
slot goes through, the current directory with the reference count of its inode, and the
register that holds the result in the child.
-/

namespace Xv6.Ref.Vm

open Xv6.Ref

structure Procs where
  mach : Machine
  pid : Slot → Int
  nextpid : Int
  /-- `p->cwd`, an entry of the inode cache. -/
  cwd : Slot → Nat
  /-- `ip->ref`. -/
  iref : Nat → Nat
  /-- `p->tf->eax`. -/
  eax : Slot → Nat

def Procs.setState (s : Procs) (p : Slot) (st : Procstate) : Procs :=
  { s with mach := { s.mach with files := s.mach.files.setState p st } }

def Procs.setProc (s : Procs) (p : Slot) (g : Mproc → Mproc) : Procs :=
  { s with mach := s.mach.setProc p g }

def Procs.setPhys (s : Procs) (m : Phys) : Procs :=
  { s with mach := { s.mach with phys := m } }

/-- `allocproc` as far as it concerns `fork`. -/
def allocproc (s : Procs) : Option Slot × Procs :=
  match slots.find? fun i => s.mach.files.state i = .UNUSED with
  | none => (none, s)
  | some np =>
      let s := { s.setState np .EMBRYO with
        pid := fun i => if i = np then s.nextpid else s.pid i
        nextpid := s.nextpid + 1 }
      match kalloc s.mach.phys with
      | none => (none, (s.setProc np fun r => { r with kstack := 0 }).setState np .UNUSED)
      | some (kstack, m) => (some np, (s.setProc np fun r => { r with kstack := kstack }).setPhys m)

def idup (s : Procs) (ip : Nat) : Procs :=
  { s with iref := fun i => if i = ip then s.iref i + 1 else s.iref i }

def forkResult (k : Kernel) (s : Procs) (p : Slot) : Except Stop (Int × Procs) :=
  match allocproc s with
  | (none, s) => .ok (-1, s)
  | (some np, s) => do
      let cur := s.mach.proc p
      match ← copyuvm k s.mach.phys cur.pgdir cur.sz with
      | (none, m) => do
          let m ← kfree k m (s.mach.proc np).kstack
          let s := (s.setPhys m).setProc np fun r => { r with kstack := 0, pgdir := Pgdir.empty 0 }
          .ok (-1, s.setState np .UNUSED)
      | (some d, m) =>
          let s := (s.setPhys m).setProc np fun r =>
            { r with pgdir := d, sz := cur.sz, parent := some p, eip := cur.eip, esp := cur.esp }
          let s := { s with eax := fun i => if i = np then 0 else s.eax i }
          match Ftable.forkLoop s.mach.files p np (List.finRange NOFILE) with
          | none => .error .filedup
          | some files =>
              let s := { s with mach := { s.mach with files := files } }
              let s := { idup s (s.cwd p) with cwd := fun i => if i = np then s.cwd p else s.cwd i }
              let s := s.setProc np fun r => { r with name := cur.name }
              .ok (s.pid np, s.setState np .RUNNABLE)

end Xv6.Ref.Vm
