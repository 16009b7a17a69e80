import Xv6.Ref.Exec
import Xv6.Ref.Pages
import Xv6.Ref.Sysfile

/-!
# `exec` as a system call (`exec.c`)

`exec` with the file it reads: the transaction it opens, the look-up of the path, the
inode's lock, and the label `bad` that cleans up by what `pgdir` and `ip` are. The file is
read by `readi`, one read after the other; nothing is said here about what the reads return.
`exec` works on a directory of its own until it commits, so the pages are passed along.
-/

namespace Xv6.Ref.Sysfile.ExecCall

open Xv6.Lib
open Xv6.Ref.Inodes (Iptr Devsw)
open Xv6.Ref.Vm

variable {N : Nat}

inductive ExecOp (N : Nat) where
  /-- `begin_op`. -/
  | beginOp
  /-- `end_op`. -/
  | endOp
  /-- An operation on files. -/
  | file (o : Op N)
  /-- A panic in `vm.c` or `kalloc.c`. -/
  | stop (why : Stop)

@[reducible] def ExecOp.Resp : ExecOp N → Type
  | .beginOp | .endOp => Unit
  | .file o => Sysfile.Resp o
  | .stop _ => Empty

abbrev ExecProg (N : Nat) (α : Type) := Prog (ExecOp N) ExecOp.Resp α

def beginOp : ExecProg N Unit := Prog.perform ExecOp.beginOp

def endOp : ExecProg N Unit := Prog.perform ExecOp.endOp

/-- A function of the file system. -/
def file {α : Type} : SysProg N α → ExecProg N α
  | .ret a => .ret a
  | .op o k => .op (.file o) fun r => file (k r)

/-- A function of `vm.c`. -/
def vm {α : Type} : Except Stop α → ExecProg N α
  | .ok a => pure a
  | .error why => .op (.stop why) nofun

/-- `readi` with the test that it returned all `n` bytes. -/
def readAll (ip : Iptr) (off n : Nat) : ExecProg N (Option (List UInt8)) := do
  match ← file (readi ip (BitVec.ofNat 32 off) (BitVec.ofNat 32 n)) with
  | none => pure none
  | some bs => pure (if bs.length = n then some bs else none)

/-- The loop of `loaduvm`; the bound is the number of pages of the segment. -/
def loaduvmLoop (d : Pgdir) (ip : Iptr) (addr offset sz : Nat) :
    Nat → Phys → Nat → ExecProg N (Phys × Bool)
  | 0, m, _ => pure (m, true)
  | fuel + 1, m, i =>
      if i < sz then
        match d.tab (PDX (addr + i)) with
        | none => vm (.error .loaduvmExist)
        | some _ => do
            let pa := ((d.pte (addr + i)).map (·.pa)).getD 0
            let n := if sz - i < PGSIZE then sz - i else PGSIZE
            match ← readAll ip ((offset + i) % 2 ^ 32) n with
            | none => pure (m, false)
            | some bs => loaduvmLoop d ip addr offset sz fuel (m.write pa 0 bs) (i + PGSIZE)
      else pure (m, true)

def loaduvm (m : Phys) (d : Pgdir) (addr : Nat) (ip : Iptr) (offset sz : Nat) :
    ExecProg N (Phys × Bool) :=
  if addr % PGSIZE ≠ 0 then vm (.error .loaduvmAligned)
  else loaduvmLoop d ip addr offset sz (sz / PGSIZE + 1) m 0

/-- The loop over the program headers; the size of the image, or `none` for `goto bad`. -/
def loadSegments (k : Kernel) (ip : Iptr) :
    Nat → Nat → Phys → Pgdir → Nat → ExecProg N (Phys × Pgdir × Option Nat)
  | 0, _, m, d, sz => pure (m, d, some sz)
  | n + 1, off, m, d, sz => do
      match ← readAll ip off proghdrSize with
      | none => pure (m, d, none)
      | some bs =>
          let ph := Proghdr.ofBytes bs
          let off' := (off + proghdrSize) % 2 ^ 32
          if ph.type ≠ ELF_PROG_LOAD then loadSegments k ip n off' m d sz
          else if ph.memsz < ph.filesz then pure (m, d, none)
          else if (ph.vaddr + ph.memsz) % 2 ^ 32 < ph.vaddr then pure (m, d, none)
          else do
            let (m, d, sz) ← vm (allocuvm k m d sz ((ph.vaddr + ph.memsz) % 2 ^ 32))
            if sz = 0 then pure (m, d, none)
            else if ph.vaddr % PGSIZE ≠ 0 then pure (m, d, none)
            else do
              let (m, loaded) ← loaduvm m d ph.vaddr ip ph.off ph.filesz
              if loaded then loadSegments k ip n off' m d sz else pure (m, d, none)

/-- The label `bad`. -/
def bad (k : Kernel) (m : Phys) (pgdir : Option Pgdir) (ip : Option Iptr) :
    ExecProg N (Option Image × Phys) := do
  let m ← match pgdir with
    | some d => vm (freevm k m d)
    | none => pure m
  match ip with
  | some ip =>
      file (iunlockput ip)
      endOp
  | none => pure ()
  pure (none, m)

/-- `exec` up to the commit. -/
def exec (k : Kernel) (m : Phys) (path : Path) (argv : List (List UInt8)) :
    ExecProg N (Option Image × Phys) := do
  beginOp
  match ← file (namei path) with
  | none =>
      endOp
      pure (none, m)
  | some ip =>
      file (ilock ip)
      match ← readAll ip 0 elfhdrSize with
      | none => bad k m none (some ip)
      | some bs =>
          let elf := Elfhdr.ofBytes bs
          if elf.magic ≠ ELF_MAGIC then bad k m none (some ip)
          else
            match ← vm (setupkvm k m) with
            | (none, m) => bad k m none (some ip)
            | (some d, m) =>
                match ← loadSegments k ip elf.phnum elf.phoff m d 0 with
                | (m, d, none) => bad k m (some d) (some ip)
                | (m, d, some sz) =>
                    file (iunlockput ip)
                    endOp
                    match ← vm (pushStack k path argv elf.entry m d sz) with
                    | (m, d, none) => bad k m (some d) none
                    | (m, _, some image) => pure (some image, m)

/-! ## Running it -/

inductive Outcome (S R : Type) where
  | ok (s : S) (r : R)
  | blocked
  | panic (why : SysPanic)
  | stop (why : Stop)

/-- What `exec` finds: the file system, `log.outstanding`, the pages and the processes. -/
structure World (N : Nat) where
  sys : Sys N
  outstanding : Nat
  phys : Phys
  proc : Fin N → Mproc

/-- Process `p` alone, to the end of a program. The log has room for one more operation. -/
def alone (sb : Superblock) (devsw : Nat → Devsw) (pick : Nat) (p : Fin N) {α : Type} :
    ExecProg N α → Sys N → Nat → Outcome (Sys N × Nat) α
  | .ret a, s, n => .ok (s, n) a
  | .op .beginOp k, s, n => alone sb devsw pick p (k ()) s (n + 1)
  | .op .endOp k, s, n => alone sb devsw pick p (k ()) s (n - 1)
  | .op (.stop why) _, _, _ => .stop why
  | .op (.file o) k, s, n =>
      match opStep sb devsw pick s p o with
      | .ok s r => alone sb devsw pick p (k r) s n
      | .blocked => .blocked
      | .panic why => .panic why

/-- Commit to the user image. -/
def Image.commit (image : Image) (proc : Mproc) : Mproc :=
  { proc with
    pgdir := image.pgdir
    sz := image.sz
    eip := image.eip
    esp := image.esp
    name := image.name }

/-- `exec` by process `p`, with its result. -/
def call (k : Kernel) (sb : Superblock) (devsw : Nat → Devsw) (pick : Nat) (p : Fin N)
    (path : Path) (argv : List (List UInt8)) (w : World N) : Outcome (World N) Int :=
  match alone sb devsw pick p (exec k w.phys path argv) w.sys w.outstanding with
  | .blocked => .blocked
  | .panic why => .panic why
  | .stop why => .stop why
  | .ok (s, n) (none, m) => .ok { w with sys := s, outstanding := n, phys := m } (-1)
  | .ok (s, n) (some image, m) =>
      match freevm k m (w.proc p).pgdir with
      | .error why => .stop why
      | .ok m =>
          .ok { sys := s, outstanding := n, phys := m,
                proc := Function.update w.proc p (Image.commit image (w.proc p)) } 0

end Xv6.Ref.Sysfile.ExecCall
