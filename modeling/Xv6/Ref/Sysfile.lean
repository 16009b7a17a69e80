import Xv6.Lib.Prog
import Xv6.Lib.Trans
import Xv6.Ref.Ftable
import Xv6.Ref.Inodes
import Xv6.Ref.Path

/-!
# The file system calls on the inode cache (`sysfile.c`, `file.c`, `fs.c`)

The system calls with pointers into the inode cache and into the file table, over the
disk with its bytes. A call is a program over atomic operations: a section under
`icache.lock` or `ftable.lock`, taking or giving back an inode's sleep lock, what is done
to an inode under its lock by a function of `Ref/Inodes.lean`, or what a process does to
fields of its own `struct proc`. Calls of different processes interleave between the
operations.

`exit` and `close` clear a descriptor before `fileclose` and not behind it, and `chdir`
and `exit` take `cwd` away before its `iput`; nobody else looks at either. What `pipe`
leaves in a file is only that it is a pipe's end (`Ref/Ftable.lean` has the pipes), and
which parts of its file `exec` reads is an argument of the call (`Ref/Exec.lean`).
-/

namespace Xv6.Ref.Sysfile

open Xv6.Lib
open Xv6.Ref.Inodes (Iptr Devsw)
open Xv6.Ref.Ftable (FdType Fidx Fd)

/-- `struct file` without the pipe. -/
structure File where
  type : FdType
  ref : Nat
  readable : Bool
  writable : Bool
  ip : Iptr
  off : BitVec 32

/-- What the system calls share. -/
structure Sys (N : Nat) where
  /-- The disk, and `icache` without its sleep locks. -/
  files : Inodes.Files
  lock : Iptr → Option (Fin N)
  file : Fidx → File
  state : Fin N → Procstate
  cwd : Fin N → Option Iptr
  ofile : Fin N → Fd → Option Fidx

inductive SysPanic where
  | fs (why : Inodes.Panic)
  | iunlock
  | isdirempty
  | unlinkNlink
  | createDots
  | createDirlink
  | filedup
  | fileclose
  | fileread
  | filewrite
  | shortFilewrite
  | initExiting
  deriving DecidableEq

inductive Op (N : Nat) where
  /-- `iget`. -/
  | iget (inum : Nat)
  /-- `idup(myproc()->cwd)`. -/
  | idupCwd
  /-- `acquiresleep(&ip->lock)`, in `iput` or in `ilock`. -/
  | acquiresleep (ip : Iptr) (inPut : Bool)
  /-- The rest of `ilock`. -/
  | load (ip : Iptr)
  | iunlock (ip : Iptr)
  /-- `ip->inum`. -/
  | inum (ip : Iptr)
  /-- The fields of a locked inode. -/
  | inode (ip : Iptr)
  /-- In `iput`: no links and, under `icache.lock`, no other reference? -/
  | lastRef (ip : Iptr)
  /-- In `iput`: `itrunc(ip)`, `type = 0`, `iupdate(ip)`, `valid = 0`. -/
  | freeInode (ip : Iptr)
  /-- `releasesleep(&ip->lock)` in `iput`. -/
  | releasesleep (ip : Iptr)
  /-- `ip->ref--` in `iput`. -/
  | decref (ip : Iptr)
  /-- `dirlookup` up to the call of `iget`: the entry's inode number and offset. -/
  | lookup (dp : Iptr) (name : List UInt8)
  | isdirempty (dp : Iptr)
  /-- `dirlink` after its check. -/
  | addEntry (dp : Iptr) (name : List UInt8) (inum : Nat)
  /-- `unlink`: write a zero entry. -/
  | clearEntry (dp : Iptr) (off : Nat)
  /-- `ip->nlink += k; iupdate(ip)`. -/
  | addNlink (ip : Iptr) (k : BitVec 16)
  /-- `create`: `major`, `minor`, `nlink = 1` and `iupdate(ip)`. -/
  | setNew (ip : Iptr) (major minor : BitVec 16)
  /-- `ialloc` up to `iget`: mark a free inode allocated on the disk. -/
  | ialloc (type : BitVec 16)
  | readi (ip : Iptr) (off n : BitVec 32)
  | writei (ip : Iptr) (src : List UInt8) (off : BitVec 32)
  /-- Hand the reference in `curproc->cwd` over to `iput`. -/
  | takeCwd
  /-- `curproc->cwd = ip`. -/
  | setCwd (ip : Iptr)
  | filealloc
  | fdalloc (f : Fidx)
  /-- Fill in the `struct file` of an open inode. -/
  | setFile (f : Fidx) (ip : Iptr) (omode : Nat)
  /-- Fill in the `struct file` of an end of a pipe. -/
  | setPipe (f : Fidx) (writable : Bool)
  /-- `argfd`, with the fields of the file. -/
  | argfd (fd : Int)
  /-- `f->off`. -/
  | off (f : Fidx)
  /-- `f->off += r`. -/
  | advance (f : Fidx) (r : Nat)
  /-- `fdalloc(f)` and, if there is a descriptor, `filedup(f)`. -/
  | dup (f : Fidx)
  /-- `ofile[fd] = 0`, and the file that was there. -/
  | takeFd (fd : Fd)
  /-- The section of `fileclose`: the fields of a file nobody has open any more. -/
  | fileclose (f : Fidx)
  /-- `kalloc` in `pipealloc`. -/
  | kalloc
  | allocproc
  | copyuvm (np : Fin N)
  /-- `if(curproc->ofile[fd]) np->ofile[fd] = filedup(curproc->ofile[fd])`. -/
  | forkFd (np : Fin N) (fd : Fd)
  /-- `np->cwd = idup(curproc->cwd)`. -/
  | forkCwd (np : Fin N)
  /-- `np->state = RUNNABLE`. -/
  | runnable (np : Fin N)
  /-- `curproc->state = ZOMBIE`. -/
  | zombie
  | panic (why : SysPanic)

/-- What an operation answers. -/
@[reducible] def Resp {N : Nat} : Op N → Type
  | .iget _ | .idupCwd | .takeCwd => Iptr
  | .inum _ | .ialloc _ => Nat
  | .inode _ => DiskInode
  | .lastRef _ | .isdirempty _ | .kalloc | .copyuvm _ => Bool
  | .lookup _ _ => Option (Nat × Nat)
  | .readi .. => Option (List UInt8)
  | .writei .. => Option Nat
  | .filealloc | .takeFd _ => Option Fidx
  | .fdalloc _ | .dup _ => Option Fd
  | .argfd _ => Option (Fidx × File)
  | .off _ => BitVec 32
  | .fileclose _ => Option File
  | .allocproc => Option (Fin N)
  | .panic _ => Empty
  | _ => Unit

inductive Outcome (S R : Type) where
  | ok (s : S) (r : R)
  /-- The operation cannot be performed in this state. -/
  | blocked
  | panic (why : SysPanic)

variable {N : Nat}

def Sys.setRef (s : Sys N) (ip : Iptr) (g : Nat → Nat) : Sys N :=
  { s with files := s.files.setInode ip fun i => { i with ref := g i.ref } }

def Sys.setFile (s : Sys N) (f : Fidx) (g : File → File) : Sys N :=
  { s with file := fun f' => if f' = f then g (s.file f) else s.file f' }

def Sys.setOfile (s : Sys N) (p : Fin N) (fd : Fd) (v : Option Fidx) : Sys N :=
  { s with ofile := fun p' fd' => if p' = p ∧ fd' = fd then v else s.ofile p' fd' }

def Sys.setLock (s : Sys N) (ip : Iptr) (v : Option (Fin N)) : Sys N :=
  { s with lock := Function.update s.lock ip v }

def Sys.setCwd (s : Sys N) (p : Fin N) (v : Option Iptr) : Sys N :=
  { s with cwd := Function.update s.cwd p v }

def Sys.setState (s : Sys N) (p : Fin N) (v : Procstate) : Sys N :=
  { s with state := Function.update s.state p v }

/-- What a function on the disk and the inode cache comes to. -/
def Sys.lift {R : Type} (s : Sys N) : Except SysPanic (Inodes.Files × R) → Outcome (Sys N) R
  | .ok (fs, r) => .ok { s with files := fs } r
  | .error why => .panic why

/-- A function of `fs.c`. -/
def fs {R : Type} : Except Inodes.Panic R → Except SysPanic R := Except.mapError .fs

theorem toNat_fd {fd : Int} (h : 0 ≤ fd ∧ fd < NOFILE) : fd.toNat < NOFILE := by omega

/-- `fd < 0 || fd >= NOFILE`. -/
def toFd (fd : Int) : Option Fd :=
  if h : 0 ≤ fd ∧ fd < NOFILE then some ⟨fd.toNat, toNat_fd h⟩ else none

/-- The loop of `isdirempty` from offset `off`. -/
def isdiremptyLoop (sb : Superblock) (devsw : Nat → Devsw) (dp : Iptr) : Nat → Inodes.Files →
    Nat → Except SysPanic (Inodes.Files × Bool)
  | 0, s, _ => .ok (s, true)
  | fuel + 1, s, off =>
      if off < (s.icache dp).din.size.toNat then do
        let (s, r) ← fs (Inodes.readInode sb devsw s dp (BitVec.ofNat 32 off) 16)
        match r with
        | some de =>
            if de.length ≠ 16 then .error .isdirempty
            else if Inodes.deInum de ≠ 0 then .ok (s, false)
            else isdiremptyLoop sb devsw dp fuel s (off + 16)
        | none => .error .isdirempty
      else .ok (s, true)

/-- `dirlink` after its check that the name is not present. -/
def addEntry (sb : Superblock) (devsw : Nat → Devsw) (s : Inodes.Files) (dp : Iptr)
    (name : List UInt8) (inum : Nat) : Except Inodes.Panic (Inodes.Files × Unit) := do
  let (s, off) ← Inodes.emptyDirent sb devsw dp Inodes.dirRounds s 0
  let (s, r) ← Inodes.writeInode sb devsw s dp (Inodes.mkDirent inum name) (BitVec.ofNat 32 off)
  if r = some 16 then return (s, ()) else .error .dirlink

/-- `memset(&de, 0, sizeof(de)); if(writei(dp, (char*)&de, off, sizeof(de)) != …`. -/
def clearEntry (sb : Superblock) (devsw : Nat → Devsw) (s : Inodes.Files) (dp : Iptr)
    (off : Nat) : Except Inodes.Panic (Inodes.Files × Unit) := do
  let (s, r) ← Inodes.writeInode sb devsw s dp (List.replicate 16 0) (BitVec.ofNat 32 off)
  if r = some 16 then return (s, ()) else .error .unlinkWritei

/-- `dip->type == 0` for `inum` in the range `ialloc` searches. -/
def isFree (sb : Superblock) (d : Disk) (inum : Nat) : Bool :=
  1 ≤ inum && inum < sb.ninodes && (d.dinode sb inum).type = 0

/-- What process `p` does by an operation. `pick` says which free inode an `ialloc`
finds, which other processes have a hand in, and whether there is memory. -/
def opStep (sb : Superblock) (devsw : Nat → Devsw) (pick : Nat) (s : Sys N) (p : Fin N) :
    (o : Op N) → Outcome (Sys N) (Resp o)
  | .iget inum => s.lift (fs (Inodes.iget s.files inum))
  | .idupCwd =>
      match s.cwd p with
      | some ip => .ok { s with files := Inodes.idup s.files ip } ip
      | none => .blocked
  | .acquiresleep ip inPut =>
      if inPut = false ∧ (s.files.icache ip).ref < 1 then .panic (.fs .ilock)
      else match s.lock ip with
        | some _ => .blocked
        | none => .ok (s.setLock ip (some p)) ()
  | .load ip => s.lift (fs ((Inodes.ilock sb s.files ip).map (·, ())))
  | .iunlock ip =>
      if s.lock ip ≠ some p ∨ (s.files.icache ip).ref < 1 then .panic .iunlock
      else .ok (s.setLock ip none) ()
  | .inum ip => .ok s (s.files.icache ip).inum
  | .inode ip => .ok s (s.files.icache ip).din
  | .lastRef ip =>
      let i := s.files.icache ip
      .ok s (i.valid && i.din.nlink = 0 && i.ref = 1)
  | .freeInode ip => s.lift (fs ((Inodes.freeInode sb s.files ip).map (·, ())))
  | .releasesleep ip => .ok (s.setLock ip none) ()
  | .decref ip => .ok (s.setRef ip (· - 1)) ()
  | .lookup dp name =>
      if (s.files.icache dp).din.type ≠ T_DIR then .panic (.fs .notDir)
      else s.lift (fs (Inodes.dirlookupLoop sb devsw dp name Inodes.dirRounds s.files 0))
  | .isdirempty dp => s.lift (isdiremptyLoop sb devsw dp Inodes.dirRounds s.files 32)
  | .addEntry dp name inum =>
      s.lift (fs (addEntry sb devsw s.files dp name inum))
  | .clearEntry dp off =>
      s.lift (fs (clearEntry sb devsw s.files dp off))
  | .addNlink ip k =>
      let v := (s.files.icache ip).din
      .ok { s with files := Inodes.setLinks sb s.files ip v.major v.minor (v.nlink + k) } ()
  | .setNew ip major minor =>
      .ok { s with files := Inodes.setLinks sb s.files ip major minor 1 } ()
  | .ialloc type =>
      if (List.range sb.ninodes).all (fun inum => !isFree sb s.files.disk inum) then
        .panic (.fs .ialloc)
      else if isFree sb s.files.disk pick then
        .ok { s with files.disk :=
          s.files.disk.setDinode sb pick { DiskInode.zero with type := type } } pick
      else .blocked
  | .readi ip off n => s.lift (fs (Inodes.readInode sb devsw s.files ip off n))
  | .writei ip src off => s.lift (fs (Inodes.writeInode sb devsw s.files ip src off))
  | .takeCwd =>
      match s.cwd p with
      | some ip => .ok (s.setCwd p none) ip
      | none => .blocked
  | .setCwd ip => .ok (s.setCwd p (some ip)) ()
  | .filealloc =>
      match (List.finRange NFILE).find? fun f => (s.file f).ref = 0 with
      | some f => .ok (s.setFile f fun g => { g with ref := 1 }) (some f)
      | none => .ok s none
  | .fdalloc f =>
      match (List.finRange NOFILE).find? fun fd => s.ofile p fd = none with
      | some fd => .ok (s.setOfile p fd (some f)) (some fd)
      | none => .ok s none
  | .setFile f ip omode =>
      .ok (s.setFile f fun g =>
        { g with
          type := .FD_INODE
          ip := ip
          off := 0
          readable := omode &&& O_WRONLY = 0
          writable := omode &&& O_WRONLY ≠ 0 ∨ omode &&& O_RDWR ≠ 0 }) ()
  | .setPipe f writable =>
      .ok (s.setFile f fun g =>
        { g with type := .FD_PIPE, readable := !writable, writable := writable }) ()
  | .argfd fd =>
      .ok s (((toFd fd).bind (s.ofile p)).map fun f => (f, s.file f))
  | .off f => .ok s (s.file f).off
  | .advance f r => .ok (s.setFile f fun g => { g with off := g.off + BitVec.ofNat 32 r }) ()
  | .dup f =>
      match (List.finRange NOFILE).find? fun fd => s.ofile p fd = none with
      | none => .ok s none
      | some fd =>
          if (s.file f).ref < 1 then .panic .filedup
          else .ok ((s.setOfile p fd (some f)).setFile f fun g => { g with ref := g.ref + 1 })
            (some fd)
  | .takeFd fd => .ok (s.setOfile p fd none) (s.ofile p fd)
  | .fileclose f =>
      let ff := s.file f
      if ff.ref < 1 then .panic .fileclose
      else if ff.ref - 1 > 0 then .ok (s.setFile f fun g => { g with ref := g.ref - 1 }) none
      else .ok (s.setFile f fun g => { g with ref := 0, type := .FD_NONE }) (some ff)
  | .kalloc => .ok s (pick ≠ 0)
  | .allocproc =>
      if pick = 0 then .ok s none
      else match (List.finRange N).find? fun np => s.state np = .UNUSED with
        | some np => .ok (s.setState np .EMBRYO) (some np)
        | none => .ok s none
  | .copyuvm np => if pick = 0 then .ok (s.setState np .UNUSED) false else .ok s true
  | .forkFd np fd =>
      match s.ofile p fd with
      | none => .ok s ()
      | some f =>
          if (s.file f).ref < 1 then .panic .filedup
          else .ok ((s.setFile f fun g => { g with ref := g.ref + 1 }).setOfile np fd (some f)) ()
  | .forkCwd np =>
      match s.cwd p with
      | some ip => .ok ({ s with files := Inodes.idup s.files ip }.setCwd np (some ip)) ()
      | none => .blocked
  | .runnable np => .ok (s.setState np .RUNNABLE) ()
  | .zombie => .ok (s.setState p .ZOMBIE) ()
  | .panic why => .panic why

/-! ## The functions -/

abbrev SysProg (N : Nat) (α : Type) := Prog (Op N) Resp α

/-- One operation. -/
abbrev perform (o : Op N) : SysProg N (Resp o) := Prog.perform o

def panic (why : SysPanic) {α : Type} : SysProg N α := .op (.panic why) nofun

def ilock (ip : Iptr) : SysProg N Unit := do
  perform (.acquiresleep ip false)
  perform (.load ip)

def iunlock (ip : Iptr) : SysProg N Unit := perform (.iunlock ip)

def iput (ip : Iptr) : SysProg N Unit := do
  perform (.acquiresleep ip true)
  if ← perform (.lastRef ip) then
    perform (.freeInode ip)
  perform (.releasesleep ip)
  perform (.decref ip)

def iunlockput (ip : Iptr) : SysProg N Unit := do
  iunlock ip
  iput ip

/-- The console's driver releases the inode's lock while it waits for its own. -/
def console (ip : Iptr) : SysProg N Unit := do
  let i ← perform (.inode ip)
  if i.type = T_DEV ∧ i.major.toInt = CONSOLE then
    iunlock ip
    ilock ip

def readi (ip : Iptr) (off n : BitVec 32) : SysProg N (Option (List UInt8)) := do
  console ip
  perform (.readi ip off n)

def writei (ip : Iptr) (src : List UInt8) (off : BitVec 32) : SysProg N (Option Nat) := do
  console ip
  perform (.writei ip src off)

/-- The inode an entry names, with the entry's offset. -/
def dirlookup (dp : Iptr) (name : List UInt8) : SysProg N (Option (Iptr × Nat)) := do
  match ← perform (.lookup dp name) with
  | none => pure none
  | some (inum, off) =>
      let ip ← perform (.iget inum)
      pure (some (ip, off))

/-- `false` for -1. -/
def dirlink (dp : Iptr) (name : List UInt8) (inum : Nat) : SysProg N Bool := do
  match ← dirlookup dp name with
  | some (ip, _) =>
      iput ip
      pure false
  | none =>
      perform (.addEntry dp name inum)
      pure true

/-- The loop of `namex`. `*path == '\0'` in the source is the test that no element is
left. -/
def namexLoop (parent : Bool) : List Name → Iptr → Name → SysProg N (Option (Iptr × Name))
  | [], ip, name =>
      if parent then do
        iput ip
        pure none
      else pure (some (ip, name))
  | name :: rest, ip, _ => do
      ilock ip
      let i ← perform (.inode ip)
      if i.type ≠ T_DIR then
        iunlockput ip
        pure none
      else if parent ∧ rest = [] then
        -- Stop one level early.
        iunlock ip
        pure (some (ip, name))
      else
        match ← dirlookup ip name with
        | none =>
            iunlockput ip
            pure none
        | some (next, _) =>
            iunlockput ip
            namexLoop parent rest next name

/-- Where `namex` starts. -/
def namexStart (path : Path) : SysProg N Iptr :=
  if path.head? = some 47 then perform (.iget ROOTINO) else perform .idupCwd

def namex (path : Path) (parent : Bool) : SysProg N (Option (Iptr × Name)) := do
  let ip ← namexStart path
  namexLoop parent (elems path) ip []

def namei (path : Path) : SysProg N (Option Iptr) := do
  pure ((← namex path false).map Prod.fst)

def nameiparent (path : Path) : SysProg N (Option (Iptr × Name)) := namex path true

/-- `sys_link` from `bad:` on. -/
def linkBad (ip : Iptr) : SysProg N Int := do
  ilock ip
  perform (.addNlink ip (-1))
  iunlockput ip
  pure (-1)

def sysLink (old new : Path) : SysProg N Int := do
  match ← namei old with
  | none => pure (-1)
  | some ip =>
      ilock ip
      let i ← perform (.inode ip)
      if i.type = T_DIR then
        iunlockput ip
        pure (-1)
      else
        perform (.addNlink ip 1)
        iunlock ip
        match ← nameiparent new with
        | none => linkBad ip
        | some (dp, name) =>
            ilock dp
            let inum ← perform (.inum ip)
            if ← dirlink dp name inum then
              iunlockput dp
              iput ip
              pure 0
            else
              iunlockput dp
              linkBad ip

/-- `sys_unlink` from `bad:` on. -/
def unlinkBad (dp : Iptr) : SysProg N Int := do
  iunlockput dp
  pure (-1)

/-- `sys_unlink` from the write of the zero entry on. -/
def unlinkEntry (dp ip : Iptr) (off : Nat) (type : BitVec 16) : SysProg N Int := do
  perform (.clearEntry dp off)
  if type = T_DIR then
    perform (.addNlink dp (-1))
  iunlockput dp
  perform (.addNlink ip (-1))
  iunlockput ip
  pure 0

def sysUnlink (path : Path) : SysProg N Int := do
  match ← nameiparent path with
  | none => pure (-1)
  | some (dp, name) =>
      ilock dp
      -- Cannot unlink "." or "..".
      if Inodes.namecmp name dot ∨ Inodes.namecmp name dotdot then unlinkBad dp
      else
        match ← dirlookup dp name with
        | none => unlinkBad dp
        | some (ip, off) =>
            ilock ip
            let i ← perform (.inode ip)
            if i.nlink.toInt < 1 then panic .unlinkNlink
            else if i.type = T_DIR then
              if ← perform (.isdirempty ip) then unlinkEntry dp ip off i.type
              else
                iunlockput ip
                unlinkBad dp
            else unlinkEntry dp ip off i.type

/-- `create` from `ialloc` on. -/
def createNew (dp : Iptr) (name : Name) (type major minor : BitVec 16) : SysProg N Iptr := do
  let inum ← perform (.ialloc type)
  let ip ← perform (.iget inum)
  ilock ip
  perform (.setNew ip major minor)
  if type = T_DIR then
    perform (.addNlink dp 1)
    unless ← dirlink ip dot (← perform (.inum ip)) do panic .createDots
    unless ← dirlink ip dotdot (← perform (.inum dp)) do panic .createDots
  unless ← dirlink dp name (← perform (.inum ip)) do panic .createDirlink
  iunlockput dp
  pure ip

/-- The inode returned is locked. -/
def create (path : Path) (type major minor : BitVec 16) : SysProg N (Option Iptr) := do
  match ← nameiparent path with
  | none => pure none
  | some (dp, name) =>
      ilock dp
      match ← dirlookup dp name with
      | some (ip, _) =>
          iunlockput dp
          ilock ip
          let i ← perform (.inode ip)
          if type = T_FILE ∧ i.type = T_FILE then pure (some ip)
          else
            iunlockput ip
            pure none
      | none => return some (← createNew dp name type major minor)

/-- `sys_open` up to `filealloc`; the inode returned is locked. -/
def openInode (path : Path) (omode : Nat) : SysProg N (Option Iptr) := do
  if omode &&& O_CREATE ≠ 0 then create path T_FILE 0 0
  else
    match ← namei path with
    | none => pure none
    | some ip =>
        ilock ip
        let i ← perform (.inode ip)
        if i.type = T_DIR ∧ omode ≠ O_RDONLY then
          iunlockput ip
          pure none
        else pure (some ip)

def fileclose (f : Fidx) : SysProg N Unit := do
  match ← perform (.fileclose f) with
  | some ff => if ff.type = .FD_INODE then iput ff.ip
  | none => pure ()

def sysOpen (path : Path) (omode : Nat) : SysProg N Int := do
  match ← openInode path omode with
  | none => pure (-1)
  | some ip =>
      match ← perform .filealloc with
      | none =>
          iunlockput ip
          pure (-1)
      | some f =>
          match ← perform (.fdalloc f) with
          | none =>
              fileclose f
              iunlockput ip
              pure (-1)
          | some fd =>
              iunlock ip
              perform (.setFile f ip omode)
              pure fd.val

/-- `sys_mkdir` and `sys_mknod`. -/
def sysMake (path : Path) (type major minor : BitVec 16) : SysProg N Int := do
  match ← create path type major minor with
  | none => pure (-1)
  | some ip =>
      iunlockput ip
      pure 0

def sysMkdir (path : Path) : SysProg N Int := sysMake path T_DIR 0 0

def sysMknod (path : Path) (major minor : BitVec 16) : SysProg N Int :=
  sysMake path T_DEV major minor

def sysChdir (path : Path) : SysProg N Int := do
  match ← namei path with
  | none => pure (-1)
  | some ip =>
      ilock ip
      let i ← perform (.inode ip)
      if i.type ≠ T_DIR then
        iunlockput ip
        pure (-1)
      else
        iunlock ip
        iput (← perform .takeCwd)
        perform (.setCwd ip)
        pure 0

def readAll (ip : Iptr) : List (BitVec 32 × BitVec 32) → SysProg N Unit
  | [] => pure ()
  | (off, n) :: rest => do
      let _ ← readi ip off n
      readAll ip rest

/-- `exec` as far as inodes go: it looks the file up and reads parts of it. -/
def sysExec (path : Path) (reads : List (BitVec 32 × BitVec 32)) : SysProg N Int := do
  match ← namei path with
  | none => pure (-1)
  | some ip =>
      ilock ip
      readAll ip reads
      iunlockput ip
      pure 0

def fileread (f : Fidx) (ff : File) (n : BitVec 32) : SysProg N Int := do
  if ff.readable = false then pure (-1)
  else match ff.type with
    | .FD_PIPE => pure 0
    | .FD_INODE => do
        ilock ff.ip
        let r ← readi ff.ip (← perform (.off f)) n
        match r with
        | some bytes => perform (.advance f bytes.length)
        | none => pure ()
        iunlock ff.ip
        pure (match r with
          | some bytes => (bytes.length : Int)
          | none => -1)
    | .FD_NONE => panic .fileread

/-- The loop of `filewrite`: chunks of at most three blocks. -/
def filewriteLoop (f : Fidx) (ip : Iptr) : List (List UInt8) → SysProg N Int
  | [] => pure 0
  | src :: rest => do
      ilock ip
      let r ← writei ip src (← perform (.off f))
      match r with
      | some n => perform (.advance f n)
      | none => pure ()
      iunlock ip
      match r with
      | none => pure (-1)
      | some n =>
          if n ≠ src.length then panic .shortFilewrite
          else filewriteLoop f ip rest

def filewrite (f : Fidx) (ff : File) (src : List UInt8) : SysProg N Int := do
  if ff.writable = false then pure (-1)
  else match ff.type with
    | .FD_PIPE => pure 0
    | .FD_INODE => do
        let max := (MAXOPBLOCKS - 1 - 1 - 2) / 2 * 512
        if (← filewriteLoop f ff.ip (src.toChunks max)) = 0 then pure src.length else pure (-1)
    | .FD_NONE => panic .filewrite

def sysRead (fd : Int) (n : BitVec 32) : SysProg N Int := do
  match ← perform (.argfd fd) with
  | none => pure (-1)
  | some (f, ff) => fileread f ff n

def sysWrite (fd : Int) (src : List UInt8) : SysProg N Int := do
  match ← perform (.argfd fd) with
  | none => pure (-1)
  | some (f, ff) => filewrite f ff src

def sysFstat (fd : Int) : SysProg N Int := do
  match ← perform (.argfd fd) with
  | none => pure (-1)
  | some (_, ff) =>
      if ff.type = .FD_INODE then
        ilock ff.ip
        let _ ← perform (.inode ff.ip)
        iunlock ff.ip
        pure 0
      else pure (-1)

def sysDup (fd : Int) : SysProg N Int := do
  match ← perform (.argfd fd) with
  | none => pure (-1)
  | some (f, _) =>
      match ← perform (.dup f) with
      | none => pure (-1)
      | some fd => pure fd.val

def sysClose (fd : Int) : SysProg N Int := do
  match toFd fd with
  | none => pure (-1)
  | some fd =>
      match ← perform (.takeFd fd) with
      | none => pure (-1)
      | some f =>
          fileclose f
          pure 0

/-- `pipealloc`. -/
def pipealloc : SysProg N (Option (Fidx × Fidx)) := do
  match ← perform .filealloc with
  | none => pure none
  | some f0 =>
      match ← perform .filealloc with
      | none =>
          fileclose f0
          pure none
      | some f1 =>
          if ← perform .kalloc then
            perform (.setPipe f0 false)
            perform (.setPipe f1 true)
            pure (some (f0, f1))
          else
            fileclose f0
            fileclose f1
            pure none

def sysPipe : SysProg N Int := do
  match ← pipealloc with
  | none => pure (-1)
  | some (rf, wf) =>
      match ← perform (.fdalloc rf) with
      | none =>
          fileclose rf
          fileclose wf
          pure (-1)
      | some fd0 =>
          match ← perform (.fdalloc wf) with
          | none =>
              let _ ← perform (.takeFd fd0)
              fileclose rf
              fileclose wf
              pure (-1)
          | some _ => pure 0

/-- The loop of `fork` over the descriptors. -/
def forkFds (np : Fin N) : List Fd → SysProg N Unit
  | [] => pure ()
  | fd :: fds => do
      perform (.forkFd np fd)
      forkFds np fds

def sysFork : SysProg N Int := do
  match ← perform .allocproc with
  | none => pure (-1)
  | some np =>
      if ← perform (.copyuvm np) then
        forkFds np (List.finRange NOFILE)
        perform (.forkCwd np)
        perform (.runnable np)
        pure np.val
      else pure (-1)

/-- The loop of `exit` over the descriptors. -/
def closeAll : List Fd → SysProg N Unit
  | [] => pure ()
  | fd :: fds => do
      match ← perform (.takeFd fd) with
      | none => closeAll fds
      | some f =>
          fileclose f
          closeAll fds

def sysExit (p : Fin N) : SysProg N Int := do
  if p.val = 0 then panic .initExiting
  else
    closeAll (List.finRange NOFILE)
    iput (← perform .takeCwd)
    perform .zombie
    pure 0

/-! ## Processes -/

/-- A system call with its arguments; `badArgs` is one whose arguments are refused. -/
inductive Syscall where
  | badArgs
  | open (path : Path) (omode : Nat)
  | mkdir (path : Path)
  | mknod (path : Path) (major minor : BitVec 16)
  | link (old new : Path)
  | unlink (path : Path)
  | chdir (path : Path)
  | exec (path : Path) (reads : List (BitVec 32 × BitVec 32))
  | read (fd : Int) (n : BitVec 32)
  | write (fd : Int) (src : List UInt8)
  | fstat (fd : Int)
  | dup (fd : Int)
  | close (fd : Int)
  | pipe
  | fork
  | exit

def Syscall.prog (p : Fin N) : Syscall → SysProg N Int
  | .badArgs => pure (-1)
  | .open path omode => sysOpen path omode
  | .mkdir path => sysMkdir path
  | .mknod path major minor => sysMknod path major minor
  | .link old new => sysLink old new
  | .unlink path => sysUnlink path
  | .chdir path => sysChdir path
  | .exec path reads => sysExec path reads
  | .read fd n => sysRead fd n
  | .write fd src => sysWrite fd src
  | .fstat fd => sysFstat fd
  | .dup fd => sysDup fd
  | .close fd => sysClose fd
  | .pipe => sysPipe
  | .fork => sysFork
  | .exit => sysExit p

/-- The shared state and what each process has still to do in its system call; a process
in user mode has nothing to do. -/
structure Machine (N : Nat) where
  sys : Sys N
  prog : Fin N → SysProg N Int

inductive Act (N : Nat) where
  | call (p : Fin N) (c : Syscall)
  | step (p : Fin N) (pick : Nat)
  /-- Some parent's `wait` frees the slot of an exited process. -/
  | reap (p : Fin N)

def Machine.idle (m : Machine N) (p : Fin N) : Bool := (m.prog p).head.isNone

def Machine.setProg (m : Machine N) (p : Fin N) (x : SysProg N Int) : Machine N :=
  { m with prog := Function.update m.prog p x }

/-- A step of the system. Only processes that are `RUNNABLE` run, and the states between
sleeping and running are not told apart. A panic stops the system, so it is no step. -/
def sysStep (sb : Superblock) (devsw : Nat → Devsw) (m : Machine N) :
    Act N → Option (Machine N)
  | .call p c =>
      if m.idle p = true ∧ m.sys.state p = .RUNNABLE then some (m.setProg p (c.prog p)) else none
  | .step p pick =>
      if m.sys.state p = .RUNNABLE then
        match m.prog p with
        | .ret _ => none
        | .op o k =>
            match opStep sb devsw pick m.sys p o with
            | .ok s r => some { m.setProg p (k r) with sys := s }
            | .blocked | .panic _ => none
      else none
  | .reap p =>
      if m.idle p = true ∧ m.sys.state p = .ZOMBIE then
        some { m with sys := m.sys.setState p .UNUSED }
      else none

/-- Process `p` alone, to the end of a program. -/
def alone (sb : Superblock) (devsw : Nat → Devsw) (pick : Nat) (p : Fin N) {α : Type} :
    SysProg N α → Sys N → Outcome (Sys N) α
  | .ret a, s => .ok s a
  | .op o k, s =>
      match opStep sb devsw pick s p o with
      | .ok s r => alone sb devsw pick p (k r) s
      | .blocked => .blocked
      | .panic why => .panic why

/-- `init` has been made: its `cwd` is the first entry of the inode cache. -/
def Machine.boot (N : Nat) (disk : Disk) : Machine N where
  sys :=
    { files :=
        { disk := disk
          icache := fun ip =>
            if ip.val = 0 then ⟨ROOTINO, 1, false, DiskInode.zero⟩
            else ⟨0, 0, false, DiskInode.zero⟩ }
      lock := fun _ => none
      file := fun _ => ⟨.FD_NONE, 0, false, false, ⟨0, by decide⟩, 0⟩
      state := fun p => if p.val = 0 then .RUNNABLE else .UNUSED
      cwd := fun p => if p.val = 0 then some ⟨0, by decide⟩ else none
      ofile := fun _ _ => none }
  prog := fun _ => .ret 0

end Xv6.Ref.Sysfile
