import Xv6.Lib.Except
import Xv6.Lib.Sum
import Xv6.Proofs.IcacheRules

/-!
# The references there are to inodes and to files

The count in an entry of the inode cache is the number of the references there are: in
the variables of the system calls under way, in the `cwd` of a process, and in open
files. For the open files the counts of the file table have to be exact as well.
-/

namespace Xv6.Ref.Sysfile

open Xv6.Lib
open Xv6.Ref.Inodes (Iptr Devsw)
open Xv6.Ref.Ftable (FdType Fidx Fd)

variable {N : Nat}

/-! ## Counting -/

def cwdRef (v : Option Iptr) (e : Iptr) : Nat := if v = some e then 1 else 0

/-- The reference of a `struct file` that is in use. -/
def File.inodeRef (f : File) (e : Iptr) : Nat :=
  if 0 < f.ref ∧ f.type = .FD_INODE ∧ f.ip = e then 1 else 0

def fdRef (v : Option Fidx) (f : Fidx) : Nat := if v = some f then 1 else 0

/-- All the references to an inode. -/
def inodeRefs (s : Sys N) (L : Fin N → Loc N) (e : Iptr) : Nat :=
  (∑ p, (cwdRef (s.cwd p) e + (L p).temp.count e)) + ∑ f, (s.file f).inodeRef e

/-- The references of one process to a file. -/
def holds (s : Sys N) (l : Loc N) (p : Fin N) (f : Fidx) : Nat :=
  (∑ fd, fdRef (s.ofile p fd) f) + l.ftemp.count f

def fileRefs (s : Sys N) (L : Fin N → Loc N) (f : Fidx) : Nat := ∑ p, holds s (L p) p f

variable {s s' : Sys N} {L : Fin N → Loc N} {p q : Fin N} {l l' : Loc N} {e : Iptr} {f : Fidx}

theorem inodeRefs_congr (hcwd : s'.cwd = s.cwd)
    (hfile : ∀ f e, (s'.file f).inodeRef e = (s.file f).inodeRef e) :
    inodeRefs s' L e = inodeRefs s L e := by
  rw [inodeRefs, inodeRefs, hcwd, Finset.sum_congr rfl fun f _ => hfile f e]

theorem inodeRefs_loc (l' : Loc N) :
    inodeRefs s (Function.update L p l') e + (L p).temp.count e =
      inodeRefs s L e + l'.temp.count e := by
  have h := sum_change (f := fun q => cwdRef (s.cwd q) e + (Function.update L p l' q).temp.count e)
    (g := fun q => cwdRef (s.cwd q) e + (L q).temp.count e) (i := p) fun q hq => by
      rw [Function.update_of_ne hq]
  rw [Function.update_self] at h
  rw [inodeRefs, inodeRefs]
  omega

theorem inodeRefs_setCwd (v : Option Iptr) :
    inodeRefs (s.setCwd p v) L e + cwdRef (s.cwd p) e = inodeRefs s L e + cwdRef v e := by
  have h := sum_change (f := fun q => cwdRef (Function.update s.cwd p v q) e + (L q).temp.count e)
    (g := fun q => cwdRef (s.cwd q) e + (L q).temp.count e) (i := p) fun q hq => by
      rw [Function.update_of_ne hq]
  rw [Function.update_self] at h
  rw [inodeRefs, inodeRefs]
  show _ + (∑ f, (s.file f).inodeRef e) + _ = _
  show (∑ q, (cwdRef (Function.update s.cwd p v q) e + (L q).temp.count e)) + _ + _ = _
  omega

@[simp] theorem setFile_same (g : File → File) : (s.setFile f g).file f = g (s.file f) := if_pos rfl

theorem setFile_other (g : File → File) {f' : Fidx} (h : f' ≠ f) :
    (s.setFile f g).file f' = s.file f' := if_neg h

theorem inodeRefs_setFile (g : File → File) :
    inodeRefs (s.setFile f g) L e + (s.file f).inodeRef e =
      inodeRefs s L e + (g (s.file f)).inodeRef e := by
  have h := sum_change (f := fun f' => ((s.setFile f g).file f').inodeRef e)
    (g := fun f' => (s.file f').inodeRef e) (i := f) fun f' hf => by rw [setFile_other g hf]
  rw [setFile_same] at h
  rw [inodeRefs, inodeRefs]
  show (∑ p, (cwdRef (s.cwd p) e + (L p).temp.count e)) + _ + _ = _
  omega

theorem fileRefs_loc (l' : Loc N) :
    fileRefs s (Function.update L p l') f + (L p).ftemp.count f =
      fileRefs s L f + l'.ftemp.count f := by
  have h := sum_change (f := fun q => holds s (Function.update L p l' q) q f)
    (g := fun q => holds s (L q) q f) (i := p) fun q hq => by rw [Function.update_of_ne hq]
  rw [Function.update_self, holds, holds] at h
  rw [fileRefs, fileRefs]
  omega

theorem setOfile_same (fd : Fd) (v : Option Fidx) : (s.setOfile p fd v).ofile p fd = v :=
  if_pos ⟨rfl, rfl⟩

theorem setOfile_other {fd fd' : Fd} (v : Option Fidx) (h : ¬ (q = p ∧ fd' = fd)) :
    (s.setOfile p fd v).ofile q fd' = s.ofile q fd' := if_neg h

theorem holds_setOfile {fd : Fd} (v : Option Fidx) :
    holds (s.setOfile p fd v) l p f + fdRef (s.ofile p fd) f = holds s l p f + fdRef v f := by
  have h := sum_change (f := fun fd' => fdRef ((s.setOfile p fd v).ofile p fd') f)
    (g := fun fd' => fdRef (s.ofile p fd') f) (i := fd) fun fd' hf => by
      rw [setOfile_other v fun hh => hf hh.2]
  rw [setOfile_same] at h
  rw [holds, holds]
  omega

theorem fileRefs_setOfile {fd : Fd} (v : Option Fidx) :
    fileRefs (s.setOfile p fd v) L f + fdRef (s.ofile p fd) f = fileRefs s L f + fdRef v f := by
  have hother : ∀ q ≠ p, ∀ fd' : Fd,
      fdRef ((s.setOfile p fd v).ofile q fd') f = fdRef (s.ofile q fd') f :=
    fun q hq fd' => by rw [setOfile_other v fun hh => hq hh.1]
  have h := sum_change (f := fun q => holds (s.setOfile p fd v) (L q) q f)
    (g := fun q => holds s (L q) q f) (i := p) fun q hq => by
      rw [holds, holds, Finset.sum_congr rfl fun fd' _ => hother q hq fd']
  have hp : holds (s.setOfile p fd v) (L p) p f + fdRef (s.ofile p fd) f =
      holds s (L p) p f + fdRef v f := holds_setOfile v
  rw [fileRefs, fileRefs]
  omega

theorem holds_le (p : Fin N) : holds s (L p) p f ≤ fileRefs s L f :=
  Finset.single_le_sum (f := fun p => holds s (L p) p f) (fun _ _ => Nat.zero_le _)
    (Finset.mem_univ p)

/-- Two processes that have a file open have two references. -/
theorem two_holds (hne : p ≠ q) (hp : 1 ≤ holds s (L p) p f) (hq : 1 ≤ holds s (L q) q f) :
    2 ≤ fileRefs s L f := by
  have h := Finset.add_le_sum (s := Finset.univ) (f := fun p => holds s (L p) p f)
    (fun _ _ => Nat.zero_le _) (Finset.mem_univ p) (Finset.mem_univ q) hne
  rw [fileRefs]
  omega

theorem one_le_holds {fd : Fd} (h : s.ofile p fd = some f) : 1 ≤ holds s l p f := by
  have := Finset.single_le_sum (f := fun fd => fdRef (s.ofile p fd) f)
    (fun _ _ => Nat.zero_le _) (Finset.mem_univ fd)
  rw [fdRef, if_pos h] at this
  rw [holds]
  omega

theorem one_le_holds_temp (h : f ∈ l.ftemp) : 1 ≤ holds s l p f :=
  Nat.le_add_left_of_le (Multiset.one_le_count_iff_mem.mpr h)

/-! ## The invariant -/

/-- The file table. -/
structure FilesOk (s : Sys N) (L : Fin N → Loc N) : Prop where
  ref : ∀ f, (s.file f).ref = fileRefs s L f
  unused : ∀ f, (s.file f).ref = 0 → (s.file f).type = .FD_NONE
  /-- A file that is allocated and not filled in has one reference. -/
  blank : ∀ p, ∀ f ∈ (L p).blank, (s.file f).type = .FD_NONE ∧ (s.file f).ref = 1 ∧
    1 ≤ holds s (L p) p f

/-- What a local state says about the processes. -/
structure ProcsOk (s : Sys N) (L : Fin N → Loc N) : Prop where
  desc : ∀ p fd f, (L p).desc = some (fd, f) → s.ofile p fd = some f
  closed : ∀ p, ∀ fd ∈ (L p).closed, s.ofile p fd = none
  away : ∀ p, (L p).away = true → s.cwd p = none
  child : ∀ p np fds b, (L p).child = some (np, fds, b) → s.state np = .EMBRYO ∧
    (b = false → s.cwd np = none) ∧ ∀ fd ∈ fds, s.ofile np fd = none
  parent : ∀ p q np fds fds' b b', (L p).child = some (np, fds, b) →
    (L q).child = some (np, fds', b') → p = q
  clear : ∀ p, s.state p = .UNUSED ∨ s.state p = .ZOMBIE →
    s.cwd p = none ∧ ∀ fd, s.ofile p fd = none
  /-- A process that does not run knows nothing. -/
  rest : ∀ p, s.state p ≠ .RUNNABLE →
    (L p).desc = none ∧ (L p).closed = ∅ ∧ (L p).away = false

structure SysInv (s : Sys N) (L : Fin N → Loc N) : Prop where
  ref : ∀ e, (s.files.icache e).ref = inodeRefs s L e
  single : ∀ e e', 0 < (s.files.icache e).ref → 0 < (s.files.icache e').ref →
    (s.files.icache e).inum = (s.files.icache e').inum → e = e'
  files : FilesOk s L
  procs : ProcsOk s L

/-! ## Changes of a part -/

section parts

/-- The file table depends on the descriptors and on the references in variables. -/
theorem FilesOk.congr (h : FilesOk s L) (hfile : s'.file = s.file) (hofile : s'.ofile = s.ofile)
    (hf : l'.ftemp = (L p).ftemp) (hb : l'.blank = (L p).blank) :
    FilesOk s' (Function.update L p l') := by
  have hholds : ∀ q f, holds s' (Function.update L p l' q) q f = holds s (L q) q f := by
    intro q f
    rw [holds, holds, hofile]
    rcases eq_or_ne q p with rfl | hq
    · rw [Function.update_self, hf]
    · rw [Function.update_of_ne hq]
  have hrefs : ∀ f, fileRefs s' (Function.update L p l') f = fileRefs s L f :=
    fun f => Finset.sum_congr rfl fun q _ => hholds q f
  refine ⟨fun f => ?_, ?_, fun q f hq => ?_⟩
  · rw [hrefs, hfile]
    exact h.ref f
  · rw [hfile]
    exact h.unused
  · rw [hholds, hfile]
    refine h.blank q f ?_
    rcases eq_or_ne q p with rfl | hne
    · rw [Function.update_self, hb] at hq
      exact hq
    · rwa [Function.update_of_ne hne] at hq

/-- The processes are as they were, and so is what is known of them. -/
theorem ProcsOk.congr (h : ProcsOk s L) (hrun : s.state p = .RUNNABLE)
    (hstate : s'.state = s.state) (hcwd : s'.cwd = s.cwd)
    (hofile : s'.ofile = s.ofile) (hd : ∀ fd f, l'.desc = some (fd, f) → s.ofile p fd = some f)
    (hc : ∀ fd ∈ l'.closed, s.ofile p fd = none) (ha : l'.away = true → s.cwd p = none)
    (hch : l'.child = (L p).child) : ProcsOk s' (Function.update L p l') := by
  have hchild : ∀ q, (Function.update L p l' q).child = (L q).child := by
    intro q
    rcases eq_or_ne q p with rfl | hq
    · rw [Function.update_self, hch]
    · rw [Function.update_of_ne hq]
  refine ⟨fun q fd f hq => ?_, fun q fd hq => ?_, fun q hq => ?_, fun q np fds b hq => ?_,
    fun q q' np fds fds' b b' hq hq' => ?_, fun q hq => ?_, fun q hq => ?_⟩
  · rw [hofile]
    rcases eq_or_ne q p with rfl | hne
    · rw [Function.update_self] at hq
      exact hd fd f hq
    · rw [Function.update_of_ne hne] at hq
      exact h.desc q fd f hq
  · rw [hofile]
    rcases eq_or_ne q p with rfl | hne
    · rw [Function.update_self] at hq
      exact hc fd hq
    · rw [Function.update_of_ne hne] at hq
      exact h.closed q fd hq
  · rw [hcwd]
    rcases eq_or_ne q p with rfl | hne
    · rw [Function.update_self] at hq
      exact ha hq
    · rw [Function.update_of_ne hne] at hq
      exact h.away q hq
  · rw [hchild] at hq
    rw [hstate, hcwd, hofile]
    exact h.child q np fds b hq
  · rw [hchild] at hq hq'
    exact h.parent q q' np fds fds' b b' hq hq'
  · rw [hstate] at hq
    rw [hcwd, hofile]
    exact h.clear q hq
  · rw [hstate] at hq
    rw [Function.update_of_ne (by rintro rfl; exact hq hrun)]
    exact h.rest q hq

/-- Nothing is known of the processes that was not known before. -/
theorem ProcsOk.same (h : ProcsOk s L) (hrun : s.state p = .RUNNABLE) (hstate : s'.state = s.state) (hcwd : s'.cwd = s.cwd)
    (hofile : s'.ofile = s.ofile) (hd : l'.desc = (L p).desc) (hc : l'.closed = (L p).closed)
    (ha : l'.away = (L p).away) (hch : l'.child = (L p).child) :
    ProcsOk s' (Function.update L p l') :=
  h.congr hrun hstate hcwd hofile (fun fd f hf => h.desc p fd f (hd ▸ hf))
    (fun fd hf => h.closed p fd (hc ▸ hf)) (fun hw => h.away p (ha ▸ hw)) hch

end parts

/-! ## Operations that change no count -/

/-- The counts and the numbers of the entries are as they were. -/
def SameRefs (a b : Inodes.Files) : Prop :=
  ∀ e, (b.icache e).ref = (a.icache e).ref ∧ (b.icache e).inum = (a.icache e).inum

theorem SameRefs.refl (a : Inodes.Files) : SameRefs a a := fun _ => ⟨rfl, rfl⟩

theorem SameRefs.trans {a b c : Inodes.Files} (h : SameRefs a b) (h' : SameRefs b c) :
    SameRefs a c :=
  fun e => ⟨(h' e).1.trans (h e).1, (h' e).2.trans (h e).2⟩

theorem sameRefs_setInode (a : Inodes.Files) {e : Iptr} {g : Inodes.Inode → Inodes.Inode}
    (hg : (g (a.icache e)).ref = (a.icache e).ref ∧ (g (a.icache e)).inum = (a.icache e).inum) :
    SameRefs a (a.setInode e g) := by
  intro e'
  rw [Inodes.Files.setInode]
  dsimp only
  split
  · next h =>
      subst h
      exact hg
  · exact ⟨rfl, rfl⟩

theorem sameRefs_update (a : Inodes.Files) (e : Iptr) (d : Disk) (ip : DiskInode) :
    SameRefs a (a.update e d ip) :=
  sameRefs_setInode a (e := e) (g := fun i => { i with din := ip }) ⟨rfl, rfl⟩

section

variable {sb : Superblock} {devsw : Nat → Devsw} {a b : Inodes.Files} {e : Iptr}

theorem sameRefs_readInode {off n : BitVec 32} {r : Option (List UInt8)}
    (h : Inodes.readInode sb devsw a e off n = .ok (b, r)) : SameRefs a b := by
  rw [Inodes.readInode] at h
  obtain ⟨⟨d, ip, r'⟩, _, h⟩ := bind_eq_ok.mp h
  cases h
  exact sameRefs_update a e d ip

theorem sameRefs_writeInode {src : List UInt8} {off : BitVec 32} {r : Option Nat}
    (h : Inodes.writeInode sb devsw a e src off = .ok (b, r)) : SameRefs a b := by
  rw [Inodes.writeInode] at h
  obtain ⟨⟨d, ip, r'⟩, _, h⟩ := bind_eq_ok.mp h
  cases h
  exact sameRefs_update a e d ip

theorem sameRefs_ilock (h : Inodes.ilock sb a e = .ok b) : SameRefs a b := by
  rw [Inodes.ilock] at h
  split at h
  · cases h
  · split at h
    · cases h
      exact SameRefs.refl a
    · dsimp only at h
      split at h
      · cases h
      · cases h
        exact sameRefs_setInode a ⟨rfl, rfl⟩

theorem sameRefs_freeInode (h : Inodes.freeInode sb a e = .ok b) : SameRefs a b := by
  rw [Inodes.freeInode] at h
  obtain ⟨⟨d, ip⟩, _, h⟩ := bind_eq_ok.mp h
  cases h
  exact (sameRefs_update a e _ _).trans (sameRefs_setInode _ ⟨rfl, rfl⟩)

theorem sameRefs_setLinks (a : Inodes.Files) (e : Iptr) (major minor nlink : BitVec 16) :
    SameRefs a (Inodes.setLinks sb a e major minor nlink) :=
  sameRefs_update a e _ _

theorem sameRefs_dirlookupLoop {name : List UInt8} {r : Option (Nat × Nat)} :
    ∀ {fuel off : Nat} {a : Inodes.Files},
      Inodes.dirlookupLoop sb devsw e name fuel a off = .ok (b, r) → SameRefs a b := by
  intro fuel
  induction fuel with
  | zero =>
      intro off a h
      cases h
      exact SameRefs.refl _
  | succ fuel ih =>
      intro off a h
      rw [Inodes.dirlookupLoop] at h
      split at h
      · obtain ⟨⟨a₁, r₁⟩, hread, h⟩ := bind_eq_ok.mp h
        have h₁ := sameRefs_readInode hread
        cases r₁ with
        | none => cases h
        | some de =>
            dsimp only at h
            split at h
            · cases h
            · split at h
              · cases h
                exact h₁
              · exact h₁.trans (ih h)
      · cases h
        exact SameRefs.refl _

theorem sameRefs_emptyDirent {off' : Nat} :
    ∀ {fuel off : Nat} {a : Inodes.Files},
      Inodes.emptyDirent sb devsw e fuel a off = .ok (b, off') → SameRefs a b := by
  intro fuel
  induction fuel with
  | zero =>
      intro off a h
      cases h
      exact SameRefs.refl _
  | succ fuel ih =>
      intro off a h
      rw [Inodes.emptyDirent] at h
      split at h
      · obtain ⟨⟨a₁, r₁⟩, hread, h⟩ := bind_eq_ok.mp h
        have h₁ := sameRefs_readInode hread
        cases r₁ with
        | none => cases h
        | some de =>
            dsimp only at h
            split at h
            · cases h
            · split at h
              · cases h
                exact h₁
              · exact h₁.trans (ih h)
      · cases h
        exact SameRefs.refl _

theorem fs_eq_ok {R : Type} {x : Except Inodes.Panic R} {r : R} (h : fs x = .ok r) :
    x = .ok r := by
  cases x with
  | error why => cases h
  | ok r' => cases h; rfl

theorem sameRefs_isdiremptyLoop {r : Bool} :
    ∀ {fuel off : Nat} {a : Inodes.Files},
      isdiremptyLoop sb devsw e fuel a off = .ok (b, r) → SameRefs a b := by
  intro fuel
  induction fuel with
  | zero =>
      intro off a h
      cases h
      exact SameRefs.refl _
  | succ fuel ih =>
      intro off a h
      rw [isdiremptyLoop] at h
      split at h
      · obtain ⟨⟨a₁, r₁⟩, hread, h⟩ := bind_eq_ok.mp h
        have h₁ := sameRefs_readInode (fs_eq_ok hread)
        cases r₁ with
        | none => cases h
        | some de =>
            dsimp only at h
            split at h
            · cases h
            · split at h
              · cases h
                exact h₁
              · exact h₁.trans (ih h)
      · cases h
        exact SameRefs.refl _

theorem sameRefs_addEntry {name : List UInt8} {inum : Nat}
    (h : addEntry sb devsw a e name inum = .ok (b, ())) : SameRefs a b := by
  rw [addEntry] at h
  obtain ⟨⟨a₁, off⟩, hempty, h⟩ := bind_eq_ok.mp h
  obtain ⟨⟨a₂, r⟩, hwrite, h⟩ := bind_eq_ok.mp h
  dsimp only at h
  split at h
  · cases h
    exact (sameRefs_emptyDirent hempty).trans (sameRefs_writeInode hwrite)
  · cases h

theorem sameRefs_clearEntry {off : Nat} (h : clearEntry sb devsw a e off = .ok (b, ())) :
    SameRefs a b := by
  rw [clearEntry] at h
  obtain ⟨⟨a₁, r⟩, hwrite, h⟩ := bind_eq_ok.mp h
  dsimp only at h
  split at h
  · cases h
    exact sameRefs_writeInode hwrite
  · cases h

end

theorem SysInv.frame (h : SysInv s L) (hrun : s.state p = .RUNNABLE) (hfs : SameRefs s.files s'.files)
    (hfile : s'.file = s.file) (hstate : s'.state = s.state) (hcwd : s'.cwd = s.cwd)
    (hofile : s'.ofile = s.ofile) : SysInv s' (Function.update L p (L p)) := by
  refine ⟨fun e => ?_, fun e e' => ?_, h.files.congr hfile hofile rfl rfl,
    h.procs.same hrun hstate hcwd hofile rfl rfl rfl rfl⟩
  · rw [(hfs e).1, h.ref e, Function.update_eq_self]
    exact (inodeRefs_congr hcwd fun f e => by rw [hfile]).symm
  · rw [(hfs e).1, (hfs e').1, (hfs e).2, (hfs e').2]
    exact h.single e e'

/-- A function of `fs.c` that changes no count. -/
theorem SysInv.lift {R : Type} {x : Except SysPanic (Inodes.Files × R)} {r : R} (h : SysInv s L)
    (hrun : s.state p = .RUNNABLE) (hs : s.lift x = .ok s' r) (hx : ∀ b, x = .ok (b, r) → SameRefs s.files b) :
    SysInv s' (Function.update L p (L p)) := by
  match x with
  | .error why => cases hs
  | .ok (b, r') =>
      cases hs
      exact h.frame hrun (hx b rfl) rfl rfl rfl rfl

/-! ## Operations on the counts of inodes -/

/-- The count of one entry changes along with the references in variables and in `cwd`;
the file table stays. -/
theorem SysInv.inodes (h : SysInv s L) (hfile : s'.file = s.file) (hofile : s'.ofile = s.ofile)
    (hf : l'.ftemp = (L p).ftemp) (hb : l'.blank = (L p).blank)
    (href : ∀ e, (s'.files.icache e).ref = inodeRefs s' (Function.update L p l') e)
    (hsingle : ∀ e e', 0 < (s'.files.icache e).ref → 0 < (s'.files.icache e').ref →
      (s'.files.icache e).inum = (s'.files.icache e').inum → e = e')
    (hprocs : ProcsOk s' (Function.update L p l')) : SysInv s' (Function.update L p l') :=
  ⟨href, hsingle, h.files.congr hfile hofile hf hb, hprocs⟩

theorem count_cons (e e' : Iptr) (t : Multiset Iptr) :
    (e ::ₘ t).count e' = t.count e' + if e' = e then 1 else 0 := by
  rw [Multiset.count_cons]

theorem SysInv.iget (h : SysInv s L) (hrun : s.state p = .RUNNABLE) {inum : Nat} {b : Inodes.Files} {ip : Iptr}
    (hs : Inodes.iget s.files inum = .ok (b, ip)) :
    SysInv { s with files := b } (Function.update L p { L p with temp := ip ::ₘ (L p).temp }) := by
  have hrefs : ∀ e, inodeRefs { s with files := b }
      (Function.update L p { L p with temp := ip ::ₘ (L p).temp }) e =
        inodeRefs s L e + if e = ip then 1 else 0 := by
    intro e
    have := inodeRefs_loc (s := { s with files := b }) (L := L) (p := p) (e := e)
      { L p with temp := ip ::ₘ (L p).temp }
    rw [count_cons] at this
    have hsame : inodeRefs { s with files := b } L e = inodeRefs s L e := rfl
    omega
  have hprocs : ProcsOk { s with files := b }
      (Function.update L p { L p with temp := ip ::ₘ (L p).temp }) :=
    h.procs.same hrun rfl rfl rfl rfl rfl rfl rfl
  rw [Inodes.iget] at hs
  split at hs
  · next q hq =>
      cases hs
      have hlive : 0 < (s.files.icache ip).ref ∧ (s.files.icache ip).inum = inum := by
        simpa using List.find?_some hq
      have hsame : ∀ e, ((s.files.setInode ip fun i => { i with ref := i.ref + 1 }).icache e).ref =
          (s.files.icache e).ref + (if e = ip then 1 else 0) ∧
          ((s.files.setInode ip fun i => { i with ref := i.ref + 1 }).icache e).inum =
          (s.files.icache e).inum := by
        intro e
        rw [Inodes.Files.setInode]
        dsimp only
        split
        · exact ⟨rfl, rfl⟩
        · exact ⟨rfl, rfl⟩
      refine h.inodes rfl rfl rfl rfl (fun e => ?_) (fun e e' => ?_) hprocs
      · rw [hrefs, (hsame e).1, h.ref]
      · dsimp only
        rw [(hsame e).1, (hsame e').1, (hsame e).2, (hsame e').2]
        intro he he' hi
        have hpos : ∀ x, 0 < (s.files.icache x).ref + (if x = ip then 1 else 0) →
            0 < (s.files.icache x).ref := by
          intro x hx
          by_cases hxq : x = ip
          · rw [hxq]
            exact hlive.1
          · rw [if_neg hxq] at hx
            exact hx
        exact h.single e e' (hpos e he) (hpos e' he') hi
  · next hnone =>
      split at hs
      · next q hq =>
          cases hs
          have hfree : (s.files.icache ip).ref = 0 := by simpa using List.find?_some hq
          have hno : ∀ e, 0 < (s.files.icache e).ref → (s.files.icache e).inum ≠ inum := by
            intro e he hi
            have := List.find?_eq_none.mp hnone e (List.mem_finRange e)
            simp [he, hi] at this
          have hself : ((s.files.setInode ip fun i =>
              { i with inum := inum, ref := 1, valid := false }).icache ip).ref = 1 ∧
              ((s.files.setInode ip fun i =>
                { i with inum := inum, ref := 1, valid := false }).icache ip).inum = inum := by
            rw [Inodes.Files.setInode]
            dsimp only
            rw [if_pos rfl]
            exact ⟨rfl, rfl⟩
          have hother : ∀ e ≠ ip, (s.files.setInode ip fun i =>
              { i with inum := inum, ref := 1, valid := false }).icache e = s.files.icache e :=
            fun e he => if_neg he
          refine h.inodes rfl rfl rfl rfl (fun e => ?_) (fun e e' => ?_) hprocs
          · rw [hrefs]
            by_cases he : e = ip
            · rw [he, if_pos rfl, ← h.ref, hfree]
              exact hself.1
            · rw [if_neg he, ← h.ref]
              exact congrArg Inodes.Inode.ref (hother e he)
          · dsimp only
            intro he he' hi
            by_cases hq : e = ip <;> by_cases hq' : e' = ip
            · rw [hq, hq']
            · rw [hother e' hq'] at he' hi
              rw [hq, hself.2] at hi
              exact absurd hi.symm (hno e' he')
            · rw [hother e hq] at he hi
              rw [hq', hself.2] at hi
              exact absurd hi (hno e he)
            · rw [hother e hq] at he hi
              rw [hother e' hq'] at he' hi
              exact h.single e e' he he' hi
      · cases hs

theorem setRef_ref (s : Sys N) (ip e : Iptr) (g : Nat → Nat) :
    ((s.setRef ip g).files.icache e).ref =
      if e = ip then g (s.files.icache e).ref else (s.files.icache e).ref := by
  rw [Sys.setRef, Inodes.Files.setInode]
  dsimp only
  split <;> rfl

theorem setRef_inum (s : Sys N) (ip e : Iptr) (g : Nat → Nat) :
    ((s.setRef ip g).files.icache e).inum = (s.files.icache e).inum := by
  rw [Sys.setRef, Inodes.Files.setInode]
  dsimp only
  split <;> rfl

/-- A count that changes and does not come to life. -/
theorem SysInv.single_setRef (h : SysInv s L) {ip : Iptr} {g : Nat → Nat}
    (hg : 0 < g (s.files.icache ip).ref → 0 < (s.files.icache ip).ref) (e e' : Iptr)
    (he : 0 < ((s.setRef ip g).files.icache e).ref)
    (he' : 0 < ((s.setRef ip g).files.icache e').ref)
    (hi : ((s.setRef ip g).files.icache e).inum = ((s.setRef ip g).files.icache e').inum) :
    e = e' := by
  rw [setRef_inum, setRef_inum] at hi
  have hlive : ∀ x, 0 < ((s.setRef ip g).files.icache x).ref → 0 < (s.files.icache x).ref := by
    intro x hx
    rw [setRef_ref] at hx
    split at hx
    · next hxe => subst hxe; exact hg hx
    · exact hx
  exact h.single e e' (hlive e he) (hlive e' he') hi

theorem cwdRef_le (p : Fin N) (e : Iptr) : cwdRef (s.cwd p) e ≤ inodeRefs s L e := by
  have := Finset.single_le_sum (f := fun p => cwdRef (s.cwd p) e + (L p).temp.count e)
    (fun _ _ => Nat.zero_le _) (Finset.mem_univ p)
  rw [inodeRefs]
  omega

theorem SysInv.live_of_cwd (h : SysInv s L) {ip : Iptr} (hc : s.cwd p = some ip) :
    0 < (s.files.icache ip).ref := by
  have := cwdRef_le (s := s) (L := L) p ip
  rw [cwdRef, if_pos hc] at this
  rw [h.ref ip]
  omega

theorem SysInv.idupCwd (h : SysInv s L) (hrun : s.state p = .RUNNABLE) {ip : Iptr} (hc : s.cwd p = some ip) :
    SysInv (s.setRef ip (· + 1))
      (Function.update L p { L p with temp := ip ::ₘ (L p).temp }) := by
  have hlive := h.live_of_cwd hc
  refine h.inodes rfl rfl rfl rfl (fun e => ?_) (h.single_setRef fun _ => hlive)
    (h.procs.same hrun rfl rfl rfl rfl rfl rfl rfl)
  have hloc := inodeRefs_loc (s := s.setRef ip (· + 1)) (L := L) (p := p) (e := e)
    { L p with temp := ip ::ₘ (L p).temp }
  have hsame : inodeRefs (s.setRef ip (· + 1)) L e = inodeRefs s L e := rfl
  have href := h.ref e
  rw [count_cons] at hloc
  rw [setRef_ref]
  split
  · next he => rw [if_pos he] at hloc; omega
  · next he => rw [if_neg he] at hloc; omega

theorem count_erase {ip : Iptr} {t : Multiset Iptr} (h : ip ∈ t) (e : Iptr) :
    (t.erase ip).count e + (if e = ip then 1 else 0) = t.count e := by
  rw [← count_cons, Multiset.cons_erase h]

theorem SysInv.decref (h : SysInv s L) (hrun : s.state p = .RUNNABLE) {ip : Iptr} (ht : ip ∈ (L p).temp) :
    SysInv (s.setRef ip (· - 1))
      (Function.update L p { L p with temp := (L p).temp.erase ip }) := by
  refine h.inodes rfl rfl rfl rfl (fun e => ?_)
    (h.single_setRef fun hg => Nat.lt_of_lt_of_le hg (Nat.sub_le _ _))
    (h.procs.same hrun rfl rfl rfl rfl rfl rfl rfl)
  have hloc : inodeRefs (s.setRef ip (· - 1))
      (Function.update L p { L p with temp := (L p).temp.erase ip }) e + (L p).temp.count e =
        inodeRefs s L e + ((L p).temp.erase ip).count e := inodeRefs_loc _
  have hcount := count_erase ht e
  have href := h.ref e
  rw [setRef_ref]
  split
  · next he => rw [if_pos he] at hcount; omega
  · next he => rw [if_neg he] at hcount; omega

/-- `cwd` of `p` changes, and the counts stay. -/
theorem SysInv.moveCwd (h : SysInv s L) {v : Option Iptr}
    (hf : l'.ftemp = (L p).ftemp) (hb : l'.blank = (L p).blank)
    (hcount : ∀ e, cwdRef v e + l'.temp.count e = cwdRef (s.cwd p) e + (L p).temp.count e)
    (hprocs : ProcsOk (s.setCwd p v) (Function.update L p l')) :
    SysInv (s.setCwd p v) (Function.update L p l') := by
  refine h.inodes rfl rfl hf hb (fun e => ?_) h.single hprocs
  have hloc := inodeRefs_loc (s := s.setCwd p v) (L := L) (p := p) (e := e) l'
  have hcwd := inodeRefs_setCwd (s := s) (L := L) (p := p) (e := e) v
  have href : ((s.setCwd p v).files.icache e).ref = inodeRefs s L e := h.ref e
  have := hcount e
  omega

/-- A running process is nobody's child. -/
theorem ProcsOk.not_child (h : ProcsOk s L) (hrun : s.state p = .RUNNABLE) {np : Fin N}
    {fds : List Fd} {b : Bool} (hc : (L q).child = some (np, fds, b)) : np ≠ p := by
  rintro rfl
  have := (h.child q np fds b hc).1
  rw [hrun] at this
  cases this

/-- A running process changes its own `cwd`. -/
theorem ProcsOk.setCwd (h : ProcsOk s L) (hrun : s.state p = .RUNNABLE) {v : Option Iptr}
    (hd : l'.desc = (L p).desc) (hc : l'.closed = (L p).closed) (ha : l'.away = true → v = none)
    (hch : l'.child = (L p).child) : ProcsOk (s.setCwd p v) (Function.update L p l') := by
  have h' : ProcsOk s (Function.update L p { l' with away := (L p).away }) :=
    h.same hrun rfl rfl rfl hd hc rfl hch
  have hcwd : ∀ q ≠ p, (s.setCwd p v).cwd q = s.cwd q := fun q hq => Function.update_of_ne hq ..
  have hloc : ∀ q, (Function.update L p l' q).desc =
        (Function.update L p { l' with away := (L p).away } q).desc ∧
      (Function.update L p l' q).closed =
        (Function.update L p { l' with away := (L p).away } q).closed ∧
      (Function.update L p l' q).child =
        (Function.update L p { l' with away := (L p).away } q).child := by
    intro q
    rcases eq_or_ne q p with rfl | hq
    · rw [Function.update_self, Function.update_self]
      exact ⟨rfl, rfl, rfl⟩
    · rw [Function.update_of_ne hq, Function.update_of_ne hq]
      exact ⟨rfl, rfl, rfl⟩
  have hrun' : (s.setCwd p v).state p = .RUNNABLE := hrun
  refine ⟨fun q fd f hq => ?_, fun q fd hq => ?_, fun q hq => ?_, fun q np fds b hq => ?_,
    fun q q' np fds fds' b b' hq hq' => ?_, fun q hq => ?_, fun q hq => ?_⟩
  · exact h'.desc q fd f ((hloc q).1 ▸ hq)
  · exact h'.closed q fd ((hloc q).2.1 ▸ hq)
  · rcases eq_or_ne q p with rfl | hne
    · rw [Function.update_self] at hq
      rw [Sys.setCwd]
      dsimp only
      rw [Function.update_self]
      exact ha hq
    · rw [Function.update_of_ne hne] at hq
      rw [hcwd q hne]
      exact h.away q hq
  · rw [(hloc q).2.2] at hq
    obtain ⟨h1, h2, h3⟩ := h'.child q np fds b hq
    rw [hcwd np (h'.not_child hrun hq)]
    exact ⟨h1, h2, h3⟩
  · rw [(hloc q).2.2] at hq
    rw [(hloc q').2.2] at hq'
    exact h'.parent q q' np fds fds' b b' hq hq'
  · have hne : q ≠ p := by
      rintro rfl
      rw [hrun'] at hq
      rcases hq with hq | hq <;> cases hq
    rw [hcwd q hne]
    exact h.clear q hq
  · rw [Function.update_of_ne (by rintro rfl; exact hq hrun)]
    exact h.rest q hq

theorem SysInv.takeCwd (h : SysInv s L) (hrun : s.state p = .RUNNABLE) {ip : Iptr}
    (hc : s.cwd p = some ip) :
    SysInv (s.setCwd p none)
      (Function.update L p { L p with temp := ip ::ₘ (L p).temp, away := true }) := by
  refine h.moveCwd rfl rfl (fun e => ?_) (h.procs.setCwd hrun rfl rfl (fun _ => rfl) rfl)
  dsimp only
  rw [count_cons, hc, cwdRef, cwdRef, if_neg nofun]
  by_cases he : e = ip
  · rw [if_pos he, if_pos (by rw [he])]
    omega
  · rw [if_neg he, if_neg fun hh => he (Option.some.inj hh).symm]
    omega

theorem SysInv.setCwd (h : SysInv s L) (hrun : s.state p = .RUNNABLE) {ip : Iptr}
    (ht : ip ∈ (L p).temp) (ha : (L p).away = true) :
    SysInv (s.setCwd p (some ip))
      (Function.update L p { L p with temp := (L p).temp.erase ip, away := false }) := by
  refine h.moveCwd rfl rfl (fun e => ?_) (h.procs.setCwd hrun rfl rfl nofun rfl)
  have hcount := count_erase ht e
  rw [h.procs.away p ha, cwdRef, cwdRef, if_neg (c := none = some e) nofun]
  by_cases he : e = ip
  · rw [if_pos he] at hcount
    rw [if_pos (by rw [he])]
    dsimp only
    omega
  · rw [if_neg he] at hcount
    rw [if_neg fun hh => he (Option.some.inj hh).symm]
    dsimp only
    omega

/-! ## Operations on the file table -/

/-- A running process changes one of its descriptors. -/
theorem ProcsOk.setOfile (h : ProcsOk s L) (hrun : s.state p = .RUNNABLE) {fd : Fd}
    {v : Option Fidx} (hd : ∀ fd' f, l'.desc = some (fd', f) →
      (fd' = fd ∧ v = some f) ∨ (fd' ≠ fd ∧ (L p).desc = some (fd', f)))
    (hc : ∀ fd' ∈ l'.closed, (fd' = fd ∧ v = none) ∨ (fd' ≠ fd ∧ fd' ∈ (L p).closed))
    (ha : l'.away = (L p).away) (hch : l'.child = (L p).child) :
    ProcsOk (s.setOfile p fd v) (Function.update L p l') := by
  have hchild : ∀ q, (Function.update L p l' q).child = (L q).child := by
    intro q
    rcases eq_or_ne q p with rfl | hq
    · rw [Function.update_self, hch]
    · rw [Function.update_of_ne hq]
  refine ⟨fun q fd' f hq => ?_, fun q fd' hq => ?_, fun q hq => ?_, fun q np fds b hq => ?_,
    fun q q' np fds fds' b b' hq hq' => ?_, fun q hq => ?_, fun q hq => ?_⟩
  · rcases eq_or_ne q p with rfl | hne
    · rw [Function.update_self] at hq
      rcases hd fd' f hq with ⟨rfl, rfl⟩ | ⟨hfd, hq⟩
      · exact setOfile_same ..
      · rw [setOfile_other v fun hh => hfd hh.2]
        exact h.desc q fd' f hq
    · rw [Function.update_of_ne hne] at hq
      rw [setOfile_other v fun hh => hne hh.1]
      exact h.desc q fd' f hq
  · rcases eq_or_ne q p with rfl | hne
    · rw [Function.update_self] at hq
      rcases hc fd' hq with ⟨rfl, rfl⟩ | ⟨hfd, hq⟩
      · exact setOfile_same ..
      · rw [setOfile_other v fun hh => hfd hh.2]
        exact h.closed q fd' hq
    · rw [Function.update_of_ne hne] at hq
      rw [setOfile_other v fun hh => hne hh.1]
      exact h.closed q fd' hq
  · rcases eq_or_ne q p with rfl | hne
    · rw [Function.update_self, ha] at hq
      exact h.away q hq
    · rw [Function.update_of_ne hne] at hq
      exact h.away q hq
  · rw [hchild] at hq
    obtain ⟨h1, h2, h3⟩ := h.child q np fds b hq
    refine ⟨h1, h2, fun fd' hfd => ?_⟩
    rw [setOfile_other v fun hh => h.not_child hrun hq hh.1]
    exact h3 fd' hfd
  · rw [hchild] at hq hq'
    exact h.parent q q' np fds fds' b b' hq hq'
  · have hne : q ≠ p := by
      rintro rfl
      rw [show (s.setOfile q fd v).state q = .RUNNABLE from hrun] at hq
      rcases hq with hq | hq <;> cases hq
    obtain ⟨h1, h2⟩ := h.clear q hq
    refine ⟨h1, fun fd' => ?_⟩
    rw [setOfile_other v fun hh => hne hh.1]
    exact h2 fd'
  · rw [Function.update_of_ne (by rintro rfl; exact hq hrun)]
    exact h.rest q hq

/-- The references of the processes to inodes stay, and those of the open files too. -/
theorem SysInv.table (h : SysInv s L) (hfs : s'.files = s.files) (hcwd : s'.cwd = s.cwd)
    (hfile : ∀ f e, (s'.file f).inodeRef e = (s.file f).inodeRef e)
    (ht : l'.temp = (L p).temp) (hfiles : FilesOk s' (Function.update L p l'))
    (hprocs : ProcsOk s' (Function.update L p l')) : SysInv s' (Function.update L p l') := by
  refine ⟨fun e => ?_, ?_, hfiles, hprocs⟩
  · have hloc := inodeRefs_loc (s := s') (L := L) (p := p) (e := e) l'
    have hsame : inodeRefs s' L e = inodeRefs s L e := inodeRefs_congr hcwd hfile
    have href := h.ref e
    rw [ht] at hloc
    rw [hfs]
    omega
  · rw [hfs]
    exact h.single

theorem count_fcons (f f' : Fidx) (t : Multiset Fidx) :
    (f ::ₘ t).count f' = t.count f' + if f' = f then 1 else 0 := by
  rw [Multiset.count_cons]

theorem count_ferase {f : Fidx} {t : Multiset Fidx} (h : f ∈ t) (f' : Fidx) :
    (t.erase f).count f' + (if f' = f then 1 else 0) = t.count f' := by
  rw [← count_fcons, Multiset.cons_erase h]

/-- A file that a process has a reference to and that is blank is blank for it. -/
theorem FilesOk.blank_self (h : FilesOk s L) (hp : 1 ≤ holds s (L p) p f)
    (hq : f ∈ (L q).blank) : q = p := by
  by_contra hne
  obtain ⟨_, h1, h2⟩ := h.blank q f hq
  have := two_holds hne h2 hp
  have := h.ref f
  omega

theorem holds_setFile (g : File → File) : holds (s.setFile f g) l p = holds s l p := rfl

theorem fileRefs_setFile (g : File → File) : fileRefs (s.setFile f g) L = fileRefs s L := rfl

/-- One process does something to the file table. -/
theorem FilesOk.update (h : FilesOk s L)
    (href : ∀ f, (s'.file f).ref = fileRefs s' (Function.update L p l') f)
    (hunused : ∀ f, (s'.file f).ref = 0 → (s'.file f).type = .FD_NONE)
    (hself : ∀ f ∈ l'.blank, (s'.file f).type = .FD_NONE ∧ (s'.file f).ref = 1 ∧
      1 ≤ holds s' l' p f)
    (hother : ∀ q ≠ p, ∀ f ∈ (L q).blank, s'.file f = s.file f ∧
      holds s (L q) q f ≤ holds s' (L q) q f) : FilesOk s' (Function.update L p l') := by
  refine ⟨href, hunused, fun q f hq => ?_⟩
  rcases eq_or_ne q p with rfl | hne
  · rw [Function.update_self] at hq ⊢
    exact hself f hq
  · rw [Function.update_of_ne hne] at hq ⊢
    obtain ⟨h1, h2⟩ := hother q hne f hq
    obtain ⟨h3, h4, h5⟩ := h.blank q f hq
    rw [h1]
    exact ⟨h3, h4, by omega⟩

theorem holds_setOfile_other {fd : Fd} {v : Option Fidx} (hne : q ≠ p) :
    holds (s.setOfile p fd v) l q f = holds s l q f := by
  have hother : ∀ fd' : Fd,
      fdRef ((s.setOfile p fd v).ofile q fd') f = fdRef (s.ofile q fd') f :=
    fun fd' => by rw [setOfile_other v fun hh => hne hh.1]
  rw [holds, holds, Finset.sum_congr rfl fun fd' _ => hother fd']

/-- What a process knows about its descriptors, where one that was free is now used. -/
theorem ProcsOk.openFd (h : ProcsOk s L) (hrun : s.state p = .RUNNABLE) {fd : Fd}
    (hfd : s.ofile p fd = none) (f : Fidx) (hc : (L p).closed = ∅)
    (hd : ∀ fd' f', l'.desc = some (fd', f') →
      (fd' = fd ∧ f' = f) ∨ (L p).desc = some (fd', f'))
    (hcl : l'.closed = (L p).closed) (ha : l'.away = (L p).away)
    (hch : l'.child = (L p).child) :
    ProcsOk (s.setOfile p fd (some f)) (Function.update L p l') := by
  refine h.setOfile hrun (fun fd' f' hq => ?_) (fun fd' hq => ?_) ha hch
  · rcases hd fd' f' hq with ⟨rfl, rfl⟩ | hq
    · exact Or.inl ⟨rfl, rfl⟩
    · refine Or.inr ⟨?_, hq⟩
      rintro rfl
      rw [h.desc p fd' f' hq] at hfd
      cases hfd
  · rw [hcl, hc] at hq
    exact absurd hq (Finset.notMem_empty _)

theorem SysInv.filealloc (h : SysInv s L) (hrun : s.state p = .RUNNABLE) (hf : (s.file f).ref = 0) :
    SysInv (s.setFile f fun g => { g with ref := 1 })
      (Function.update L p { L p with
        ftemp := f ::ₘ (L p).ftemp, blank := insert f (L p).blank }) := by
  have htype := h.files.unused f hf
  refine h.table rfl rfl (fun f' e => ?_) rfl ?_ (h.procs.same hrun rfl rfl rfl rfl rfl rfl rfl)
  · rcases eq_or_ne f' f with rfl | hne
    · rw [setFile_same, File.inodeRef, File.inodeRef, if_neg, if_neg]
      · rw [hf]
        omega
      · rw [htype]
        exact fun hh => nomatch hh.2.1
    · rw [setFile_other _ hne]
  · have hnot : ∀ q, ∀ f' ∈ (L q).blank, f' ≠ f := by
      rintro q f' hq rfl
      have := (h.files.blank q f' hq).2.1
      omega
    refine h.files.update (fun f' => ?_) (fun f' hz => ?_) (fun f' hb => ?_) fun q _ f' hb => ?_
    · have hloc : fileRefs s (Function.update L p { L p with
            ftemp := f ::ₘ (L p).ftemp, blank := insert f (L p).blank }) f' +
          (L p).ftemp.count f' = fileRefs s L f' + (f ::ₘ (L p).ftemp).count f' :=
        fileRefs_loc _
      rw [count_fcons] at hloc
      rw [fileRefs_setFile]
      have href := h.files.ref f'
      rcases eq_or_ne f' f with rfl | hne
      · rw [setFile_same]
        rw [if_pos rfl] at hloc
        show 1 = _
        omega
      · rw [setFile_other _ hne]
        rw [if_neg hne] at hloc
        omega
    · rcases eq_or_ne f' f with rfl | hne
      · rw [setFile_same] at hz
        cases hz
      · rw [setFile_other _ hne] at hz ⊢
        exact h.files.unused f' hz
    · rcases Finset.mem_insert.mp hb with rfl | hb
      · rw [setFile_same]
        exact ⟨htype, rfl, one_le_holds_temp (Multiset.mem_cons_self _ _)⟩
      · rw [setFile_other _ (hnot p f' hb)]
        obtain ⟨h1, h2, h3⟩ := h.files.blank p f' hb
        refine ⟨h1, h2, Nat.le_trans h3 ?_⟩
        rw [holds_setFile, holds, holds]
        exact Nat.add_le_add_left (Multiset.count_le_count_cons _ _ _) _
    · rw [setFile_other _ (hnot q f' hb)]
      exact ⟨rfl, le_refl _⟩

theorem SysInv.fdalloc (h : SysInv s L) (hrun : s.state p = .RUNNABLE) {fd : Fd}
    (hfd : s.ofile p fd = none) (ht : f ∈ (L p).ftemp) (hc : (L p).closed = ∅) :
    SysInv (s.setOfile p fd (some f))
      (Function.update L p { L p with
        ftemp := (L p).ftemp.erase f, desc := some (fd, f) }) := by
  have hholds : ∀ f', holds (s.setOfile p fd (some f))
      { L p with ftemp := (L p).ftemp.erase f, desc := some (fd, f) } p f' =
        holds s (L p) p f' := by
    intro f'
    have h1 : holds (s.setOfile p fd (some f))
        { L p with ftemp := (L p).ftemp.erase f, desc := some (fd, f) } p f' +
        fdRef (s.ofile p fd) f' =
        holds s { L p with ftemp := (L p).ftemp.erase f, desc := some (fd, f) } p f' +
          fdRef (some f) f' := holds_setOfile (some f)
    have h2 := count_ferase ht f'
    have h3 : holds s { L p with ftemp := (L p).ftemp.erase f, desc := some (fd, f) } p f' +
        (L p).ftemp.count f' = holds s (L p) p f' + ((L p).ftemp.erase f).count f' := by
      rw [holds, holds]
      dsimp only
      omega
    rw [hfd, fdRef, fdRef, if_neg (c := none = some f') nofun] at h1
    rcases eq_or_ne f' f with rfl | hne
    · rw [if_pos rfl] at h1 h2
      omega
    · rw [if_neg fun hh => hne (Option.some.inj hh).symm] at h1
      rw [if_neg hne] at h2
      omega
  refine h.table rfl rfl (fun _ _ => rfl) rfl ?_
    (h.procs.openFd hrun hfd f hc (fun fd' f' hq => by cases hq; exact Or.inl ⟨rfl, rfl⟩)
      rfl rfl rfl)
  refine h.files.update (fun f' => ?_) h.files.unused (fun f' hb => ?_) fun q hq f' _ =>
    ⟨rfl, (holds_setOfile_other hq).ge⟩
  · rw [show ((s.setOfile p fd (some f)).file f').ref = (s.file f').ref from rfl, h.files.ref f']
    refine Finset.sum_congr rfl fun q _ => ?_
    rcases eq_or_ne q p with rfl | hq
    · rw [Function.update_self]
      exact (hholds f').symm
    · rw [Function.update_of_ne hq, holds_setOfile_other hq]
  · rw [hholds]
    exact h.files.blank p f' hb

/-- A blank file is filled in. -/
theorem SysInv.fill (h : SysInv s L) (hrun : s.state p = .RUNNABLE) (hb : f ∈ (L p).blank) {g : File → File} {t : Multiset Iptr}
    (href : (g (s.file f)).ref = (s.file f).ref)
    (hcount : ∀ e, (g (s.file f)).inodeRef e + t.count e = (L p).temp.count e) :
    SysInv (s.setFile f g)
      (Function.update L p { L p with temp := t, blank := (L p).blank.erase f }) := by
  obtain ⟨htype, hone, hhold⟩ := h.files.blank p f hb
  refine ⟨fun e => ?_, h.single, ?_, h.procs.same hrun rfl rfl rfl rfl rfl rfl rfl⟩
  · have hloc : inodeRefs (s.setFile f g)
        (Function.update L p { L p with temp := t, blank := (L p).blank.erase f }) e +
        (L p).temp.count e = inodeRefs (s.setFile f g) L e + t.count e := inodeRefs_loc _
    have hset := inodeRefs_setFile (s := s) (L := L) (f := f) (e := e) g
    have hzero : (s.file f).inodeRef e = 0 := by
      rw [File.inodeRef, if_neg]
      rw [htype]
      exact fun hh => nomatch hh.2.1
    have hr : ((s.setFile f g).files.icache e).ref = inodeRefs s L e := h.ref e
    have := hcount e
    omega
  · refine h.files.update (fun f' => ?_) (fun f' hz => ?_) (fun f' hb' => ?_)
      fun q hq f' hb' => ?_
    · have hloc : fileRefs s (Function.update L p { L p with
            temp := t, blank := (L p).blank.erase f }) f' + (L p).ftemp.count f' =
          fileRefs s L f' + (L p).ftemp.count f' := fileRefs_loc _
      have hr := h.files.ref f'
      rw [fileRefs_setFile]
      rcases eq_or_ne f' f with rfl | hne
      · rw [setFile_same, href]
        omega
      · rw [setFile_other _ hne]
        omega
    · rcases eq_or_ne f' f with rfl | hne
      · rw [setFile_same, href] at hz
        omega
      · rw [setFile_other _ hne] at hz ⊢
        exact h.files.unused f' hz
    · obtain ⟨hne, hb'⟩ := Finset.mem_erase.mp hb'
      rw [setFile_other _ hne]
      exact h.files.blank p f' hb'
    · have hne : f' ≠ f := by
        rintro rfl
        exact hq (h.files.blank_self hhold hb')
      rw [setFile_other _ hne]
      exact ⟨rfl, le_refl _⟩

theorem SysInv.setFile (h : SysInv s L) (hrun : s.state p = .RUNNABLE) {ip : Iptr} {omode : Nat} (ht : ip ∈ (L p).temp)
    (hb : f ∈ (L p).blank) :
    SysInv (s.setFile f fun g =>
        { g with
          type := .FD_INODE
          ip := ip
          off := 0
          readable := omode &&& O_WRONLY = 0
          writable := omode &&& O_WRONLY ≠ 0 ∨ omode &&& O_RDWR ≠ 0 })
      (Function.update L p { L p with
        temp := (L p).temp.erase ip, blank := (L p).blank.erase f }) := by
  refine h.fill hrun hb rfl fun e => ?_
  have hone := (h.files.blank p f hb).2.1
  have hcount := count_erase ht e
  rw [File.inodeRef]
  dsimp only
  by_cases he : e = ip
  · rw [if_pos he] at hcount
    rw [if_pos ⟨by omega, rfl, he.symm⟩]
    omega
  · rw [if_neg he] at hcount
    rw [if_neg fun hh => he hh.2.2.symm]
    omega

theorem SysInv.setPipe (h : SysInv s L) (hrun : s.state p = .RUNNABLE) {writable : Bool} (hb : f ∈ (L p).blank) :
    SysInv (s.setFile f fun g =>
        { g with type := .FD_PIPE, readable := !writable, writable := writable })
      (Function.update L p { L p with blank := (L p).blank.erase f }) := by
  refine h.fill hrun hb rfl fun e => ?_
  rw [File.inodeRef, if_neg, Nat.zero_add]
  exact fun hh => nomatch hh.2.1

/-- A file that `p` has open gets one more descriptor, of `q`. -/
theorem SysInv.addFd (h : SysInv s L) {fd : Fd} (hfd : s.ofile q fd = none)
    (hp : 1 ≤ holds s (L p) p f) (hblank : (L p).blank = ∅) (ht : l'.temp = (L p).temp)
    (hf : l'.ftemp = (L p).ftemp) (hb : l'.blank = (L p).blank)
    (hprocs : ProcsOk (s.setOfile q fd (some f)) (Function.update L p l')) :
    SysInv ((s.setOfile q fd (some f)).setFile f fun g => { g with ref := g.ref + 1 })
      (Function.update L p l') := by
  have hlive : 1 ≤ (s.file f).ref := by
    rw [h.files.ref f]
    exact Nat.le_trans hp (holds_le p)
  refine h.table rfl rfl (fun f' e => ?_) ht ?_ ⟨hprocs.desc, hprocs.closed, hprocs.away,
    hprocs.child, hprocs.parent, hprocs.clear, hprocs.rest⟩
  · rcases eq_or_ne f' f with rfl | hne
    · rw [setFile_same, File.inodeRef, File.inodeRef]
      dsimp only [Sys.setOfile]
      refine if_congr (and_congr_left fun _ => ?_) rfl rfl
      exact iff_of_true (Nat.succ_pos _) hlive
    · rw [setFile_other _ hne]
      rfl
  · refine h.files.update (fun f' => ?_) (fun f' hz => ?_) (fun f' hb' => ?_)
      fun r hr f' hb' => ?_
    · have hloc : fileRefs (s.setOfile q fd (some f)) (Function.update L p l') f' +
          (L p).ftemp.count f' = fileRefs (s.setOfile q fd (some f)) L f' + l'.ftemp.count f' :=
        fileRefs_loc _
      have hset : fileRefs (s.setOfile q fd (some f)) L f' + fdRef (s.ofile q fd) f' =
          fileRefs s L f' + fdRef (some f) f' := fileRefs_setOfile (some f)
      have hr := h.files.ref f'
      rw [hfd, fdRef, fdRef, if_neg (c := none = some f') nofun] at hset
      rw [hf] at hloc
      rw [fileRefs_setFile]
      rcases eq_or_ne f' f with rfl | hne
      · rw [setFile_same]
        rw [if_pos rfl] at hset
        show (s.file f').ref + 1 = _
        omega
      · rw [setFile_other _ hne]
        rw [if_neg fun hh => hne (Option.some.inj hh).symm] at hset
        show (s.file f').ref = _
        omega
    · rcases eq_or_ne f' f with rfl | hne
      · rw [setFile_same] at hz
        cases hz
      · rw [setFile_other _ hne] at hz ⊢
        exact h.files.unused f' hz
    · rw [hb, hblank] at hb'
      exact absurd hb' (Finset.notMem_empty _)
    · have hne : f' ≠ f := by
        rintro rfl
        exact hr (h.files.blank_self hp hb')
      rw [setFile_other _ hne, holds_setFile]
      refine ⟨rfl, ?_⟩
      rcases eq_or_ne r q with rfl | hrq
      · have hset : holds (s.setOfile r fd (some f)) (L r) r f' + fdRef (s.ofile r fd) f' =
            holds s (L r) r f' + fdRef (some f) f' := holds_setOfile (some f)
        rw [hfd, fdRef, if_neg (c := none = some f') nofun] at hset
        omega
      · exact (holds_setOfile_other hrq).ge

theorem SysInv.dup (h : SysInv s L) (hrun : s.state p = .RUNNABLE) {fd fd' : Fd}
    (hfd : s.ofile p fd = none) (hd : (L p).desc = some (fd', f)) (hblank : (L p).blank = ∅)
    (hc : (L p).closed = ∅) :
    SysInv ((s.setOfile p fd (some f)).setFile f fun g => { g with ref := g.ref + 1 })
      (Function.update L p (L p)) :=
  h.addFd hfd (one_le_holds (h.procs.desc p fd' f hd)) hblank rfl rfl rfl
    (h.procs.openFd hrun hfd f hc (fun _ _ hq => Or.inr hq) rfl rfl rfl)

theorem SysInv.takeFd_none (h : SysInv s L) (hrun : s.state p = .RUNNABLE) {fd : Fd} (hfd : s.ofile p fd = none) :
    SysInv (s.setOfile p fd none)
      (Function.update L p { L p with desc := none, closed := insert fd (L p).closed }) := by
  have hsame : s.setOfile p fd none = s := by
    rw [Sys.setOfile]
    have : (fun p' fd' => if p' = p ∧ fd' = fd then none else s.ofile p' fd') = s.ofile := by
      funext p' fd'
      split
      · next hh => rw [hh.1, hh.2, hfd]
      · rfl
    rw [this]
  rw [hsame]
  refine h.table rfl rfl (fun _ _ => rfl) rfl (h.files.congr rfl rfl rfl rfl)
    (h.procs.congr hrun rfl rfl rfl nofun (fun fd' hq => ?_) (h.procs.away p) rfl)
  rcases Finset.mem_insert.mp hq with rfl | hq
  · exact hfd
  · exact h.procs.closed p fd' hq

theorem SysInv.takeFd_some (h : SysInv s L) (hrun : s.state p = .RUNNABLE) {fd : Fd}
    (hfd : s.ofile p fd = some f) :
    SysInv (s.setOfile p fd none)
      (Function.update L p { L p with
        ftemp := f ::ₘ (L p).ftemp, desc := none, closed := insert fd (L p).closed }) := by
  have hholds : ∀ f', holds (s.setOfile p fd none)
      { L p with ftemp := f ::ₘ (L p).ftemp, desc := none, closed := insert fd (L p).closed }
      p f' = holds s (L p) p f' := by
    intro f'
    have h1 : holds (s.setOfile p fd none) (L p) p f' + fdRef (s.ofile p fd) f' =
        holds s (L p) p f' + fdRef none f' := holds_setOfile none
    have h2 : holds (s.setOfile p fd none)
        { L p with ftemp := f ::ₘ (L p).ftemp, desc := none, closed := insert fd (L p).closed }
        p f' + (L p).ftemp.count f' = holds (s.setOfile p fd none) (L p) p f' +
          (f ::ₘ (L p).ftemp).count f' := by
      rw [holds, holds]
      dsimp only
      omega
    rw [count_fcons] at h2
    rw [hfd, fdRef, fdRef, if_neg (c := none = some f') nofun] at h1
    rcases eq_or_ne f' f with rfl | hne
    · rw [if_pos rfl] at h1 h2
      omega
    · rw [if_neg fun hh => hne (Option.some.inj hh).symm] at h1
      rw [if_neg hne] at h2
      omega
  refine h.table rfl rfl (fun _ _ => rfl) rfl ?_ (h.procs.setOfile hrun nofun (fun fd' hq => ?_)
    rfl rfl)
  · refine h.files.update (fun f' => ?_) h.files.unused (fun f' hb => ?_) fun q hq f' _ =>
      ⟨rfl, (holds_setOfile_other hq).ge⟩
    · rw [show ((s.setOfile p fd none).file f').ref = (s.file f').ref from rfl, h.files.ref f']
      refine Finset.sum_congr rfl fun q _ => ?_
      rcases eq_or_ne q p with rfl | hq
      · rw [Function.update_self]
        exact (hholds f').symm
      · rw [Function.update_of_ne hq, holds_setOfile_other hq]
    · rw [hholds]
      exact h.files.blank p f' hb
  · rcases Finset.mem_insert.mp hq with rfl | hin
    · exact Or.inl ⟨rfl, rfl⟩
    · refine Or.inr ⟨?_, hin⟩
      rintro rfl
      rw [h.procs.closed p fd' hin] at hfd
      cases hfd

/-- The last reference to a file, or one of several, is given up. -/
theorem SysInv.dropFile (h : SysInv s L) (hrun : s.state p = .RUNNABLE) (ht : f ∈ (L p).ftemp) {g : File → File}
    {t : Multiset Iptr} (href : (g (s.file f)).ref + 1 = (s.file f).ref)
    (hunused : (g (s.file f)).ref = 0 → (g (s.file f)).type = .FD_NONE)
    (hcount : ∀ e, (g (s.file f)).inodeRef e + t.count e =
      (s.file f).inodeRef e + (L p).temp.count e) :
    SysInv (s.setFile f g)
      (Function.update L p { L p with
        ftemp := (L p).ftemp.erase f, blank := (L p).blank.erase f, temp := t }) := by
  have hhold : 1 ≤ holds s (L p) p f := one_le_holds_temp ht
  refine ⟨fun e => ?_, h.single, ?_, h.procs.same hrun rfl rfl rfl rfl rfl rfl rfl⟩
  · have hloc : inodeRefs (s.setFile f g)
        (Function.update L p { L p with
          ftemp := (L p).ftemp.erase f, blank := (L p).blank.erase f, temp := t }) e +
        (L p).temp.count e = inodeRefs (s.setFile f g) L e + t.count e := inodeRefs_loc _
    have hset := inodeRefs_setFile (s := s) (L := L) (f := f) (e := e) g
    have hr : ((s.setFile f g).files.icache e).ref = inodeRefs s L e := h.ref e
    have := hcount e
    omega
  · refine h.files.update (fun f' => ?_) (fun f' hz => ?_) (fun f' hb' => ?_)
      fun q hq f' hb' => ?_
    · have hloc : fileRefs s (Function.update L p { L p with
            ftemp := (L p).ftemp.erase f, blank := (L p).blank.erase f, temp := t }) f' +
          (L p).ftemp.count f' = fileRefs s L f' + ((L p).ftemp.erase f).count f' :=
        fileRefs_loc _
      have hc := count_ferase ht f'
      have hr := h.files.ref f'
      rw [fileRefs_setFile]
      rcases eq_or_ne f' f with rfl | hne
      · rw [setFile_same]
        rw [if_pos rfl] at hc
        omega
      · rw [setFile_other _ hne]
        rw [if_neg hne] at hc
        omega
    · rcases eq_or_ne f' f with rfl | hne
      · rw [setFile_same] at hz ⊢
        exact hunused hz
      · rw [setFile_other _ hne] at hz ⊢
        exact h.files.unused f' hz
    · obtain ⟨hne, hb'⟩ := Finset.mem_erase.mp hb'
      rw [setFile_other _ hne, holds_setFile]
      obtain ⟨h1, h2, h3⟩ := h.files.blank p f' hb'
      refine ⟨h1, h2, ?_⟩
      have hc := count_ferase ht f'
      rw [if_neg hne] at hc
      rw [holds] at h3 ⊢
      dsimp only
      omega
    · have hne : f' ≠ f := by
        rintro rfl
        exact hq (h.files.blank_self hhold hb')
      rw [setFile_other _ hne]
      exact ⟨rfl, le_refl _⟩

/-! ## Operations on processes -/

/-- A process that does not run changes, and what its parent knows about it. -/
theorem ProcsOk.forChild (h : ProcsOk s L) (hrun : s.state p = .RUNNABLE) {np : Fin N}
    (hnp : s.state np ≠ .RUNNABLE) (hparent : ∀ q ≠ p, ∀ fds b, (L q).child ≠ some (np, fds, b))
    (hstate : ∀ q ≠ np, s'.state q = s.state q) (hcwd : ∀ q ≠ np, s'.cwd q = s.cwd q)
    (hofile : ∀ q ≠ np, s'.ofile q = s.ofile q) (hd : l'.desc = (L p).desc)
    (hc : l'.closed = (L p).closed) (ha : l'.away = (L p).away)
    (hchild : ∀ np' fds b, l'.child = some (np', fds, b) → np' = np ∧ s'.state np = .EMBRYO ∧
      (b = false → s'.cwd np = none) ∧ ∀ fd ∈ fds, s'.ofile np fd = none)
    (hclear : s'.state np = .UNUSED ∨ s'.state np = .ZOMBIE →
      s'.cwd np = none ∧ ∀ fd, s'.ofile np fd = none) :
    ProcsOk s' (Function.update L p l') := by
  have hne : np ≠ p := by rintro rfl; exact hnp hrun
  have hloc : ∀ q, (Function.update L p l' q).desc = (L q).desc ∧
      (Function.update L p l' q).closed = (L q).closed ∧
      (Function.update L p l' q).away = (L q).away := by
    intro q
    rcases eq_or_ne q p with rfl | hq
    · rw [Function.update_self]
      exact ⟨hd, hc, ha⟩
    · rw [Function.update_of_ne hq]
      exact ⟨rfl, rfl, rfl⟩
  obtain ⟨hdn, hcn, han⟩ := h.rest np hnp
  refine ⟨fun q fd f hq => ?_, fun q fd hq => ?_, fun q hq => ?_, fun q np' fds b hq => ?_,
    fun q q' np' fds fds' b b' hq hq' => ?_, fun q hq => ?_, fun q hq => ?_⟩
  · rw [(hloc q).1] at hq
    rw [hofile q (by rintro rfl; rw [hdn] at hq; cases hq)]
    exact h.desc q fd f hq
  · rw [(hloc q).2.1] at hq
    rw [hofile q (by rintro rfl; rw [hcn] at hq; exact absurd hq (Finset.notMem_empty _))]
    exact h.closed q fd hq
  · rw [(hloc q).2.2] at hq
    rw [hcwd q (by rintro rfl; rw [han] at hq; cases hq)]
    exact h.away q hq
  · rcases eq_or_ne q p with rfl | hqp
    · rw [Function.update_self] at hq
      obtain ⟨rfl, h1⟩ := hchild np' fds b hq
      exact h1
    · rw [Function.update_of_ne hqp] at hq
      have hne' : np' ≠ np := by
        rintro rfl
        exact hparent q hqp fds b hq
      rw [hstate np' hne', hcwd np' hne', hofile np' hne']
      exact h.child q np' fds b hq
  · by_cases hqp : q = p <;> by_cases hqp' : q' = p
    · rw [hqp, hqp']
    · rw [hqp, Function.update_self] at hq
      rw [Function.update_of_ne hqp'] at hq'
      obtain ⟨rfl, _⟩ := hchild np' fds b hq
      exact absurd hq' (hparent q' hqp' fds' b')
    · rw [hqp', Function.update_self] at hq'
      rw [Function.update_of_ne hqp] at hq
      obtain ⟨rfl, _⟩ := hchild np' fds' b' hq'
      exact absurd hq (hparent q hqp fds b)
    · rw [Function.update_of_ne hqp] at hq
      rw [Function.update_of_ne hqp'] at hq'
      exact h.parent q q' np' fds fds' b b' hq hq'
  · rcases eq_or_ne q np with rfl | hqn
    · exact hclear hq
    · rw [hstate q hqn] at hq
      rw [hcwd q hqn, hofile q hqn]
      exact h.clear q hq
  · rw [(hloc q).1, (hloc q).2.1, (hloc q).2.2]
    rcases eq_or_ne q np with rfl | hqn
    · exact ⟨hdn, hcn, han⟩
    · rw [hstate q hqn] at hq
      exact h.rest q hq

/-- A child has one parent. -/
theorem ProcsOk.only_parent (h : ProcsOk s L) {np : Fin N} {fds : List Fd} {b : Bool}
    (hc : (L p).child = some (np, fds, b)) (q : Fin N) (hq : q ≠ p) (fds' : List Fd) (b' : Bool) :
    (L q).child ≠ some (np, fds', b') :=
  fun hc' => hq (h.parent q p np fds' fds b' b hc' hc)

theorem ProcsOk.child_rest (h : ProcsOk s L) {np : Fin N} {fds : List Fd} {b : Bool}
    (hc : (L p).child = some (np, fds, b)) : s.state np ≠ .RUNNABLE := by
  rw [(h.child p np fds b hc).1]
  exact nofun

/-- Only the states of processes change. -/
theorem SysInv.setState (h : SysInv s L) (np : Fin N) (v : Procstate) (ht : l'.temp = (L p).temp)
    (hf : l'.ftemp = (L p).ftemp) (hb : l'.blank = (L p).blank)
    (hprocs : ProcsOk (s.setState np v) (Function.update L p l')) :
    SysInv (s.setState np v) (Function.update L p l') :=
  h.table rfl rfl (fun _ _ => rfl) ht (h.files.congr rfl rfl hf hb) hprocs

theorem setState_same (np : Fin N) (v : Procstate) : (s.setState np v).state np = v :=
  Function.update_self ..

theorem setState_other {np : Fin N} (v : Procstate) (h : q ≠ np) :
    (s.setState np v).state q = s.state q :=
  Function.update_of_ne h ..

theorem SysInv.allocproc (h : SysInv s L) (hrun : s.state p = .RUNNABLE) {np : Fin N}
    (hnp : s.state np = .UNUSED) :
    SysInv (s.setState np .EMBRYO)
      (Function.update L p { L p with child := some (np, List.finRange NOFILE, false) }) := by
  obtain ⟨hcwd, hofile⟩ := h.procs.clear np (Or.inl hnp)
  refine h.setState np _ rfl rfl rfl (h.procs.forChild hrun (by rw [hnp]; exact nofun)
    (fun q _ fds b hc => ?_) (fun q hq => setState_other _ hq) (fun _ _ => rfl) (fun _ _ => rfl)
    rfl rfl rfl (fun np' fds b hc => ?_) fun hu => ?_)
  · have := (h.procs.child q np fds b hc).1
    rw [hnp] at this
    cases this
  · cases hc
    exact ⟨rfl, setState_same .., fun _ => hcwd, fun fd _ => hofile fd⟩
  · rw [setState_same] at hu
    rcases hu with hu | hu <;> cases hu

theorem SysInv.copyuvm_fails (h : SysInv s L) (hrun : s.state p = .RUNNABLE) {np : Fin N}
    (hc : (L p).child = some (np, List.finRange NOFILE, false)) :
    SysInv (s.setState np .UNUSED) (Function.update L p { L p with child := none }) := by
  obtain ⟨_, hcwd, hofile⟩ := h.procs.child p np _ _ hc
  exact h.setState np _ rfl rfl rfl (h.procs.forChild hrun (h.procs.child_rest hc)
    (h.procs.only_parent hc) (fun q hq => setState_other _ hq) (fun _ _ => rfl) (fun _ _ => rfl)
    rfl rfl rfl nofun fun _ => ⟨hcwd rfl, fun fd => hofile fd (List.mem_finRange fd)⟩)

theorem SysInv.runnable (h : SysInv s L) (hrun : s.state p = .RUNNABLE) {np : Fin N}
    (hc : (L p).child = some (np, [], true)) :
    SysInv (s.setState np .RUNNABLE) (Function.update L p { L p with child := none }) := by
  refine h.setState np _ rfl rfl rfl (h.procs.forChild hrun (h.procs.child_rest hc)
    (h.procs.only_parent hc) (fun q hq => setState_other _ hq) (fun _ _ => rfl) (fun _ _ => rfl)
    rfl rfl rfl nofun fun hu => ?_)
  rw [setState_same] at hu
  rcases hu with hu | hu <;> cases hu

theorem SysInv.forkFd (h : SysInv s L) (hrun : s.state p = .RUNNABLE) {np : Fin N} {fd : Fd}
    {fds : List Fd} (hfd : s.ofile p fd = some f) (hblank : (L p).blank = ∅)
    (hnd : fd ∉ fds) (hc : (L p).child = some (np, fd :: fds, false)) :
    SysInv ((s.setFile f fun g => { g with ref := g.ref + 1 }).setOfile np fd (some f))
      (Function.update L p { L p with child := some (np, fds, false) }) := by
  obtain ⟨hstate, hcwd, hofile⟩ := h.procs.child p np _ _ hc
  have hcomm : (s.setFile f fun g => { g with ref := g.ref + 1 }).setOfile np fd (some f) =
      (s.setOfile np fd (some f)).setFile f fun g => { g with ref := g.ref + 1 } := rfl
  rw [hcomm]
  refine h.addFd (hofile fd List.mem_cons_self) (one_le_holds hfd) hblank rfl rfl rfl
    (h.procs.forChild hrun (h.procs.child_rest hc) (h.procs.only_parent hc) (fun _ _ => rfl)
      (fun _ _ => rfl) (fun q hq => ?_) rfl rfl rfl (fun np' fds' b hch => ?_) fun hu => ?_)
  · funext fd'
    exact setOfile_other _ fun hh => hq hh.1
  · cases hch
    refine ⟨rfl, hstate, hcwd, fun fd' hin => ?_⟩
    have hne : fd' ≠ fd := by
      rintro rfl
      exact hnd hin
    rw [setOfile_other _ fun hh => hne hh.2]
    exact hofile fd' (List.mem_cons_of_mem _ hin)
  · rw [show (s.setOfile np fd (some f)).state np = .EMBRYO from hstate] at hu
    rcases hu with hu | hu <;> cases hu

theorem SysInv.forkFd_none (h : SysInv s L) (hrun : s.state p = .RUNNABLE) {np : Fin N} {fd : Fd}
    {fds : List Fd} (hc : (L p).child = some (np, fd :: fds, false)) :
    SysInv s (Function.update L p { L p with child := some (np, fds, false) }) := by
  obtain ⟨hstate, hcwd, hofile⟩ := h.procs.child p np _ _ hc
  refine h.table rfl rfl (fun _ _ => rfl) rfl (h.files.congr rfl rfl rfl rfl)
    (h.procs.forChild hrun (h.procs.child_rest hc) (h.procs.only_parent hc) (fun _ _ => rfl)
      (fun _ _ => rfl) (fun _ _ => rfl) rfl rfl rfl (fun np' fds' b hch => ?_) (h.procs.clear np))
  cases hch
  exact ⟨rfl, hstate, hcwd, fun fd' hin => hofile fd' (List.mem_cons_of_mem _ hin)⟩

theorem SysInv.forkCwd (h : SysInv s L) (hrun : s.state p = .RUNNABLE) {np : Fin N} {ip : Iptr}
    (hip : s.cwd p = some ip) (hc : (L p).child = some (np, [], false)) :
    SysInv ((s.setRef ip (· + 1)).setCwd np (some ip))
      (Function.update L p { L p with child := some (np, [], true) }) := by
  obtain ⟨hstate, hcwd, _⟩ := h.procs.child p np _ _ hc
  have hlive := h.live_of_cwd hip
  refine h.inodes rfl rfl rfl rfl (fun e => ?_) (h.single_setRef fun _ => hlive)
    (h.procs.forChild hrun (h.procs.child_rest hc) (h.procs.only_parent hc) (fun _ _ => rfl)
      (fun q hq => ?_) (fun _ _ => rfl) rfl rfl rfl (fun np' fds' b hch => ?_) fun hu => ?_)
  · have hloc : inodeRefs ((s.setRef ip (· + 1)).setCwd np (some ip))
        (Function.update L p { L p with child := some (np, [], true) }) e +
        (L p).temp.count e = inodeRefs ((s.setRef ip (· + 1)).setCwd np (some ip)) L e +
          (L p).temp.count e := inodeRefs_loc _
    have hset : inodeRefs ((s.setRef ip (· + 1)).setCwd np (some ip)) L e +
        cwdRef (s.cwd np) e = inodeRefs s L e + cwdRef (some ip) e :=
      inodeRefs_setCwd (s := s.setRef ip (· + 1)) (some ip)
    have href := h.ref e
    rw [hcwd rfl, cwdRef, cwdRef, if_neg (c := none = some e) nofun] at hset
    show ((s.setRef ip (· + 1)).files.icache e).ref = _
    rw [setRef_ref]
    split
    · next he =>
        rw [if_pos (by rw [he])] at hset
        omega
    · next he =>
        rw [if_neg fun hh => he (Option.some.inj hh).symm] at hset
        omega
  · exact Function.update_of_ne hq ..
  · cases hch
    exact ⟨rfl, hstate, nofun, nofun⟩
  · rw [show ((s.setRef ip (· + 1)).setCwd np (some ip)).state np = .EMBRYO from hstate] at hu
    rcases hu with hu | hu <;> cases hu

theorem SysInv.zombie (h : SysInv s L) (hrun : s.state p = .RUNNABLE)
    (hc : (L p).closed = Finset.univ) (ha : (L p).away = true) :
    SysInv (s.setState p .ZOMBIE)
      (Function.update L p { L p with desc := none, closed := ∅, away := false }) := by
  have hnone : s.cwd p = none ∧ ∀ fd, s.ofile p fd = none :=
    ⟨h.procs.away p ha, fun fd => h.procs.closed p fd (hc ▸ Finset.mem_univ fd)⟩
  have h' : ProcsOk s (Function.update L p
      { L p with desc := none, closed := ∅, away := false }) :=
    h.procs.congr hrun rfl rfl rfl nofun (fun fd hfd => absurd hfd (Finset.notMem_empty _)) nofun
      rfl
  refine h.setState p _ rfl rfl rfl ⟨h'.desc, h'.closed, h'.away, fun q np fds b hq => ?_,
    h'.parent, fun q hq => ?_, fun q hq => ?_⟩
  · rw [setState_other _ (h'.not_child hrun hq)]
    exact h'.child q np fds b hq
  · rcases eq_or_ne q p with rfl | hne
    · exact hnone
    · rw [setState_other _ hne] at hq
      exact h.procs.clear q hq
  · rcases eq_or_ne q p with rfl | hne
    · rw [Function.update_self]
      exact ⟨rfl, rfl, rfl⟩
    · rw [setState_other _ hne] at hq
      exact h'.rest q hq

theorem SysInv.advance (h : SysInv s L) (hrun : s.state p = .RUNNABLE) {n : Nat} :
    SysInv (s.setFile f fun g => { g with off := g.off + BitVec.ofNat 32 n })
      (Function.update L p (L p)) := by
  have hsame : ∀ f', ((s.setFile f fun g => { g with off := g.off + BitVec.ofNat 32 n }).file
      f').ref = (s.file f').ref ∧
      ((s.setFile f fun g => { g with off := g.off + BitVec.ofNat 32 n }).file f').type =
        (s.file f').type ∧
      ((s.setFile f fun g => { g with off := g.off + BitVec.ofNat 32 n }).file f').ip =
        (s.file f').ip := by
    intro f'
    rcases eq_or_ne f' f with rfl | hne
    · rw [setFile_same]
      exact ⟨rfl, rfl, rfl⟩
    · rw [setFile_other _ hne]
      exact ⟨rfl, rfl, rfl⟩
  refine h.table rfl rfl (fun f' e => ?_) rfl ?_ (h.procs.same hrun rfl rfl rfl rfl rfl rfl rfl)
  · obtain ⟨h1, h2, h3⟩ := hsame f'
    rw [File.inodeRef, File.inodeRef, h1, h2, h3]
  · rw [Function.update_eq_self]
    refine ⟨fun f' => ?_, fun f' hz => ?_, fun q f' hq => ?_⟩
    · rw [(hsame f').1]
      exact h.files.ref f'
    · rw [(hsame f').1] at hz
      rw [(hsame f').2.1]
      exact h.files.unused f' hz
    · rw [(hsame f').1, (hsame f').2.1]
      exact h.files.blank q f' hq

/-- The last reference to a file goes, and with it the file's reference to its inode. -/
theorem fileclose_count {g : File → File} {t : Multiset Iptr} (hlast : (s.file f).ref = 1)
    (hg : (g (s.file f)).ref = 0) (e : Iptr) :
    (g (s.file f)).inodeRef e +
        (if (s.file f).type = .FD_INODE then (s.file f).ip ::ₘ t else t).count e =
      (s.file f).inodeRef e + t.count e := by
  have hzero : (g (s.file f)).inodeRef e = 0 := by
    rw [File.inodeRef, if_neg]
    omega
  rw [hzero, Nat.zero_add, File.inodeRef]
  by_cases ht : (s.file f).type = .FD_INODE
  · rw [if_pos ht, count_cons]
    by_cases he : e = (s.file f).ip
    · rw [if_pos he, if_pos ⟨by omega, ht, he.symm⟩]
      omega
    · rw [if_neg he, if_neg fun hh => he hh.2.2.symm]
      omega
  · rw [if_neg ht, if_neg fun hh => ht hh.2.1]
    omega

end Xv6.Ref.Sysfile
