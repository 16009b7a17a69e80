import Xv6.Ref.Sysfile

/-!
# The references a system call has

Every reference to an inode or to a `struct file` is in a `struct proc`, in a `struct
file`, or in a variable of a system call that is under way. This file is about the
variables: which references a call has there, with what each operation demands of them
and does to them, and a proof that every call keeps to these rules on every path and
ends with none left.
-/

namespace Xv6.Ref.Sysfile

open Xv6.Lib
open Xv6.Ref.Inodes (Iptr)
open Xv6.Ref.Ftable (FdType Fidx Fd)

variable {N : Nat}

/-! ## The local state -/

structure Loc (N : Nat) where
  /-- References to inodes. -/
  temp : Multiset Iptr
  /-- References to files. -/
  ftemp : Multiset Fidx
  /-- Files allocated and not filled in. -/
  blank : Finset Fidx
  /-- A descriptor and the file behind it. -/
  desc : Option (Fd × Fidx)
  /-- In `fork`: the child, the descriptors still to copy, whether it has its `cwd`. -/
  child : Option (Fin N × List Fd × Bool)
  /-- In `exit`: descriptors that are closed. -/
  closed : Finset Fd
  /-- `cwd` is taken away. -/
  away : Bool

namespace Loc

/-- At the start of a system call. -/
def start : Loc N where
  temp := 0
  ftemp := 0
  blank := ∅
  desc := none
  child := none
  closed := ∅
  away := false

/-- Everything given back. -/
structure Done (l : Loc N) : Prop where
  temp : l.temp = 0
  ftemp : l.ftemp = 0
  blank : l.blank = ∅
  child : l.child = none

/-- What an operation needs. -/
def pre (l : Loc N) : Op N → Prop
  | .decref ip => ip ∈ l.temp
  | .setCwd ip => ip ∈ l.temp ∧ l.away = true
  | .fdalloc f => f ∈ l.ftemp ∧ l.closed = ∅
  | .setFile f ip _ => ip ∈ l.temp ∧ f ∈ l.blank
  | .setPipe f _ => f ∈ l.blank
  | .dup f => (∃ fd, l.desc = some (fd, f)) ∧ l.blank = ∅ ∧ l.closed = ∅
  | .fileclose f => f ∈ l.ftemp
  | .allocproc => l.child = none
  | .copyuvm np => l.child = some (np, List.finRange NOFILE, false)
  | .forkFd np fd => l.blank = ∅ ∧ ∃ fds, fd ∉ fds ∧ l.child = some (np, fd :: fds, false)
  | .forkCwd np => l.child = some (np, [], false)
  | .runnable np => l.child = some (np, [], true)
  | .zombie => l.closed = Finset.univ ∧ l.away = true
  | _ => True

/-- What a process knows about an answer. -/
def answers (l : Loc N) : (o : Op N) → Resp o → Prop
  | .filealloc, r => ∀ f, r = some f → f ∉ l.blank
  | .argfd fd, r => r.isSome → (toFd fd).isSome
  | .takeFd fd, r => ∀ f, l.desc = some (fd, f) → r = some f
  | .panic _, _ => False
  | _, _ => True

/-- What an operation does to the local state. -/
def next (l : Loc N) : (o : Op N) → Resp o → Loc N
  | .iget _, ip | .idupCwd, ip => { l with temp := ip ::ₘ l.temp }
  | .takeCwd, ip => { l with temp := ip ::ₘ l.temp, away := true }
  | .decref ip, _ => { l with temp := l.temp.erase ip }
  | .setCwd ip, _ => { l with temp := l.temp.erase ip, away := false }
  | .filealloc, some f => { l with ftemp := f ::ₘ l.ftemp, blank := insert f l.blank }
  | .fdalloc f, some fd => { l with ftemp := l.ftemp.erase f, desc := some (fd, f) }
  | .setFile f ip _, _ => { l with temp := l.temp.erase ip, blank := l.blank.erase f }
  | .setPipe f _, _ => { l with blank := l.blank.erase f }
  | .argfd fd, some (f, _) => { l with desc := (toFd fd).map (·, f) }
  | .takeFd fd, none => { l with desc := none, closed := insert fd l.closed }
  | .takeFd fd, some f =>
      { l with ftemp := f ::ₘ l.ftemp, desc := none, closed := insert fd l.closed }
  | .fileclose f, none => { l with ftemp := l.ftemp.erase f, blank := l.blank.erase f }
  | .fileclose f, some ff =>
      { l with
        ftemp := l.ftemp.erase f
        blank := l.blank.erase f
        temp := if ff.type = .FD_INODE then ff.ip ::ₘ l.temp else l.temp }
  | .allocproc, some np => { l with child := some (np, List.finRange NOFILE, false) }
  | .copyuvm _, false => { l with child := none }
  | .forkFd np _, _ =>
      { l with child := l.child.map fun (_, fds, b) => (np, fds.tail, b) }
  | .forkCwd np, _ => { l with child := some (np, [], true) }
  | .runnable _, _ => { l with child := none }
  | .zombie, _ => { l with desc := none, closed := ∅, away := false }
  | _, _ => l

def post (l : Loc N) (o : Op N) (r : Resp o) (l' : Loc N) : Prop :=
  l.answers o r ∧ l' = l.next o r

end Loc

/-- A program keeps to the rules. -/
abbrev Ok {α : Type} (l : Loc N) (x : SysProg N α) (Q : Loc N → α → Prop) : Prop :=
  Prog.Meets Loc.pre Loc.post l x Q

section

variable {l : Loc N} {α β : Type}

theorem ok_seq {x : SysProg N α} {f : α → SysProg N β} {Q : Loc N → β → Prop}
    (h : Ok l x fun l' a => Ok l' (f a) Q) : Ok l (x >>= f) Q :=
  Prog.Meets.bind h

theorem ok_perform {o : Op N} {Q : Loc N → Resp o → Prop} (h : l.pre o)
    (hq : ∀ r, l.answers o r → Q (l.next o r) r) : Ok l (perform o) Q :=
  Prog.meets_perform h fun r _ hp => hp.2 ▸ hq r hp.1

theorem ok_panic {why : SysPanic} {Q : Loc N → α → Prop} : Ok l (panic why) Q :=
  ⟨trivial, fun r => nomatch r⟩

/-! ## Inodes -/

/-- An operation that is about no reference. -/
theorem ok_frame {o : Op N} {Q : Loc N → Resp o → Prop} (h : l.pre o)
    (hnext : ∀ r, l.next o r = l) (hq : ∀ r, Q l r) : Ok l (perform o) Q := by
  refine ok_perform h fun r _ => ?_
  rw [hnext r]
  exact hq r

theorem ok_ilock (ip : Iptr) {Q : Loc N → Unit → Prop} (hq : Q l ()) : Ok l (ilock ip) Q :=
  ok_seq (ok_frame trivial (fun _ => rfl) fun _ =>
    ok_frame trivial (fun _ => rfl) fun _ => hq)

theorem ok_iunlock (ip : Iptr) {Q : Loc N → Unit → Prop} (hq : Q l ()) : Ok l (iunlock ip) Q :=
  ok_frame trivial (fun _ => rfl) fun _ => hq

theorem ok_iput {ip : Iptr} {Q : Loc N → Unit → Prop} (href : ip ∈ l.temp)
    (hq : Q { l with temp := l.temp.erase ip } ()) : Ok l (iput ip) Q := by
  have hend : Ok l (do perform (.releasesleep ip); perform (.decref ip)) Q :=
    ok_seq (ok_frame trivial (fun _ => rfl) fun _ => ok_perform href fun _ _ => hq)
  refine ok_seq (ok_frame trivial (fun _ => rfl) fun _ => ?_)
  refine ok_seq (ok_frame trivial (fun _ => rfl) fun r => ?_)
  cases r with
  | false => exact hend
  | true => exact ok_seq (ok_frame trivial (fun _ => rfl) fun _ => hend)

theorem ok_iunlockput {ip : Iptr} {Q : Loc N → Unit → Prop} (href : ip ∈ l.temp)
    (hq : Q { l with temp := l.temp.erase ip } ()) : Ok l (iunlockput ip) Q :=
  ok_seq (ok_iunlock ip (ok_iput href hq))

theorem ok_console (ip : Iptr) {Q : Loc N → Unit → Prop} (hq : Q l ()) : Ok l (console ip) Q := by
  refine ok_seq (ok_frame trivial (fun _ => rfl) fun i => ?_)
  split
  · exact ok_seq (ok_iunlock ip (ok_ilock ip hq))
  · exact hq

theorem ok_readi (ip : Iptr) (off n : BitVec 32) {Q : Loc N → Option (List UInt8) → Prop}
    (hq : ∀ r, Q l r) : Ok l (readi ip off n) Q :=
  ok_seq (ok_console ip (ok_frame trivial (fun _ => rfl) hq))

theorem ok_writei (ip : Iptr) (src : List UInt8) (off : BitVec 32)
    {Q : Loc N → Option Nat → Prop} (hq : ∀ r, Q l r) : Ok l (writei ip src off) Q :=
  ok_seq (ok_console ip (ok_frame trivial (fun _ => rfl) hq))

theorem ok_dirlookup (dp : Iptr) (name : List UInt8) {Q : Loc N → Option (Iptr × Nat) → Prop}
    (hnone : Q l none)
    (hsome : ∀ ip off, Q { l with temp := ip ::ₘ l.temp } (some (ip, off))) :
    Ok l (dirlookup dp name) Q := by
  refine ok_seq (ok_frame trivial (fun _ => rfl) fun r => ?_)
  match r with
  | none => exact hnone
  | some (inum, off) =>
      exact ok_seq (ok_perform trivial fun ip _ => hsome ip off)

theorem ok_dirlink (dp : Iptr) (name : List UInt8) (inum : Nat) {Q : Loc N → Bool → Prop}
    (hq : ∀ b, Q l b) : Ok l (dirlink dp name inum) Q := by
  refine ok_seq (ok_dirlookup dp name ?_ fun ip off => ?_)
  · exact ok_seq (ok_frame trivial (fun _ => rfl) fun _ => hq true)
  · refine ok_seq (ok_iput (Multiset.mem_cons_self _ _) ?_)
    rw [Multiset.erase_cons_head]
    exact hq false

/-- `namex` leaves a reference to what it returns, and nothing else. -/
theorem ok_namexLoop {parent : Bool} {Q : Loc N → Option (Iptr × Name) → Prop}
    (hnone : Q l none) (hsome : ∀ ip name, Q { l with temp := ip ::ₘ l.temp } (some (ip, name)))
    (names : List Name) : ∀ (ip : Iptr) (name : Name),
      Ok { l with temp := ip ::ₘ l.temp } (namexLoop parent names ip name) Q := by
  have hput : ∀ (t : Multiset Iptr) (ip : Iptr) {Q' : Loc N → Unit → Prop},
      Q' { l with temp := t } () → Ok { l with temp := ip ::ₘ t } (iunlockput ip) Q' := by
    intro t ip Q' hq
    refine ok_iunlockput (Multiset.mem_cons_self _ _) ?_
    rw [Multiset.erase_cons_head]
    exact hq
  induction names with
  | nil =>
      intro ip name
      cases parent with
      | false => exact hsome ip name
      | true =>
          refine ok_seq (ok_iput (Multiset.mem_cons_self _ _) ?_)
          rw [Multiset.erase_cons_head]
          exact hnone
  | cons name rest ih =>
      intro ip old
      refine ok_seq (ok_ilock ip ?_)
      refine ok_seq (ok_frame trivial (fun _ => rfl) fun i => ?_)
      split
      · exact ok_seq (hput l.temp ip hnone)
      · split
        · exact ok_seq (ok_iunlock ip (hsome ip name))
        · refine ok_seq (ok_dirlookup ip name ?_ fun next off => ?_)
          · exact ok_seq (hput l.temp ip hnone)
          · dsimp only
            rw [Multiset.cons_swap]
            exact ok_seq (hput (next ::ₘ l.temp) ip (ih next name))

theorem ok_namex {path : Path} {parent : Bool} {Q : Loc N → Option (Iptr × Name) → Prop}
    (hnone : Q l none) (hsome : ∀ ip name, Q { l with temp := ip ::ₘ l.temp } (some (ip, name))) :
    Ok l (namex path parent) Q := by
  refine ok_seq ?_
  rw [namexStart]
  split <;>
    exact ok_perform trivial fun ip _ => ok_namexLoop hnone hsome (elems path) ip []

theorem ok_namei {path : Path} {Q : Loc N → Option Iptr → Prop} (hnone : Q l none)
    (hsome : ∀ ip, Q { l with temp := ip ::ₘ l.temp } (some ip)) : Ok l (namei path) Q :=
  ok_seq (ok_namex hnone fun ip _ => hsome ip)

/-! ## The calls on paths -/

/-- A reference that was taken last is put. -/
theorem ok_iput_head {ip : Iptr} {t : Multiset Iptr} {Q : Loc N → Unit → Prop}
    (hq : Q { l with temp := t } ()) : Ok { l with temp := ip ::ₘ t } (iput ip) Q := by
  refine ok_iput (Multiset.mem_cons_self _ _) ?_
  rw [Multiset.erase_cons_head]
  exact hq

theorem ok_iunlockput_head {ip : Iptr} {t : Multiset Iptr} {Q : Loc N → Unit → Prop}
    (hq : Q { l with temp := t } ()) : Ok { l with temp := ip ::ₘ t } (iunlockput ip) Q :=
  ok_seq (ok_iunlock ip (ok_iput_head hq))

theorem ok_linkBad {ip : Iptr} {Q : Loc N → Int → Prop} (hq : Q l (-1)) :
    Ok { l with temp := ip ::ₘ l.temp } (linkBad ip) Q :=
  ok_seq (ok_ilock ip (ok_seq (ok_frame trivial (fun _ => rfl) fun _ =>
    ok_seq (ok_iunlockput_head hq))))

theorem ok_sysLink {old new : Path} {Q : Loc N → Int → Prop} (hq : ∀ r, Q l r) :
    Ok l (sysLink old new) Q := by
  refine ok_seq (ok_namei (hq (-1)) fun ip => ?_)
  refine ok_seq (ok_ilock ip (ok_seq (ok_frame trivial (fun _ => rfl) fun i => ?_)))
  split
  · exact ok_seq (ok_iunlockput_head (hq (-1)))
  · refine ok_seq (ok_frame trivial (fun _ => rfl) fun _ => ok_seq (ok_iunlock ip ?_))
    refine ok_seq (ok_namex (ok_linkBad (hq (-1))) fun dp name => ?_)
    refine ok_seq (ok_ilock dp (ok_seq (ok_frame trivial (fun _ => rfl) fun inum => ?_)))
    refine ok_seq (ok_dirlink dp name inum fun b => ?_)
    cases b with
    | true => exact ok_seq (ok_iunlockput_head (ok_seq (ok_iput_head (hq 0))))
    | false => exact ok_seq (ok_iunlockput_head (ok_linkBad (hq (-1))))

theorem ok_unlinkBad {dp : Iptr} {Q : Loc N → Int → Prop} (hq : Q l (-1)) :
    Ok { l with temp := dp ::ₘ l.temp } (unlinkBad dp) Q :=
  ok_seq (ok_iunlockput_head hq)

theorem ok_unlinkEntry {dp ip : Iptr} {off : Nat} {type : BitVec 16} {Q : Loc N → Int → Prop}
    (hq : Q l 0) :
    Ok { l with temp := ip ::ₘ dp ::ₘ l.temp } (unlinkEntry dp ip off type) Q := by
  have hend : Ok { l with temp := ip ::ₘ dp ::ₘ l.temp } (do
      iunlockput dp
      perform (.addNlink ip (-1))
      iunlockput ip
      pure 0) Q := by
    rw [Multiset.cons_swap]
    exact ok_seq (ok_iunlockput_head (ok_seq (ok_frame trivial (fun _ => rfl) fun _ =>
      ok_seq (ok_iunlockput_head hq))))
  refine ok_seq (ok_frame trivial (fun _ => rfl) fun _ => ?_)
  dsimp only
  split
  · exact ok_seq (ok_frame trivial (fun _ => rfl) fun _ => hend)
  · exact hend

theorem ok_sysUnlink {path : Path} {Q : Loc N → Int → Prop} (hq : ∀ r, Q l r) :
    Ok l (sysUnlink path) Q := by
  refine ok_seq (ok_namex (hq (-1)) fun dp name => ?_)
  refine ok_seq (ok_ilock dp ?_)
  split
  · exact ok_unlinkBad (hq (-1))
  · refine ok_seq (ok_dirlookup dp name (ok_unlinkBad (hq (-1))) fun ip off => ?_)
    refine ok_seq (ok_ilock ip (ok_seq (ok_frame trivial (fun _ => rfl) fun i => ?_)))
    split
    · exact ok_panic
    · split
      · refine ok_seq (ok_frame trivial (fun _ => rfl) fun b => ?_)
        cases b with
        | true => exact ok_unlinkEntry (hq 0)
        | false => exact ok_seq (ok_iunlockput_head (ok_unlinkBad (hq (-1))))
      · exact ok_unlinkEntry (hq 0)

theorem ok_createNew {dp : Iptr} {name : Name} {type major minor : BitVec 16}
    {Q : Loc N → Iptr → Prop} (hq : ∀ ip, Q { l with temp := ip ::ₘ l.temp } ip) :
    Ok { l with temp := dp ::ₘ l.temp } (createNew dp name type major minor) Q := by
  refine ok_seq (ok_frame trivial (fun _ => rfl) fun inum => ?_)
  refine ok_seq (ok_perform trivial fun ip _ => ok_seq (ok_ilock ip ?_))
  have hend : Ok { l with temp := ip ::ₘ dp ::ₘ l.temp } (do
      unless ← dirlink dp name (← perform (.inum ip)) do panic .createDirlink
      iunlockput dp
      pure ip) Q := by
    refine ok_seq (ok_frame trivial (fun _ => rfl) fun inum => ?_)
    refine ok_seq (ok_dirlink dp name inum fun b => ?_)
    cases b with
    | false => exact ok_seq ok_panic
    | true =>
        rw [Multiset.cons_swap]
        exact ok_seq (ok_iunlockput_head (hq ip))
  have hdots : ∀ {x : SysProg N Iptr} {name : Name} {inum : Nat},
      Ok { l with temp := ip ::ₘ dp ::ₘ l.temp } x Q →
      Ok { l with temp := ip ::ₘ dp ::ₘ l.temp }
        (do unless ← dirlink ip name inum do panic .createDots
            x) Q := by
    intro x name inum hx
    refine ok_seq (ok_dirlink ip name inum fun b => ?_)
    cases b with
    | false => exact ok_seq ok_panic
    | true => exact hx
  refine ok_seq (ok_frame trivial (fun _ => rfl) fun _ => ?_)
  dsimp only
  split
  · refine ok_seq (ok_frame trivial (fun _ => rfl) fun _ => ?_)
    refine ok_seq (ok_frame trivial (fun _ => rfl) fun _ => hdots ?_)
    exact ok_seq (ok_frame trivial (fun _ => rfl) fun _ => hdots hend)
  · exact hend

theorem ok_create {path : Path} {type major minor : BitVec 16} {Q : Loc N → Option Iptr → Prop}
    (hnone : Q l none) (hsome : ∀ ip, Q { l with temp := ip ::ₘ l.temp } (some ip)) :
    Ok l (create path type major minor) Q := by
  refine ok_seq (ok_namex hnone fun dp name => ok_seq (ok_ilock dp ?_))
  refine ok_seq (ok_dirlookup dp name ?_ fun ip off => ?_)
  · exact ok_seq (ok_createNew hsome)
  · rw [Multiset.cons_swap]
    refine ok_seq (ok_iunlockput_head (ok_seq (ok_ilock ip ?_)))
    refine ok_seq (ok_frame trivial (fun _ => rfl) fun i => ?_)
    split
    · exact hsome ip
    · exact ok_seq (ok_iunlockput_head hnone)

theorem ok_openInode {path : Path} {omode : Nat} {Q : Loc N → Option Iptr → Prop}
    (hnone : Q l none) (hsome : ∀ ip, Q { l with temp := ip ::ₘ l.temp } (some ip)) :
    Ok l (openInode path omode) Q := by
  rw [openInode]
  split
  · exact ok_create hnone hsome
  · refine ok_seq (ok_namei hnone fun ip => ok_seq (ok_ilock ip ?_))
    refine ok_seq (ok_frame trivial (fun _ => rfl) fun i => ?_)
    split
    · exact ok_seq (ok_iunlockput_head hnone)
    · exact hsome ip

theorem ok_sysMake {path : Path} {type major minor : BitVec 16} {Q : Loc N → Int → Prop}
    (hq : ∀ r, Q l r) : Ok l (sysMake path type major minor) Q :=
  ok_seq (ok_create (hq (-1)) fun _ => ok_seq (ok_iunlockput_head (hq 0)))

theorem ok_sysExec {path : Path} {reads : List (BitVec 32 × BitVec 32)} {Q : Loc N → Int → Prop}
    (hq : ∀ r, Q l r) : Ok l (sysExec path reads) Q := by
  refine ok_seq (ok_namei (hq (-1)) fun ip => ok_seq (ok_ilock ip (ok_seq ?_)))
  induction reads with
  | nil => exact ok_seq (ok_iunlockput_head (hq 0))
  | cons read reads ih => exact ok_seq (ok_readi ip read.1 read.2 fun _ => ih)

/-! ## The calls on descriptors -/

theorem ok_fileclose {f : Fidx} {Q : Loc N → Unit → Prop} (hf : f ∈ l.ftemp)
    (hq : Q { l with ftemp := l.ftemp.erase f, blank := l.blank.erase f } ()) :
    Ok l (fileclose f) Q := by
  refine ok_seq (ok_perform hf fun r _ => ?_)
  cases r with
  | none => exact hq
  | some ff =>
      by_cases ht : ff.type = .FD_INODE
      · simp only [Loc.next, if_pos ht]
        refine ok_iput (Multiset.mem_cons_self _ _) ?_
        rw [Multiset.erase_cons_head]
        exact hq
      · simp only [Loc.next, if_neg ht]
        exact hq

/-- A call that starts with nothing in its variables. -/
theorem Loc.start_done : (Loc.start : Loc N).Done := ⟨rfl, rfl, rfl, rfl⟩

theorem ok_sysOpen {path : Path} {omode : Nat} :
    Ok (Loc.start : Loc N) (sysOpen path omode) fun l _ => l.Done := by
  refine ok_seq (ok_openInode Loc.start_done fun ip => ?_)
  refine ok_seq (ok_perform trivial fun f _ => ?_)
  match f with
  | none => exact ok_seq (ok_iunlockput_head Loc.start_done)
  | some f =>
      refine ok_seq (ok_perform ⟨by simp [Loc.next], rfl⟩ fun fd _ => ?_)
      match fd with
      | none =>
          refine ok_seq (ok_fileclose (by simp [Loc.next]) (ok_seq (ok_iunlockput ?_ ?_)))
          · simp [Loc.next]
          · exact ⟨by simp [Loc.next, Loc.start], by simp [Loc.next, Loc.start],
              by simp [Loc.next, Loc.start], rfl⟩
      | some fd =>
          refine ok_seq (ok_iunlock ip (ok_seq (ok_perform
            ⟨by simp [Loc.next], by simp [Loc.next]⟩ fun _ _ => ?_)))
          exact ⟨by simp [Loc.next, Loc.start], by simp [Loc.next, Loc.start],
            by simp [Loc.next, Loc.start], rfl⟩

theorem ok_sysChdir {path : Path} :
    Ok (Loc.start : Loc N) (sysChdir path) fun l _ => l.Done := by
  refine ok_seq (ok_namei Loc.start_done fun ip => ok_seq (ok_ilock ip ?_))
  refine ok_seq (ok_frame trivial (fun _ => rfl) fun i => ?_)
  split
  · exact ok_seq (ok_iunlockput_head Loc.start_done)
  · refine ok_seq (ok_iunlock ip (ok_seq (ok_perform trivial fun old _ => ?_)))
    refine ok_seq (ok_iput (by simp [Loc.next]) ?_)
    dsimp only [Loc.next]
    rw [Multiset.erase_cons_head]
    refine ok_seq (ok_perform ⟨by simp, rfl⟩ fun _ _ => ?_)
    exact ⟨by simp [Loc.next, Loc.start], rfl, rfl, rfl⟩

/-- What a call does through a descriptor leaves no reference behind. -/
theorem ok_argfd {fd : Int} {x : Option (Fidx × File) → SysProg N Int}
    (hnone : Ok (Loc.start : Loc N) (x none) fun l _ => l.Done)
    (hsome : ∀ (l : Loc N) (f : Fidx) (ff : File), l.Done → l.closed = ∅ →
      (∃ fd, l.desc = some (fd, f)) → Ok l (x (some (f, ff))) fun l _ => l.Done) :
    Ok (Loc.start : Loc N) (perform (.argfd fd) >>= x) fun l _ => l.Done := by
  refine ok_seq (ok_perform trivial fun r hr => ?_)
  match r with
  | none => exact hnone
  | some (f, ff) =>
      obtain ⟨fd', hfd⟩ : ∃ fd', toFd fd = some fd' := Option.isSome_iff_exists.mp (hr rfl)
      refine hsome _ f ff ⟨rfl, rfl, rfl, rfl⟩ rfl ⟨fd', ?_⟩
      simp only [Loc.next, hfd, Option.map_some]

theorem ok_fileread {f : Fidx} {ff : File} {n : BitVec 32} {Q : Loc N → Int → Prop}
    (hq : ∀ r, Q l r) : Ok l (fileread f ff n) Q := by
  rw [fileread]
  split
  · exact hq (-1)
  · split
    · exact hq 0
    · refine ok_seq (ok_ilock _ (ok_seq (ok_frame trivial (fun _ => rfl) fun off => ?_)))
      refine ok_seq (ok_readi _ off n fun r => ?_)
      match r with
      | none => exact ok_seq (ok_iunlock _ (hq _))
      | some bytes =>
          exact ok_seq (ok_frame trivial (fun _ => rfl) fun _ => ok_seq (ok_iunlock _ (hq _)))
    · exact ok_panic

theorem ok_filewriteLoop {f : Fidx} {ip : Iptr} {Q : Loc N → Int → Prop} (hq : ∀ r, Q l r) :
    ∀ srcs : List (List UInt8), Ok l (filewriteLoop f ip srcs) Q := by
  intro srcs
  induction srcs with
  | nil => exact hq 0
  | cons src rest ih =>
      refine ok_seq (ok_ilock ip (ok_seq (ok_frame trivial (fun _ => rfl) fun off => ?_)))
      refine ok_seq (ok_writei ip src off fun r => ?_)
      match r with
      | none => exact ok_seq (ok_iunlock ip (hq _))
      | some n =>
          refine ok_seq (ok_frame trivial (fun _ => rfl) fun _ => ok_seq (ok_iunlock ip ?_))
          dsimp only
          split
          · exact ok_panic
          · exact ih

theorem ok_filewrite {f : Fidx} {ff : File} {src : List UInt8} {Q : Loc N → Int → Prop}
    (hq : ∀ r, Q l r) : Ok l (filewrite f ff src) Q := by
  rw [filewrite]
  split
  · exact hq (-1)
  · split
    · exact hq 0
    · refine ok_seq (ok_filewriteLoop (fun r => ?_) _)
      split
      · exact hq _
      · exact hq _
    · exact ok_panic

theorem ok_sysFstat {fd : Int} : Ok (Loc.start : Loc N) (sysFstat fd) fun l _ => l.Done := by
  refine ok_argfd Loc.start_done fun l f ff hl _ _ => ?_
  dsimp only
  split
  · exact ok_seq (ok_ilock _ (ok_seq (ok_frame trivial (fun _ => rfl) fun _ =>
      ok_seq (ok_iunlock _ hl))))
  · exact hl

theorem ok_sysDup {fd : Int} : Ok (Loc.start : Loc N) (sysDup fd) fun l _ => l.Done := by
  refine ok_argfd Loc.start_done fun l f ff hl hc hd => ?_
  refine ok_seq (ok_perform ⟨hd, hl.blank, hc⟩ fun r _ => ?_)
  cases r <;> exact hl

theorem ok_sysClose {fd : Int} : Ok (Loc.start : Loc N) (sysClose fd) fun l _ => l.Done := by
  rw [sysClose]
  split
  · exact Loc.start_done
  · refine ok_seq (ok_perform trivial fun r _ => ?_)
    cases r with
    | none => exact ⟨rfl, rfl, rfl, rfl⟩
    | some f =>
        refine ok_seq (ok_fileclose (by simp [Loc.next]) ?_)
        exact ⟨rfl, by simp [Loc.next, Loc.start], rfl, rfl⟩

/-! ## Pipes and processes -/

/-- The files a call has, and no inode. -/
structure Has (l : Loc N) (t : Multiset Fidx) (k : Finset Fidx)
    (ch : Option (Fin N × List Fd × Bool)) : Prop where
  temp : l.temp = 0
  ftemp : l.ftemp = t
  blank : l.blank = k
  child : l.child = ch

theorem Has.done (h : Has l 0 ∅ none) : l.Done := ⟨h.temp, h.ftemp, h.blank, h.child⟩

theorem ok_fileclose_has {f : Fidx} {t : Multiset Fidx} {k : Finset Fidx}
    {Q : Loc N → Unit → Prop} (h : Has l (f ::ₘ t) k none)
    (hq : ∀ l', Has l' t (k.erase f) none → Q l' ()) : Ok l (fileclose f) Q := by
  refine ok_fileclose (by rw [h.ftemp]; exact Multiset.mem_cons_self _ _) (hq _ ?_)
  exact ⟨h.temp, by rw [h.ftemp, Multiset.erase_cons_head], by rw [h.blank], h.child⟩

/-- Two files are closed, and nothing is left. -/
theorem ok_fileclose_two {f g : Fidx} {k : Finset Fidx} {Q : Loc N → Int → Prop}
    (h : Has l (f ::ₘ g ::ₘ 0) k none) (hk : k ⊆ {f, g}) (hq : ∀ l', Has l' 0 ∅ none → Q l' (-1)) :
    Ok l (do fileclose f; fileclose g; pure (-1)) Q := by
  refine ok_seq (ok_fileclose_has h fun l₁ h₁ => ok_seq (ok_fileclose_has h₁ fun l₂ h₂ => ?_))
  refine hq l₂ ?_
  have hnone : (k.erase f).erase g = ∅ := by
    ext x
    simp only [Finset.mem_erase, Finset.notMem_empty, iff_false]
    rintro ⟨h1, h2, h3⟩
    have := hk h3
    simp only [Finset.mem_insert, Finset.mem_singleton] at this
    exact this.elim h2 h1
  rw [← hnone]
  exact h₂

/-- `pipealloc` returns two files of its own, or nothing. -/
theorem ok_pipealloc {Q : Loc N → Option (Fidx × Fidx) → Prop}
    (hnone : ∀ l, Has l 0 ∅ none → Q l none)
    (hsome : ∀ l f0 f1, Has l (f0 ::ₘ f1 ::ₘ 0) ∅ none → l.closed = ∅ → Q l (some (f0, f1))) :
    Ok (Loc.start : Loc N) pipealloc Q := by
  refine ok_seq (ok_perform trivial fun r _ => ?_)
  match r with
  | none => exact hnone _ ⟨rfl, rfl, rfl, rfl⟩
  | some f0 =>
      have h0 : Has ((Loc.start : Loc N).next .filealloc (some f0)) (f0 ::ₘ 0) {f0} none :=
        ⟨rfl, rfl, rfl, rfl⟩
      refine ok_seq (ok_perform trivial fun r hr => ?_)
      match r with
      | none =>
          refine ok_seq (ok_fileclose_has h0 fun l h => hnone l ?_)
          rw [Finset.erase_singleton] at h
          exact h
      | some f1 =>
          have hne : f1 ≠ f0 := by
            rintro rfl
            exact hr f1 rfl (Finset.mem_insert_self _ _)
          have h1 : Has (((Loc.start : Loc N).next .filealloc (some f0)).next .filealloc
              (some f1)) (f0 ::ₘ f1 ::ₘ 0) {f1, f0} none :=
            ⟨rfl, Multiset.cons_swap f1 f0 0, rfl, rfl⟩
          refine ok_seq (ok_frame trivial (fun _ => rfl) fun b => ?_)
          cases b with
          | true =>
              refine ok_seq (ok_perform (by rw [Loc.pre, h1.blank]; simp) fun _ _ => ?_)
              refine ok_seq (ok_perform ?_ fun _ _ => hsome _ f0 f1 ⟨h1.temp, h1.ftemp, ?_,
                h1.child⟩ rfl)
              · show f1 ∈ Finset.erase _ f0
                rw [h1.blank]
                simp [hne]
              · show (Finset.erase _ f0).erase f1 = ∅
                rw [h1.blank]
                ext x
                simp only [Finset.mem_erase, Finset.mem_insert, Finset.mem_singleton,
                  Finset.notMem_empty, iff_false]
                tauto
          | false =>
              refine ok_seq (ok_fileclose_has h1 fun l₁ h₁ => ok_seq (ok_fileclose_has h₁
                fun l₂ h₂ => hnone l₂ ?_))
              have hk : (({f1, f0} : Finset Fidx).erase f0).erase f1 = ∅ := by
                ext x
                simp only [Finset.mem_erase, Finset.mem_insert, Finset.mem_singleton,
                  Finset.notMem_empty, iff_false]
                tauto
              rw [← hk]
              exact h₂

theorem ok_sysPipe : Ok (Loc.start : Loc N) sysPipe fun l _ => l.Done := by
  refine ok_seq (ok_pipealloc (fun l h => h.done) fun l rf wf h hc => ?_)
  refine ok_seq (ok_perform ⟨by rw [h.ftemp]; exact Multiset.mem_cons_self _ _, hc⟩ fun r _ => ?_)
  match r with
  | none => exact ok_fileclose_two h (Finset.empty_subset _) fun l' h' => h'.done
  | some fd0 =>
      have h0 : Has (l.next (.fdalloc rf) (some fd0)) (wf ::ₘ 0) ∅ none :=
        ⟨h.temp, (congrArg (Multiset.erase · rf) h.ftemp).trans (Multiset.erase_cons_head ..),
          h.blank, h.child⟩
      refine ok_seq (ok_perform ⟨by rw [h0.ftemp]; exact Multiset.mem_cons_self _ _, hc⟩
        fun r _ => ?_)
      match r with
      | none =>
          refine ok_seq (ok_perform trivial fun r hr => ?_)
          obtain rfl : r = some rf := hr rf rfl
          refine ok_fileclose_two (k := ∅) ⟨h0.temp, ?_, h0.blank, h0.child⟩
            (Finset.empty_subset _) fun l' h' => h'.done
          exact congrArg (rf ::ₘ ·) h0.ftemp
      | some fd1 =>
          exact ⟨h0.temp, (congrArg (Multiset.erase · wf) h0.ftemp).trans
            (Multiset.erase_cons_head ..), h0.blank, h0.child⟩

theorem ok_forkFds {np : Fin N} {Q : Loc N → Unit → Prop} :
    ∀ (fds : List Fd) {l : Loc N}, fds.Nodup → Has l 0 ∅ (some (np, fds, false)) →
      (∀ l' : Loc N, Has l' 0 ∅ (some (np, [], false)) → Q l' ()) →
      Ok l (forkFds np fds) Q := by
  intro fds
  induction fds with
  | nil => exact fun _ h hq => hq _ h
  | cons fd fds ih =>
      intro l hnd h hq
      obtain ⟨hfd, hnd⟩ := List.nodup_cons.mp hnd
      refine ok_seq (ok_perform ⟨h.blank, fds, hfd, h.child⟩ fun _ _ =>
        ih hnd ⟨h.temp, h.ftemp, h.blank, ?_⟩ hq)
      simp only [Loc.next, h.child, Option.map_some, List.tail_cons]

theorem ok_sysFork : Ok (Loc.start : Loc N) sysFork fun l _ => l.Done := by
  refine ok_seq (ok_perform rfl fun r _ => ?_)
  match r with
  | none => exact Loc.start_done
  | some np =>
      refine ok_seq (ok_perform rfl fun b _ => ?_)
      match b with
      | false => exact ⟨rfl, rfl, rfl, rfl⟩
      | true =>
          refine ok_seq (ok_forkFds _ (List.nodup_finRange _) ⟨rfl, rfl, rfl, rfl⟩ fun l h => ?_)
          refine ok_seq (ok_perform h.child fun _ _ => ok_seq (ok_perform rfl fun _ _ => ?_))
          exact ⟨h.temp, h.ftemp, h.blank, rfl⟩

theorem ok_closeAll {Q : Loc N → Unit → Prop} :
    ∀ (fds : List Fd) {l : Loc N}, Has l 0 ∅ none →
      (∀ l' : Loc N, Has l' 0 ∅ none → l.closed ⊆ l'.closed → (∀ fd ∈ fds, fd ∈ l'.closed) →
        Q l' ()) →
      Ok l (closeAll fds) Q := by
  intro fds
  induction fds with
  | nil => exact fun h hq => hq _ h (Finset.Subset.refl _) nofun
  | cons fd fds ih =>
      intro l h hq
      refine ok_seq (ok_perform trivial fun r _ => ?_)
      have hmono : ∀ {l₁ l' : Loc N}, l₁.closed = insert fd l.closed → l₁.closed ⊆ l'.closed →
          Has l' 0 ∅ none → (∀ fd ∈ fds, fd ∈ l'.closed) → Q l' () := by
        intro l₁ l' h₁ hle h' hall
        rw [h₁] at hle
        refine hq l' h' (fun x hx => hle (Finset.mem_insert_of_mem hx)) fun x hx => ?_
        rcases List.mem_cons.mp hx with rfl | hx
        · exact hle (Finset.mem_insert_self _ _)
        · exact hall x hx
      match r with
      | none =>
          exact ih ⟨h.temp, h.ftemp, h.blank, h.child⟩ fun l' h' hle hall =>
            hmono rfl hle h' hall
      | some f =>
          have hhas : Has (l.next (.takeFd fd) (some f)) (f ::ₘ 0) ∅ none :=
            ⟨h.temp, congrArg (f ::ₘ ·) h.ftemp, h.blank, h.child⟩
          refine ok_seq (ok_fileclose (by rw [hhas.ftemp]; exact Multiset.mem_cons_self _ _) ?_)
          refine ih ⟨h.temp, ?_, ?_, h.child⟩ fun l' h' hle hall => hmono rfl hle h' hall
          · exact (congrArg (Multiset.erase · f) hhas.ftemp).trans (Multiset.erase_cons_head ..)
          · exact (congrArg (Finset.erase · f) hhas.blank).trans (Finset.erase_empty f)

theorem ok_sysExit {p : Fin N} : Ok (Loc.start : Loc N) (sysExit p) fun l _ => l.Done := by
  rw [sysExit]
  split
  · exact ok_panic
  · refine ok_seq (ok_closeAll _ ⟨rfl, rfl, rfl, rfl⟩ fun l h _ hall => ?_)
    refine ok_seq (ok_perform trivial fun ip _ => ?_)
    refine ok_seq (ok_iput (by simp [Loc.next]) (ok_seq (ok_perform ⟨?_, rfl⟩ fun _ _ => ?_)))
    · exact Finset.eq_univ_iff_forall.mpr fun fd => hall fd (List.mem_finRange fd)
    · refine ⟨?_, h.ftemp, h.blank, h.child⟩
      exact (Multiset.erase_cons_head ..).trans h.temp

/-! ## All of them -/

/-- Every system call keeps to the rules and ends with nothing in its variables. -/
theorem ok_prog (p : Fin N) (c : Syscall) :
    Ok (Loc.start : Loc N) (c.prog p) fun l _ => l.Done := by
  cases c with
  | badArgs => exact Loc.start_done
  | «open» path omode => exact ok_sysOpen
  | mkdir path => exact ok_sysMake fun _ => Loc.start_done
  | mknod path major minor => exact ok_sysMake fun _ => Loc.start_done
  | link old new => exact ok_sysLink fun _ => Loc.start_done
  | unlink path => exact ok_sysUnlink fun _ => Loc.start_done
  | chdir path => exact ok_sysChdir
  | exec path reads => exact ok_sysExec fun _ => Loc.start_done
  | read fd n => exact ok_argfd Loc.start_done fun l f ff hl _ _ => ok_fileread fun _ => hl
  | write fd src => exact ok_argfd Loc.start_done fun l f ff hl _ _ => ok_filewrite fun _ => hl
  | fstat fd => exact ok_sysFstat
  | dup fd => exact ok_sysDup
  | close fd => exact ok_sysClose
  | pipe => exact ok_sysPipe
  | fork => exact ok_sysFork
  | exit => exact ok_sysExit

end

end Xv6.Ref.Sysfile
