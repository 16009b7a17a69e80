import Xv6.Lib.Trans
import Xv6.Proofs.FileArray
import Xv6.Proofs.IcacheInv

/-!
# References to inodes are exact

Every operation of a call keeps the counts exact, so they are exact in every state of
every run. In a state between the calls no reference is in a variable, and what is left
are the open files and the current directories.
-/

namespace Xv6.Ref.Sysfile

open Xv6.Lib
open Xv6.Ref.Inodes (Iptr Devsw tinySb)
open Xv6.Ref.Ftable (FdType Fidx Fd)

variable {N : Nat} {s s' : Sys N} {L : Fin N → Loc N} {p q : Fin N}

/-! ## Steps -/

section

variable {sb : Superblock} {devsw : Nat → Devsw} {pick : Nat}

/-- An operation that a process may perform keeps the counts exact. -/
theorem sysInv_op (h : SysInv s L) (hrun : s.state p = .RUNNABLE) {o : Op N} {r : Resp o}
    (hpre : (L p).pre o) (hs : opStep sb devsw pick s p o = .ok s' r) :
    (L p).answers o r ∧ SysInv s' (Function.update L p ((L p).next o r)) := by
  cases o with
  | iget inum =>
      refine ⟨trivial, ?_⟩
      dsimp only [opStep] at hs
      cases hx : fs (Inodes.iget s.files inum) with
      | error why =>
          rw [hx] at hs
          cases hs
      | ok x =>
          rw [hx] at hs
          cases hs
          exact h.iget hrun (fs_eq_ok hx)
  | idupCwd =>
      refine ⟨trivial, ?_⟩
      dsimp only [opStep] at hs
      split at hs
      · next ip hip =>
          cases hs
          exact h.idupCwd hrun hip
      · cases hs
  | acquiresleep ip inPut =>
      refine ⟨trivial, ?_⟩
      dsimp only [opStep] at hs
      split at hs
      · cases hs
      · split at hs
        · cases hs
        · cases hs
          exact h.frame hrun (SameRefs.refl _) rfl rfl rfl rfl
  | load ip =>
      refine ⟨trivial, h.lift hrun hs fun b hb => ?_⟩
      cases hx : Inodes.ilock sb s.files ip with
      | error why =>
          rw [hx] at hb
          cases hb
      | ok x =>
          rw [hx] at hb
          cases hb
          exact sameRefs_ilock hx
  | iunlock ip =>
      refine ⟨trivial, ?_⟩
      dsimp only [opStep] at hs
      split at hs
      · cases hs
      · cases hs
        exact h.frame hrun (SameRefs.refl _) rfl rfl rfl rfl
  | inum ip =>
      cases hs
      exact ⟨trivial, h.frame hrun (SameRefs.refl _) rfl rfl rfl rfl⟩
  | inode ip =>
      cases hs
      exact ⟨trivial, h.frame hrun (SameRefs.refl _) rfl rfl rfl rfl⟩
  | lastRef ip =>
      cases hs
      exact ⟨trivial, h.frame hrun (SameRefs.refl _) rfl rfl rfl rfl⟩
  | freeInode ip =>
      refine ⟨trivial, h.lift hrun hs fun b hb => ?_⟩
      cases hx : Inodes.freeInode sb s.files ip with
      | error why =>
          rw [hx] at hb
          cases hb
      | ok x =>
          rw [hx] at hb
          cases hb
          exact sameRefs_freeInode hx
  | releasesleep ip =>
      cases hs
      exact ⟨trivial, h.frame hrun (SameRefs.refl _) rfl rfl rfl rfl⟩
  | decref ip =>
      cases hs
      exact ⟨trivial, h.decref hrun hpre⟩
  | lookup dp name =>
      refine ⟨trivial, ?_⟩
      dsimp only [opStep] at hs
      split at hs
      · cases hs
      · exact h.lift hrun hs fun b hb => sameRefs_dirlookupLoop (fs_eq_ok hb)
  | isdirempty dp => exact ⟨trivial, h.lift hrun hs fun b hb => sameRefs_isdiremptyLoop hb⟩
  | addEntry dp name inum =>
      exact ⟨trivial, h.lift hrun hs fun b hb => sameRefs_addEntry (fs_eq_ok hb)⟩
  | clearEntry dp off =>
      exact ⟨trivial, h.lift hrun hs fun b hb => sameRefs_clearEntry (fs_eq_ok hb)⟩
  | addNlink ip k =>
      cases hs
      exact ⟨trivial, h.frame hrun (sameRefs_setLinks _ _ _ _ _) rfl rfl rfl rfl⟩
  | setNew ip major minor =>
      cases hs
      exact ⟨trivial, h.frame hrun (sameRefs_setLinks _ _ _ _ _) rfl rfl rfl rfl⟩
  | ialloc type =>
      refine ⟨trivial, ?_⟩
      dsimp only [opStep] at hs
      split at hs
      · cases hs
      · split at hs
        · cases hs
          exact h.frame hrun (SameRefs.refl _) rfl rfl rfl rfl
        · cases hs
  | readi ip off n =>
      exact ⟨trivial, h.lift hrun hs fun b hb => sameRefs_readInode (fs_eq_ok hb)⟩
  | writei ip src off =>
      exact ⟨trivial, h.lift hrun hs fun b hb => sameRefs_writeInode (fs_eq_ok hb)⟩
  | takeCwd =>
      refine ⟨trivial, ?_⟩
      dsimp only [opStep] at hs
      split at hs
      · next ip hip =>
          cases hs
          exact h.takeCwd hrun hip
      · cases hs
  | setCwd ip =>
      cases hs
      exact ⟨trivial, h.setCwd hrun hpre.1 hpre.2⟩
  | filealloc =>
      dsimp only [opStep] at hs
      split at hs
      · next f hf =>
          cases hs
          have hz : (s.file f).ref = 0 := by simpa using List.find?_some hf
          refine ⟨fun f' hf' hb => ?_, h.filealloc hrun hz⟩
          cases hf'
          have := (h.files.blank p f hb).2.1
          omega
      · cases hs
        exact ⟨nofun, h.frame hrun (SameRefs.refl _) rfl rfl rfl rfl⟩
  | fdalloc f =>
      refine ⟨trivial, ?_⟩
      dsimp only [opStep] at hs
      split at hs
      · next fd hfd =>
          cases hs
          exact h.fdalloc hrun (by simpa using List.find?_some hfd) hpre.1 hpre.2
      · cases hs
        exact h.frame hrun (SameRefs.refl _) rfl rfl rfl rfl
  | setFile f ip omode =>
      cases hs
      exact ⟨trivial, h.setFile hrun hpre.1 hpre.2⟩
  | setPipe f writable =>
      cases hs
      exact ⟨trivial, h.setPipe hrun hpre⟩
  | argfd fd =>
      cases hs
      cases hfd : toFd fd with
      | none =>
          refine ⟨fun hr => ?_, ?_⟩
          · simp at hr
          · simp only [Option.bind_none, Option.map_none]
            exact h.frame hrun (SameRefs.refl _) rfl rfl rfl rfl
      | some fd' =>
          refine ⟨fun _ => by rw [hfd]; rfl, ?_⟩
          rw [Option.bind_some]
          cases hf : s.ofile p fd' with
          | none => exact h.frame hrun (SameRefs.refl _) rfl rfl rfl rfl
          | some f =>
              refine h.table rfl rfl (fun _ _ => rfl) rfl (h.files.congr rfl rfl rfl rfl)
                (h.procs.congr hrun rfl rfl rfl (fun fd₁ f₁ hd => ?_) (h.procs.closed p)
                  (h.procs.away p) rfl)
              simp only [Option.map_some, Loc.next, hfd, Option.some.injEq, Prod.mk.injEq] at hd
              obtain ⟨rfl, rfl⟩ := hd
              exact hf
  | off f =>
      cases hs
      exact ⟨trivial, h.frame hrun (SameRefs.refl _) rfl rfl rfl rfl⟩
  | advance f n =>
      cases hs
      exact ⟨trivial, h.advance hrun⟩
  | dup f =>
      refine ⟨trivial, ?_⟩
      obtain ⟨⟨fd', hd⟩, hblank, hc⟩ := hpre
      dsimp only [opStep] at hs
      split at hs
      · cases hs
        exact h.frame hrun (SameRefs.refl _) rfl rfl rfl rfl
      · next fd hfd =>
          split at hs
          · cases hs
          · cases hs
            exact h.dup hrun (by simpa using List.find?_some hfd) hd hblank hc
  | takeFd fd =>
      cases hs
      refine ⟨fun f hd => h.procs.desc p fd f hd, ?_⟩
      cases hfd : s.ofile p fd with
      | none => exact h.takeFd_none hrun hfd
      | some f => exact h.takeFd_some hrun hfd
  | fileclose f =>
      refine ⟨trivial, ?_⟩
      dsimp only [opStep] at hs
      split at hs
      · cases hs
      · next hlive =>
          split at hs
          · next hmore =>
              cases hs
              refine h.dropFile hrun hpre (show _ - 1 + 1 = _ by omega) (fun hz => ?_) fun e => ?_
              · dsimp only at hz
                omega
              · refine congrArg (· + _) (if_congr (and_congr_left fun _ => ?_) rfl rfl)
                exact iff_of_true hmore (by omega)
          · next hmore =>
              cases hs
              have hlast : (s.file f).ref = 1 := by omega
              exact h.dropFile hrun hpre hlast.symm (fun _ => rfl)
                (fileclose_count (g := fun g => { g with ref := 0, type := .FD_NONE }) hlast rfl)
  | kalloc =>
      cases hs
      exact ⟨trivial, h.frame hrun (SameRefs.refl _) rfl rfl rfl rfl⟩
  | allocproc =>
      refine ⟨trivial, ?_⟩
      dsimp only [opStep] at hs
      split at hs
      · cases hs
        exact h.frame hrun (SameRefs.refl _) rfl rfl rfl rfl
      · split at hs
        · next np hnp =>
            cases hs
            exact h.allocproc hrun (by simpa using List.find?_some hnp)
        · cases hs
          exact h.frame hrun (SameRefs.refl _) rfl rfl rfl rfl
  | copyuvm np =>
      refine ⟨trivial, ?_⟩
      dsimp only [opStep] at hs
      split at hs
      · cases hs
        exact h.copyuvm_fails hrun hpre
      · cases hs
        exact h.frame hrun (SameRefs.refl _) rfl rfl rfl rfl
  | forkFd np fd =>
      refine ⟨trivial, ?_⟩
      obtain ⟨hblank, fds, hnd, hc⟩ := hpre
      have hnext : (L p).next (.forkFd np fd) r = { L p with child := some (np, fds, false) } := by
        rw [Loc.next, hc]
        rfl
      rw [hnext]
      dsimp only [opStep] at hs
      split at hs
      · cases hs
        exact h.forkFd_none hrun hc
      · next f hf =>
          split at hs
          · cases hs
          · cases hs
            exact h.forkFd hrun hf hblank hnd hc
  | forkCwd np =>
      refine ⟨trivial, ?_⟩
      dsimp only [opStep] at hs
      split at hs
      · next ip hip =>
          cases hs
          exact h.forkCwd hrun hip hpre
      · cases hs
  | runnable np =>
      cases hs
      exact ⟨trivial, h.runnable hrun hpre⟩
  | zombie =>
      cases hs
      exact ⟨trivial, h.zombie hrun hpre.1 hpre.2⟩
  | panic why => cases hs

/-! ## Runs -/

/-- The counts are exact, with the references that the calls under way have in variables. -/
def Exact (m : Machine N) : Prop :=
  ∃ L, SysInv m.sys L ∧ ∀ p, Ok (L p) (m.prog p) fun l _ => l.Done

variable {m m' : Machine N} {x : SysProg N Int}

theorem setProg_same : (m.setProg p x).prog p = x := Function.update_self ..

theorem setProg_other (hne : q ≠ p) : (m.setProg p x).prog q = m.prog q :=
  Function.update_of_ne hne ..

theorem boot_inodeRefs [NeZero N] (disk : Disk) (e : Iptr) :
    ((Machine.boot N disk).sys.files.icache e).ref =
      inodeRefs (Machine.boot N disk).sys (fun _ => Loc.start) e := by
  have hcwd : (∑ p : Fin N, (cwdRef ((Machine.boot N disk).sys.cwd p) e + 0)) =
      cwdRef ((Machine.boot N disk).sys.cwd 0) e + 0 := by
    refine Finset.sum_eq_single 0 (fun p _ hp => ?_) fun h => absurd (Finset.mem_univ _) h
    have hnone : (Machine.boot N disk).sys.cwd p = none := if_neg fun hz => hp (Fin.ext hz)
    rw [hnone]
    rfl
  have hfile : (∑ f, ((Machine.boot N disk).sys.file f).inodeRef e) = 0 :=
    Finset.sum_eq_zero fun f _ => if_neg fun hh => absurd hh.1 (Nat.lt_irrefl 0)
  rw [inodeRefs]
  simp only [Loc.start, Multiset.count_zero]
  have hinit : (Machine.boot N disk).sys.cwd 0 = some ⟨0, by decide⟩ :=
    if_pos (e := none) (Fin.val_zero N)
  rw [hcwd, hfile, hinit, cwdRef]
  dsimp only [Machine.boot]
  by_cases he : e.val = 0
  · rw [if_pos he, if_pos (congrArg some (Fin.ext he.symm))]
  · rw [if_neg he, if_neg fun hh => he (congrArg Fin.val (Option.some.inj hh)).symm]

theorem exact_boot [NeZero N] (disk : Disk) : Exact (Machine.boot N disk) := by
  have hnone : ∀ p : Fin N, (Machine.boot N disk).sys.state p ≠ .RUNNABLE →
      (Machine.boot N disk).sys.cwd p = none := by
    intro p hp
    dsimp only [Machine.boot] at hp ⊢
    split at hp
    · exact absurd rfl hp
    · next hz => exact if_neg hz
  refine ⟨fun _ => Loc.start, ⟨boot_inodeRefs disk, fun e e' he he' _ => ?_,
    ⟨fun f => ?_, fun _ _ => rfl, by rintro _ _ ⟨⟩⟩, ⟨by rintro _ _ _ ⟨⟩, by rintro _ _ ⟨⟩,
      by rintro _ ⟨⟩, by rintro _ _ _ _ ⟨⟩, by rintro _ _ _ _ _ _ _ ⟨⟩, fun p hp => ?_,
      fun _ _ => ⟨rfl, rfl, rfl⟩⟩⟩, fun p => ⟨rfl, rfl, rfl, rfl⟩⟩
  · have hzero : ∀ e, 0 < ((Machine.boot N disk).sys.files.icache e).ref → e.val = 0 := by
      intro e he
      dsimp only [Machine.boot] at he
      split at he
      · next hz => exact hz
      · exact absurd he (Nat.lt_irrefl 0)
    exact Fin.ext ((hzero e he).trans (hzero e' he').symm)
  · refine (Finset.sum_eq_zero fun p _ => ?_).symm
    have hfd : (∑ fd, fdRef ((Machine.boot N disk).sys.ofile p fd) f) = 0 :=
      Finset.sum_eq_zero fun fd _ => rfl
    rw [holds, hfd]
    rfl
  · exact ⟨hnone p (by rcases hp with hp | hp <;> rw [hp] <;> rintro ⟨⟩), fun _ => rfl⟩

theorem loc_done (h : ∀ p, Ok (L p) (m.prog p) fun l _ => l.Done) (hidle : m.idle p = true) :
    (L p).Done := by
  have hp := h p
  rw [Machine.idle] at hidle
  cases hx : m.prog p with
  | ret a =>
      rw [hx] at hp
      exact hp
  | op o k =>
      rw [hx] at hidle
      cases hidle

/-- A call starts with nothing, and the call before it has left nothing. -/
theorem exact_call {c : Syscall} (h : Exact m) (hidle : m.idle p = true)
    (hrun : m.sys.state p = .RUNNABLE) : Exact (m.setProg p (c.prog p)) := by
  obtain ⟨L, hinv, hok⟩ := h
  have hdone := loc_done hok hidle
  refine ⟨Function.update L p Loc.start, ?_, fun q => ?_⟩
  · refine hinv.table rfl rfl (fun _ _ => rfl) hdone.temp.symm
      (hinv.files.congr rfl rfl hdone.ftemp.symm hdone.blank.symm)
      (hinv.procs.congr hrun rfl rfl rfl nofun nofun nofun hdone.child.symm)
  · rcases eq_or_ne q p with rfl | hne
    · rw [Function.update_self, setProg_same]
      exact ok_prog q c
    · rw [Function.update_of_ne hne, setProg_other hne]
      exact hok q

theorem SysInv.reap (h : SysInv s L) (hz : s.state p = .ZOMBIE) :
    SysInv (s.setState p .UNUSED) L := by
  have hstate : ∀ q, s.state q = (s.setState p .UNUSED).state q ∨
      (s.state q = .ZOMBIE ∧ (s.setState p .UNUSED).state q = .UNUSED) := by
    intro q
    rcases eq_or_ne q p with rfl | hne
    · exact Or.inr ⟨hz, setState_same ..⟩
    · exact Or.inl (setState_other _ hne).symm
  refine ⟨h.ref, h.single, ⟨h.files.ref, h.files.unused, h.files.blank⟩, ⟨h.procs.desc,
    h.procs.closed, h.procs.away, fun q np fds b hc => ?_, h.procs.parent, fun q hq => ?_,
    fun q hq => h.procs.rest q ?_⟩⟩
  · have hchild := h.procs.child q np fds b hc
    rcases hstate np with hsame | ⟨hzomb, _⟩
    · rw [← hsame]
      exact hchild
    · rw [hzomb] at hchild
      cases hchild.1
  · refine h.procs.clear q ?_
    rcases hstate q with hsame | ⟨hzomb, _⟩
    · rw [hsame]
      exact hq
    · exact Or.inr hzomb
  · rcases hstate q with hsame | ⟨hzomb, _⟩
    · rw [hsame]
      exact hq
    · rw [hzomb]
      exact nofun

theorem exact_step {a : Act N} (h : Exact m)
    (hs : sysStep sb devsw m a = some m') : Exact m' := by
  obtain ⟨L, hinv, hok⟩ := h
  cases a with
  | call p c =>
      dsimp only [sysStep] at hs
      split at hs
      · next hc =>
          cases hs
          exact exact_call ⟨L, hinv, hok⟩ hc.1 hc.2
      · cases hs
  | step p pick =>
      dsimp only [sysStep] at hs
      split at hs
      · next hrun =>
          have hp := hok p
          cases hx : m.prog p with
          | ret a =>
              rw [hx] at hs
              cases hs
          | op o k =>
              rw [hx] at hs hp
              dsimp only at hs
              split at hs
              · next s r hstep =>
                  cases hs
                  obtain ⟨hans, hinv'⟩ := sysInv_op hinv hrun hp.1 hstep
                  refine ⟨_, hinv', fun q => ?_⟩
                  rcases eq_or_ne q p with rfl | hne
                  · rw [Function.update_self, setProg_same]
                    exact hp.2 r _ ⟨hans, rfl⟩
                  · rw [Function.update_of_ne hne, setProg_other hne]
                    exact hok q
              · cases hs
              · cases hs
      · cases hs
  | reap p =>
      dsimp only [sysStep] at hs
      split at hs
      · next hc =>
          cases hs
          exact ⟨L, hinv.reap hc.2, hok⟩
      · cases hs

theorem exact_reach [NeZero N] {disk : Disk}
    (h : Reach (sysStep sb devsw) anyStep (Machine.boot N disk) m) : Exact m :=
  h.invariant (I := Exact) (exact_boot disk) fun _ _ _ hi _ hs => exact_step hi hs

/-! ## `namex` -/

/-- Operations that leave the current directories and the open files alone. -/
def Op.quiet : Op N → Bool
  | .iget _ | .idupCwd | .acquiresleep _ _ | .load _ | .iunlock _ | .inode _ | .lastRef _
  | .freeInode _ | .releasesleep _ | .decref _ | .lookup _ _ | .readi _ _ _ => true
  | _ => false

/-- Only references and locks change. -/
structure Kept (s s' : Sys N) : Prop where
  cwd : s'.cwd = s.cwd
  file : s'.file = s.file
  ofile : s'.ofile = s.ofile
  state : s'.state = s.state

theorem Kept.refl (s : Sys N) : Kept s s := ⟨rfl, rfl, rfl, rfl⟩

theorem Kept.trans {s₁ : Sys N} (h : Kept s s₁) (h' : Kept s₁ s') : Kept s s' :=
  ⟨h'.cwd.trans h.cwd, h'.file.trans h.file, h'.ofile.trans h.ofile, h'.state.trans h.state⟩

theorem kept_lift {R : Type} {x : Except SysPanic (Inodes.Files × R)} {r : R}
    (hs : s.lift x = .ok s' r) : Kept s s' := by
  cases x with
  | error why => cases hs
  | ok x =>
      cases hs
      exact ⟨rfl, rfl, rfl, rfl⟩

theorem kept_of_quiet {o : Op N} {r : Resp o} (ho : o.quiet = true)
    (hs : opStep sb devsw pick s p o = .ok s' r) : Kept s s' := by
  cases o with
  | iget | load | freeInode | readi => exact kept_lift hs
  | idupCwd =>
      dsimp only [opStep] at hs
      split at hs
      · cases hs
        exact ⟨rfl, rfl, rfl, rfl⟩
      · cases hs
  | acquiresleep ip inPut =>
      dsimp only [opStep] at hs
      split at hs
      · cases hs
      · split at hs
        · cases hs
        · cases hs
          exact ⟨rfl, rfl, rfl, rfl⟩
  | iunlock ip =>
      dsimp only [opStep] at hs
      split at hs
      · cases hs
      · cases hs
        exact ⟨rfl, rfl, rfl, rfl⟩
  | inode | lastRef | releasesleep | decref =>
      cases hs
      exact ⟨rfl, rfl, rfl, rfl⟩
  | lookup dp name =>
      dsimp only [opStep] at hs
      split at hs
      · cases hs
      · exact kept_lift hs
  | _ => cases ho

/-- All operations of a program are quiet. -/
abbrev Quiet {α : Type} (x : SysProg N α) : Prop :=
  Prog.Meets (fun (_ : Unit) o => Op.quiet o = true) (fun _ _ _ _ => True) () x fun _ _ => True

section

variable {α β : Type}

theorem Quiet.seq {x : SysProg N α} {g : α → SysProg N β} (hx : Quiet x) (hg : ∀ a, Quiet (g a)) :
    Quiet (x >>= g) :=
  Prog.Meets.bind (hx.mono fun _ a _ => hg a)

theorem quiet_perform {o : Op N} (ho : o.quiet = true) : Quiet (perform o) :=
  Prog.meets_perform ho fun _ _ _ => trivial

theorem quiet_pure (a : α) : Quiet (pure a : SysProg N α) := trivial

/-- A program of quiet operations that keeps to the rules, run alone. -/
theorem exact_alone {Q : Loc N → α → Prop} (x : SysProg N α) :
    ∀ {s : Sys N} {l : Loc N} {a : α}, SysInv s (Function.update L p l) →
      s.state p = .RUNNABLE → Ok l x Q → Quiet x → alone sb devsw pick p x s = .ok s' a →
      ∃ l', Q l' a ∧ SysInv s' (Function.update L p l') ∧ Kept s s' := by
  induction x with
  | ret b =>
      intro s l a h _ hok _ hs
      cases hs
      exact ⟨l, hok, h, Kept.refl _⟩
  | op o k ih =>
      intro s l a h hrun hok hquiet hs
      rw [alone] at hs
      split at hs
      · next s₁ r hstep =>
          have hkept := kept_of_quiet hquiet.1 hstep
          obtain ⟨hans, h₁⟩ := sysInv_op h hrun (by rw [Function.update_self]; exact hok.1) hstep
          rw [Function.update_self] at hans h₁
          rw [Function.update_idem] at h₁
          obtain ⟨l', hq, h', hk⟩ := ih r h₁ (hkept.state ▸ hrun) (hok.2 r _ ⟨hans, rfl⟩)
            (hquiet.2 r () trivial) hs
          exact ⟨l', hq, h', hkept.trans hk⟩
      · cases hs
      · cases hs

end

theorem quiet_iput (ip : Iptr) : Quiet (iput (N := N) ip) := by
  refine (quiet_perform rfl).seq fun _ => (quiet_perform rfl).seq fun last => ?_
  have hrest : Quiet (do perform (.releasesleep ip); perform (.decref ip) : SysProg N Unit) :=
    (quiet_perform rfl).seq fun _ => quiet_perform rfl
  split
  · exact (quiet_perform rfl).seq fun _ => hrest
  · exact hrest

theorem quiet_iunlockput (ip : Iptr) : Quiet (iunlockput (N := N) ip) :=
  (quiet_perform rfl).seq fun _ => quiet_iput ip

theorem quiet_dirlookup (dp : Iptr) (name : Name) : Quiet (dirlookup (N := N) dp name) := by
  refine (quiet_perform rfl).seq fun found => ?_
  split
  · exact quiet_pure _
  · exact (quiet_perform rfl).seq fun _ => quiet_pure _

theorem quiet_namexLoop {parent : Bool} (names : List Name) :
    ∀ (ip : Iptr) (name : Name), Quiet (namexLoop (N := N) parent names ip name) := by
  induction names with
  | nil =>
      intro ip name
      rw [namexLoop]
      split
      · exact (quiet_iput ip).seq fun _ => quiet_pure _
      · exact quiet_pure _
  | cons name rest ih =>
      intro ip old
      refine ((quiet_perform rfl).seq fun _ => quiet_perform rfl).seq fun _ =>
        (quiet_perform rfl).seq fun i => ?_
      split
      · exact (quiet_iunlockput ip).seq fun _ => quiet_pure _
      · split
        · exact (quiet_perform rfl).seq fun _ => quiet_pure _
        · refine Quiet.seq (quiet_dirlookup ip name) fun found => ?_
          split
          · exact (quiet_iunlockput ip).seq fun _ => quiet_pure _
          · exact (quiet_iunlockput ip).seq fun _ => ih ..

theorem quiet_namex (path : Path) (parent : Bool) : Quiet (namex (N := N) path parent) := by
  refine Quiet.seq ?_ fun ip => quiet_namexLoop (elems path) ip []
  rw [namexStart]
  split <;> exact quiet_perform rfl

/-- `namex` adds a reference to what it returns. -/
theorem namex_refs {path : Path} {parent : Bool} {r : Option (Iptr × Name)} (h : SysInv s L)
    (hrun : s.state p = .RUNNABLE) (hs : alone sb devsw pick p (namex path parent) s = .ok s' r)
    (e : Iptr) : (s'.files.icache e).ref =
      (s.files.icache e).ref + if r.map Prod.fst = some e then 1 else 0 := by
  have hok : Ok (L p) (namex path parent) fun l a =>
      l.temp.count e = (L p).temp.count e + if a.map Prod.fst = some e then 1 else 0 := by
    refine ok_namex ?_ fun ip name => ?_
    · rfl
    · rw [count_cons]
      refine congrArg (_ + ·) (if_congr ?_ rfl rfl)
      exact ⟨fun he => congrArg some he.symm, fun he => (Option.some.inj he).symm⟩
  rw [← Function.update_eq_self p L] at h
  obtain ⟨l', hq, h', hk⟩ := exact_alone _ h hrun hok (quiet_namex path parent) hs
  have hloc : inodeRefs s' (Function.update L p l') e + (L p).temp.count e =
      inodeRefs s' L e + l'.temp.count e := inodeRefs_loc _
  have hsame : inodeRefs s' L e = inodeRefs s L e :=
    inodeRefs_congr hk.cwd fun f e => by rw [hk.file]
  have href := h.ref e
  have href' := h'.ref e
  rw [Function.update_eq_self] at href
  omega

/-! ## Between calls -/

/-- The processes that are not free and have not exited. -/
def Sys.live (s : Sys N) (p : Fin N) : Bool := s.state p ≠ .UNUSED ∧ s.state p ≠ .ZOMBIE

theorem inodeRefs_idle (h : SysInv s L) (hdone : ∀ p, (L p).Done) (e : Iptr) :
    inodeRefs s L e =
      (Finset.univ.filter fun f => 0 < (s.file f).ref ∧ (s.file f).type = .FD_INODE ∧
        (s.file f).ip = e).card +
      (Finset.univ.filter fun p => s.live p = true ∧ s.cwd p = some e).card := by
  have hcwd : ∀ p, cwdRef (s.cwd p) e + (L p).temp.count e =
      if s.live p = true ∧ s.cwd p = some e then 1 else 0 := by
    intro p
    rw [(hdone p).temp, Multiset.count_zero, Nat.add_zero, cwdRef]
    refine if_congr ⟨fun hc => ⟨?_, hc⟩, And.right⟩ rfl rfl
    refine decide_eq_true ⟨fun hu => ?_, fun hz => ?_⟩
    · rw [(h.procs.clear p (Or.inl hu)).1] at hc
      cases hc
    · rw [(h.procs.clear p (Or.inr hz)).1] at hc
      cases hc
  rw [inodeRefs, Finset.sum_congr rfl fun p _ => hcwd p, Nat.add_comm, Finset.card_filter,
    Finset.card_filter]
  rfl

/-- In every state that a run reaches, the counts of the inode cache are exact. -/
theorem icache_refs_exact [NeZero N] {disk : Disk}
    (h : Reach (sysStep sb devsw) anyStep (Machine.boot N disk) m) :
    ((∀ p, m.idle p = true) →
      (∀ e e', 0 < (m.sys.files.icache e).ref → 0 < (m.sys.files.icache e').ref →
        (m.sys.files.icache e).inum = (m.sys.files.icache e').inum → e = e') ∧
      ∀ e, (m.sys.files.icache e).ref =
        (Finset.univ.filter fun f => 0 < (m.sys.file f).ref ∧
          (m.sys.file f).type = .FD_INODE ∧ (m.sys.file f).ip = e).card +
        (Finset.univ.filter fun p => m.sys.live p = true ∧ m.sys.cwd p = some e).card) ∧
    ∀ p pick path parent s' r, m.sys.state p = .RUNNABLE →
      alone sb devsw pick p (namex path parent) m.sys = .ok s' r →
      ∀ e, (s'.files.icache e).ref =
        (m.sys.files.icache e).ref + if r.map Prod.fst = some e then 1 else 0 := by
  obtain ⟨L, hinv, hok⟩ := exact_reach h
  refine ⟨fun hidle => ⟨hinv.single, fun e => ?_⟩, fun p pick path parent s' r hrun hs e =>
    namex_refs hinv hrun hs e⟩
  rw [hinv.ref e]
  exact inodeRefs_idle hinv (fun p => loc_done hok (hidle p)) e

/-- Also in the middle of calls nothing that is in use has the count 0, so `filedup` and
`fileclose` never panic and `iput` counts down from 1 or more. -/
theorem refs_in_use [NeZero N] {disk : Disk}
    (h : Reach (sysStep sb devsw) anyStep (Machine.boot N disk) m) (p : Fin N) :
    (∀ fd f, m.sys.ofile p fd = some f → 0 < (m.sys.file f).ref) ∧
    (∀ f, (m.prog p).head = some (.dup f) ∨ (m.prog p).head = some (.fileclose f) →
      0 < (m.sys.file f).ref) ∧
    (∀ ip, m.sys.cwd p = some ip → 0 < (m.sys.files.icache ip).ref) ∧
    ∀ ip, (m.prog p).head = some (.decref ip) → 0 < (m.sys.files.icache ip).ref := by
  obtain ⟨L, hinv, hok⟩ := exact_reach h
  have hpre : ∀ {o}, (m.prog p).head = some o → (L p).pre o := by
    intro o ho
    have hp := hok p
    cases hx : m.prog p with rw [hx] at ho hp
    | ret a => cases ho
    | op o' k =>
        cases ho
        exact hp.1
  have hfile : ∀ {f}, 1 ≤ holds m.sys (L p) p f → 0 < (m.sys.file f).ref := by
    intro f hf
    rw [hinv.files.ref f]
    exact hf.trans (holds_le p)
  refine ⟨fun fd f hf => hfile (one_le_holds hf), fun f hf => ?_, fun ip => hinv.live_of_cwd,
    fun ip hd => ?_⟩
  · rcases hf with hf | hf
    · obtain ⟨⟨fd, hd⟩, -⟩ := hpre hf
      exact hfile (one_le_holds (hinv.procs.desc p fd f hd))
    · exact hfile (one_le_holds_temp (hpre hf))
  · have hmem := Multiset.one_le_count_iff_mem.mpr (hpre hd)
    have hle := Finset.single_le_sum (f := fun q => cwdRef (m.sys.cwd q) ip + (L q).temp.count ip)
      (fun _ _ => Nat.zero_le _) (Finset.mem_univ p)
    rw [hinv.ref ip, inodeRefs]
    omega

end

/-- A disk with an empty root directory. -/
def rootDisk : Disk :=
  Disk.setDinode (fun _ => zeroBlock) (tinySb 6) ROOTINO
    { DiskInode.zero with type := T_DIR, nlink := 1 }

/-- `init` has opened `/`: the root has a reference of the file and one of the `cwd`. -/
theorem icache_refs_exact_open :
    ∃ m, Reach (sysStep (tinySb 6) fun _ => ⟨none, none⟩) anyStep (Machine.boot 1 rootDisk) m ∧
      (∀ p, m.idle p = true) ∧ (m.sys.files.icache 0).ref = 2 ∧
      2 = (Finset.univ.filter fun f => 0 < (m.sys.file f).ref ∧
          (m.sys.file f).type = .FD_INODE ∧ (m.sys.file f).ip = 0).card +
        (Finset.univ.filter fun p => m.sys.live p = true ∧ m.sys.cwd p = some 0).card := by
  have hrun : (exec (sysStep (tinySb 6) fun _ => ⟨none, none⟩) anyStep (Machine.boot 1 rootDisk)
      (.call 0 (.open [47] 0) :: List.replicate 8 (.step 0 0))).any
      (fun m => (∀ p, m.idle p = true) ∧ (m.sys.files.icache 0).ref = 2) = true := by
    decide +kernel
  obtain ⟨m, hm, ht⟩ := exists_reach_of_exec hrun
  obtain ⟨hidle, href⟩ := of_decide_eq_true ht
  exact ⟨m, hm, hidle, href, href ▸ ((icache_refs_exact hm).1 hidle).2 0⟩

theorem refs_in_use_open :
    ∃ m, Reach (sysStep (tinySb 6) fun _ => ⟨none, none⟩) anyStep (Machine.boot 1 rootDisk) m ∧
      m.sys.ofile 0 0 = some 0 ∧ 0 < (m.sys.file 0).ref := by
  have hrun : (exec (sysStep (tinySb 6) fun _ => ⟨none, none⟩) anyStep (Machine.boot 1 rootDisk)
      (.call 0 (.open [47] 0) :: List.replicate 8 (.step 0 0))).any
      (fun m => m.sys.ofile 0 0 = some 0) = true := by decide +kernel
  obtain ⟨m, hm, ht⟩ := exists_reach_of_exec hrun
  exact ⟨m, hm, of_decide_eq_true ht, (refs_in_use hm 0).1 0 0 (of_decide_eq_true ht)⟩

end Xv6.Ref.Sysfile
