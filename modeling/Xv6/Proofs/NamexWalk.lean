import Xv6.Proofs.DirContent
import Xv6.Proofs.IcacheRefs

/-!
# Walking a directory tree

What the operations of `namex` do in a file system that is in order, when nobody else is
at work: the disk stays as it is, the inode cache stays a cache of it, and the references
are those from before and the ones the walk holds. Each function that `namex` calls
returns, unless the inode cache is full.
-/

namespace Xv6.Ref.Sysfile

open Xv6.Lib
open Xv6.Ref.Inodes (Iptr Devsw Files FilesInv)

variable {N : Nat} {sb : Superblock} {start : Nat} {devsw : Nat → Devsw} {pick : Nat} {p : Fin N}
  {s s₀ : Sys N} {held : List (Iptr × Nat)} {lk : Option Iptr} {ip : Iptr} {n : Nat}

theorem alone_bind {α β : Type} (f : α → SysProg N β) (x : SysProg N α) : ∀ s : Sys N,
    alone sb devsw pick p (x >>= f) s = match alone sb devsw pick p x s with
      | .ok s a => alone sb devsw pick p (f a) s
      | .blocked => .blocked
      | .panic why => .panic why := by
  induction x with
  | ret a => exact fun s => rfl
  | op o k ih =>
      intro s
      show alone sb devsw pick p (.op o fun r => k r >>= f) s = _
      rw [alone, alone]
      cases opStep sb devsw pick s p o with
      | ok s r => exact ih r s
      | blocked => rfl
      | panic why => rfl

theorem alone_bind_ok {α β : Type} {f : α → SysProg N β} {x : SysProg N α} {s' : Sys N} {a : α}
    (h : alone sb devsw pick p x s = .ok s' a) :
    alone sb devsw pick p (x >>= f) s = alone sb devsw pick p (f a) s' := by
  rw [alone_bind, h]

theorem alone_bind_panic {α β : Type} {f : α → SysProg N β} {x : SysProg N α} {why : SysPanic}
    (h : alone sb devsw pick p x s = .panic why) :
    alone sb devsw pick p (x >>= f) s = .panic why := by
  rw [alone_bind, h]

theorem alone_perform (o : Op N) (s : Sys N) :
    alone sb devsw pick p (perform o) s = opStep sb devsw pick s p o := by
  show alone sb devsw pick p (.op o .ret) s = _
  rw [alone]
  cases opStep sb devsw pick s p o with
  | ok s r => rfl
  | blocked => rfl
  | panic why => rfl

/-- The walk is under way: `held` are the references it has and what they are to, `lk` the
lock. -/
structure Walk (sb : Superblock) (start : Nat) (p : Fin N) (s₀ : Sys N)
    (held : List (Iptr × Nat)) (lk : Option Iptr) (s : Sys N) : Prop where
  inv : FilesInv sb start s.files
  disk : s.files.disk = s₀.files.disk
  /-- References are to inodes that are in use. -/
  live : ∀ e, 0 < (s.files.icache e).ref → (s.files.icache e).inum < sb.ninodes ∧
    (s₀.files.disk.dinode sb (s.files.icache e).inum).type ≠ 0
  ref : ∀ e, (s.files.icache e).ref = (s₀.files.icache e).ref + (held.map Prod.fst).count e
  inum : ∀ x ∈ held, (s.files.icache x.1).inum = x.2
  lock : ∀ e, s.lock e = if lk = some e then some p else none
  locked : ∀ e, lk = some e → s.files.locked e

namespace Walk

theorem ref_pos (h : Walk sb start p s₀ held lk s) {x : Iptr × Nat} (hx : x ∈ held) :
    0 < (s.files.icache x.1).ref := by
  have hcount : 0 < (held.map Prod.fst).count x.1 :=
    List.count_pos_iff.mpr (List.mem_map_of_mem hx)
  rw [h.ref]
  omega

theorem perm {held' : List (Iptr × Nat)} (h : Walk sb start p s₀ held lk s)
    (hp : held'.Perm held) : Walk sb start p s₀ held' lk s :=
  { h with
    ref := fun e => by rw [h.ref e, (hp.map Prod.fst).count_eq]
    inum := fun x hx => h.inum x (hp.subset hx) }

/-- The copy of a locked inode is the inode on the disk. -/
theorem din (h : Walk sb start p s₀ held (some ip) s) (hx : (ip, n) ∈ held) :
    (s.files.icache ip).din = s₀.files.disk.dinode sb n := by
  rw [← (h.inv.cache ip (h.locked ip rfl)).2.1, h.inum _ hx, h.disk]

/-- The references to one entry change. -/
theorem setRef {e : Iptr} {g : Nat → Nat} {held' : List (Iptr × Nat)}
    (h : Walk sb start p s₀ held lk s)
    (hpos : 0 < g (s.files.icache e).ref → 0 < (s.files.icache e).ref)
    (hlk : lk = some e → 0 < g (s.files.icache e).ref)
    (href : ∀ q, (if q = e then g (s.files.icache e).ref else (s.files.icache q).ref) =
      (s₀.files.icache q).ref + (held'.map Prod.fst).count q)
    (hinum : ∀ x ∈ held', (s.files.icache x.1).inum = x.2) :
    Walk sb start p s₀ held' lk (s.setRef e g) := by
  have hget : ∀ q, (s.setRef e g).files.icache q =
      if q = e then { s.files.icache q with ref := g (s.files.icache q).ref }
      else s.files.icache q := fun q => rfl
  refine ⟨(h.inv.ref g hpos).1, h.disk, fun q hq => ?_, fun q => ?_, fun x hx => ?_, h.lock,
    fun q hq => ?_⟩
  · rw [hget] at hq ⊢
    split at hq
    · next he =>
        rw [if_pos he]
        subst he
        exact h.live q (hpos hq)
    · next he =>
        rw [if_neg he]
        exact h.live q hq
  · rw [← href q, hget]
    split
    · next he => rw [he]
    · rfl
  · rw [← hinum x hx, hget]
    split
    · rfl
    · rfl
  · obtain ⟨h1, h2⟩ := h.locked q hq
    unfold Files.locked
    rw [hget]
    split
    · next he =>
        subst he
        exact ⟨hlk hq, h2⟩
    · exact ⟨h1, h2⟩

/-- A reference more to an entry that is in use. -/
theorem addRef {e : Iptr} (h : Walk sb start p s₀ held lk s) (hpos : 0 < (s.files.icache e).ref)
    (hn : (s.files.icache e).inum = n) :
    Walk sb start p s₀ ((e, n) :: held) lk (s.setRef e (· + 1)) := by
  refine h.setRef (fun _ => hpos) (fun _ => Nat.succ_pos _) (fun q => ?_) fun x hx => ?_
  · rw [List.map_cons, List.count_cons]
    split
    · next hq =>
        subst hq
        rw [if_pos (beq_self_eq_true q), h.ref]
        rfl
    · next hq =>
        rw [if_neg (by simpa using Ne.symm hq), h.ref]
        rfl
  · rcases List.mem_cons.mp hx with rfl | hx
    · exact hn
    · exact h.inum x hx

/-- An entry that nobody uses is taken for the inode `n`. -/
theorem fresh {e : Iptr} {files : Files} (h : Walk sb start p s₀ held lk s)
    (hzero : (s.files.icache e).ref = 0) (hlive : n < sb.ninodes)
    (htype : (s₀.files.disk.dinode sb n).type ≠ 0)
    (hfiles : files = s.files.setInode e fun i => { i with inum := n, ref := 1, valid := false })
    (hinv : FilesInv sb start files) :
    Walk sb start p s₀ ((e, n) :: held) lk { s with files := files } := by
  subst hfiles
  have hne : ∀ q, 0 < (s.files.icache q).ref → q ≠ e := by
    rintro q hq rfl
    omega
  refine ⟨hinv, h.disk, fun q hq => ?_, fun q => ?_, fun x hx => ?_, h.lock, fun q hq => ?_⟩
  · by_cases hqe : q = e
    · subst hqe
      dsimp only
      rw [Inodes.setInode_same]
      exact ⟨hlive, htype⟩
    · dsimp only at hq ⊢
      rw [Inodes.setInode_ne _ hqe] at hq ⊢
      exact h.live q hq
  · have href := h.ref q
    rw [List.map_cons, List.count_cons]
    dsimp only
    by_cases hqe : q = e
    · subst hqe
      rw [Inodes.setInode_same, if_pos (beq_self_eq_true q)]
      dsimp only
      omega
    · rw [Inodes.setInode_ne _ hqe, if_neg (by simpa using Ne.symm hqe)]
      exact href
  · dsimp only
    rcases List.mem_cons.mp hx with rfl | hx
    · rw [Inodes.setInode_same]
    · rw [Inodes.setInode_ne _ (hne _ (h.ref_pos hx))]
      exact h.inum x hx
  · have hl := h.locked q hq
    have hqe := hne q hl.1
    unfold Files.locked
    dsimp only
    rw [Inodes.setInode_ne _ hqe]
    exact hl

/-- `iget` of an inode in use, unless the cache is full. -/
theorem iget (h : Walk sb start p s₀ held lk s) (hlive : n < sb.ninodes)
    (htype : (s₀.files.disk.dinode sb n).type ≠ 0) :
    (alone sb devsw pick p (perform (.iget n)) s = .panic (.fs .iget) ∧
      ∀ e, (s.files.icache e).ref ≠ 0) ∨
    ∃ s' e, alone sb devsw pick p (perform (.iget n)) s = .ok s' e ∧
      Walk sb start p s₀ ((e, n) :: held) lk s' := by
  have hsafe := h.inv.iget n
  rw [alone_perform]
  dsimp only [opStep]
  rw [Inodes.iget] at hsafe ⊢
  cases hfind : (List.finRange NINODE).find? fun q =>
      0 < (s.files.icache q).ref && (s.files.icache q).inum = n with
  | some e =>
      right
      have hpos := List.find?_some hfind
      rw [Bool.and_eq_true, decide_eq_true_iff, decide_eq_true_iff] at hpos
      exact ⟨_, e, rfl, h.addRef hpos.1 hpos.2⟩
  | none =>
      rw [hfind] at hsafe
      dsimp only at hsafe ⊢
      cases hfree : (List.finRange NINODE).find? fun q => (s.files.icache q).ref = 0 with
      | some e =>
          right
          rw [hfree] at hsafe
          exact ⟨_, e, rfl, h.fresh (by simpa using List.find?_some hfree) hlive htype rfl hsafe⟩
      | none =>
          refine Or.inl ⟨rfl, fun e => ?_⟩
          simpa using List.find?_eq_none.mp hfree e (List.mem_finRange e)

/-- `idup` of an entry in use. -/
theorem idupCwd {e : Iptr} (h : Walk sb start p s₀ held lk s) (hcwd : s.cwd p = some e)
    (hpos : 0 < (s.files.icache e).ref) :
    ∃ s', alone sb devsw pick p (perform .idupCwd) s = .ok s' e ∧
      Walk sb start p s₀ ((e, (s.files.icache e).inum) :: held) lk s' := by
  refine ⟨_, ?_, h.addRef hpos rfl⟩
  rw [alone_perform]
  dsimp only [opStep]
  rw [hcwd]
  rfl

/-- The lock is taken. -/
theorem acquire (h : Walk sb start p s₀ held none s) (inPut : Bool) (hx : (ip, n) ∈ held) :
    alone sb devsw pick p (perform (.acquiresleep ip inPut)) s = .ok (s.setLock ip (some p)) () := by
  have hpos : 0 < (s.files.icache ip).ref := h.ref_pos hx
  rw [alone_perform]
  dsimp only [opStep]
  rw [if_neg (by omega), h.lock ip]
  rfl

theorem lock_set (h : Walk sb start p s₀ held none s) (e : Iptr) :
    (s.setLock ip (some p)).lock e = if some ip = some e then some p else none := by
  by_cases he : e = ip
  · subst he
    rw [if_pos rfl]
    exact Function.update_self ..
  · rw [if_neg fun hc => he (Option.some.inj hc).symm]
    refine (Function.update_of_ne he ..).trans ?_
    rw [h.lock e]
    rfl

theorem lock_clear (h : Walk sb start p s₀ held (some ip) s) (e : Iptr) :
    (s.setLock ip none).lock e = none := by
  by_cases he : e = ip
  · subst he
    exact Function.update_self ..
  · refine (Function.update_of_ne he ..).trans ?_
    rw [h.lock e, if_neg fun hc => he (Option.some.inj hc).symm]

/-- `ilock` of an inode the walk has a reference to. -/
theorem ilock (h : Walk sb start p s₀ held none s) (hx : (ip, n) ∈ held) :
    ∃ s', alone sb devsw pick p (ilock ip) s = .ok s' () ∧
      Walk sb start p s₀ held (some ip) s' := by
  have hpos : 0 < (s.files.icache ip).ref := h.ref_pos hx
  obtain ⟨hlt, htype⟩ := h.live ip hpos
  have hsafe := h.inv.ilock hlt
  rw [Sysfile.ilock, alone_bind_ok (h.acquire false hx), alone_perform]
  dsimp only [opStep, Sys.setLock]
  rw [Inodes.ilock, if_neg (by omega)] at hsafe ⊢
  by_cases hvalid : (s.files.icache ip).valid = true
  · rw [if_pos hvalid]
    refine ⟨_, rfl, h.inv, h.disk, h.live, h.ref, h.inum, h.lock_set, fun e he => ?_⟩
    cases he
    exact ⟨hpos, hvalid⟩
  · rw [if_neg hvalid] at hsafe ⊢
    dsimp only at hsafe ⊢
    rw [h.disk, if_neg htype] at hsafe ⊢
    refine ⟨_, rfl, hsafe, h.disk, fun e he => ?_, fun e => ?_, fun x hx => ?_, h.lock_set,
      fun e he => ?_⟩
    · by_cases hq : e = ip
      · subst hq
        dsimp only
        rw [Inodes.setInode_same]
        exact ⟨hlt, htype⟩
      · dsimp only at he ⊢
        rw [Inodes.setInode_ne _ hq] at he ⊢
        exact h.live e he
    · rw [← h.ref e]
      by_cases hq : e = ip
      · subst hq
        dsimp only
        rw [Inodes.setInode_same]
      · dsimp only
        rw [Inodes.setInode_ne _ hq]
    · rw [← h.inum x hx]
      by_cases hq : x.1 = ip
      · dsimp only
        rw [hq, Inodes.setInode_same]
      · dsimp only
        rw [Inodes.setInode_ne _ hq]
    · cases he
      refine ⟨?_, ?_⟩
      · dsimp only
        rw [Inodes.setInode_same]
        exact hpos
      · dsimp only
        rw [Inodes.setInode_same]

theorem iunlock (h : Walk sb start p s₀ held (some ip) s) :
    ∃ s', alone sb devsw pick p (iunlock ip) s = .ok s' () ∧ Walk sb start p s₀ held none s' := by
  have hpos := (h.locked ip rfl).1
  refine ⟨s.setLock ip none, ?_, h.inv, h.disk, h.live, h.ref, h.inum, h.lock_clear, nofun⟩
  rw [Sysfile.iunlock, alone_perform]
  dsimp only [opStep]
  rw [if_neg]
  rw [h.lock ip, if_pos rfl]
  rintro (hc | hc)
  · exact hc rfl
  · omega

/-- `iput` of a reference that is not the last one to an inode without links. -/
theorem iput (h : Walk sb start p s₀ ((ip, n) :: held) none s)
    (hkeep : (s₀.files.disk.dinode sb n).nlink ≠ 0 ∨ 0 < (s₀.files.icache ip).ref) :
    ∃ s', alone sb devsw pick p (iput ip) s = .ok s' () ∧ Walk sb start p s₀ held none s' := by
  have hmem : (ip, n) ∈ (ip, n) :: held := List.mem_cons_self
  have hpos := h.ref_pos hmem
  have href : ∀ e, (s.files.icache e).ref =
      (s₀.files.icache e).ref + ((held.map Prod.fst).count e + if ip = e then 1 else 0) := by
    intro e
    rw [h.ref e, List.map_cons, List.count_cons]
    simp only [beq_iff_eq]
  have hlast : ((s.files.icache ip).valid && (s.files.icache ip).din.nlink = 0 &&
      (s.files.icache ip).ref = 1) = false := by
    rw [Bool.eq_false_iff]
    intro hc
    simp only [Bool.and_eq_true, decide_eq_true_eq] at hc
    obtain ⟨⟨hvalid, hlink⟩, hone⟩ := hc
    have hd := (h.inv.cache ip ⟨hpos, hvalid⟩).2.1
    rw [h.inum _ hmem, h.disk] at hd
    rcases hkeep with hk | hk
    · rw [hd] at hk
      exact hk hlink
    · have := href ip
      rw [if_pos rfl] at this
      omega
  refine ⟨(s.setLock ip none).setRef ip (· - 1), ?_, ?_⟩
  · rw [Sysfile.iput, alone_bind_ok (h.acquire true hmem)]
    have hstep : alone sb devsw pick p (perform (.lastRef ip)) (s.setLock ip (some p)) =
        .ok (s.setLock ip (some p)) false := by
      rw [alone_perform]
      dsimp only [opStep, Sys.setLock]
      rw [hlast]
    rw [alone_bind_ok hstep]
    simp only [Bool.false_eq_true, if_false]
    have hrel : alone sb devsw pick p (perform (.releasesleep ip)) (s.setLock ip (some p)) =
        .ok (s.setLock ip none) () := by
      rw [alone_perform]
      dsimp only [opStep, Sys.setLock]
      rw [Function.update_idem]
    exact (alone_bind_ok hrel).trans (alone_perform ..)
  · have hopen : Walk sb start p s₀ ((ip, n) :: held) none (s.setLock ip none) := by
      refine { h with lock := fun e => ?_ }
      by_cases he : e = ip
      · subst he
        exact Function.update_self ..
      · exact (Function.update_of_ne he ..).trans (h.lock e)
    refine hopen.setRef (fun hc => by omega) nofun (fun q => ?_) fun x hx =>
      h.inum x (List.mem_cons_of_mem _ hx)
    have hq := href q
    split
    · next he =>
        subst he
        rw [if_pos rfl] at hq
        show (s.files.icache q).ref - 1 = _
        omega
    · next he =>
        rw [if_neg (Ne.symm he)] at hq
        exact hq

/-- `iunlockput`. -/
theorem iunlockput (h : Walk sb start p s₀ ((ip, n) :: held) (some ip) s)
    (hkeep : (s₀.files.disk.dinode sb n).nlink ≠ 0 ∨ 0 < (s₀.files.icache ip).ref) :
    ∃ s', alone sb devsw pick p (iunlockput ip) s = .ok s' () ∧
      Walk sb start p s₀ held none s' := by
  obtain ⟨s₁, h₁, hw₁⟩ : ∃ s', alone sb devsw pick p (Sysfile.iunlock ip) s = .ok s' () ∧
    Walk sb start p s₀ ((ip, n) :: held) none s' := h.iunlock
  obtain ⟨s₂, h₂, hw₂⟩ := hw₁.iput hkeep
  exact ⟨s₂, (alone_bind_ok h₁).trans h₂, hw₂⟩

end Walk

end Xv6.Ref.Sysfile
