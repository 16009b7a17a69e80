import Xv6.Proofs.IcacheRefs

/-!
# The inode locks a call holds

Beside the references of `IcacheRules.lean`, a system call has locks of inodes. The rules
here are about the locks alone: a call releases only what it holds, and a lock it gets is
one that nobody held. `namex` holds one lock at a time and returns with none; `readi` may
let go of the lock of the console's inode, and has it again when it returns.
-/

namespace Xv6.Ref.Sysfile

open Xv6.Lib
open Xv6.Ref.Inodes (Iptr Devsw)

variable {N : Nat}

/-! ## The rules -/

/-- What an operation needs. -/
def lockPre (held : Finset Iptr) : Op N → Prop
  | .iunlock ip | .releasesleep ip => ip ∈ held
  | _ => True

/-- The locks behind an operation. -/
def lockPost (held : Finset Iptr) : (o : Op N) → Resp o → Finset Iptr → Prop
  | .acquiresleep ip _, _, held' => ip ∉ held ∧ held' = insert ip held
  | .iunlock ip, _, held' | .releasesleep ip, _, held' => held' = held.erase ip
  | _, _, held' => held' = held

/-- A program keeps to the rules. -/
abbrev Locks {α : Type} (held : Finset Iptr) (x : SysProg N α) (Q : Finset Iptr → α → Prop) :
    Prop :=
  Prog.Meets lockPre lockPost held x Q

section

variable {held : Finset Iptr} {ip : Iptr} {α β : Type}

theorem locks_seq {x : SysProg N α} {f : α → SysProg N β} {Q : Finset Iptr → β → Prop}
    (h : Locks held x fun h' a => Locks h' (f a) Q) : Locks held (x >>= f) Q :=
  Prog.Meets.bind h

/-- An operation that is about no lock. -/
theorem locks_frame {o : Op N} {Q : Finset Iptr → Resp o → Prop} (hpre : lockPre held o)
    (hpost : ∀ r held', lockPost held o r held' → held' = held) (hq : ∀ r, Q held r) :
    Locks held (perform o) Q :=
  Prog.meets_perform hpre fun r held' hp => by
    rw [hpost r held' hp]
    exact hq r

theorem locks_ilock {Q : Finset Iptr → Unit → Prop} (hq : ip ∉ held → Q (insert ip held) ()) :
    Locks held (ilock (N := N) ip) Q := by
  refine locks_seq (Prog.meets_perform trivial ?_)
  rintro _ _ ⟨hnew, rfl⟩
  exact locks_frame trivial (fun _ _ h => h) fun _ => hq hnew

theorem locks_iunlock {Q : Finset Iptr → Unit → Prop} (hnew : ip ∉ held) (hq : Q held ()) :
    Locks (insert ip held) (iunlock (N := N) ip) Q := by
  refine Prog.meets_perform (Finset.mem_insert_self ..) ?_
  rintro _ _ rfl
  rw [Finset.erase_insert hnew]
  exact hq

theorem locks_iput {Q : Finset Iptr → Unit → Prop} (hq : Q held ()) :
    Locks held (iput (N := N) ip) Q := by
  refine locks_seq (Prog.meets_perform trivial ?_)
  rintro _ _ ⟨hnew, rfl⟩
  have hend : Locks (insert ip held)
      (do perform (.releasesleep ip); perform (.decref ip) : SysProg N Unit) Q := by
    refine locks_seq (Prog.meets_perform (Finset.mem_insert_self ..) ?_)
    rintro _ _ rfl
    rw [Finset.erase_insert hnew]
    exact locks_frame trivial (fun _ _ h => h) fun _ => hq
  refine locks_seq (locks_frame trivial (fun _ _ h => h) fun last => ?_)
  split
  · exact locks_seq (locks_frame trivial (fun _ _ h => h) fun _ => hend)
  · exact hend

theorem locks_iunlockput {Q : Finset Iptr → Unit → Prop} (hnew : ip ∉ held) (hq : Q held ()) :
    Locks (insert ip held) (iunlockput (N := N) ip) Q :=
  locks_seq (locks_iunlock hnew (locks_iput hq))

theorem locks_readi {off n : BitVec 32} {Q : Finset Iptr → Option (List UInt8) → Prop}
    (hnew : ip ∉ held) (hq : ∀ r, Q (insert ip held) r) :
    Locks (insert ip held) (readi (N := N) ip off n) Q := by
  have hread : Locks (insert ip held) (perform (N := N) (.readi ip off n)) Q :=
    locks_frame trivial (fun _ _ h => h) hq
  refine locks_seq (locks_seq (locks_frame trivial (fun _ _ h => h) fun i => ?_))
  split
  · exact locks_seq (locks_iunlock hnew (locks_ilock fun _ => hread))
  · exact hread

theorem locks_dirlookup {dp : Iptr} {name : List UInt8}
    {Q : Finset Iptr → Option (Iptr × Nat) → Prop} (hq : ∀ r, Q held r) :
    Locks held (dirlookup (N := N) dp name) Q := by
  refine locks_seq (locks_frame trivial (fun _ _ h => h) fun found => ?_)
  split
  · exact hq none
  · exact locks_seq (locks_frame trivial (fun _ _ h => h) fun ip => hq _)

theorem locks_namexLoop {parent : Bool} {Q : Finset Iptr → Option (Iptr × Name) → Prop}
    (hq : ∀ r, Q held r) (names : List Name) : ∀ (ip : Iptr) (name : Name),
      Locks held (namexLoop (N := N) parent names ip name) Q := by
  induction names with
  | nil =>
      intro ip name
      rw [namexLoop]
      split
      · exact locks_seq (locks_iput (hq none))
      · exact hq _
  | cons name rest ih =>
      intro ip old
      refine locks_seq (locks_ilock fun hnew => ?_)
      refine locks_seq (locks_frame trivial (fun _ _ h => h) fun i => ?_)
      split
      · exact locks_seq (locks_iunlockput hnew (hq none))
      · split
        · exact locks_seq (locks_iunlock hnew (hq _))
        · refine locks_seq (locks_dirlookup fun found => ?_)
          split
          · exact locks_seq (locks_iunlockput hnew (hq none))
          · exact locks_seq (locks_iunlockput hnew (ih ..))

theorem locks_namex {path : Path} {parent : Bool} {Q : Finset Iptr → Option (Iptr × Name) → Prop}
    (hq : ∀ r, Q held r) : Locks held (namex (N := N) path parent) Q := by
  refine locks_seq ?_
  rw [namexStart]
  split <;>
    exact locks_frame trivial (fun _ _ h => h) fun ip => locks_namexLoop hq (elems path) ip []

theorem locks_namei {path : Path} {Q : Finset Iptr → Option Iptr → Prop} (hq : ∀ r, Q held r) :
    Locks held (namei (N := N) path) Q :=
  locks_seq (locks_namex fun r => hq (r.map Prod.fst))

end

theorem quiet_readi (ip : Iptr) (off n : BitVec 32) : Quiet (readi (N := N) ip off n) := by
  refine ((quiet_perform rfl).seq fun i => ?_).seq fun _ => quiet_perform rfl
  split
  · exact (quiet_perform rfl).seq fun _ => (quiet_perform rfl).seq fun _ => quiet_perform rfl
  · exact quiet_pure _

/-! ## What they say about the locks -/

/-- `held` are the locks that `p` has got since `s₀`; nobody had them then. -/
structure Locked (p : Fin N) (s₀ s : Sys N) (held : Finset Iptr) : Prop where
  mine : ∀ e ∈ held, s.lock e = some p ∧ s₀.lock e = none
  rest : ∀ e, e ∉ held → s.lock e = s₀.lock e

variable {p : Fin N} {s₀ s s' : Sys N} {held : Finset Iptr} {sb : Superblock}
  {devsw : Nat → Devsw} {pick : Nat}

theorem Locked.same (h : Locked p s₀ s held) (heq : s'.lock = s.lock) : Locked p s₀ s' held :=
  ⟨fun e he => heq ▸ h.mine e he, fun e he => heq ▸ h.rest e he⟩

theorem Locked.acquire {ip : Iptr} (h : Locked p s₀ s held) (hfree : s.lock ip = none) :
    ip ∉ held ∧ Locked p s₀ (s.setLock ip (some p)) (insert ip held) := by
  have hnew : ip ∉ held := by
    intro hin
    rw [(h.mine ip hin).1] at hfree
    cases hfree
  refine ⟨hnew, fun e he => ?_, fun e he => ?_⟩
  · rcases eq_or_ne e ip with rfl | hne
    · exact ⟨Function.update_self .., h.rest e hnew ▸ hfree⟩
    · obtain ⟨hmine, hnone⟩ := h.mine e (Finset.mem_of_mem_insert_of_ne he hne)
      exact ⟨(Function.update_of_ne hne ..).trans hmine, hnone⟩
  · obtain ⟨hne, hout⟩ := not_or.mp fun hc => he (Finset.mem_insert.mpr hc)
    exact (Function.update_of_ne hne ..).trans (h.rest e hout)

theorem Locked.release {ip : Iptr} (h : Locked p s₀ s held) (hin : ip ∈ held) :
    Locked p s₀ (s.setLock ip none) (held.erase ip) := by
  refine ⟨fun e he => ?_, fun e he => ?_⟩
  · obtain ⟨hne, hin'⟩ := Finset.mem_erase.mp he
    obtain ⟨hmine, hnone⟩ := h.mine e hin'
    exact ⟨(Function.update_of_ne hne ..).trans hmine, hnone⟩
  · rcases eq_or_ne e ip with rfl | hne
    · exact (Function.update_self ..).trans (h.mine e hin).2.symm
    · exact (Function.update_of_ne hne ..).trans
        (h.rest e fun hc => he (Finset.mem_erase.mpr ⟨hne, hc⟩))

theorem lock_lift {R : Type} {x : Except SysPanic (Inodes.Files × R)} {r : R}
    (hs : s.lift x = .ok s' r) : s'.lock = s.lock := by
  cases x with
  | error why => cases hs
  | ok x =>
      cases hs
      rfl

/-- The rules are right about the operations `namex` and `readi` perform. -/
theorem Locked.op {o : Op N} {r : Resp o} (h : Locked p s₀ s held) (ho : o.quiet = true)
    (hpre : lockPre held o) (hs : opStep sb devsw pick s p o = .ok s' r) :
    ∃ held', lockPost held o r held' ∧ Locked p s₀ s' held' := by
  cases o with
  | iget | load | freeInode | readi => exact ⟨held, rfl, h.same (lock_lift hs)⟩
  | idupCwd =>
      dsimp only [opStep] at hs
      split at hs
      · cases hs
        exact ⟨held, rfl, h.same rfl⟩
      · cases hs
  | acquiresleep ip inPut =>
      dsimp only [opStep] at hs
      split at hs
      · cases hs
      · split at hs
        · cases hs
        · next hfree =>
            cases hs
            obtain ⟨hnew, hl⟩ := h.acquire hfree
            exact ⟨_, ⟨hnew, rfl⟩, hl⟩
  | iunlock ip =>
      dsimp only [opStep] at hs
      split at hs
      · cases hs
      · cases hs
        exact ⟨_, rfl, h.release hpre⟩
  | releasesleep ip =>
      cases hs
      exact ⟨_, rfl, h.release hpre⟩
  | inode | lastRef | decref =>
      cases hs
      exact ⟨held, rfl, h.same rfl⟩
  | lookup dp name =>
      dsimp only [opStep] at hs
      split at hs
      · cases hs
      · exact ⟨held, rfl, h.same (lock_lift hs)⟩
  | _ => cases ho

end Xv6.Ref.Sysfile
