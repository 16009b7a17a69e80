import Xv6.Ref.Pipe

/-!
# A pipe is a FIFO

Everything a pipe holds is changed under `p->lock`, so the proof is the one for
a monitor: an assertion at every place where a process holds the lock
(`PipePc.At`), and two rules. A step that leaves the pipe alone has to show the
assertion of the place it comes to; a step that changes the pipe holds the lock,
so no other process has an assertion to keep.

That storing and taking a byte is what it should be in spite of the wrapping
counters is `Ring`'s business.
-/

namespace Xv6.Ref

open Xv6.Lib

variable {P : Type} {s s' : Pipe P} {p q : P}

/-- Where a process holds `p->lock`. -/
def PipePc.holds : PipePc → Bool
  | .wLoop .. | .wFull .. | .wWakeup .. | .wEnd .. | .wReturn .. => true
  | .rLoop .. | .rEmpty .. | .rCopy .. | .rEnd .. | .rReturn .. => true
  | .cOpen .. | .cWakeup .. | .cRelease => true
  | .sleep .. | .sleepRelease .. => true
  | _ => false

/-- What a sleeper on the channel waits to change: for the readers that the pipe
is empty and some writer open, -/
def Pipe.Blocked (s : Pipe P) : PipeChan → Prop
  | .nread => s.nread = s.nwrite ∧ s.writeopen = true
  | .nwrite => s.nwrite = s.nread + BitVec.ofNat 32 PIPESIZE ∧ s.readopen = true

/-- What is known at a place where the lock is held. -/
def PipePc.At (s : Pipe P) : PipePc → Prop
  | .wFull .. => s.nwrite = s.nread + BitVec.ofNat 32 PIPESIZE
  | .wWakeup .. => s.Blocked .nwrite
  | .rEmpty _ => s.Blocked .nread
  | .sleep k | .sleepRelease k => s.Blocked k.chan
  | .rCopy _ got =>
      (got = [] → s.nread ≠ s.nwrite ∨ s.writeopen = false) ∧ got <:+ s.taken
  | .rEnd n got | .rReturn n got =>
      (0 < n → got = [] → s.nread = s.nwrite ∧ s.writeopen = false) ∧ got <:+ s.taken
  | _ => True

structure PipeInv (s : Pipe P) : Prop where
  count : Ring.count s.nread s.nwrite ≤ PIPESIZE
  fifo : s.stored = s.taken ++ s.buffered
  held : ∀ p, (s.pc p).holds = true → s.lock = some p
  at' : ∀ p, (s.pc p).At s

theorem pipeInv_alloc (data : Fin PIPESIZE → UInt8) : PipeInv (Pipe.alloc P data) where
  count := by simp [Pipe.alloc, Ring.count_self]
  fifo := (Ring.buffered_self _ _ _).symm
  held := nofun
  at' := fun _ => trivial

theorem at_of_not_holds {pc : PipePc} (h : pc.holds = false) : pc.At s := by
  cases pc <;> trivial

/-- The pipe itself is as it was. -/
structure SamePipe (s s' : Pipe P) : Prop where
  data : s'.data = s.data
  nread : s'.nread = s.nread
  nwrite : s'.nwrite = s.nwrite
  readopen : s'.readopen = s.readopen
  writeopen : s'.writeopen = s.writeopen
  stored : s'.stored = s.stored
  taken : s'.taken = s.taken

theorem SamePipe.blocked (h : SamePipe s s') (c : PipeChan) :
    s'.Blocked c ↔ s.Blocked c := by
  cases c <;> simp only [Pipe.Blocked, h.nread, h.nwrite, h.readopen, h.writeopen]

theorem SamePipe.at_iff (h : SamePipe s s') (pc : PipePc) : pc.At s' ↔ pc.At s := by
  cases pc <;>
    simp only [PipePc.At, h.blocked, h.nread, h.nwrite, h.writeopen, h.taken]

theorem full_iff (s : Pipe P) :
    s.nwrite = s.nread + BitVec.ofNat 32 PIPESIZE ↔
      Ring.count s.nread s.nwrite = PIPESIZE :=
  (Ring.count_eq_iff (by decide)).symm

/-- A step of `q` that leaves the pipe alone. -/
theorem PipeInv.same (hi : PipeInv s) (h : SamePipe s s') (q : P)
    (other : ∀ p, p ≠ q → s'.pc p = s.pc p)
    (lock : s'.lock = s.lock ∨ s.lock = none ∨ s.lock = some q)
    (held : (s'.pc q).holds = true → s'.lock = some q) (hat : (s'.pc q).At s) :
    PipeInv s' where
  count := by rw [h.nread, h.nwrite]; exact hi.count
  fifo := by
    rw [h.stored, h.taken, Pipe.buffered, h.data, h.nread, h.nwrite]
    exact hi.fifo
  held := by
    intro p hp
    by_cases he : p = q
    · subst he; exact held hp
    · rw [other p he] at hp
      have hl := hi.held p hp
      rcases lock with hs | hs | hs
      · rw [hs]; exact hl
      · rw [hs] at hl; cases hl
      · rw [hs] at hl; exact absurd (Option.some.inj hl).symm he
  at' := by
    intro p
    rw [h.at_iff]
    by_cases he : p = q
    · subst he; exact hat
    · rw [other p he]; exact hi.at' p

/-- A step of the holder of the lock that changes the pipe. -/
theorem PipeInv.change (hi : PipeInv s) (hq : (s.pc q).holds = true)
    (other : ∀ p, p ≠ q → s'.pc p = s.pc p) (lock : s'.lock = s.lock)
    (hat : (s'.pc q).At s') (count : Ring.count s'.nread s'.nwrite ≤ PIPESIZE)
    (fifo : s'.stored = s'.taken ++ s'.buffered) : PipeInv s' where
  count := count
  fifo := fifo
  held := by
    intro p hp
    rw [lock]
    by_cases he : p = q
    · subst he; exact hi.held p hq
    · rw [other p he] at hp; exact hi.held p hp
  at' := by
    intro p
    by_cases he : p = q
    · subst he; exact hat
    · rw [other p he]
      refine at_of_not_holds (Bool.eq_false_iff.mpr fun hp => he ?_)
      have hl := hi.held p hp
      rw [hi.held q hq] at hl
      exact (Option.some.inj hl).symm

/-! ## The pieces of the calls -/

variable [DecidableEq P]

@[simp] theorem goto_pc (s : Pipe P) (p q : P) (pc : PipePc) :
    (s.goto p pc).pc q = if q = p then pc else s.pc q := rfl

theorem goto_other {pc : PipePc} (p : P) (hp : p ≠ q) : (s.goto q pc).pc p = s.pc p :=
  if_neg hp

theorem PipeInv.goto (hi : PipeInv s) {pc : PipePc}
    (held : pc.holds = true → s.lock = some q) (hat : pc.At s) :
    PipeInv (s.goto q pc) := by
  refine hi.same ⟨rfl, rfl, rfl, rfl, rfl, rfl, rfl⟩ q goto_other (Or.inl rfl) ?_ ?_
  · rw [goto_pc, if_pos rfl]; exact held
  · rw [goto_pc, if_pos rfl]; exact hat

theorem PipeInv.acquire (hi : PipeInv s) {pc : PipePc} (h : s.acquire q pc = some s')
    (hat : pc.At s) : PipeInv s' := by
  simp only [Pipe.acquire] at h
  split at h <;> cases h
  next hl =>
    refine hi.same ⟨rfl, rfl, rfl, rfl, rfl, rfl, rfl⟩ q goto_other (Or.inr (Or.inl hl))
      (fun _ => rfl) ?_
    simpa [Pipe.goto] using hat

theorem PipeInv.release (hi : PipeInv s) {pc : PipePc} (h : s.release q pc = some s')
    (hpc : pc.holds = false) (hl : s.lock = some q) : PipeInv s' := by
  cases h
  refine hi.same ⟨rfl, rfl, rfl, rfl, rfl, rfl, rfl⟩ q goto_other (Or.inr (Or.inr hl)) ?_ ?_
  · simp [Pipe.goto, hpc]
  · simpa [Pipe.goto] using at_of_not_holds hpc

theorem PipeInv.wakeup (hi : PipeInv s) {pc : PipePc} {c : PipeChan}
    (h : s.wakeup c q pc = some s') (hl : s.lock = some q) (hat : pc.At s) :
    PipeInv s' := by
  simp only [Pipe.wakeup] at h
  split at h <;> cases h
  refine hi.same ⟨rfl, rfl, rfl, rfl, rfl, rfl, rfl⟩ q goto_other (Or.inl rfl)
    (fun _ => hl) ?_
  simpa [Pipe.goto] using hat

theorem pipewrite_inv (hi : PipeInv s) (h : pipewrite s q (s.pc q) = some s') :
    PipeInv s' := by
  have hat := hi.at' q
  have hheld := hi.held q
  cases hpc : s.pc q with (rw [hpc] at h hat hheld; simp only [pipewrite] at h)
  | wAcquire rest n => exact hi.acquire h trivial
  | wLoop rest n fresh =>
      have hl := hheld rfl
      cases rest with
      | nil => cases h; exact hi.goto (fun _ => hl) trivial
      | cons b rest =>
          simp only at h
          split at h <;> cases h
          · next hf => exact hi.goto (fun _ => hl) hf
          · next hf =>
              have hlt : Ring.count s.nread s.nwrite < PIPESIZE :=
                lt_of_le_of_ne hi.count fun he => hf ((full_iff s).mpr he)
              refine hi.change (q := q) (by rw [hpc]; rfl) goto_other rfl ?_ ?_ ?_
              · simp [PipePc.At]
              · show Ring.count s.nread (s.nwrite + 1) ≤ PIPESIZE
                rw [Ring.count_put (Nat.lt_of_le_of_lt hlt (by decide))]
                exact hlt
              · show s.stored ++ [b] = s.taken ++ Ring.buffered PIPESIZE_pos
                  (Ring.put s.data (Ring.cell PIPESIZE_pos s.nwrite) b) s.nread
                  (s.nwrite + 1)
                rw [Ring.buffered_put PIPESIZE_pos (by decide) (by decide) _ _ hlt,
                  hi.fifo, List.append_assoc]
                rfl
  | wFull rest n fresh =>
      have hl := hheld rfl
      split at h
      · exact hi.release h rfl hl
      · next hn =>
          cases h
          rw [not_or] at hn
          exact hi.goto (fun _ => hl) ⟨hat, by simpa using hn.1⟩
  | wWakeup rest n fresh => exact hi.wakeup h (hheld rfl) hat
  | wEnd n fresh => exact hi.wakeup h (hheld rfl) trivial
  | wReturn n => exact hi.release h rfl (hheld rfl)
  | _ => cases h

theorem piperead_inv (hi : PipeInv s) (h : piperead s q (s.pc q) = some s') :
    PipeInv s' := by
  have hat := hi.at' q
  have hheld := hi.held q
  cases hpc : s.pc q with (rw [hpc] at h hat hheld; simp only [piperead] at h)
  | rAcquire n => exact hi.acquire h trivial
  | rLoop n =>
      have hl := hheld rfl
      split at h <;> cases h
      · next hb => exact hi.goto (fun _ => hl) hb
      · next hb =>
          refine hi.goto (fun _ => hl) ⟨fun _ => ?_, List.nil_suffix⟩
          by_cases he : s.nread = s.nwrite
          · exact Or.inr (by simpa [he] using hb)
          · exact Or.inl he
  | rEmpty n =>
      have hl := hheld rfl
      split at h
      · exact hi.release h rfl hl
      · cases h
        exact hi.goto (fun _ => hl) hat
  | rCopy n got =>
      have hl := hheld rfl
      split at h
      · split at h <;> cases h
        · next he =>
            refine hi.goto (fun _ => hl) ⟨fun _ hg => ⟨he, ?_⟩, hat.2⟩
            exact (hat.1 hg).resolve_left fun hne => hne he
        · next hne =>
            have hb := Ring.buffered_take PIPESIZE_pos s.data hne
            refine hi.change (q := q) (by rw [hpc]; rfl) goto_other rfl ?_ ?_ ?_
            · simp only [goto_pc, if_true, PipePc.At]
              refine ⟨fun hg => absurd hg (by simp), ?_⟩
              obtain ⟨pre, hpre⟩ := hat.2
              refine ⟨pre, ?_⟩
              show _ = s.taken ++ [s.front]
              rw [← hpre, List.append_assoc]
            · obtain ⟨k, hk⟩ := Nat.exists_eq_succ_of_ne_zero (mt Ring.count_eq_zero.mp hne)
              have hc := hi.count
              show Ring.count (s.nread + 1) s.nwrite ≤ PIPESIZE
              rw [Ring.count_take hk]
              omega
            · show s.stored = (s.taken ++ [s.front]) ++
                Ring.buffered PIPESIZE_pos s.data (s.nread + 1) s.nwrite
              rw [hi.fifo, Pipe.buffered, hb, List.append_assoc]
              rfl
      · next hn =>
          cases h
          refine hi.goto (fun _ => hl) ⟨fun hpos hg => ?_, hat.2⟩
          subst hg
          exact absurd hpos hn
  | rEnd n got => exact hi.wakeup h (hheld rfl) hat
  | rReturn n got => exact hi.release h rfl (hheld rfl)
  | _ => cases h

theorem pipeclose_inv (hi : PipeInv s) (h : pipeclose s q (s.pc q) = some s') :
    PipeInv s' := by
  have hheld := hi.held q
  cases hpc : s.pc q with (rw [hpc] at h hheld; simp only [pipeclose] at h)
  | cAcquire writable => exact hi.acquire h trivial
  | cOpen writable =>
      have hholds : (s.pc q).holds = true := by rw [hpc]; rfl
      split at h <;> cases h
      · exact hi.change hholds goto_other rfl (by simp [PipePc.At]) hi.count hi.fifo
      · exact hi.change hholds goto_other rfl (by simp [PipePc.At]) hi.count hi.fifo
  | cWakeup writable => exact hi.wakeup h (hheld rfl) trivial
  | cRelease =>
      split at h
      · cases h
        refine hi.same ⟨rfl, rfl, rfl, rfl, rfl, rfl, rfl⟩ q goto_other
          (Or.inr (Or.inr (hheld rfl))) ?_ ?_
        · simp [Pipe.goto, PipePc.holds]
        · simp [Pipe.goto, PipePc.At]
      · exact hi.release h rfl (hheld rfl)
  | _ => cases h

theorem sleepStep_inv (hi : PipeInv s) (h : sleepStep s q (s.pc q) = some s') :
    PipeInv s' := by
  have hat := hi.at' q
  have hheld := hi.held q
  cases hpc : s.pc q with (rw [hpc] at h hat hheld; simp only [sleepStep] at h)
  | sleep k =>
      split at h <;> cases h
      refine hi.same ⟨rfl, rfl, rfl, rfl, rfl, rfl, rfl⟩ q goto_other (Or.inl rfl)
        (fun _ => hheld rfl) ?_
      have hat' : (PipePc.sleepRelease k).At s := hat
      simpa [Pipe.goto] using hat'
  | sleepRelease k => exact hi.release h rfl (hheld rfl)
  | sleepSched k =>
      cases h
      refine hi.same ⟨rfl, rfl, rfl, rfl, rfl, rfl, rfl⟩ q goto_other (Or.inl rfl) ?_ ?_
      · simp [Pipe.goto, PipePc.holds]
      · simp [Pipe.goto, PipePc.At]
  | slept k =>
      split at h <;> cases h
      cases k <;> exact hi.goto nofun trivial
  | _ => cases h

theorem next_inv (hi : PipeInv s) (h : s.next q = some s') : PipeInv s' := by
  simp only [Pipe.next] at h
  split at h
  · cases h
  all_goals
    first
    | exact pipewrite_inv hi h
    | exact piperead_inv hi h
    | exact pipeclose_inv hi h
    | exact sleepStep_inv hi h

theorem call_inv (hi : PipeInv s) {pc : PipePc} (hpc : pc.holds = false)
    (h : s.call q pc = some s') : PipeInv s' := by
  simp only [Pipe.call] at h
  split at h <;> cases h
  exact hi.goto (fun hh => by rw [hpc] at hh; cases hh) (at_of_not_holds hpc)

theorem pipeInv_step {a : PipeAct P} (hi : PipeInv s) (h : pipeStep s a = some s') :
    PipeInv s' := by
  simp only [pipeStep] at h
  split at h
  · cases h
  · split at h
    · exact call_inv hi rfl h
    · exact call_inv hi rfl h
    · exact call_inv hi rfl h
    · exact next_inv hi h
    · next p =>
        split at h <;> cases h
        exact hi.same ⟨rfl, rfl, rfl, rfl, rfl, rfl, rfl⟩ p (fun _ _ => rfl) (Or.inl rfl)
          (hi.held p) (hi.at' p)

theorem pipeInv_reach {ok : Pipe P → PipeAct P → Prop} {data : Fin PIPESIZE → UInt8}
    (h : Reach pipeStep ok (Pipe.alloc P data) s) : PipeInv s :=
  h.invariant (pipeInv_alloc data) fun _ _ _ hi _ hs => pipeInv_step hi hs

/-- Three bytes are written and the writers' end is closed; a first `piperead`
takes them all, a second finds the end. -/
def readToEnd : List (PipeAct Bool) :=
  .pipewrite true [1, 2, 3] :: List.replicate 7 (.step true) ++
    .pipeclose true true :: List.replicate 4 (.step true) ++
    .piperead false 8 :: List.replicate 8 (.step false) ++
    .piperead false 4 :: List.replicate 4 (.step false)

end Xv6.Ref
