import Xv6.Proofs.PipeFifo

/-!
# Who sleeps on a pipe

A process sleeps on `&p->nread` because the pipe was empty and on `&p->nwrite`
because it was full. Whoever changes that holds `p->lock`, and calls `wakeup`
before it lets go — a debt the invariant keeps: for every sleeper the reason is
still there, or the holder of the lock owes a wakeup. A process that has let go
of `p->lock` in `sleep` and is not yet SLEEPING counts as a sleeper: it holds
`ptable.lock`, so no `wakeup` can miss it.

The one way out of the calls that does not pay is `return -1` in `pipewrite`: it
has stored bytes until the pipe was full, and does not tell the readers.
-/

namespace Xv6.Ref

open Xv6.Lib

variable {P : Type} {s s' : Pipe P} {p q : P} {c : PipeChan}

/-- On the way to sleep on the channel. -/
def PipePc.dozing : PipePc → Option PipeChan
  | .sleep k | .sleepRelease k | .sleepSched k => some k.chan
  | _ => none

/-- SLEEPING on the channel, or on the way to it. -/
def Pipe.dozes (s : Pipe P) (p : P) (c : PipeChan) : Prop :=
  s.chan p = some c ∨ (s.pc p).dozing = some c

/-- The channel whose sleepers a process has given a reason to get up, and has
not woken yet. -/
def PipePc.owes : PipePc → Option PipeChan
  | .wLoop _ _ fresh | .wFull _ _ fresh | .wWakeup _ _ fresh | .wEnd _ fresh =>
      if fresh = 0 then none else some .nread
  | .rCopy _ got | .rEnd _ got => if got = [] then none else some .nwrite
  | .cWakeup writable => some (if writable = true then .nread else .nwrite)
  | _ => none

theorem holds_of_owes {pc : PipePc} (h : pc.owes = some c) : pc.holds = true := by
  cases pc <;> first | rfl | cases h

/-- When `pipewrite` returns -1 and has stored bytes since it last woke the
readers, no reader is asleep. -/
def partialUnseen (s : Pipe P) : PipeAct P → Prop
  | .step p =>
      match s.pc p with
      | .wFull _ _ fresh =>
          (s.readopen = false ∨ s.killed p = true) →
            fresh = 0 ∨ ∀ q, ¬ s.dozes q .nread
      | _ => True
  | _ => True

instance (s : Pipe P) (p : P) (c : PipeChan) : Decidable (s.dozes p c) :=
  inferInstanceAs (Decidable (_ ∨ _))

instance [Fintype P] (s : Pipe P) (a : PipeAct P) : Decidable (partialUnseen s a) := by
  cases a with
  | step p =>
      simp only [partialUnseen]
      split <;> infer_instance
  | _ => exact inferInstanceAs (Decidable True)

structure WakeInv (s : Pipe P) : Prop where
  ptable : ∀ p k, s.pc p = .sleepRelease k ∨ s.pc p = .sleepSched k → s.ptable = some p
  chan : ∀ p c, s.chan p = some c → ∃ k, s.pc p = .slept k
  debt : ∀ p c, s.dozes p c → s.Blocked c ∨ ∃ q, (s.pc q).owes = some c

theorem wakeInv_alloc (data : Fin PIPESIZE → UInt8) : WakeInv (Pipe.alloc P data) where
  ptable := by
    rintro p k (h | h) <;> cases h
  chan := nofun
  debt := by
    rintro p c (h | h) <;> cases h

/-- Only one process can owe anything. -/
theorem PipeInv.owes_unique (hi : PipeInv s) (hq : (s.pc q).holds = true)
    (hp : (s.pc p).owes = some c) : p = q := by
  have hl := hi.held p (holds_of_owes hp)
  rw [hi.held q hq] at hl
  exact (Option.some.inj hl).symm

/-- A step of `q` that leaves the pipe alone. It may end sleeps, and its own way
into `sleep` may go on; what it owed it still owes, or nobody waits for it. -/
theorem WakeInv.same (hi : WakeInv s) (h : SamePipe s s') (q : P)
    (other : ∀ p, p ≠ q → s'.pc p = s.pc p)
    (ptable : s'.ptable = s.ptable ∨ s.ptable = none ∨ s.ptable = some q)
    (hpt : ∀ k, s'.pc q = .sleepRelease k ∨ s'.pc q = .sleepSched k →
      s'.ptable = some q)
    (chan : ∀ p c, s'.chan p = some c → s.chan p = some c ∨
      p = q ∧ (s.pc q).dozing = some c)
    (slept : ∀ c, s'.chan q = some c → ∃ k, s'.pc q = .slept k)
    (dozing : ∀ c, (s'.pc q).dozing = some c → (s.pc q).dozing = some c ∨ s.Blocked c)
    (owes : ∀ c, (s.pc q).owes = some c → (s'.pc q).owes = some c ∨
      ∀ p, ¬ s'.dozes p c) : WakeInv s' where
  ptable := by
    intro p k hp
    by_cases he : p = q
    · subst he; exact hpt k hp
    · rw [other p he] at hp
      have hold := hi.ptable p k hp
      rcases ptable with hs | hs | hs
      · rw [hs]; exact hold
      · rw [hs] at hold; cases hold
      · rw [hs] at hold; exact absurd (Option.some.inj hold).symm he
  chan := by
    intro p c hc
    by_cases he : p = q
    · subst he; exact slept c hc
    · rw [other p he]
      rcases chan p c hc with hc | ⟨hp, _⟩
      · exact hi.chan p c hc
      · exact absurd hp he
  debt := by
    intro p c hd
    have hold : s.Blocked c ∨ ∃ r, (s.pc r).owes = some c := by
      have hdoze : s.dozes p c ∨ s.Blocked c := by
        rcases hd with hc | hz
        · rcases chan p c hc with hc | ⟨rfl, hz⟩
          · exact Or.inl (Or.inl hc)
          · exact Or.inl (Or.inr hz)
        · by_cases he : p = q
          · subst he; exact (dozing c hz).imp Or.inr id
          · rw [other p he] at hz; exact Or.inl (Or.inr hz)
      rcases hdoze with hdoze | hb
      · exact hi.debt p c hdoze
      · exact Or.inl hb
    rcases hold with hb | ⟨r, hr⟩
    · exact Or.inl ((h.blocked c).mpr hb)
    · by_cases he : r = q
      · subst he
        rcases owes c hr with ho | hno
        · exact Or.inr ⟨r, ho⟩
        · exact absurd hd (hno p)
      · exact Or.inr ⟨r, by rw [other r he]; exact hr⟩

/-- A step of the holder of the lock that changes the pipe. -/
theorem WakeInv.change (hi : WakeInv s) {pc : PipePc}
    (hpc : s'.pc q = pc) (other : ∀ p, p ≠ q → s'.pc p = s.pc p)
    (hd : pc.dozing = none) (awake : s.chan q = none)
    (ptable : s'.ptable = s.ptable) (chan : s'.chan = s.chan)
    (debt : ∀ p c, s.dozes p c → s'.Blocked c ∨ pc.owes = some c) : WakeInv s' where
  ptable := by
    intro p k hp
    rw [ptable]
    by_cases he : p = q
    · subst he
      rw [hpc] at hp
      rcases hp with rfl | rfl <;> cases hd
    · rw [other p he] at hp; exact hi.ptable p k hp
  chan := by
    intro p c hc
    rw [chan] at hc
    by_cases he : p = q
    · subst he; rw [awake] at hc; cases hc
    · rw [other p he]; exact hi.chan p c hc
  debt := by
    intro p c hp
    have hdoze : s.dozes p c := by
      rcases hp with hc | hz
      · rw [chan] at hc; exact Or.inl hc
      · by_cases he : p = q
        · subst he
          rw [hpc, hd] at hz
          cases hz
        · rw [other p he] at hz; exact Or.inr hz
    exact (debt p c hdoze).imp id fun ho => ⟨q, by rw [hpc]; exact ho⟩

/-- Places outside the part of `sleep` behind `acquire(&ptable.lock)`. -/
def PipePc.calm : PipePc → Bool
  | .sleepRelease _ | .sleepSched _ | .slept _ => false
  | _ => true

/-- A process in the middle of its code is not asleep. -/
theorem WakeInv.awake (hi : WakeInv s) {pc : PipePc} (hpc : s.pc q = pc)
    (hcalm : pc.calm = true) : s.chan q = none := by
  cases hc : s.chan q with
  | none => rfl
  | some c =>
      obtain ⟨k, hk⟩ := hi.chan q c hc
      rw [← hpc, hk] at hcalm
      cases hcalm

/-- What the holder of the lock does not owe is as the sleepers left it. -/
theorem WakeInv.blocked (hp : PipeInv s) (hi : WakeInv s) (hq : (s.pc q).holds = true)
    (howes : (s.pc q).owes ≠ some c) (hdoze : s.dozes p c) : s.Blocked c := by
  rcases hi.debt p c hdoze with hb | ⟨r, hr⟩
  · exact hb
  · rw [hp.owes_unique hq hr] at hr
    exact absurd hr howes

/-! ## The pieces of the calls -/

variable [DecidableEq P]

/-- A step to another place, perhaps with `p->lock` taken or released. -/
theorem WakeInv.goto (hi : WakeInv s) {pc : PipePc} (same : SamePipe s s')
    (hs : s'.pc = (s.goto q pc).pc) (hc : s'.chan = s.chan) (hpt : s'.ptable = s.ptable)
    (hq : s.chan q = none) (hpc : pc.calm = true) (hd : ∀ c, pc.dozing = some c → s.Blocked c)
    (owes : ∀ c, (s.pc q).owes = some c →
      pc.owes = some c ∨ pc.dozing = none ∧ ∀ p, ¬ s.dozes p c) : WakeInv s' := by
  have hat : s'.pc q = pc := by rw [hs]; simp
  have hother : ∀ p, p ≠ q → s'.pc p = s.pc p := fun p hne => by rw [hs]; simp [hne]
  refine hi.same same q hother (Or.inl hpt) ?_ (fun p c h => Or.inl (hc ▸ h)) ?_ ?_ ?_
  · intro k hk
    rw [hat] at hk
    rcases hk with rfl | rfl <;> cases hpc
  · intro c h
    rw [hc, hq] at h
    cases h
  · intro c h
    rw [hat] at h
    exact Or.inr (hd c h)
  · intro c h
    rw [hat]
    refine (owes c h).imp id fun ⟨hnone, hno⟩ p hp => ?_
    rcases hp with hp | hp
    · exact hno p (Or.inl (hc ▸ hp))
    · by_cases he : p = q
      · rw [he, hat, hnone] at hp; cases hp
      · rw [hother p he] at hp
        exact hno p (Or.inr hp)

/-- A step between two places off the way to sleep that pays nothing: what the first owes
the second owes too. -/
theorem WakeInv.walk (hi : WakeInv s) {pc₀ pc : PipePc} (hpc : s.pc q = pc₀)
    (same : SamePipe s s') (hs : s'.pc = (s.goto q pc).pc) (hc : s'.chan = s.chan)
    (hpt : s'.ptable = s.ptable) (hcalm₀ : pc₀.calm = true) (hcalm : pc.calm = true)
    (hd : pc.dozing = none) (owes : pc₀.owes = none ∨ pc.owes = pc₀.owes) : WakeInv s' := by
  refine hi.goto same hs hc hpt (hi.awake hpc hcalm₀) hcalm ?_ ?_
  · intro c h
    rw [hd] at h
    cases h
  · intro c h
    rw [hpc] at h
    rcases owes with ho | ho
    · rw [ho] at h
      cases h
    · exact Or.inl (ho.trans h)

/-- A `wakeup` pays the debt: nobody is left asleep on the channel. -/
theorem WakeInv.wakeup (hp : PipeInv s) (hi : WakeInv s) {pc : PipePc}
    (h : s.wakeup c q pc = some s') (hq : (s.pc q).holds = true)
    (hawake : s.chan q = none) (hpc : pc.calm = true)
    (hd : ∀ d, pc.dozing = some d → d ≠ c ∧ s.Blocked d)
    (owes : ∀ d, (s.pc q).owes = some d → d = c) : WakeInv s' := by
  simp only [Pipe.wakeup] at h
  split at h <;> cases h
  next hfree =>
    refine hi.same ⟨rfl, rfl, rfl, rfl, rfl, rfl, rfl⟩ q goto_other (Or.inl rfl) ?_ ?_ ?_
      ?_ ?_
    · intro k hk
      simp only [Pipe.goto, if_true] at hk
      rcases hk with rfl | rfl <;> cases hpc
    · intro p d hc
      dsimp only at hc
      split at hc
      · cases hc
      · exact Or.inl hc
    · intro d hc
      simp only [hawake] at hc
      cases hc
    · intro d hz
      simp only [Pipe.goto, if_true] at hz
      exact Or.inr (hd d hz).2
    · intro d ho
      refine Or.inr fun p hz => ?_
      obtain rfl := owes d ho
      rcases hz with hz | hz
      · dsimp only at hz
        split at hz
        · cases hz
        · next hne => exact hne hz
      · by_cases he : p = q
        · subst he
          simp only [Pipe.goto, if_true] at hz
          exact (hd d hz).1 rfl
        · -- On the way to sleep one holds one of the two locks.
          simp only [Pipe.goto, if_neg he] at hz
          have hheld : (s.pc p).holds = true → False := fun hh => by
            have hl := hp.held p hh
            rw [hp.held q hq] at hl
            exact he (Option.some.inj hl).symm
          cases hpc' : s.pc p with rw [hpc'] at hz hheld
          | sleep k => exact hheld rfl
          | sleepRelease k => exact hheld rfl
          | sleepSched k =>
              have := hi.ptable p k (Or.inr hpc')
              rw [hfree] at this
              cases this
          | _ => cases hz

theorem pipewrite_wake (hp : PipeInv s) (hi : WakeInv s)
    (hok : partialUnseen s (.step q)) (h : pipewrite s q (s.pc q) = some s') :
    WakeInv s' := by
  have hat := hp.at' q
  cases hpc : s.pc q with (rw [hpc] at h hat; simp only [pipewrite] at h)
  | wAcquire rest n =>
      simp only [Pipe.acquire] at h
      split at h <;> cases h
      exact hi.walk hpc ⟨rfl, rfl, rfl, rfl, rfl, rfl, rfl⟩ rfl rfl rfl rfl rfl rfl
        (Or.inl rfl)
  | wLoop rest n fresh =>
      have hawake := hi.awake hpc rfl
      cases rest with
      | nil =>
          cases h
          exact hi.walk hpc ⟨rfl, rfl, rfl, rfl, rfl, rfl, rfl⟩ rfl rfl rfl rfl rfl rfl
            (Or.inr rfl)
      | cons b rest =>
          simp only at h
          split at h <;> cases h
          · exact hi.walk hpc ⟨rfl, rfl, rfl, rfl, rfl, rfl, rfl⟩ rfl rfl rfl rfl rfl rfl
              (Or.inr rfl)
          · next hfull =>
              refine hi.change (q := q) (by simp; rfl) goto_other rfl hawake rfl rfl ?_
              intro p c hdoze
              cases c with
              | nread => exact Or.inr rfl
              | nwrite =>
                  -- Not full, so nobody waits for room.
                  have hb := hi.blocked hp (q := q) (by rw [hpc]; rfl)
                    (by rw [hpc]; simp only [PipePc.owes]; split <;> simp) hdoze
                  exact absurd hb.1 hfull
  | wFull rest n fresh =>
      have hawake := hi.awake hpc rfl
      split at h
      · next hret =>
          cases h
          refine hi.goto ⟨rfl, rfl, rfl, rfl, rfl, rfl, rfl⟩ rfl rfl rfl hawake rfl ?_ ?_
          · rintro _ ⟨⟩
          intro c ho
          refine Or.inr ⟨rfl, fun p hdoze => ?_⟩
          rw [hpc] at ho
          simp only [PipePc.owes] at ho
          simp only [partialUnseen, hpc] at hok
          split at ho
          · cases ho
          · next hne =>
              cases ho
              exact ((hok hret).resolve_left hne) p hdoze
      · cases h
        exact hi.walk hpc ⟨rfl, rfl, rfl, rfl, rfl, rfl, rfl⟩ rfl rfl rfl rfl rfl rfl
          (Or.inr rfl)
  | wWakeup rest n fresh =>
      refine hi.wakeup hp h (by rw [hpc]; rfl) (hi.awake hpc rfl) rfl ?_ ?_
      · intro d hd
        cases hd
        exact ⟨by rintro ⟨⟩, hat⟩
      · intro d ho
        rw [hpc] at ho
        simp only [PipePc.owes] at ho
        split at ho <;> cases ho
        rfl
  | wEnd n fresh =>
      refine hi.wakeup hp h (by rw [hpc]; rfl) (hi.awake hpc rfl) rfl (by rintro _ ⟨⟩) ?_
      intro d ho
      rw [hpc] at ho
      simp only [PipePc.owes] at ho
      split at ho <;> cases ho
      rfl
  | wReturn n =>
      cases h
      exact hi.walk hpc ⟨rfl, rfl, rfl, rfl, rfl, rfl, rfl⟩ rfl rfl rfl rfl rfl rfl
        (Or.inl rfl)
  | _ => cases h

theorem piperead_wake (hp : PipeInv s) (hi : WakeInv s)
    (h : piperead s q (s.pc q) = some s') : WakeInv s' := by
  have hat := hp.at' q
  cases hpc : s.pc q with (rw [hpc] at h hat; simp only [piperead] at h)
  | rAcquire n =>
      simp only [Pipe.acquire] at h
      split at h <;> cases h
      exact hi.walk hpc ⟨rfl, rfl, rfl, rfl, rfl, rfl, rfl⟩ rfl rfl rfl rfl rfl rfl
        (Or.inl rfl)
  | rLoop n =>
      split at h <;> cases h <;>
        exact hi.walk hpc ⟨rfl, rfl, rfl, rfl, rfl, rfl, rfl⟩ rfl rfl rfl rfl rfl rfl
          (Or.inl rfl)
  | rEmpty n =>
      split at h
      · cases h
        exact hi.walk hpc ⟨rfl, rfl, rfl, rfl, rfl, rfl, rfl⟩ rfl rfl rfl rfl rfl rfl
          (Or.inl rfl)
      · cases h
        refine hi.goto ⟨rfl, rfl, rfl, rfl, rfl, rfl, rfl⟩ rfl rfl rfl (hi.awake hpc rfl)
          rfl ?_ (by rw [hpc]; rintro _ ⟨⟩)
        intro c hc
        cases hc
        exact hat
  | rCopy n got =>
      have hawake := hi.awake hpc rfl
      split at h
      · split at h <;> cases h
        · exact hi.walk hpc ⟨rfl, rfl, rfl, rfl, rfl, rfl, rfl⟩ rfl rfl rfl rfl rfl rfl
            (Or.inr rfl)
        · next hne =>
            refine hi.change (q := q) (by simp; rfl) goto_other rfl hawake rfl rfl ?_
            intro p c hdoze
            cases c with
            | nread =>
                -- Not empty, so nobody waits for bytes.
                have hb := hi.blocked hp (q := q) (by rw [hpc]; rfl)
                  (by rw [hpc]; simp only [PipePc.owes]; split <;> simp) hdoze
                exact absurd hb.1 hne
            | nwrite => exact Or.inr (by simp [PipePc.owes])
      · cases h
        exact hi.walk hpc ⟨rfl, rfl, rfl, rfl, rfl, rfl, rfl⟩ rfl rfl rfl rfl rfl rfl
          (Or.inr rfl)
  | rEnd n got =>
      refine hi.wakeup hp h (by rw [hpc]; rfl) (hi.awake hpc rfl) rfl (by rintro _ ⟨⟩) ?_
      intro d ho
      rw [hpc] at ho
      simp only [PipePc.owes] at ho
      split at ho <;> cases ho
      rfl
  | rReturn n got =>
      cases h
      exact hi.walk hpc ⟨rfl, rfl, rfl, rfl, rfl, rfl, rfl⟩ rfl rfl rfl rfl rfl rfl
        (Or.inl rfl)
  | _ => cases h

theorem pipeclose_wake (hp : PipeInv s) (hi : WakeInv s)
    (h : pipeclose s q (s.pc q) = some s') : WakeInv s' := by
  cases hpc : s.pc q with (rw [hpc] at h; simp only [pipeclose] at h)
  | cAcquire writable =>
      simp only [Pipe.acquire] at h
      split at h <;> cases h
      exact hi.walk hpc ⟨rfl, rfl, rfl, rfl, rfl, rfl, rfl⟩ rfl rfl rfl rfl rfl rfl
        (Or.inl rfl)
  | cOpen writable =>
      have hawake := hi.awake hpc rfl
      have hblocked : ∀ p c, s.dozes p c → s.Blocked c := fun p c =>
        hi.blocked hp (q := q) (by rw [hpc]; rfl) (by rw [hpc]; rintro ⟨⟩)
      split at h <;> cases h
      · refine hi.change (q := q) (by simp; rfl) goto_other rfl hawake rfl rfl ?_
        intro p c hdoze
        cases c with
        | nread => exact Or.inr rfl
        | nwrite => exact Or.inl (hblocked p _ hdoze)
      · refine hi.change (q := q) (by simp; rfl) goto_other rfl hawake rfl rfl ?_
        intro p c hdoze
        cases c with
        | nread => exact Or.inl (hblocked p _ hdoze)
        | nwrite => exact Or.inr rfl
  | cWakeup writable =>
      refine hi.wakeup hp h (by rw [hpc]; rfl) (hi.awake hpc rfl) rfl (by rintro _ ⟨⟩) ?_
      intro d ho
      rw [hpc] at ho
      exact (Option.some.inj ho).symm
  | cRelease =>
      split at h <;> cases h <;>
        exact hi.walk hpc ⟨rfl, rfl, rfl, rfl, rfl, rfl, rfl⟩ rfl rfl rfl rfl rfl rfl
          (Or.inl rfl)
  | _ => cases h

theorem sleepStep_wake (hi : WakeInv s) (h : sleepStep s q (s.pc q) = some s') :
    WakeInv s' := by
  cases hpc : s.pc q with (rw [hpc] at h; simp only [sleepStep] at h)
  | sleep k =>
      have hawake := hi.awake hpc rfl
      split at h <;> cases h
      next hfree =>
        refine hi.same ⟨rfl, rfl, rfl, rfl, rfl, rfl, rfl⟩ q goto_other
          (Or.inr (Or.inl hfree)) (fun _ _ => rfl) (fun _ _ hc => Or.inl hc) ?_ ?_
          (by rw [hpc]; rintro _ ⟨⟩)
        · intro c hc
          have hc : s.chan q = some c := hc
          rw [hawake] at hc
          cases hc
        · intro c hz
          simp only [Pipe.goto, if_true] at hz
          exact Or.inl (by rw [hpc]; exact hz)
  | sleepRelease k =>
      cases h
      have hpt := hi.ptable q k (Or.inl hpc)
      refine hi.same ⟨rfl, rfl, rfl, rfl, rfl, rfl, rfl⟩ q goto_other (Or.inl rfl)
        (fun _ _ => hpt) (fun _ _ hc => Or.inl hc) ?_ ?_ (by rw [hpc]; rintro _ ⟨⟩)
      · intro c hc
        obtain ⟨k', hk'⟩ := hi.chan q c hc
        rw [hpc] at hk'
        cases hk'
      · intro c hz
        simp only [Pipe.goto, if_true] at hz
        exact Or.inl (by rw [hpc]; exact hz)
  | sleepSched k =>
      cases h
      have hpt := hi.ptable q k (Or.inr hpc)
      refine hi.same ⟨rfl, rfl, rfl, rfl, rfl, rfl, rfl⟩ q goto_other
        (Or.inr (Or.inr hpt)) ?_ ?_ ?_ ?_ (by rw [hpc]; rintro _ ⟨⟩)
      · intro k' hk'
        simp [Pipe.goto] at hk'
      · intro p c hc
        dsimp only at hc
        split at hc
        · next he => exact Or.inr ⟨he, by rw [hpc]; exact hc⟩
        · exact Or.inl hc
      · intro c _
        exact ⟨k, by simp [Pipe.goto]⟩
      · intro c hz
        simp [Pipe.goto, PipePc.dozing] at hz
  | slept k =>
      split at h <;> cases h
      next hawake =>
        cases k <;>
          exact hi.goto ⟨rfl, rfl, rfl, rfl, rfl, rfl, rfl⟩ rfl rfl rfl hawake rfl (by rintro _ ⟨⟩)
            (by rw [hpc]; rintro _ ⟨⟩)
  | _ => cases h

theorem wakeInv_step {a : PipeAct P} (hp : PipeInv s) (hi : WakeInv s)
    (hok : partialUnseen s a) (h : pipeStep s a = some s') : WakeInv s' := by
  have hcall : ∀ (q : P) (pc : PipePc), pc.calm = true → pc.dozing = none →
      s.call q pc = some s' → WakeInv s' := by
    intro q pc hcalm hd h
    simp only [Pipe.call] at h
    split at h <;> cases h
    next hidle =>
      exact hi.goto ⟨rfl, rfl, rfl, rfl, rfl, rfl, rfl⟩ rfl rfl rfl (hi.awake hidle rfl)
        hcalm (fun c hc => by rw [hd] at hc; cases hc) (by rw [hidle]; rintro _ ⟨⟩)
  simp only [pipeStep] at h
  split at h
  · cases h
  · split at h
    · exact hcall _ _ rfl rfl h
    · exact hcall _ _ rfl rfl h
    · exact hcall _ _ rfl rfl h
    · simp only [Pipe.next] at h
      split at h
      · cases h
      all_goals
        first
        | exact pipewrite_wake hp hi hok h
        | exact piperead_wake hp hi h
        | exact pipeclose_wake hp hi h
        | exact sleepStep_wake hi h
    · next p =>
        split at h <;> cases h
        refine ⟨hi.ptable, ?_, ?_⟩
        · intro q c hc
          dsimp only at hc
          split at hc
          · cases hc
          · exact hi.chan q c hc
        · intro q c hd
          refine hi.debt q c (hd.imp (fun hc => ?_) id)
          dsimp only at hc
          split at hc
          · cases hc
          · exact hc

theorem wakeInv_reach {data : Fin PIPESIZE → UInt8}
    (h : Reach pipeStep partialUnseen (Pipe.alloc P data) s) : PipeInv s ∧ WakeInv s :=
  h.invariant (I := fun s => PipeInv s ∧ WakeInv s) ⟨pipeInv_alloc data, wakeInv_alloc data⟩
    fun _ _ _ hi hok hs => ⟨pipeInv_step hi.1 hs, wakeInv_step hi.1 hi.2 hok hs⟩

/-- With `p->lock` free nobody sleeps on the pipe without a reason. -/
theorem pipe_sleepers_blocked {data : Fin PIPESIZE → UInt8}
    (hr : Reach pipeStep partialUnseen (Pipe.alloc P data) s) (hl : s.lock = none) :
    (∀ p, s.chan p = some .nread → s.nread = s.nwrite ∧ s.writeopen = true) ∧
    ∀ p, s.chan p = some .nwrite →
      s.nwrite = s.nread + BitVec.ofNat 32 PIPESIZE ∧ s.readopen = true := by
  obtain ⟨hp, hi⟩ := wakeInv_reach hr
  have hblocked : ∀ p c, s.chan p = some c → s.Blocked c := by
    intro p c hc
    rcases hi.debt p c (Or.inl hc) with hb | ⟨q, hq⟩
    · exact hb
    · have := hp.held q (holds_of_owes hq)
      rw [hl] at this
      cases this
  exact ⟨fun p => hblocked p .nread, fun p => hblocked p .nwrite⟩

/-- A `pipewrite` of one byte more than fits goes to sleep. -/
theorem pipe_sleepers_blocked_full :
    ∃ s : Pipe Bool, Reach pipeStep partialUnseen (Pipe.alloc Bool fun _ => 0) s ∧
      s.lock = none ∧ s.chan true = some .nwrite ∧
      s.nwrite = s.nread + BitVec.ofNat 32 PIPESIZE ∧ s.readopen = true := by
  have hrun : (exec pipeStep partialUnseen (Pipe.alloc Bool fun _ => 0)
      (.pipewrite true (List.replicate 513 0) :: List.replicate 519 (.step true))).any
      (fun s => s.lock = none ∧ s.chan true = some .nwrite) = true := by
    decide +kernel
  obtain ⟨s, hr, hp⟩ := exists_reach_of_exec hrun
  obtain ⟨hl, hc⟩ := of_decide_eq_true hp
  exact ⟨s, hr, hl, hc, (pipe_sleepers_blocked hr hl).2 true hc⟩

/-- A reader goes to sleep on the empty pipe; a writer fills it, is killed, and
returns -1. The reader sleeps on, with 512 bytes to read. -/
theorem pipewrite_leaves_reader :
    ∃ s : Pipe Bool, Reach pipeStep anyStep (Pipe.alloc Bool fun _ => 0) s ∧
      s.lock = none ∧ s.ptable = none ∧ s.chan false = some .nread ∧
      s.nread ≠ s.nwrite := by
  have hrun : (exec pipeStep anyStep (Pipe.alloc Bool fun _ => 0)
      (.piperead false 1 :: List.replicate 6 (.step false) ++
        .pipewrite true (List.replicate 513 0) :: List.replicate 514 (.step true) ++
        [.kill true, .step true])).any
      (fun s => s.lock = none ∧ s.ptable = none ∧ s.chan false = some .nread ∧
        s.nread ≠ s.nwrite) = true := by
    decide +kernel
  obtain ⟨s, hr, hp⟩ := exists_reach_of_exec hrun
  exact ⟨s, hr, of_decide_eq_true hp⟩

end Xv6.Ref
