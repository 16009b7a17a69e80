import Xv6.Proofs.KernelInv

/-!
# `rtime`

`rtime` is brought up to date in one place, the accounting loop at the head of
a scheduler pass, which charges a RUNNING process for the ticks since its
`last_check`. Nothing brings it up to date where a process starts or stops
RUNNING: a process that gives up its CPU loses what it ran since the last pass
of any scheduler, and one that is dispatched in the middle of a pass is later
charged for ticks before its dispatch. `rtime_loses_ticks` is a process that
ran for a tick and exits with `rtime` 0.

What remains true is that the loop itself adds up. The ticks a process was
RUNNING, counted in `ran`, are `rtime` plus what is due since `last_check`; so
`rtime` is exact as long as nothing is due whenever a process starts or stops
RUNNING, and no tick falls between the two reads of `ticks` in the loop.
-/

namespace Xv6.Ref

open Xv6.Lib

variable {C : Nat} {flag : Char} {s s' : Kern C}

/-! ## How `ticks` and the count of them move -/

/-- Neither moves. -/
def ClockFrame (s s' : Kern C) : Prop := s'.ticks = s.ticks ∧ s'.ran = s.ran

theorem enterSched_clock {t : Kern C} {c : Fin C} {i : Slot} {pc : KPc}
    (h : enterSched t c i pc = some s') (ht : ClockFrame s t) : ClockFrame s s' := by
  obtain ⟨k, _, rfl⟩ := enterSched_some h
  exact ht

theorem waitScan_clock {c : Fin C} {i : Slot} (h : waitScan s c i = some s') :
    ClockFrame s s' := by
  simp only [waitScan] at h
  split at h
  · split at h
    · cases h; exact ⟨rfl, rfl⟩
    · cases h; exact ⟨rfl, rfl⟩
    · exact enterSched_clock h ⟨rfl, rfl⟩
  · cases h

/-- `allocproc` starts a new count. -/
theorem fork_clock {i : Slot} (h : fork s i = some s') :
    s'.ticks = s.ticks ∧ ∀ j, s'.ran j = s.ran j ∨
      (s'.proc j).state = .EMBRYO ∧ (s'.proc j).rtime = 0 ∧ s'.ran j = 0 := by
  simp only [fork] at h
  split at h
  · cases h
  · split at h <;> cases h
    · exact ⟨rfl, fun j => Or.inl rfl⟩
    · next np hf =>
        refine ⟨rfl, fun j => ?_⟩
        by_cases he : j = np
        · subst he
          exact Or.inr ⟨by simp [allocproc], by simp [allocproc], by simp⟩
        · exact Or.inl (Function.update_of_ne he _ _)

theorem kernStep_time {a : KAct C} (h : kernStep flag s a = some s') :
    (a = .tick ∧ s' = tick s) ∨
      s'.ticks = s.ticks ∧ ∀ j, s'.ran j = s.ran j ∨
        (s'.proc j).state = .EMBRYO ∧ (s'.proc j).rtime = 0 ∧ s'.ran j = 0 := by
  have hkeep : ClockFrame s s' → s'.ticks = s.ticks ∧ ∀ j, s'.ran j = s.ran j ∨
      (s'.proc j).state = .EMBRYO ∧ (s'.proc j).rtime = 0 ∧ s'.ran j = 0 :=
    fun hc => ⟨hc.1, fun j => Or.inl (congrFun hc.2 j)⟩
  cases a <;> simp only [kernStep] at h
  case tick => cases h; exact Or.inl ⟨rfl, rfl⟩
  all_goals refine Or.inr ?_
  case fork c =>
      obtain ⟨i, _, _, _, h⟩ := onCpu_some.mp h
      exact fork_clock (locked_some.mp h).2
  all_goals refine hkeep ?_
  case wakeup a => cases (locked_some.mp h).2; exact ⟨rfl, rfl⟩
  case kill pid => cases (locked_some.mp h).2; exact ⟨rfl, rfl⟩
  case schedLock c =>
      split at h
      · cases (locked_some.mp h).2; exact ⟨rfl, rfl⟩
      · cases h
  case schedAcct c =>
      replace h := (holding_some.mp h).2
      simp only [schedAcct] at h
      split at h
      · split at h <;> cases h <;> exact ⟨rfl, rfl⟩
      · cases h; exact ⟨rfl, rfl⟩
      · cases h
  case schedGo c =>
      rcases schedGo_some (holding_some.mp h).2 with ⟨_, rfl⟩ | ⟨p, k, _, rfl⟩ <;>
        exact ⟨rfl, rfl⟩
  all_goals obtain ⟨i, k, _, _, h⟩ := onCpu_some.mp h
  case release c =>
      replace h := (holding_some.mp h).2
      simp only [release] at h
      split at h <;> cases h <;> exact ⟨rfl, rfl⟩
  case timer c =>
      split at h
      · exact enterSched_clock (locked_some.mp h).2 ⟨rfl, rfl⟩
      · cases h
  case setpriority c n =>
      simp only [setpriority] at h
      split_ifs at h <;> cases h <;> exact ⟨rfl, rfl⟩
  case yield c =>
      split at h
      · exact enterSched_clock (locked_some.mp h).2 ⟨rfl, rfl⟩
      · cases h
  case sleep c a =>
      split at h
      · exact enterSched_clock (locked_some.mp h).2 ⟨rfl, rfl⟩
      · cases h
  case exit c =>
      replace h := (locked_some.mp h).2
      simp only [exit] at h
      split at h
      · cases h
      · exact enterSched_clock h ⟨rfl, rfl⟩
  case forkAlloc c =>
      replace h := (holding_some.mp h).2
      simp only [forkAlloc] at h
      split at h <;> cases h
      exact ⟨rfl, rfl⟩
  case forkKalloc c ok =>
      simp only [forkKalloc] at h
      split at h
      · split at h <;> cases h <;> exact ⟨rfl, rfl⟩
      · cases h
  case forkCopy c ok =>
      simp only [forkCopy] at h
      split at h
      · split at h <;> cases h <;> exact ⟨rfl, rfl⟩
      · cases h
  case forkPublish c =>
      replace h := (locked_some.mp h).2
      simp only [forkPublish] at h
      split at h <;> cases h
      exact ⟨rfl, rfl⟩
  case waitCall c x =>
      replace h := (locked_some.mp h).2
      simp only [waitCall] at h
      split at h <;> cases h
      exact ⟨rfl, rfl⟩
  case waitScan c => exact waitScan_clock (holding_some.mp h).2
  case waitxRead c =>
      simp only [waitxRead] at h
      split at h <;> cases h <;> exact ⟨rfl, rfl⟩
  case waitxDone c =>
      simp only [waitxDone] at h
      split at h <;> cases h
      exact ⟨rfl, rfl⟩

/-! ## The accounting adds up -/

/-- The value of `ticks` the first statement of the accounting loop has read,
while the second is still to come. -/
def SchedPc.read : SchedPc → Option Ticks
  | .acct' _ r => some r
  | _ => none

/-- Nothing is due where it would be lost: a process that starts or stops
RUNNING was accounted for at this tick, and the accounting loop reads the same
value of `ticks` in both of its statements. -/
def acctExact (flag : Char) (s : Kern C) (a : KAct C) : Prop :=
  (a.switches = true → ∀ s' ∈ kernStep flag s a, ∀ j,
    ((s.proc j).state = .RUNNING ↔ (s'.proc j).state = .RUNNING) ∨
      (s.proc j).lastCheck = s.ticks) ∧
  ∀ c, a = .schedAcct c → (s.sched c).read.getD s.ticks = s.ticks

instance (s : Kern C) (a : KAct C) : Decidable (acctExact flag s a) :=
  inferInstanceAs (Decidable (_ ∧ _))

theorem acctExact_running {a : KAct C} (hok : acctExact flag s a)
    (ha : a.switches = true) (h : kernStep flag s a = some s') {j : Slot}
    (hch : ¬ ((s.proc j).state = .RUNNING ↔ (s'.proc j).state = .RUNNING)) :
    (s.proc j).lastCheck = s.ticks :=
  (hok.1 ha s' h j).resolve_left hch

theorem acctExact_read {c : Fin C} {i : Slot} {r : Ticks}
    (hok : acctExact flag s (.schedAcct c)) (hc : s.sched c = .acct' i r) :
    r = s.ticks := by
  have := hok.2 c rfl
  rwa [hc] at this

/-- `rtime`, with what is due, is the number of ticks the process was RUNNING.
Between the two statements of the accounting loop the ticks up to the first
one's reading are no longer due. -/
structure RunInv (s : Kern C) : Prop where
  idle : ∀ j, (s.proc j).state ≠ .RUNNING → (s.proc j).state ≠ .UNUSED →
    (s.proc j).rtime = BitVec.ofNat 32 (s.ran j)
  running : ∀ j, (s.proc j).state = .RUNNING → (∀ c r, s.sched c ≠ .acct' j r) →
    (s.proc j).rtime + (s.ticks - (s.proc j).lastCheck) = BitVec.ofNat 32 (s.ran j)
  charged : ∀ c j r, s.sched c = .acct' j r →
    (s.proc j).rtime + (s.ticks - r) = BitVec.ofNat 32 (s.ran j)

theorem runInv_boot (C : Nat) : RunInv (Kern.boot C) where
  idle := by
    intro j _ _
    simp only [Kern.boot, Function.update_apply]
    split <;> rfl
  running := by
    intro j hj
    simp only [Kern.boot, Function.update_apply] at hj
    split at hj <;> cases hj
  charged := fun c j r h => nomatch h

theorem due_tick {rt tk lc : Ticks} {n : Nat} (h : rt + (tk - lc) = BitVec.ofNat 32 n) :
    rt + (tk + 1 - lc) = BitVec.ofNat 32 (n + 1) := by
  rw [BitVec.ofNat_add, ← h]
  bv_omega

theorem not_due {rt tk lc : Ticks} {n : Nat} (h : rt + (tk - lc) = BitVec.ofNat 32 n)
    (he : lc = tk) : rt = BitVec.ofNat 32 n := by
  rw [he, BitVec.sub_self, BitVec.add_zero] at h
  exact h

theorem runInv_tick (hk : KInv s) (hi : RunInv s) : RunInv (tick s) where
  idle := by
    intro j hr hu
    change (s.proc j).state ≠ .RUNNING at hr
    simp only [tick]
    rw [if_neg hr]
    exact hi.idle j hr hu
  running := by
    intro j hr hc
    change (s.proc j).state = .RUNNING at hr
    simp only [tick]
    rw [if_pos hr]
    exact due_tick (hi.running j hr hc)
  charged := by
    intro c j r hc
    simp only [tick]
    rw [if_pos (hk.charged c j r hc)]
    exact due_tick (hi.charged c j r hc)

theorem idle_step {a : KAct C} (hk : KInv s) (hi : RunInv s)
    (hok : acctExact flag s a) (h : kernStep flag s a = some s') {j : Slot}
    (hran : s'.ran j = s.ran j) (hnr : (s'.proc j).state ≠ .RUNNING)
    (hnu : (s'.proc j).state ≠ .UNUSED) :
    (s'.proc j).rtime = BitVec.ofNat 32 (s'.ran j) := by
  rw [hran]
  have hsame : (s'.proc j).state = (s.proc j).state →
      (s'.proc j).rtime = (s.proc j).rtime →
      (s'.proc j).rtime = BitVec.ofNat 32 (s.ran j) := by
    intro hst hrt
    rw [hrt]
    exact hi.idle j (hst ▸ hnr) (hst ▸ hnu)
  cases kernStep_table h j with
  | woken hw =>
      rcases hw.2 with hst | ⟨hst, _⟩
      · exact hsame hst hw.1.2.1
      · rw [hw.1.2.1]
        exact hi.idle j (by rw [hst]; nofun) (by rw [hst]; nofun)
  | priority n bounds h => exact hsame (by rw [h]) (by rw [h])
  | charge c act at' next running h =>
      rw [h] at hnr
      exact absurd running hnr
  | check c act at' next h => exact hsame (by rw [h]) (by rw [h])
  | run c k act pick h =>
      rw [h] at hnr
      exact absurd rfl hnr
  | leave c k act on away free back times next =>
      -- Nothing is due when a process leaves its CPU.
      have hrun := hk.running c j ⟨on, k, away⟩
      have hdue := hi.running j hrun fun d r hd => by
        have := hk.lock_free free d
        rw [hd] at this
        cases this
      rw [times.2.1]
      exact not_due hdue
        (acctExact_running hok act h fun hiff => hnr (hiff.mp hrun))
  | alloc c act unused found ran h =>
      rw [h, ← hran, ran]
      rfl
  | alloc' i at' h => exact hsame (by rw [h]; rfl) (by rw [h]; rfl)
  | freed i at' next h =>
      rw [h] at hnu
      exact absurd rfl hnu
  | publish i at' next h =>
      have hst := hk.embryo i j (by rw [at']; rfl)
      rw [h]
      exact hi.idle j (by rw [hst]; nofun) (by rw [hst]; nofun)
  | reap zombie h =>
      rw [h] at hnu
      exact absurd rfl hnu

theorem running_due_step {a : KAct C} (hk : KInv s) (hi : RunInv s)
    (hok : acctExact flag s a) (h : kernStep flag s a = some s') {j : Slot}
    (htk : s'.ticks = s.ticks) (hran : s'.ran j = s.ran j)
    (hrun : (s'.proc j).state = .RUNNING) (hnc : ∀ c r, s'.sched c ≠ .acct' j r) :
    (s'.proc j).rtime + (s'.ticks - (s'.proc j).lastCheck) =
      BitVec.ofNat 32 (s'.ran j) := by
  rw [hran, htk]
  by_cases hleft : ∃ c r, s.sched c = .acct' j r
  · -- A scheduler has just made the second statement for this slot.
    obtain ⟨c, r, hc⟩ := hleft
    rcases charged_next h hc with hc' | ⟨rfl, hp⟩
    · exact absurd hc' (hnc c r)
    · have hdue := hi.charged c j r hc
      rw [acctExact_read hok hc] at hdue
      rw [hp]
      exact hdue
  have hdue : (s.proc j).state = .RUNNING → (s'.proc j).rtime = (s.proc j).rtime →
      (s'.proc j).lastCheck = (s.proc j).lastCheck →
      (s'.proc j).rtime + (s.ticks - (s'.proc j).lastCheck) =
        BitVec.ofNat 32 (s.ran j) := by
    intro hst hrt hlc
    rw [hrt, hlc]
    exact hi.running j hst fun c r hc => hleft ⟨c, r, hc⟩
  cases kernStep_table h j with
  | woken hw =>
      rcases hw.2 with hst | ⟨_, hst⟩
      · exact hdue (hst ▸ hrun) hw.1.2.1 hw.1.2.2.1
      · rw [hrun] at hst; cases hst
  | priority n bounds h =>
      rw [h] at hrun
      exact hdue hrun (by rw [h]) (by rw [h])
  | charge c act at' next running h => exact absurd next (hnc c _)
  | check c act at' next h =>
      rw [h] at hrun
      rcases at' with ⟨_, hnr⟩ | ⟨r, hc⟩
      · exact absurd hrun hnr
      · exact absurd ⟨c, r, hc⟩ hleft
  | run c k act pick hp =>
      -- Nothing is due when a process is dispatched.
      have hst := schedNext_runnable pick
      have hidle := hi.idle j (by rw [hst]; nofun) (by rw [hst]; nofun)
      have hlc := acctExact_running hok (by rw [act]; rfl) h fun hiff => by
        have := hiff.mpr hrun
        rw [hst] at this
        cases this
      rw [hp]
      show (s.proc j).rtime + (s.ticks - (s.proc j).lastCheck) = _
      rw [hlc, BitVec.sub_self, BitVec.add_zero]
      exact hidle
  | leave c k act on away free back times next =>
      rcases next with hst | hst | ⟨_, hst⟩ <;> rw [hrun] at hst <;> cases hst
  | alloc c act unused found ran h => rw [h] at hrun; cases hrun
  | alloc' i at' h =>
      have hst := hk.embryo i j (by rw [at']; rfl)
      rw [h] at hrun
      exact absurd (hst.symm.trans hrun) nofun
  | freed i at' next h => rw [h] at hrun; cases hrun
  | publish i at' next h => rw [h] at hrun; cases hrun
  | reap zombie h => rw [h] at hrun; cases hrun

theorem charged_due_step {a : KAct C} (hk : KInv s) (hi : RunInv s)
    (h : kernStep flag s a = some s') {c : Fin C} {j : Slot} {r : Ticks}
    (htk : s'.ticks = s.ticks) (hran : s'.ran j = s.ran j)
    (hc : s'.sched c = .acct' j r) :
    (s'.proc j).rtime + (s'.ticks - r) = BitVec.ofNat 32 (s'.ran j) := by
  rw [hran, htk]
  rcases charged_step h hc with hold | ⟨rfl, hat, rfl, hrun, hp⟩
  · have hrun := hk.charged c j r hold
    have hlock := hk.holds c (by rw [hold]; rfl)
    have hsame : (s'.proc j).rtime = (s.proc j).rtime := by
      cases kernStep_table h j with
      | woken hw => exact hw.1.2.1
      | priority n bounds h => rw [h]
      | charge d act at' next running h =>
          have := hk.one_pass hlock (by rw [at']; rfl : (s.sched d).inPass = true)
          rw [this, hold] at at'
          cases at'
      | check d act at' next h => rw [h]
      | run d k act pick h => rw [h]
      | leave d k act on away free back times next => exact times.2.1
      | alloc d act unused found ran h => rw [hrun] at unused; cases unused
      | alloc' i at' h => rw [h]; rfl
      | freed i at' next h => rw [h]
      | publish i at' next h => rw [h]
      | reap zombie h => rw [h]; rfl
    rw [hsame]
    exact hi.charged c j r hold
  · -- The first statement: what was due becomes part of `rtime`.
    have hlock := hk.holds c (by rw [hat]; rfl)
    have hdue := hi.running j hrun fun d r' hd => by
      have := hk.one_pass hlock (by rw [hd]; rfl : (s.sched d).inPass = true)
      rw [this, hat] at hd
      cases hd
    rw [hp, BitVec.sub_self, BitVec.add_zero]
    exact hdue

theorem runInv_step {a : KAct C} (hk : KInv s) (hi : RunInv s)
    (hok : acctExact flag s a) (h : kernStep flag s a = some s') : RunInv s' := by
  rcases kernStep_time h with ⟨_, rfl⟩ | ⟨htk, hran⟩
  · exact runInv_tick hk hi
  have hk' := kinv_step hk h
  refine ⟨fun j hnr hnu => ?_, fun j hrun hnc => ?_, fun c j r hc => ?_⟩
  · rcases hran j with hj | ⟨_, hrt, hj⟩
    · exact idle_step hk hi hok h hj hnr hnu
    · rw [hrt, hj]; rfl
  · rcases hran j with hj | ⟨hst, _⟩
    · exact running_due_step hk hi hok h htk hj hrun hnc
    · rw [hst] at hrun; cases hrun
  · rcases hran j with hj | ⟨hst, _⟩
    · exact charged_due_step hk hi h htk hj hc
    · have := hk'.charged c j r hc
      rw [hst] at this
      cases this

/-- In a run in which nothing is due where it would be lost, the `rtime` of a
ZOMBIE is the number of ticks it was RUNNING. -/
theorem rtime_exact {p : Slot}
    (hr : Reach (kernStep flag) (acctExact flag) (Kern.boot C) s)
    (hp : (s.proc p).state = .ZOMBIE) :
    (s.proc p).rtime = BitVec.ofNat 32 (s.ran p) := by
  have hi : KInv s ∧ RunInv s :=
    hr.invariant (I := fun s => KInv s ∧ RunInv s) ⟨kinv_boot C, runInv_boot C⟩
      fun _ _ _ hi hok hs => ⟨kinv_step hi.1 hs, runInv_step hi.1 hi.2 hok hs⟩
  exact hi.2.idle p (by rw [hp]; nofun) (by rw [hp]; nofun)

/-- `init` forks a child and sleeps; the child runs for a tick, a pass of the
other CPU accounts for it, and it exits within that tick. -/
def accountedExit : List (KAct 2) :=
  acctOf 0 0 ++ [.schedGo 0, .release 0] ++ forkOf 0 ++
    [.sleep 0 5, .schedGo 0, .release 0, .tick] ++ acctOf 1 1 ++ [.schedGo 1, .exit 0]

theorem rtime_exact_accounted :
    ∃ s : Kern 2, Reach (kernStep 'R') (acctExact 'R') (Kern.boot 2) s ∧
      (s.proc 1).state = .ZOMBIE ∧ s.ran 1 = 1 ∧
      (s.proc 1).rtime = BitVec.ofNat 32 (s.ran 1) := by
  have hrun : (exec (kernStep 'R') (acctExact 'R') (Kern.boot 2) accountedExit).any
      (fun s => decide ((s.proc 1).state = .ZOMBIE ∧ s.ran 1 = 1)) = true := by
    decide +kernel
  obtain ⟨s, hr, hp⟩ := exists_reach_of_exec hrun
  obtain ⟨hz, hran⟩ := of_decide_eq_true hp
  exact ⟨s, hr, hz, hran, rtime_exact hr hz⟩

/-- The same on one CPU: no scheduler runs between the tick and the exit. -/
def lostTick : List (KAct 1) :=
  acctOf 0 0 ++ [.schedGo 0, .release 0] ++ forkOf 0 ++
    [.sleep 0 5, .schedGo 0, .release 0, .tick, .exit 0]

/-- A process that was RUNNING for a tick exits with `rtime` 0. -/
theorem rtime_loses_ticks :
    ∃ s : Kern 1, Reach (kernStep 'R') anyStep (Kern.boot 1) s ∧
      (s.proc 1).state = .ZOMBIE ∧ s.ran 1 = 1 ∧ (s.proc 1).rtime = 0 := by
  have hrun : (exec (kernStep 'R') anyStep (Kern.boot 1) lostTick).any (fun s =>
      decide ((s.proc 1).state = .ZOMBIE ∧ s.ran 1 = 1 ∧ (s.proc 1).rtime = 0)) =
        true := by
    decide +kernel
  obtain ⟨s, hr, hp⟩ := exists_reach_of_exec hrun
  exact ⟨s, hr, of_decide_eq_true hp⟩

end Xv6.Ref
