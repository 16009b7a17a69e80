import Xv6.Proofs.RunTime
import Xv6.Proofs.Waitx

/-!
# The accounting never underflows

Every value the accounting subtracts was once read from `ticks`, and `ticks` only grows.
So `ctime + rtime` stays below `last_check`, and `last_check` below `ticks`, through every
pass of every scheduler; and `waitx`, which reads `ticks` last of all, subtracts from it
what was there before.

The bound is not one of every state. `allocproc` sets `ctime` and `last_check` in two
statements, and the accounting loop adds to `rtime` in one and moves `last_check` in the
next, so in between the two the bound does not hold (`accounting_between_statements`).
Both threads hold `ptable.lock` there. What holds in between is what makes the second
statement restore the bound: the slot of an `allocproc` has `rtime` 0, and the slot of the
accounting loop is within the value of `ticks` that the first statement read.
-/

namespace Xv6.Ref

open Xv6.Lib

variable {C : Nat} {flag : Char} {s s' : Kern C}

/-! ## The slot of an `allocproc` -/

/-- The slot whose `ctime` is set and whose `last_check` is not. -/
def KPc.allocating : KPc → Option Slot
  | .alloc np => some np
  | .yield k => k.allocating
  | _ => none

/-- A process between the two statements has not been preempted, because it holds the
lock. -/
def AllocLock (s : Kern C) : Prop :=
  ∀ i np, (s.kpc i).allocating = some np → s.kpc i = .alloc np ∧ s.lock = some (.proc i)

theorem AllocLock.none_of_lock (hi : AllocLock s) {i : Slot} (h : s.lock ≠ some (.proc i)) :
    (s.kpc i).allocating = none := by
  cases hk : (s.kpc i).allocating with
  | none => rfl
  | some np => exact absurd (hi i np hk).2 h

/-- How a step moves process `i` with respect to `allocproc`. -/
inductive AllocMove (s : Kern C) (a : KAct C) (s' : Kern C) (i : Slot) : Prop
  | stay (kpc : s'.kpc i = s.kpc i)
      (lock : s.lock = some (.proc i) → s'.lock = some (.proc i))
  | outside (before : (s.kpc i).allocating = none) (after : (s'.kpc i).allocating = none)
  | start (np : Slot) (before : (s.kpc i).allocating = none) (kpc : s'.kpc i = .alloc np)
      (lock : s'.lock = some (.proc i)) (h : s'.proc np = allocproc s.nextpid s.ticks (s.proc np))
  | finish (np : Slot) (at' : s.kpc i = .alloc np) (kpc : s'.kpc i = .kalloc np)
      (h : s'.proc np = allocproc' s.ticks (s.proc np))

/-- A step of process `k` that nobody else's hold on the lock can suffer from. -/
theorem AllocMove.of_actor {a : KAct C} {k i : Slot} {pc : KPc}
    (hk : s'.kpc = Function.update s.kpc k pc)
    (hlock : ∀ j, j ≠ k → s.lock = some (.proc j) → s'.lock = some (.proc j))
    (h : s'.kpc k = pc → AllocMove s a s' k) : AllocMove s a s' i := by
  by_cases he : i = k
  · subst he
    exact h (by rw [hk, Function.update_self])
  · exact .stay (by rw [hk, Function.update_of_ne he]) (hlock i he)

/-- A step of process `k`, with the lock free or its own, that leaves it outside. -/
theorem AllocMove.of_outside {a : KAct C} {k i : Slot} {pc : KPc}
    (hk : s'.kpc = Function.update s.kpc k pc)
    (hlock : ∀ j, j ≠ k → s.lock = some (.proc j) → s'.lock = some (.proc j))
    (before : (s.kpc k).allocating = none) (after : pc.allocating = none) :
    AllocMove s a s' i :=
  .of_actor hk hlock fun h => .outside before (by rw [h]; exact after)

theorem enterSched_alloc {a : KAct C} {t : Kern C} {c : Fin C} {k i : Slot} {pc : KPc}
    (h : enterSched t c k pc = some s') (ht : t.kpc = s.kpc)
    (hlock : ∀ j, j ≠ k → s.lock ≠ some (.proc j))
    (before : (s.kpc k).allocating = none) (after : pc.allocating = none) :
    AllocMove s a s' i := by
  obtain ⟨_, _, rfl⟩ := enterSched_some h
  exact .of_outside (by rw [← ht]; rfl) (fun j hj hl => absurd hl (hlock j hj)) before after

/-- A process that yielded was not allocating, so it does not come back to that. -/
theorem release_alloc {a : KAct C} (hi : AllocLock s) {k i : Slot} (h : release s k = some s')
    (hlock : ∀ j, j ≠ k → s.lock ≠ some (.proc j)) : AllocMove s a s' i := by
  have hother : ∀ j, j ≠ k → s.lock = some (.proc j) → s'.lock = some (.proc j) :=
    fun j hj hp => absurd hp (hlock j hj)
  simp only [release] at h
  split at h <;> cases h
  · next hk => exact .of_outside rfl hother (by rw [hk]; rfl) rfl
  · next pc hk =>
      have before : (s.kpc k).allocating = none := by
        cases hb : (s.kpc k).allocating with
        | none => rfl
        | some np =>
            have := (hi k np hb).1
            rw [hk] at this
            cases this
      refine .of_outside rfl hother before ?_
      rw [hk] at before
      exact before
  · next hk => exact .of_outside rfl hother (by rw [hk]; rfl) rfl
  · next x hk => exact .of_outside rfl hother (by rw [hk]; rfl) rfl

theorem waitScan_alloc {a : KAct C} {c : Fin C} {k i : Slot} (h : waitScan s c k = some s')
    (hlock : ∀ j, j ≠ k → s.lock ≠ some (.proc j)) : AllocMove s a s' i := by
  simp only [waitScan] at h
  split at h
  · next x hk =>
      have before : (s.kpc k).allocating = none := by rw [hk]; rfl
      split at h
      · cases h
        refine .of_outside rfl (fun j hj hl => absurd hl (hlock j hj)) before ?_
        split <;> rfl
      · cases h
        exact .of_outside rfl (fun j hj hl => absurd hl (hlock j hj)) before rfl
      · exact enterSched_alloc h rfl hlock before rfl
  · cases h

theorem kernStep_alloc {a : KAct C} (hi : AllocLock s) (h : kernStep flag s a = some s')
    (i : Slot) : AllocMove s a s' i := by
  have hkeep : s'.kpc = s.kpc → (s.lock = some (.proc i) → s'.lock = some (.proc i)) →
      AllocMove s a s' i := fun hk hl => .stay (by rw [hk]) hl
  have hfree : s.lock = none → ∀ j, s.lock ≠ some (.proc j) := by
    intro hl j
    rw [hl]
    rintro ⟨⟩
  cases a <;> simp only [kernStep] at h
  case tick => cases h; exact hkeep rfl id
  case wakeup a => cases (locked_some.mp h).2; exact hkeep rfl id
  case kill pid => cases (locked_some.mp h).2; exact hkeep rfl id
  case schedLock c =>
      split at h
      · replace h := locked_some.mp h
        obtain ⟨hl, h⟩ := h
        cases h
        exact hkeep rfl fun hp => absurd hp (hfree hl i)
      · cases h
  case schedAcct c =>
      replace h := holding_some.mp h
      obtain ⟨hl, h⟩ := h
      simp only [schedAcct] at h
      split at h
      · split at h <;> cases h <;> exact hkeep rfl id
      · cases h; exact hkeep rfl id
      · cases h
  case schedGo c =>
      replace h := holding_some.mp h
      obtain ⟨hl, h⟩ := h
      have hcpu : s.lock ≠ some (.proc i) := by rw [hl]; rintro ⟨⟩
      rcases schedGo_some h with ⟨_, rfl⟩ | ⟨p, k, _, rfl⟩
      · exact hkeep rfl fun hp => absurd hp hcpu
      · exact hkeep rfl fun hp => absurd hp hcpu
  all_goals
    replace h := onCpu_some.mp h
    obtain ⟨k, r, hon, haway, h⟩ := h
  case release c =>
      replace h := holding_some.mp h
      obtain ⟨hl, h⟩ := h
      refine release_alloc hi h fun j hj hp => ?_
      rw [hl] at hp
      cases hp
      exact absurd rfl hj
  case timer c =>
      split at h
      · replace h := locked_some.mp h
        obtain ⟨hl, h⟩ := h
        have before := hi.none_of_lock (hfree hl k)
        exact enterSched_alloc h rfl (fun j _ => hfree hl j) before before
      · cases h
  case setpriority c n =>
      simp only [setpriority] at h
      split_ifs at h with hk <;> cases h
      · exact hkeep rfl id
      · exact .of_outside rfl (fun _ _ => id) (by rw [not_not.mp hk]; rfl) rfl
      · exact hkeep rfl id
  case yield c =>
      split at h
      · next hk =>
          replace h := locked_some.mp h
          obtain ⟨hl, h⟩ := h
          exact enterSched_alloc h rfl (fun j _ => hfree hl j) (by rw [hk]; rfl) rfl
      · cases h
  case sleep c a =>
      split at h
      · next hk =>
          replace h := locked_some.mp h
          obtain ⟨hl, h⟩ := h
          exact enterSched_alloc h rfl (fun j _ => hfree hl j) (by rw [hk]; rfl) rfl
      · cases h
  case exit c =>
      replace h := locked_some.mp h
      obtain ⟨hl, h⟩ := h
      simp only [exit] at h
      split at h
      · cases h
      · exact enterSched_alloc h rfl (fun j _ => hfree hl j) (hi.none_of_lock (hfree hl k)) rfl
  case fork c =>
      replace h := locked_some.mp h
      obtain ⟨hl, h⟩ := h
      simp only [fork] at h
      split at h
      · cases h
      · split at h <;> cases h
        · exact hkeep rfl id
        · next np hf =>
            refine .of_actor rfl (fun j _ hp => absurd hp (hfree hl j)) fun hk => ?_
            exact .start np (hi.none_of_lock (hfree hl k)) hk rfl (by simp)
  case forkAlloc c =>
      replace h := holding_some.mp h
      obtain ⟨hl, h⟩ := h
      simp only [forkAlloc] at h
      split at h <;> cases h
      next np hk =>
        refine .of_actor rfl (fun j hj hp => ?_) fun hk' => .finish np hk hk' (by simp)
        rw [hl] at hp
        cases hp
        exact absurd rfl hj
  case forkKalloc c ok =>
      simp only [forkKalloc] at h
      split at h
      · next np hk =>
          have before : (s.kpc k).allocating = none := by rw [hk]; rfl
          split at h <;> cases h <;> exact .of_outside rfl (fun _ _ => id) before rfl
      · cases h
  case forkCopy c ok =>
      simp only [forkCopy] at h
      split at h
      · next np hk =>
          have before : (s.kpc k).allocating = none := by rw [hk]; rfl
          split at h <;> cases h <;> exact .of_outside rfl (fun _ _ => id) before rfl
      · cases h
  case forkPublish c =>
      replace h := locked_some.mp h
      obtain ⟨hl, h⟩ := h
      have before := hi.none_of_lock (hfree hl i)
      simp only [forkPublish] at h
      split at h <;> cases h
      next np hk =>
        refine .outside before ?_
        simp only [setKpc_apply]
        split
        · rfl
        · split
          · rfl
          · exact before
  case waitCall c x =>
      replace h := locked_some.mp h
      obtain ⟨hl, h⟩ := h
      simp only [waitCall] at h
      split at h <;> cases h
      next hk =>
        exact .of_outside rfl (fun j _ hp => absurd hp (hfree hl j)) (by rw [hk]; rfl) rfl
  case waitScan c =>
      replace h := holding_some.mp h
      obtain ⟨hl, h⟩ := h
      refine waitScan_alloc h fun j hj hp => ?_
      rw [hl] at hp
      cases hp
      exact absurd rfl hj
  case waitxRead c =>
      simp only [waitxRead] at h
      split at h <;> cases h
      all_goals next hk => exact .of_outside rfl (fun _ _ => id) (by rw [hk]; rfl) rfl
  case waitxDone c =>
      simp only [waitxDone] at h
      split at h <;> cases h
      next hk => exact .of_outside rfl (fun _ _ => id) (by rw [hk]; rfl) rfl

theorem allocLock_boot (C : Nat) : AllocLock (Kern.boot C) := by
  intro i np h
  simp only [Kern.boot, Function.update_apply] at h
  split at h <;> cases h

theorem allocLock_step {a : KAct C} (hi : AllocLock s) (h : kernStep flag s a = some s') :
    AllocLock s' := by
  intro i np hnp
  cases kernStep_alloc hi h i with
  | stay kpc lock =>
      rw [kpc] at hnp ⊢
      obtain ⟨hk, hl⟩ := hi i np hnp
      exact ⟨hk, lock hl⟩
  | outside before after => rw [after] at hnp; cases hnp
  | start np' before kpc lock hp =>
      rw [kpc] at hnp ⊢
      cases hnp
      exact ⟨rfl, lock⟩
  | finish np' at' kpc hp => rw [kpc] at hnp; cases hnp

/-- An `allocproc` that finds a slot is between its two statements. -/
theorem fork_allocating {c : Fin C} {np : Slot} (h : kernStep flag s (.fork c) = some s')
    (found : findUnused s.proc = some np) : ∃ i, s'.kpc i = .alloc np := by
  obtain ⟨i, _, _, _, hf⟩ := onCpu_some.mp h
  replace hf := (locked_some.mp hf).2
  simp only [fork, found] at hf
  split at hf
  · cases hf
  · cases hf
    exact ⟨i, by simp⟩

/-! ## The bound -/

/-- `ticks` does not wrap. -/
def noWrap (s : Kern C) (a : KAct C) : Prop := a = .tick → s.ticks.toNat + 1 < 2 ^ 32

instance (s : Kern C) (a : KAct C) : Decidable (noWrap s a) :=
  inferInstanceAs (Decidable (_ → _))

/-- The process was created, and has run, no later than at `t`. -/
def Proc.within (p : Proc) (t : Ticks) : Prop := p.ctime.toNat + p.rtime.toNat ≤ t.toNat

instance (p : Proc) (t : Ticks) : Decidable (p.within t) := Nat.decLe _ _

theorem Proc.within.mono {p : Proc} {t u : Ticks} (h : p.within t) (hle : t.toNat ≤ u.toNat) :
    p.within u := Nat.le_trans h hle

theorem Proc.within.of_eq {p q : Proc} {t : Ticks} (h : p.within t) (hc : q.ctime = p.ctime)
    (hr : q.rtime = p.rtime) : q.within t := by
  rw [Proc.within, hc, hr]
  exact h

/-- The first statement of the accounting loop. -/
theorem within_charge {p : Proc} {t : Ticks} (h : p.within p.lastCheck)
    (hle : p.lastCheck.toNat ≤ t.toNat) :
    Proc.within { p with rtime := p.rtime + (t - p.lastCheck) } t := by
  rw [Proc.within] at h ⊢
  dsimp only
  bv_omega

structure AcctInv (s : Kern C) : Prop where
  check : ∀ j, (s.proc j).lastCheck.toNat ≤ s.ticks.toNat
  charged : ∀ c j r, s.sched c = .acct' j r → r.toNat ≤ s.ticks.toNat ∧ (s.proc j).within r
  alloc : ∀ i j, s.kpc i = .alloc j → (s.proc j).within s.ticks
  spent : ∀ j, (s.proc j).state ≠ .UNUSED → (∀ c r, s.sched c ≠ .acct' j r) →
    (∀ i, s.kpc i ≠ .alloc j) → (s.proc j).within (s.proc j).lastCheck

theorem acctInv_boot (C : Nat) : AcctInv (Kern.boot C) where
  check := by
    intro j
    simp only [Kern.boot, Function.update_apply]
    split <;> exact Nat.le_refl _
  charged := fun c j r h => nomatch h
  alloc := by
    intro i j h
    simp only [Kern.boot, Function.update_apply] at h
    split at h <;> cases h
  spent := by
    intro j _ _ _
    simp only [Kern.boot, Function.update_apply]
    split <;> exact Nat.le_refl _

theorem acctInv_tick (hok : noWrap s .tick) (hi : AcctInv s) : AcctInv (tick s) := by
  have hlt := hok rfl
  have hle : s.ticks.toNat ≤ (s.ticks + 1).toNat := by bv_omega
  refine ⟨fun j => ?_, fun c j r hc => ?_, fun i j hj => ?_, hi.spent⟩
  · exact Nat.le_trans (hi.check j) hle
  · obtain ⟨hr, hw⟩ := hi.charged c j r hc
    exact ⟨Nat.le_trans hr hle, hw⟩
  · exact (hi.alloc i j hj).mono hle

theorem check_step {a : KAct C} (hi : AcctInv s) (h : kernStep flag s a = some s') (j : Slot) :
    (s'.proc j).lastCheck.toNat ≤ s.ticks.toNat := by
  have hold := hi.check j
  cases kernStep_table h j with
  | woken hw => rw [hw.1.2.2.1]; exact hold
  | priority n bounds h => rw [h]; exact hold
  | charge c act at' next running h => rw [h]; exact hold
  | check c act at' next h => rw [h]
  | run c k act pick h => rw [h]; exact hold
  | leave c k act on away free back times next => rw [times.2.2.1]; exact hold
  | alloc c act unused found ran h => rw [h]; exact hold
  | alloc' i at' h => rw [h]; exact Nat.le_refl _
  | freed i at' next h => rw [h]; exact hold
  | publish i at' next h => rw [h]; exact hold
  | reap zombie h => rw [h]; exact hold

/-- Only `allocproc` and the first statement of the accounting loop move `ctime` and
`rtime`. -/
theorem within_step {a : KAct C} (h : kernStep flag s a = some s') {j : Slot} {t : Ticks}
    (hw : (s.proc j).within t) (hu : (s.proc j).state ≠ .UNUSED)
    (hc : ∀ c, s.sched c = .acct j → (s.proc j).state ≠ .RUNNING) : (s'.proc j).within t := by
  cases kernStep_table h j with
  | woken hk => exact hw.of_eq hk.1.1 hk.1.2.1
  | priority n bounds h => rw [h]; exact hw
  | charge c act at' next running h => exact absurd running (hc c at')
  | check c act at' next h => rw [h]; exact hw
  | run c k act pick h => rw [h]; exact hw
  | leave c k act on away free back times next => exact hw.of_eq times.1 times.2.1
  | alloc c act unused found ran h => exact absurd unused hu
  | alloc' i at' h => rw [h]; exact hw
  | freed i at' next h => rw [h]; exact hw
  | publish i at' next h => rw [h]; exact hw
  | reap zombie h => rw [h]; exact hw

theorem charged_within_step {a : KAct C} (hk : KInv s) (hi : AcctInv s)
    (h : kernStep flag s a = some s') {c : Fin C} {j : Slot} {r : Ticks}
    (hc : s'.sched c = .acct' j r) : r.toNat ≤ s.ticks.toNat ∧ (s'.proc j).within r := by
  rcases charged_step h hc with hold | ⟨rfl, hat, rfl, hrun, hp⟩
  · obtain ⟨hr, hw⟩ := hi.charged c j r hold
    have hlock := hk.holds c (by rw [hold]; rfl)
    have hrun := hk.charged c j r hold
    refine ⟨hr, within_step h hw (by rw [hrun]; nofun) fun d hd => ?_⟩
    -- No other scheduler is in its accounting loop.
    have := hk.one_pass hlock (by rw [hd]; rfl : (s.sched d).inPass = true)
    rw [this, hold] at hd
    cases hd
  · have hlock := hk.holds c (by rw [hat]; rfl)
    have hspent := hi.spent j (by rw [hrun]; nofun)
      (fun d r' hd => by
        have := hk.one_pass hlock (by rw [hd]; rfl : (s.sched d).inPass = true)
        rw [this, hat] at hd
        cases hd)
      (fun i hi' => by
        have := hk.embryo i j (by rw [hi']; rfl)
        rw [hrun] at this
        cases this)
    refine ⟨Nat.le_refl _, ?_⟩
    rw [hp]
    exact within_charge hspent (hi.check j)

theorem alloc_within_step {a : KAct C} (hk : KInv s) (ha : AllocLock s) (hi : AcctInv s)
    (h : kernStep flag s a = some s') {i j : Slot} (hj : s'.kpc i = .alloc j) :
    (s'.proc j).within s.ticks := by
  cases kernStep_alloc ha h i with
  | stay kpc lock =>
      have hs := kpc.symm.trans hj
      have hem := hk.embryo i j (by rw [hs]; rfl)
      exact within_step h (hi.alloc i j hs) (by rw [hem]; nofun) fun _ _ => by rw [hem]; nofun
  | outside before after => rw [hj] at after; cases after
  | start np before kpc lock hp =>
      rw [hj] at kpc
      cases kpc
      rw [hp]
      exact Nat.le_refl _
  | finish np at' kpc hp => rw [hj] at kpc; cases kpc

theorem spent_step {a : KAct C} (hk : KInv s) (ha : AllocLock s) (hi : AcctInv s)
    (h : kernStep flag s a = some s') {j : Slot} (hu : (s'.proc j).state ≠ .UNUSED)
    (hc : ∀ c r, s'.sched c ≠ .acct' j r) (hp : ∀ i, s'.kpc i ≠ .alloc j) :
    (s'.proc j).within (s'.proc j).lastCheck := by
  by_cases hcharged : ∃ c r, s.sched c = .acct' j r
  · -- The second statement of the accounting loop has just been made.
    obtain ⟨c, r, hs⟩ := hcharged
    obtain ⟨hr, hw⟩ := hi.charged c j r hs
    rcases charged_next h hs with hs' | ⟨_, hj⟩
    · exact absurd hs' (hc c r)
    · rw [hj]
      exact hw.mono hr
  by_cases halloc : ∃ i, s.kpc i = .alloc j
  · -- So has the second statement of `allocproc`.
    obtain ⟨i, hs⟩ := halloc
    cases kernStep_alloc ha h i with
    | stay kpc lock => exact absurd (kpc.trans hs) (hp i)
    | outside before after => rw [hs] at before; cases before
    | start np before kpc lock hj => rw [hs] at before; cases before
    | finish np at' kpc hj =>
        obtain rfl : np = j := KPc.alloc.inj (at'.symm.trans hs)
        rw [hj]
        exact hi.alloc i np hs
  have hold : (s.proc j).state ≠ .UNUSED → (s.proc j).within (s.proc j).lastCheck :=
    fun hs => hi.spent j hs (fun c r hs' => hcharged ⟨c, r, hs'⟩) fun i hs' => halloc ⟨i, hs'⟩
  cases kernStep_table h j with
  | woken hw =>
      rw [hw.1.2.2.1]
      refine (hold fun hs => ?_).of_eq hw.1.1 hw.1.2.1
      rcases hw.2 with he | ⟨he, _⟩
      · exact hu (he.trans hs)
      · rw [hs] at he; cases he
  | priority n bounds h => rw [h] at hu ⊢; exact hold hu
  | charge c act at' next running h => exact absurd next (hc c _)
  | check c act at' next h =>
      rw [h] at hu ⊢
      exact (hold hu).mono (hi.check j)
  | run c k act pick h =>
      rw [h]
      exact hold (by rw [schedNext_runnable pick]; nofun)
  | leave c k act on away free back times next =>
      rw [times.2.2.1]
      refine (hold ?_).of_eq times.1 times.2.1
      rw [hk.running c j ⟨on, k, away⟩]
      nofun
  | alloc c act unused found ran hj =>
      subst act
      obtain ⟨i, hi'⟩ := fork_allocating h found
      exact absurd hi' (hp i)
  | alloc' i at' h => exact absurd ⟨i, at'⟩ halloc
  | freed i at' next h => rw [h] at hu; exact absurd rfl hu
  | publish i at' next h =>
      rw [h]
      exact hold (by rw [hk.embryo i j (by rw [at']; rfl)]; nofun)
  | reap zombie h => rw [h] at hu; exact absurd rfl hu

theorem acctInv_step {a : KAct C} (hk : KInv s) (ha : AllocLock s) (hi : AcctInv s)
    (hok : noWrap s a) (h : kernStep flag s a = some s') : AcctInv s' := by
  rcases kernStep_time h with ⟨rfl, rfl⟩ | ⟨htk, _⟩
  · exact acctInv_tick hok hi
  refine ⟨fun j => ?_, fun c j r hc => ?_, fun i j hj => ?_, fun j hu hc hp => ?_⟩
  · rw [htk]
    exact check_step hi h j
  · rw [htk]
    exact charged_within_step hk hi h hc
  · rw [htk]
    exact alloc_within_step hk ha hi h hj
  · exact spent_step hk ha hi h hu hc hp

/-! ## What `waitx` subtracts -/

def Reaped.within (z : Reaped) (t : Ticks) : Prop := z.ctime.toNat + z.rtime.toNat ≤ t.toNat

/-- A child that was reaped had run within the ticks there have been, and within those
`waitx` has read. -/
def ReapedWithin (s : Kern C) : Prop :=
  ∀ i z, (s.kpc i).reaped = some z →
    z.within s.ticks ∧ ∀ t, (s.kpc i).ticksRead = some t → z.within t

theorem zombie_within (hk : KInv s) (hi : AcctInv s) {j : Slot}
    (hz : (s.proc j).state = .ZOMBIE) : (s.proc j).within s.ticks := by
  refine (hi.spent j (by rw [hz]; nofun) (fun c r hc => ?_) fun i hp => ?_).mono (hi.check j)
  · have := hk.charged c j r hc
    rw [hz] at this
    cases this
  · have := hk.embryo i j (by rw [hp]; rfl)
    rw [hz] at this
    cases this

theorem ticks_mono {a : KAct C} (hok : noWrap s a) (h : kernStep flag s a = some s') :
    s.ticks.toNat ≤ s'.ticks.toNat := by
  rcases kernStep_time h with ⟨rfl, rfl⟩ | ⟨htk, _⟩
  · have := hok rfl
    show s.ticks.toNat ≤ (s.ticks + 1).toNat
    bv_omega
  · rw [htk]

theorem reapedWithin_step {a : KAct C} (hk : KInv s) (hi : AcctInv s) (hz : ReapedWithin s)
    (hok : noWrap s a) (h : kernStep flag s a = some s') : ReapedWithin s' := by
  have hle := ticks_mono hok h
  have hkeep : ∀ i z, (s.kpc i).reaped = some z → z.within s'.ticks :=
    fun i z hiz => Nat.le_trans (hz i z hiz).1 hle
  intro i z hiz
  cases kernStep_waitx h i with
  | stay hpc => rw [hpc] at hiz ⊢; exact ⟨hkeep i z hiz, (hz i z hiz).2⟩
  | preempt hpc => rw [hpc] at hiz ⊢; exact ⟨hkeep i z hiz, (hz i z hiz).2⟩
  | back hpc =>
      have hiz' : (s.kpc i).reaped = some z := by rw [hpc]; exact hiz
      have hread := (hz i z hiz').2
      rw [hpc] at hread
      exact ⟨hkeep i z hiz', hread⟩
  | outside hpc => rw [hpc] at hiz; cases hiz
  | reap c z' act step hpc =>
      rw [hpc] at hiz ⊢
      cases hiz
      have hw := zombie_within hk hi step.zombie
      rw [Proc.within, ← step.rtime, ← step.ctime] at hw
      exact ⟨Nat.le_trans hw hle, by rintro _ ⟨⟩⟩
  | read hread =>
      simp only [waitxRead] at hread
      split at hread
      · next z' hpc =>
          cases hread
          simp only [setKpc_apply, if_true] at hiz ⊢
          cases hiz
          exact ⟨hkeep i z (by rw [hpc]; rfl), by rintro _ ⟨⟩⟩
      · next z' rt hpc =>
          cases hread
          simp only [setKpc_apply, if_true] at hiz ⊢
          cases hiz
          have hw := (hz i z (by rw [hpc]; rfl)).1
          exact ⟨hw, fun t ht => Option.some.inj ht ▸ hw⟩
      · next z' rt tk hpc =>
          cases hread
          simp only [setKpc_apply, if_true] at hiz ⊢
          cases hiz
          have hw := (hz i z (by rw [hpc]; rfl)).2
          rw [hpc] at hw
          exact ⟨hkeep i z (by rw [hpc]; rfl), hw⟩
      · next z' rt tk ct hpc =>
          cases hread
          simp only [setKpc_apply, if_true] at hiz ⊢
          cases hiz
          have hw := (hz i z (by rw [hpc]; rfl)).2
          rw [hpc] at hw
          exact ⟨hkeep i z (by rw [hpc]; rfl), hw⟩
      · cases hread

/-! ## Runs -/

/-- Everything that a step with `noWrap` keeps. -/
structure Accounted (s : Kern C) : Prop where
  kinv : KInv s
  lock : AllocLock s
  acct : AcctInv s
  reaped : ReapedWithin s

theorem accounted_step {a : KAct C} (hi : Accounted s) (hok : noWrap s a)
    (h : kernStep flag s a = some s') : Accounted s' :=
  ⟨kinv_step hi.kinv h, allocLock_step hi.lock h, acctInv_step hi.kinv hi.lock hi.acct hok h,
    reapedWithin_step hi.kinv hi.acct hi.reaped hok h⟩

theorem accounted_reach (hr : Reach (kernStep flag) noWrap (Kern.boot C) s) : Accounted s :=
  hr.invariant (I := Accounted)
    ⟨kinv_boot C, allocLock_boot C, acctInv_boot C,
      fun i z h => by rw [boot_outside C i] at h; cases h⟩
    fun _ _ _ hi hok hs => accounted_step hi hok hs

/-- The bounds for one process. -/
def Proc.accounted (p : Proc) (ticks : Ticks) : Prop :=
  p.ctime ≤ p.lastCheck ∧ p.lastCheck ≤ ticks ∧ p.rtime ≤ p.lastCheck - p.ctime

instance (p : Proc) (t : Ticks) : Decidable (p.accounted t) :=
  inferInstanceAs (Decidable (_ ∧ _))

theorem accounted_of_within {p : Proc} {t : Ticks} (hw : p.within p.lastCheck)
    (hle : p.lastCheck.toNat ≤ t.toNat) : p.accounted t := by
  rw [Proc.within] at hw
  refine ⟨?_, ?_, ?_⟩ <;> bv_omega

/-- In every state of a run in which `ticks` does not wrap, a process that is not UNUSED
satisfies the bounds, unless the thread that holds `ptable.lock` is between two assignments
to its times. And what a `waitx` stores in `*wtime`, for a child whose slot nobody takes
before it has been read, is the difference without a borrow. -/
theorem accounting_bounds (hr : Reach (kernStep flag) noWrap (Kern.boot C) s) :
    (∀ j, (s.proc j).state ≠ .UNUSED →
      (s.proc j).accounted s.ticks ∨
      (∃ i, s.kpc i = .alloc j ∧ s.lock = some (.proc i)) ∨
      ∃ c r, s.sched c = .acct' j r ∧ s.lock = some (.cpu c)) ∧
    ∀ i z a s₁ s₂ rtime wtime read, kernStep flag s a = some s₁ →
      (s.kpc i).reaped = none → s₁.kpc i = .waitx1 z → noWrap s a →
      Reach (kernStep flag) (fun s a => noWrap s a ∧ slotKeptFor i s a) s₁ s₂ →
      s₂.kpc i = .waitxRet z rtime wtime read →
      (s.proc z.slot).state = .ZOMBIE ∧
        wtime.toNat + (s.proc z.slot).rtime.toNat + (s.proc z.slot).ctime.toNat =
          read.toNat := by
  have hacc := accounted_reach hr
  refine ⟨fun j hu => ?_, fun i z a s₁ s₂ rtime wtime read hs hout hreap hok hr₂ hret => ?_⟩
  · by_cases hcharged : ∃ c r, s.sched c = .acct' j r
    · obtain ⟨c, r, hc⟩ := hcharged
      exact Or.inr (Or.inr ⟨c, r, hc, hacc.kinv.holds c (by rw [hc]; rfl)⟩)
    by_cases halloc : ∃ i, s.kpc i = .alloc j
    · obtain ⟨i, hi⟩ := halloc
      exact Or.inr (Or.inl ⟨i, hi, (hacc.lock i j (by rw [hi]; rfl)).2⟩)
    · refine Or.inl (accounted_of_within ?_ (hacc.acct.check j))
      exact hacc.acct.spent j hu (fun c r hc => hcharged ⟨c, r, hc⟩) fun i hi => halloc ⟨i, hi⟩
  · have hstep : ReapStep i z s s₁ := by
      cases kernStep_waitx hs i with
      | stay hpc => rw [← hpc, hreap] at hout; cases hout
      | preempt hpc => rw [hreap] at hpc; cases hpc
      | back hpc => rw [hpc, hreap] at hout; cases hout
      | outside hpc => rw [hreap] at hpc; cases hpc
      | reap c z' act step hpc =>
          obtain rfl : z = z' := KPc.waitx1.inj (hreap.symm.trans hpc)
          exact step
      | read hread =>
          simp only [waitxRead] at hread
          split at hread <;> cases hread <;> simp at hreap
    have h₁ : Accounted s₁ ∧ ReadsRight s₁.proc (s₁.kpc i) := by
      refine ⟨accounted_step hacc hok hs, ?_⟩
      rw [hreap]
      exact hstep.kept
    have h₂ := hr₂.invariant (I := fun s => Accounted s ∧ ReadsRight s.proc (s.kpc i)) h₁
      fun _ _ _ hi hok hs =>
        ⟨accounted_step hi.1 hok.1 hs, readsRight_step hi.1.kinv hi.2 hok.2 hs⟩
    have hread := (h₂.1.reaped i z (by rw [hret]; rfl)).2 read (by rw [hret]; rfl)
    have hright := h₂.2
    rw [hret] at hright
    obtain ⟨hrt, hwt⟩ := hright
    refine ⟨hstep.zombie, ?_⟩
    rw [← hstep.rtime, ← hstep.ctime]
    rw [Reaped.within] at hread
    rw [hrt] at hwt
    bv_omega

/-- The child of `reapedChild`, whose `waitx` nobody interferes with. -/
theorem accounting_bounds_child :
    ∃ (s s₁ s₂ : Kern 2) (z : Reaped) (rtime wtime read : Ticks),
      Reach (kernStep 'R') noWrap (Kern.boot 2) s ∧
      kernStep 'R' s (.waitScan 0) = some s₁ ∧
      Reach (kernStep 'R') (fun s a => noWrap s a ∧ slotKeptFor 0 s a) s₁ s₂ ∧
      s₂.kpc 0 = .waitxRet z rtime wtime read ∧
      wtime.toNat + (s.proc z.slot).rtime.toNat + (s.proc z.slot).ctime.toNat =
        read.toNat := by
  have hrun : (exec (kernStep 'R') noWrap (Kern.boot 2) reapedChild.dropLast).any (fun s =>
      decide ((s.kpc 0).reaped = none) && (kernStep 'R' s (.waitScan 0)).any fun s₁ =>
        decide (s₁.kpc 0 = .waitx1 ⟨1, 2, 1, 0⟩) &&
        (exec (kernStep 'R') (fun s a => noWrap s a ∧ slotKeptFor 0 s a) s₁
          (List.replicate 4 (.waitxRead 0))).any fun s₂ =>
            s₂.kpc 0 = .waitxRet ⟨1, 2, 1, 0⟩ 1 0 1) = true := by
    decide +kernel
  obtain ⟨s, hr, hp⟩ := exists_reach_of_exec hrun
  obtain ⟨hout, hp⟩ := Bool.and_eq_true_iff.mp hp
  obtain ⟨s₁, hs, hp⟩ := (Option.any_eq_true _ _).mp hp
  obtain ⟨hreap, hp⟩ := Bool.and_eq_true_iff.mp hp
  obtain ⟨s₂, hr₂, hret⟩ := exists_reach_of_exec hp
  refine ⟨s, s₁, s₂, _, _, _, _, hr, hs, hr₂, of_decide_eq_true hret, ?_⟩
  exact ((accounting_bounds hr).2 0 _ _ s₁ s₂ _ _ _ hs (of_decide_eq_true hout)
    (of_decide_eq_true hreap) nofun hr₂ (of_decide_eq_true hret)).2

/-- `init` runs on CPU 0 when the tick comes. In one run CPU 1 has charged it for the tick
and not yet moved its `last_check`; in the other it is in the middle of an `allocproc`. -/
theorem accounting_between_statements :
    (∃ s : Kern 2, Reach (kernStep 'R') noWrap (Kern.boot 2) s ∧
      (s.proc 0).state = .RUNNING ∧ ¬ (s.proc 0).accounted s.ticks) ∧
    ∃ s : Kern 2, Reach (kernStep 'R') noWrap (Kern.boot 2) s ∧
      (s.proc 1).state = .EMBRYO ∧ ¬ (s.proc 1).accounted s.ticks := by
  have hcharge : (exec (kernStep 'R') noWrap (Kern.boot 2)
      (acctOf 0 0 ++ [.schedGo 0, .release 0, .tick, .schedLock 1, .schedAcct 1])).any (fun s =>
        decide ((s.proc 0).state = .RUNNING ∧ ¬ (s.proc 0).accounted s.ticks)) = true := by
    decide +kernel
  have halloc : (exec (kernStep 'R') noWrap (Kern.boot 2)
      (acctOf 0 0 ++ [.schedGo 0, .release 0, .tick, .fork 0])).any (fun s =>
        decide ((s.proc 1).state = .EMBRYO ∧ ¬ (s.proc 1).accounted s.ticks)) = true := by
    decide +kernel
  obtain ⟨s, hr, hp⟩ := exists_reach_of_exec hcharge
  obtain ⟨s', hr', hp'⟩ := exists_reach_of_exec halloc
  exact ⟨⟨s, hr, of_decide_eq_true hp⟩, s', hr', of_decide_eq_true hp'⟩

end Xv6.Ref
