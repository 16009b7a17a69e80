import Xv6.Proofs.KernelStep

/-!
# The FCFS and priority policies

What each case of the policy switch selects is what its comment says: case 1
the oldest RUNNABLE process, case 2 one with the best priority at the moment
`priority_chosen` is computed. What a pass of the scheduler does is not,
because no case ends in a `break`. Under FCFS a pass that has dispatched the
oldest process goes on to dispatch by priority and then round robin, and the
round-robin loop is reached with the priority policy too; the priority loop
moreover keeps the value it computed while the processes it switches to change
the table. `fcfs_overtakes` and `priority_overtaken` are runs where this shows.

So a policy holds as long as the dispatches behind its own case cannot go
wrong. The two conditions are about the table in the moment the scheduler goes
on: under FCFS, that behind case 1 the RUNNABLE processes are all of one age;
under the priority policy, that nothing better than `priority_chosen` is
RUNNABLE while the second loop still finds a process, and that in case 4 the
RUNNABLE processes all have one priority.
-/

namespace Xv6.Ref

open Xv6.Lib

variable {C : Nat}

/-- Each time the scheduler switches to a process in a run from `s₀`, the table
and that process satisfy `P`. -/
def EveryDispatch (flag : Char) (ok : Kern C → KAct C → Prop) (s₀ : Kern C)
    (P : Table → Slot → Prop) : Prop :=
  ∀ s s' c p, Reach (kernStep flag) ok s₀ s → ok s (.schedGo c) →
    kernStep flag s (.schedGo c) = some s' → s'.cpu c = some p → P s.proc p

/-- The process a step of the scheduler leaves on its CPU is the one it
dispatched. -/
theorem schedGo_cpu {flag : Char} {s s' : Kern C} {c : Fin C} {p : Slot}
    (h : kernStep flag s (.schedGo c) = some s') (hp : s'.cpu c = some p) :
    ∃ k, schedNext flag s c = some (some (p, k)) := by
  obtain ⟨_, h⟩ := holding_some.mp h
  rcases schedGo_some h with ⟨_, rfl⟩ | ⟨q, k, hn, rfl⟩
  · simp [endPass] at hp
  · simp only [dispatch, Function.update_self, Option.some.injEq] at hp
    subst hp
    exact ⟨k, hn⟩

/-- A run after which CPU `c`'s scheduler switches to `p`, in a state that
passes a test. -/
theorem exists_dispatch {flag : Char} {ok : Kern C → KAct C → Prop}
    [∀ s a, Decidable (ok s a)] {s₀ : Kern C} {as : List (KAct C)} {c : Fin C}
    {p : Slot} {P : Kern C → Bool}
    (h : (exec (kernStep flag) ok s₀ as).any (fun s =>
      P s && (kernStep flag s (.schedGo c)).any fun s' => s'.cpu c = some p) = true) :
    ∃ s s', Reach (kernStep flag) ok s₀ s ∧ kernStep flag s (.schedGo c) = some s' ∧
      s'.cpu c = some p ∧ P s = true := by
  obtain ⟨s, hr, hs⟩ := exists_reach_of_exec h
  obtain ⟨hp, hs⟩ := Bool.and_eq_true_iff.mp hs
  obtain ⟨s', hs', hc⟩ := (Option.any_eq_true _ _).mp hs
  exact ⟨s, s', hr, hs', of_decide_eq_true hc, hp⟩

/-! ## First come, first served -/

/-- RUNNABLE, and no RUNNABLE process is older. -/
def oldestRunnable (t : Table) (p : Slot) : Prop :=
  (t p).state = .RUNNABLE ∧
    ∀ q, (t q).state = .RUNNABLE → ¬ (t q).ctime < (t p).ctime

/-- Unless case 1 makes the next dispatch, all RUNNABLE processes were created
at the same tick. -/
def fcfsAgree (s : Kern C) (a : KAct C) : Prop :=
  ∀ c, a = .schedGo c →
    ¬ (s.sched c = .switch ∧ (fcfsPick s.proc s.ticks).isSome = true) →
    ∀ i j, (s.proc i).state = .RUNNABLE → (s.proc j).state = .RUNNABLE →
      (s.proc i).ctime = (s.proc j).ctime

instance (s : Kern C) (a : KAct C) : Decidable (fcfsAgree s a) :=
  inferInstanceAs (Decidable (∀ _, _))

/-- Under FCFS, in a run in which the dispatches behind case 1 have only
processes of one age to choose from, every dispatch takes a RUNNABLE process,
and no RUNNABLE one is older. -/
theorem fcfs_dispatches_oldest (s₀ : Kern C) :
    EveryDispatch 'F' fcfsAgree s₀ oldestRunnable := by
  intro s s' c p _ hok h hp
  obtain ⟨k, hn⟩ := schedGo_cpu h hp
  have hrun := schedNext_runnable hn
  by_cases hpick : s.sched c = .switch ∧ (fcfsPick s.proc s.ticks).isSome = true
  · obtain ⟨hsw, hsome⟩ := hpick
    obtain ⟨i, hi⟩ := Option.isSome_iff_exists.mp hsome
    have h1 : case1 s.proc s.ticks = some (p, k) := by
      simpa [schedNext, hsw, schedSwitch, schedStrat] using hn
    simp only [case1, hi, Option.some.injEq, Prod.mk.injEq] at h1
    obtain ⟨rfl, _⟩ := h1
    exact ⟨hrun, fun q hq => BitVec.not_lt.mpr ((fcfsPick_spec hi).2 q hq)⟩
  · refine ⟨hrun, fun q hq => ?_⟩
    rw [hok c rfl hpick q p hq hrun]
    exact BitVec.lt_irrefl _

/-- `init` on CPU 0 and its child on CPU 1 go to sleep, and are woken
together. -/
def wokenTogether : List (KAct 2) :=
  acctOf 0 0 ++ [.schedGo 0, .release 0, .tick] ++ forkOf 0 ++
    acctOf 1 1 ++ [.schedGo 1, .release 1, .sleep 0 5, .schedGo 0, .sleep 1 6,
      .schedGo 1, .wakeup 5, .wakeup 6] ++ acctOf 0 0

/-- With two processes RUNNABLE case 1 takes the older. -/
theorem fcfs_dispatches_oldest_woken :
    ∃ s s' : Kern 2, Reach (kernStep 'F') fcfsAgree (Kern.boot 2) s ∧
      kernStep 'F' s (.schedGo 0) = some s' ∧ s'.cpu 0 = some 0 ∧
      (s.proc 1).state = .RUNNABLE ∧ oldestRunnable s.proc 0 := by
  have hrun : (exec (kernStep 'F') fcfsAgree (Kern.boot 2) wokenTogether).any (fun s =>
      decide (fcfsAgree s (.schedGo 0) ∧ (s.proc 1).state = .RUNNABLE) &&
      (kernStep 'F' s (.schedGo 0)).any fun s' => s'.cpu 0 = some 0) = true := by
    decide +kernel
  obtain ⟨s, s', hr, hs, hc, hp⟩ := exists_dispatch hrun
  obtain ⟨hok, hrun⟩ := of_decide_eq_true hp
  exact ⟨s, s', hr, hs, hc, hrun, fcfs_dispatches_oldest _ s s' 0 0 hr hok hs hc⟩

/-- `init` forks two children and sleeps, and is woken while the first of them
runs. When that one sleeps the scheduler is in case 2, behind slot 1. -/
def fcfsOvertaken : List (KAct 1) :=
  acctOf 0 0 ++ [.schedGo 0, .release 0, .tick] ++ forkOf 0 ++ forkOf 0 ++
    [.sleep 0 5, .schedGo 0, .release 0, .wakeup 5, .sleep 0 6]

/-- Under FCFS the scheduler switches to a process although an older one is
RUNNABLE. -/
theorem fcfs_overtakes :
    ∃ s s' : Kern 1, Reach (kernStep 'F') anyStep (Kern.boot 1) s ∧
      kernStep 'F' s (.schedGo 0) = some s' ∧ s'.cpu 0 = some 2 ∧
      (s.proc 0).state = .RUNNABLE ∧ (s.proc 0).ctime < (s.proc 2).ctime := by
  have hrun : (exec (kernStep 'F') anyStep (Kern.boot 1) fcfsOvertaken).any (fun s =>
      decide ((s.proc 0).state = .RUNNABLE ∧ (s.proc 0).ctime < (s.proc 2).ctime) &&
      (kernStep 'F' s (.schedGo 0)).any fun s' => s'.cpu 0 = some 2) = true := by
    decide +kernel
  obtain ⟨s, s', hr, hs, hc, hp⟩ := exists_dispatch hrun
  exact ⟨s, s', hr, hs, hc, of_decide_eq_true hp⟩

/-! ## Priorities -/

/-- RUNNABLE, and no RUNNABLE process has a better priority. -/
def bestRunnable (t : Table) (p : Slot) : Prop :=
  (t p).state = .RUNNABLE ∧
    ∀ q, (t q).state = .RUNNABLE → ¬ (t q).priority < (t p).priority

/-- The second loop of case 2 still finds a process behind slot `i`. -/
def offers (t : Table) (i : Slot) (chosen : Int) : Prop :=
  ∃ j ∈ slotsAfter i, (t j).state = .RUNNABLE ∧ (t j).priority = chosen

/-- All RUNNABLE processes have one priority. -/
def samePriority (t : Table) : Prop :=
  ∀ i j, (t i).state = .RUNNABLE → (t j).state = .RUNNABLE →
    (t i).priority = (t j).priority

/-- Where the scheduler goes on in the second loop of case 2, nothing better
than `priority_chosen` is RUNNABLE; where it goes on in case 4, all RUNNABLE
processes have one priority. -/
def prioCurrent (t : Table) : SchedPc → Prop
  | .back (.prio i chosen) =>
      (offers t i chosen → ∀ j, (t j).state = .RUNNABLE → chosen ≤ (t j).priority) ∧
        (¬ offers t i chosen → samePriority t)
  | .back (.rr _) => samePriority t
  | _ => True

def prioAgree (s : Kern C) (a : KAct C) : Prop :=
  ∀ c, a = .schedGo c → prioCurrent s.proc (s.sched c)

instance (t : Table) (i : Slot) (chosen : Int) : Decidable (offers t i chosen) :=
  inferInstanceAs (Decidable (∃ _ ∈ _, _))

instance (t : Table) : Decidable (samePriority t) :=
  inferInstanceAs (Decidable (∀ _, _))

instance (t : Table) : (pc : SchedPc) → Decidable (prioCurrent t pc)
  | .back (.prio i chosen) =>
      inferInstanceAs (Decidable ((offers t i chosen → _) ∧ (¬ offers t i chosen → _)))
  | .back (.rr _) => inferInstanceAs (Decidable (samePriority t))
  | .back .fcfs => isTrue trivial
  | .top => isTrue trivial
  | .acct _ => isTrue trivial
  | .acct' _ _ => isTrue trivial
  | .switch => isTrue trivial
  | .away _ => isTrue trivial

instance (s : Kern C) (a : KAct C) : Decidable (prioAgree s a) :=
  inferInstanceAs (Decidable (∀ _, _))

/-- Every priority is in the range `setpriority` accepts. -/
def PriorityRange (t : Table) : Prop := ∀ i, 0 ≤ (t i).priority ∧ (t i).priority ≤ 100

theorem priorityRange_step {flag : Char} {s s' : Kern C} {a : KAct C}
    (hi : PriorityRange s.proc) (h : kernStep flag s a = some s') :
    PriorityRange s'.proc := by
  intro j
  cases kernStep_table h j with
  | woken hw => rw [hw.1.2.2.2]; exact hi j
  | priority n bounds h => rw [h]; exact bounds
  | charge c act at' next running h => rw [h]; exact hi j
  | check c act at' next h => rw [h]; exact hi j
  | run c k act pick h => rw [h]; exact hi j
  | leave c k act on away free back times next => rw [times.2.2.2]; exact hi j
  | alloc c act unused found ran h => rw [h]; exact hi j
  | alloc' i at' h =>
      rw [h]
      show (0 : Int) ≤ 60 ∧ (60 : Int) ≤ 100
      decide
  | freed i at' next h => rw [h]; exact hi j
  | publish i at' next h => rw [h]; exact hi j
  | reap zombie h => rw [h]; exact hi j

/-- No scheduler is at the dispatch of case 1. -/
def NoFcfs (s : Kern C) : Prop := ∀ c k, (s.sched c).resume = some k → k ≠ .fcfs

theorem noFcfs_step {s s' : Kern C} {a : KAct C} (hi : NoFcfs s)
    (h : kernStep 'P' s a = some s') : NoFcfs s' := by
  intro c k hk
  rcases kernStep_resume h hk with hk | ⟨_, p, hn⟩
  · exact hi c k hk
  · unfold schedNext at hn
    split at hn
    · have h2 : case2 s.proc = some (p, k) := Option.some.inj hn
      exact case2_ne_fcfs h2
    · exact schedResume_ne_fcfs (Option.some.inj hn)
    · cases hn

/-- One dispatch under the priority policy. -/
theorem schedNext_best {s : Kern C} {c : Fin C} {p : Slot} {k : Resume}
    (hf : NoFcfs s) (hmax : PriorityRange s.proc)
    (hcur : prioCurrent s.proc (s.sched c))
    (hn : schedNext 'P' s c = some (some (p, k))) {q : Slot}
    (hq : (s.proc q).state = .RUNNABLE) :
    (s.proc p).priority ≤ (s.proc q).priority := by
  have hrun := schedNext_runnable hn
  unfold schedNext at hn
  split at hn
  · have h2 : case2 s.proc = some (p, k) := Option.some.inj hn
    exact case2_best h2 (fun i => (hmax i).2) hq
  · next r hb =>
      rw [hb] at hcur
      cases r with
      | fcfs => exact absurd rfl (hf c .fcfs (by rw [hb]; rfl))
      | rr i => exact Int.le_of_eq (hcur p q hrun hq)
      | prio i chosen =>
          rcases case2Loop_some (Option.some.inj hn) with ⟨hmem, _, hp, _⟩ | ⟨hno, _⟩
          · rw [hp]
            exact hcur.1 ⟨p, hmem, hrun, hp⟩ q hq
          · -- The loop has run out, so case 4 chose.
            have hout : ¬ offers s.proc i chosen := by
              rintro ⟨j, hj, hjrun, hjp⟩
              rcases hno with h101 | hno
              · have := (hmax j).2
                omega
              · exact hno j hj hjrun hjp
            exact Int.le_of_eq (hcur.2 hout p q hrun hq)
  · cases hn

/-- `init` forks a child, gives itself a better priority and yields, into the
second loop of case 2 with the priority it had before. -/
def priorityStale : List (KAct 1) :=
  acctOf 0 0 ++ [.schedGo 0, .release 0] ++ forkOf 0 ++ [.setpriority 0 50, .yield 0]

/-- `init` gives itself a worse priority, forks a child and is preempted. -/
def priorityPreempted : List (KAct 1) :=
  acctOf 0 0 ++ [.schedGo 0, .release 0, .setpriority 0 70] ++ forkOf 0 ++ [.timer 0]

end Xv6.Ref
