import Xv6.Proofs.KernelStep

/-!
# What holds in every state of the kernel

The scheduler threads and the process threads hand `ptable.lock` and the CPUs
to one another through `swtch`. The invariant says what that protocol keeps: a
scheduler inside its pass holds the lock; the process a CPU has been switched
to is RUNNING, and is on no other CPU; and a slot that some `fork` is setting
up is EMBRYO and belongs to one parent only, although `fork` changes it outside
the lock.
-/

namespace Xv6.Ref

open Xv6.Lib

variable {C : Nat} {flag : Char} {s s' : Kern C}

/-- Where a scheduler thread is between `acquire` and `release`, with no
process on its CPU. -/
def SchedPc.inPass : SchedPc → Bool
  | .acct _ | .acct' _ _ | .switch | .back _ => true
  | .top | .away _ => false

def OnCpu (s : Kern C) (c : Fin C) (i : Slot) : Prop :=
  s.cpu c = some i ∧ ∃ k, s.sched c = .away k

structure KInv (s : Kern C) : Prop where
  holds : ∀ c, (s.sched c).inPass = true → s.lock = some (.cpu c)
  running : ∀ c i, OnCpu s c i → (s.proc i).state = .RUNNING
  one : ∀ c d i, OnCpu s c i → OnCpu s d i → c = d
  charged : ∀ c i r, s.sched c = .acct' i r → (s.proc i).state = .RUNNING
  embryo : ∀ i np, (s.kpc i).child = some np → (s.proc np).state = .EMBRYO
  oneFork : ∀ i j np, (s.kpc i).child = some np → (s.kpc j).child = some np → i = j

theorem kinv_boot (C : Nat) : KInv (Kern.boot C) where
  holds := fun c h => nomatch h
  running := fun c i h => nomatch h.1
  one := fun c d i h => nomatch h.1
  charged := fun c i r h => nomatch h
  embryo := by
    intro i np h
    simp only [Kern.boot, Function.update_apply] at h
    split at h <;> cases h
  oneFork := by
    intro i j np h
    simp only [Kern.boot, Function.update_apply] at h
    split at h <;> cases h

theorem KInv.lock_free (hi : KInv s) (h : ∀ d, s.lock ≠ some (.cpu d)) (c : Fin C) :
    (s.sched c).inPass = false := by
  cases hp : (s.sched c).inPass with
  | false => rfl
  | true => exact absurd (hi.holds c hp) (h c)

/-- At most one scheduler is inside its pass. -/
theorem KInv.one_pass (hi : KInv s) {c d : Fin C} (hc : s.lock = some (.cpu c))
    (hd : (s.sched d).inPass = true) : d = c := by
  have := hi.holds d hd
  rw [hc] at this
  cases this
  rfl

theorem holds_step {a : KAct C} (hi : KInv s) (h : kernStep flag s a = some s')
    (d : Fin C) (hd : (s'.sched d).inPass = true) : s'.lock = some (.cpu d) := by
  cases kernStep_sched h with
  | keep frame lock =>
      rw [frame.1] at hd
      rcases lock with hl | hl
      · rw [hl]; exact hi.holds d hd
      · exact absurd (hi.holds d hd) (hl d)
  | lock c top free next =>
      subst next
      simp only [setSched_apply] at hd
      split at hd
      · next he => rw [he]
      · exact absurd (hi.holds d hd) (free_of_none free d)
  | acct c pc act held inside still sched cpu lock =>
      rw [sched, Function.update_apply] at hd
      rw [lock]
      split at hd
      · next he => rw [he]; exact held
      · exact hi.holds d hd
  | finish c act held stop next =>
      subst next
      simp only [endPass, setSched_apply] at hd
      split at hd
      · cases hd
      · next hne => exact absurd (hi.one_pass held hd) hne
  | run c p k act held pick next =>
      subst next
      simp only [dispatch, setSched_apply] at hd
      split at hd
      · cases hd
      · next hne => exact absurd (hi.one_pass held hd) hne
  | leave c i k on away free sched cpu lock =>
      rw [sched, Function.update_apply] at hd
      split at hd
      · next he => rw [he]; exact lock
      · exact absurd (hi.holds d hd) (free d)

/-! A process is on a CPU because it was, or because it has just been
dispatched there. -/

theorem onCpu_step {a : KAct C} (h : kernStep flag s a = some s') {d : Fin C}
    {i : Slot} (hd : OnCpu s' d i) :
    OnCpu s d i ∨ a = .schedGo d ∧ (s.proc i).state = .RUNNABLE := by
  obtain ⟨hcpu, k, hk⟩ := hd
  cases kernStep_sched h with
  | keep frame lock =>
      rw [frame.1] at hk
      rw [frame.2] at hcpu
      exact Or.inl ⟨hcpu, k, hk⟩
  | lock c top free next =>
      subst next
      simp only [setSched_apply] at hk
      split at hk
      · cases hk
      · exact Or.inl ⟨hcpu, k, hk⟩
  | acct c pc act held inside still sched cpu lock =>
      rw [sched, Function.update_apply] at hk
      rw [cpu] at hcpu
      split at hk
      · rw [hk] at still; cases still
      · exact Or.inl ⟨hcpu, k, hk⟩
  | finish c act held stop next =>
      subst next
      simp only [endPass, setSched_apply] at hk
      split at hk
      · cases hk
      · next hne =>
          simp only [endPass, Function.update_of_ne hne] at hcpu
          exact Or.inl ⟨hcpu, k, hk⟩
  | run c p k' act held pick next =>
      subst next
      simp only [dispatch, setSched_apply] at hk
      split at hk
      · next he =>
          subst he
          simp only [dispatch, Function.update_self, Option.some.injEq] at hcpu
          subst hcpu
          exact Or.inr ⟨act, schedNext_runnable pick⟩
      · next hne =>
          simp only [dispatch, Function.update_of_ne hne] at hcpu
          exact Or.inl ⟨hcpu, k, hk⟩
  | leave c j k' on away free sched cpu lock =>
      rw [sched, Function.update_apply] at hk
      rw [cpu] at hcpu
      split at hk
      · cases hk
      · exact Or.inl ⟨hcpu, k, hk⟩

/-- A process that is RUNNING stays so, unless it is its own step that takes
it off its CPU. -/
theorem running_step {a : KAct C} (hi : KInv s) (h : kernStep flag s a = some s')
    {i : Slot} (hrun : (s.proc i).state = .RUNNING) :
    (s'.proc i).state = .RUNNING ∨
      ∃ c k, OnCpu s c i ∧ (∀ d, s.lock ≠ some (.cpu d)) ∧ s'.sched c = .back k := by
  have hembryo : ∀ j, (s.kpc j).child = some i → False := fun j hj => by
    rw [hi.embryo j i hj] at hrun
    cases hrun
  cases kernStep_table h i with
  | woken hw =>
      rcases hw.2 with hst | ⟨hst, _⟩
      · rw [hst]; exact Or.inl hrun
      · rw [hrun] at hst; cases hst
  | priority n bounds h => rw [h]; exact Or.inl hrun
  | charge c act at' next running h => rw [h]; exact Or.inl hrun
  | check c act at' next h => rw [h]; exact Or.inl hrun
  | run c k act pick h => rw [h]; exact Or.inl rfl
  | leave c k act on away free back times next =>
      exact Or.inr ⟨c, k, ⟨on, k, away⟩, free, back⟩
  | alloc c act unused found ran h => rw [hrun] at unused; cases unused
  | alloc' j at' h => rw [h]; exact Or.inl hrun
  | freed j at' next h =>
      refine (hembryo j ?_).elim
      rcases at' with hk | hk <;> rw [hk] <;> rfl
  | publish j at' next h =>
      refine (hembryo j ?_).elim
      rw [at']
      rfl
  | reap zombie h => rw [hrun] at zombie; cases zombie

theorem dispatch_running {a : KAct C} (h : kernStep flag s a = some s') {d : Fin C}
    {i : Slot} (ha : a = .schedGo d) (hd : OnCpu s' d i) :
    (s'.proc i).state = .RUNNING := by
  obtain ⟨hcpu, k, hk⟩ := hd
  subst ha
  rcases schedGo_some (holding_some.mp h).2 with ⟨_, rfl⟩ | ⟨p, k', _, rfl⟩
  · simp [endPass] at hcpu
  · simp only [dispatch, Function.update_self, Option.some.injEq] at hcpu
    subst hcpu
    simp [dispatch]

/-- Where a scheduler is between the two statements of the accounting loop, it
was there before or has just charged a RUNNING process. -/
theorem charged_step {a : KAct C} (h : kernStep flag s a = some s') {d : Fin C}
    {i : Slot} {r : Ticks} (hd : s'.sched d = .acct' i r) :
    s.sched d = .acct' i r ∨
      a = .schedAcct d ∧ s.sched d = .acct i ∧ r = s.ticks ∧
        (s.proc i).state = .RUNNING ∧
        s'.proc i = { s.proc i with
          rtime := (s.proc i).rtime + (s.ticks - (s.proc i).lastCheck) } := by
  cases kernStep_sched h with
  | keep frame lock => rw [frame.1] at hd; exact Or.inl hd
  | lock c top free next =>
      subst next
      simp only [setSched_apply] at hd
      split at hd
      · cases hd
      · exact Or.inl hd
  | acct c pc act held inside still sched cpu lock =>
      by_cases he : d = c
      · subst he
        subst act
        have hs := (holding_some.mp h).2
        simp only [schedAcct] at hs
        split at hs
        · next j hj =>
            split at hs <;> cases hs
            · next hrun =>
                simp only [setSched_apply, if_true, SchedPc.acct'.injEq] at hd
                obtain ⟨rfl, rfl⟩ := hd
                exact Or.inr ⟨rfl, hj, rfl, hrun, by simp⟩
            · simp only [setSched_apply, if_true, acctNext] at hd
              split at hd <;> cases hd
        · cases hs
          simp only [setSched_apply, if_true, acctNext] at hd
          split at hd <;> cases hd
        · cases hs
      · rw [sched, Function.update_of_ne he] at hd
        exact Or.inl hd
  | finish c act held stop next =>
      subst next
      simp only [endPass, setSched_apply] at hd
      split at hd
      · cases hd
      · exact Or.inl hd
  | run c p k act held pick next =>
      subst next
      simp only [dispatch, setSched_apply] at hd
      split at hd
      · cases hd
      · exact Or.inl hd
  | leave c j k on away free sched cpu lock =>
      rw [sched, Function.update_apply] at hd
      split at hd
      · cases hd
      · exact Or.inl hd

/-- It leaves that place by the second statement. -/
theorem charged_next {a : KAct C} (h : kernStep flag s a = some s') {d : Fin C}
    {i : Slot} {r : Ticks} (hd : s.sched d = .acct' i r) :
    s'.sched d = .acct' i r ∨
      a = .schedAcct d ∧ s'.proc i = { s.proc i with lastCheck := s.ticks } := by
  cases kernStep_sched h with
  | keep frame lock => rw [frame.1]; exact Or.inl hd
  | lock c top free next =>
      refine Or.inl ?_
      subst next
      simp only [setSched_apply]
      split
      · next he => rw [he, top] at hd; cases hd
      · exact hd
  | acct c pc act held inside still sched cpu lock =>
      by_cases he : d = c
      · subst he
        subst act
        have hs := (holding_some.mp h).2
        simp only [schedAcct, hd, Option.some.injEq] at hs
        subst hs
        exact Or.inr ⟨rfl, by simp⟩
      · rw [sched, Function.update_of_ne he]
        exact Or.inl hd
  | finish c act held stop next =>
      refine Or.inl ?_
      subst next
      simp only [endPass, setSched_apply]
      split
      · next he => subst he; simp [schedNext, hd] at stop
      · exact hd
  | run c p k act held pick next =>
      refine Or.inl ?_
      subst next
      simp only [dispatch, setSched_apply]
      split
      · next he => subst he; simp [schedNext, hd] at pick
      · exact hd
  | leave c j k on away free sched cpu lock =>
      rw [sched, Function.update_apply]
      split
      · next he => rw [he, away] at hd; cases hd
      · exact Or.inl hd

/-- A slot that is being set up stays EMBRYO as long as it is. -/
theorem embryo_step {a : KAct C} (hi : KInv s) (h : kernStep flag s a = some s')
    {i np : Slot} (hc : (s.kpc i).child = some np) (hc' : (s'.kpc i).child = some np) :
    (s'.proc np).state = .EMBRYO := by
  have hst := hi.embryo i np hc
  have hmine : ∀ j, (s.kpc j).child = some np → (s'.kpc j).child = none → False := by
    intro j hj hj'
    rw [hi.oneFork i j np hc hj, hj'] at hc'
    cases hc'
  cases kernStep_table h np with
  | woken hw =>
      rcases hw.2 with he | ⟨he, _⟩
      · rw [he]; exact hst
      · rw [hst] at he; cases he
  | priority n bounds h => rw [h]; exact hst
  | charge c act at' next running h => rw [h]; exact hst
  | check c act at' next h => rw [h]; exact hst
  | run c k act pick h =>
      have := schedNext_runnable pick
      rw [hst] at this
      cases this
  | leave c k act on away free back times next =>
      have := hi.running c np ⟨on, k, away⟩
      rw [hst] at this
      cases this
  | alloc c act unused found ran h => rw [hst] at unused; cases unused
  | alloc' j at' h => rw [h]; exact hst
  | freed j at' next h =>
      refine (hmine j ?_ (by rw [next]; rfl)).elim
      rcases at' with hk | hk <;> rw [hk] <;> rfl
  | publish j at' next h =>
      refine (hmine j (by rw [at']; rfl) ?_).elim
      rcases next with hk | hk <;> rw [hk] <;> rfl
  | reap zombie h => rw [hst] at zombie; cases zombie

theorem kinv_step {a : KAct C} (hi : KInv s) (h : kernStep flag s a = some s') :
    KInv s' where
  holds := holds_step hi h
  running := by
    intro d i hd
    rcases onCpu_step h hd with hold | ⟨ha, _⟩
    · rcases running_step hi h (hi.running d i hold) with hr | ⟨c, k, hc, _, hback⟩
      · exact hr
      · obtain ⟨_, k', haway⟩ := hd
        rw [hi.one d c i hold hc, hback] at haway
        cases haway
    · exact dispatch_running h ha hd
  one := by
    intro c d i hc hd
    rcases onCpu_step h hc with hc | ⟨ha, hrun⟩ <;>
      rcases onCpu_step h hd with hd | ⟨hb, hrun'⟩
    · exact hi.one c d i hc hd
    · rw [hi.running c i hc] at hrun'; cases hrun'
    · rw [hi.running d i hd] at hrun; cases hrun
    · rw [ha] at hb; cases hb; rfl
  charged := by
    intro d i r hd
    have hold : (s.proc i).state = .RUNNING ∧ (s.sched d).inPass = true := by
      rcases charged_step h hd with hc | ⟨_, hc, _, hrun, _⟩
      · exact ⟨hi.charged d i r hc, by rw [hc]; rfl⟩
      · exact ⟨hrun, by rw [hc]; rfl⟩
    rcases running_step hi h hold.1 with hr | ⟨c, k, _, hfree, _⟩
    · exact hr
    · exact absurd (hi.holds d hold.2) (hfree d)
  embryo := by
    intro i np hc
    rcases kernStep_child h with hf | ⟨j, np', _, hem, hk⟩
    · exact embryo_step hi h (hf i np hc) hc
    · have hc' := hc
      rw [hk] at hc'
      split at hc'
      · cases hc'; exact hem
      · exact embryo_step hi h hc' hc
  oneFork := by
    intro i j np hc hd
    rcases kernStep_child h with hf | ⟨l, np', hun, _, hk⟩
    · exact hi.oneFork i j np (hf i np hc) (hf j np hd)
    · -- The slot found UNUSED is nobody's child yet.
      have hnew : ∀ m, (s.kpc m).child = some np' → False := by
        intro m hm
        rw [hi.embryo m np' hm] at hun
        cases hun
      rw [hk] at hc hd
      split at hc <;> split at hd
      · next h1 h2 => rw [h1, h2]
      · cases hc; exact (hnew j hd).elim
      · cases hd; exact (hnew i hc).elim
      · exact hi.oneFork i j np hc hd

theorem kinv_reach {ok : Kern C → KAct C → Prop}
    (h : Reach (kernStep flag) ok (Kern.boot C) s) : KInv s :=
  h.invariant (kinv_boot C) fun _ _ _ hi _ hs => kinv_step hi hs

end Xv6.Ref
