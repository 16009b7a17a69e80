import Xv6.Proofs.KernelInv

/-!
# `waitx`

`waitx` is a copy of `wait` that also reports the child's times. The scan is
the same, line for line, so the return value and the change to the table are
`wait`'s. The times are another matter: they are read from the table slot
after it has been given up and the lock released, and a `fork` on another CPU
can have taken the slot by then. `waitx_reads_reused` is such a run.

The slot is the only thing that can go wrong. As long as no `allocproc` takes
a slot some `waitx` is still reading, nothing in the kernel touches the times
of an UNUSED slot, and the four reads add up: `rtime` is the one the child had
as a ZOMBIE, and `wtime + rtime` is the `ticks` read in between, less the
child's `ctime`.
-/

namespace Xv6.Ref

open Xv6.Lib

variable {C : Nat} {flag : Char} {s s' : Kern C}

/-! ## Where a `waitx` is

A process can be preempted at any point of `waitx`, so each of these looks
through `yield`. -/

/-- The child a `waitx` has reaped and not yet returned. -/
def KPc.reaped : KPc → Option Reaped
  | .waitx1 z | .waitx2 z _ | .waitx3 z _ _ | .waitx4 z _ _ _ | .waitxRet z _ _ _ =>
      some z
  | .yield k => k.reaped
  | _ => none

/-- The slot it has still to read from. -/
def KPc.reads : KPc → Option Slot
  | .waitx1 z | .waitx2 z _ | .waitx3 z _ _ | .waitx4 z _ _ _ => some z.slot
  | .yield k => k.reads
  | _ => none

/-- The value of `ticks` it has read. -/
def KPc.ticksRead : KPc → Option Ticks
  | .waitx3 _ _ t | .waitx4 _ _ t _ | .waitxRet _ _ _ t => some t
  | .yield k => k.ticksRead
  | _ => none

/-- The step in which process `i` reaped the child `z`: what `wait` would have
done, on a child that was a ZOMBIE with these times. -/
structure ReapStep (i : Slot) (z : Reaped) (s s' : Kern C) : Prop where
  zombie : (s.proc z.slot).state = .ZOMBIE
  parent : (s.proc z.slot).parent = some i
  rtime : z.rtime = (s.proc z.slot).rtime
  ctime : z.ctime = (s.proc z.slot).ctime
  scan : wait i s.ticks s.proc = (.reaped z.slot z.pid, s'.proc)

/-- How a step moves process `i` with respect to `waitx`. -/
inductive WaitxMove (s : Kern C) (a : KAct C) (s' : Kern C) (i : Slot) : Prop
  | stay (h : s'.kpc i = s.kpc i)
  | preempt (h : s'.kpc i = .yield (s.kpc i))
  | back (h : s.kpc i = .yield (s'.kpc i))
  | outside (h : (s'.kpc i).reaped = none)
  | reap (c : Fin C) (z : Reaped) (act : a = .waitScan c) (step : ReapStep i z s s')
      (h : s'.kpc i = .waitx1 z)
  | read (h : waitxRead s i = some s')

theorem WaitxMove.of_kpc {a : KAct C} {i j : Slot} {pc : KPc}
    (hk : s'.kpc = Function.update s.kpc i pc)
    (h : s'.kpc i = pc → WaitxMove s a s' i) : WaitxMove s a s' j := by
  by_cases he : j = i
  · subst he
    exact h (by rw [hk, Function.update_self])
  · exact .stay (by rw [hk, Function.update_of_ne he])

theorem WaitxMove.of_outside {a : KAct C} {i j : Slot} (pc : KPc)
    (hk : s'.kpc = Function.update s.kpc i pc) (h : pc.reaped = none) :
    WaitxMove s a s' j :=
  .of_kpc hk fun hi => .outside (by rw [hi]; exact h)

theorem enterSched_waitx (s : Kern C) {a : KAct C} {t : Kern C} {c : Fin C} {i : Slot} {pc : KPc}
    (h : enterSched t c i pc = some s') (ht : t.kpc = s.kpc)
    (hpc : pc = .yield (s.kpc i) ∨ pc.reaped = none) (j : Slot) :
    WaitxMove s a s' j := by
  obtain ⟨k, _, rfl⟩ := enterSched_some h
  refine .of_kpc (by rw [← ht]; rfl) fun hi => ?_
  rcases hpc with hpc | hpc
  · exact .preempt (by rw [hi, hpc])
  · exact .outside (by rw [hi]; exact hpc)

theorem release_waitx {a : KAct C} {i : Slot} (h : release s i = some s') (j : Slot) :
    WaitxMove s a s' j := by
  simp only [release] at h
  split at h <;> cases h
  · exact .of_outside .user rfl rfl
  · next k hk => exact .of_kpc rfl fun hi => .back (by rw [hk, hi])
  · exact .of_outside .user rfl rfl
  · exact .of_outside (.scan _) rfl rfl

theorem waitScan_waitx {c : Fin C} {i : Slot} (h : waitScan s c i = some s')
    (j : Slot) : WaitxMove s (.waitScan c) s' j := by
  simp only [waitScan] at h
  split at h
  · next x hk =>
      rw [scan_eq] at h
      rcases waitLoop_cases i s.ticks s.proc slots false with
        ⟨z, hz, hpar, hw⟩ | hw | hw
      · rw [wait, hw] at h
        cases h
        cases x with
        | false => exact .of_outside .user rfl rfl
        | true =>
            exact .of_kpc rfl fun hi => .reap c
              ⟨z, (s.proc z).pid, (s.proc z).rtime, (s.proc z).ctime⟩ rfl
              ⟨hz, hpar, rfl, rfl, hw⟩ hi
      · rw [wait, hw] at h
        cases h
        exact .of_outside .user rfl rfl
      · rw [wait, hw] at h
        exact enterSched_waitx s h rfl (Or.inr rfl) j
  · cases h

theorem kernStep_waitx {a : KAct C} (h : kernStep flag s a = some s') (j : Slot) :
    WaitxMove s a s' j := by
  cases a <;> simp only [kernStep] at h
  case tick => cases h; exact .stay rfl
  case wakeup a => cases (locked_some.mp h).2; exact .stay rfl
  case kill pid => cases (locked_some.mp h).2; exact .stay rfl
  case schedLock c =>
      split at h
      · cases (locked_some.mp h).2; exact .stay rfl
      · cases h
  case schedAcct c =>
      replace h := (holding_some.mp h).2
      simp only [schedAcct] at h
      split at h
      · split at h <;> cases h <;> exact .stay rfl
      · cases h; exact .stay rfl
      · cases h
  case schedGo c =>
      rcases schedGo_some (holding_some.mp h).2 with ⟨_, rfl⟩ | ⟨p, k, _, rfl⟩ <;>
        exact .stay rfl
  all_goals obtain ⟨i, k, _, _, h⟩ := onCpu_some.mp h
  case release c => exact release_waitx (holding_some.mp h).2 j
  case timer c =>
      split at h
      · exact enterSched_waitx s (locked_some.mp h).2 rfl (Or.inl rfl) j
      · cases h
  case setpriority c n =>
      simp only [setpriority] at h
      split_ifs at h <;> cases h
      · exact .stay rfl
      · exact .of_outside .toYield rfl rfl
      · exact .stay rfl
  case yield c =>
      split at h
      · exact enterSched_waitx s (locked_some.mp h).2 rfl (Or.inr rfl) j
      · cases h
  case sleep c a =>
      split at h
      · exact enterSched_waitx s (locked_some.mp h).2 rfl (Or.inr rfl) j
      · cases h
  case exit c =>
      replace h := (locked_some.mp h).2
      simp only [exit] at h
      split at h
      · cases h
      · exact enterSched_waitx s h rfl (Or.inr rfl) j
  case fork c =>
      replace h := (locked_some.mp h).2
      simp only [fork] at h
      split at h
      · cases h
      · split at h <;> cases h
        · exact .stay rfl
        · exact .of_outside (.alloc _) rfl rfl
  case forkAlloc c =>
      replace h := (holding_some.mp h).2
      simp only [forkAlloc] at h
      split at h <;> cases h
      exact .of_outside (.kalloc _) rfl rfl
  case forkKalloc c ok =>
      simp only [forkKalloc] at h
      split at h
      · split at h <;> cases h
        · exact .of_outside (.copyuvm _) rfl rfl
        · exact .of_outside .user rfl rfl
      · cases h
  case forkCopy c ok =>
      simp only [forkCopy] at h
      split at h
      · split at h <;> cases h
        · exact .of_outside (.publish _) rfl rfl
        · exact .of_outside .user rfl rfl
      · cases h
  case forkPublish c =>
      replace h := (locked_some.mp h).2
      simp only [forkPublish] at h
      split at h <;> cases h
      next np hi =>
        by_cases hj : j = np ∨ j = i
        · refine .outside ?_
          simp only [setKpc_apply]
          split
          · rfl
          · next hne => rw [if_pos (hj.resolve_left hne)]; rfl
        · rw [not_or] at hj
          exact .stay (by simp [hj])
  case waitCall c x =>
      replace h := (locked_some.mp h).2
      simp only [waitCall] at h
      split at h <;> cases h
      exact .of_outside (.scan _) rfl rfl
  case waitScan c => exact waitScan_waitx (holding_some.mp h).2 j
  case waitxRead c =>
      by_cases he : j = i
      · subst he
        exact .read h
      · simp only [waitxRead] at h
        split at h <;> cases h <;> exact .stay (by simp [he])
  case waitxDone c =>
      simp only [waitxDone] at h
      split at h <;> cases h
      exact .of_outside .user rfl rfl

/-! ## Where the reports come from -/

/-- Process `i` reaped `z` in a step of the run to `s`, and if it has read
`ticks` since, that was the value `ticks` had in a state in between. -/
def ReportOf (flag : Char) (ok : Kern C → KAct C → Prop) (s₀ s : Kern C) (i : Slot)
    (z : Reaped) (read : Option Ticks) : Prop :=
  ∃ sz sz' s₁ c, Reach (kernStep flag) ok s₀ sz ∧
    kernStep flag sz (.waitScan c) = some sz' ∧ ReapStep i z sz sz' ∧
    Reach (kernStep flag) ok sz' s₁ ∧ Reach (kernStep flag) ok s₁ s ∧
    ∀ t, read = some t → s₁.ticks = t

theorem ReportOf.step {ok : Kern C → KAct C → Prop} {s₀ : Kern C} {i : Slot}
    {z : Reaped} {read : Option Ticks} {a : KAct C}
    (hr : ReportOf flag ok s₀ s i z read) (hok : ok s a)
    (h : kernStep flag s a = some s') : ReportOf flag ok s₀ s' i z read := by
  obtain ⟨sz, sz', s₁, c, h1, h2, h3, h4, h5, h6⟩ := hr
  exact ⟨sz, sz', s₁, c, h1, h2, h3, h4, .tail h5 hok h, h6⟩

/-- The read of `ticks` itself. -/
theorem ReportOf.read {ok : Kern C → KAct C → Prop} {s₀ : Kern C} {i : Slot}
    {z : Reaped} {a : KAct C} (hr : ReportOf flag ok s₀ s i z none) (hok : ok s a)
    (h : kernStep flag s a = some s') : ReportOf flag ok s₀ s' i z (some s.ticks) := by
  obtain ⟨sz, sz', s₁, c, h1, h2, h3, h4, h5, _⟩ := hr
  exact ⟨sz, sz', s, c, h1, h2, h3, h4.trans h5, .tail .refl hok h,
    fun t ht => Option.some.inj ht⟩

theorem reportOf_reach {ok : Kern C → KAct C → Prop} {s₀ : Kern C}
    (h₀ : ∀ i, (s₀.kpc i).reaped = none) (hr : Reach (kernStep flag) ok s₀ s) :
    ∀ i z, (s.kpc i).reaped = some z →
      ReportOf flag ok s₀ s i z (s.kpc i).ticksRead := by
  induction hr with
  | refl =>
      intro i z hz
      rw [h₀] at hz
      cases hz
  | @tail s s' a hr hok h ih =>
      intro i z hz
      cases kernStep_waitx h i with
      | stay hk => rw [hk] at hz ⊢; exact (ih i z hz).step hok h
      | preempt hk => rw [hk] at hz ⊢; exact (ih i z hz).step hok h
      | back hk =>
          have := ih i z (by rw [hk]; exact hz)
          rw [hk] at this
          exact this.step hok h
      | outside hk => rw [hk] at hz; cases hz
      | reap c z' act step hk =>
          rw [hk] at hz ⊢
          cases hz
          subst act
          exact ⟨s, s', s', c, hr, h, step, .refl, .refl, nofun⟩
      | read hread =>
          simp only [waitxRead] at hread
          split at hread
          · next z' hk =>
              cases hread
              simp only [setKpc_apply, if_true] at hz ⊢
              cases hz
              have := ih i z (by rw [hk]; rfl)
              rw [hk] at this
              exact this.step hok h
          · next z' rt hk =>
              cases hread
              simp only [setKpc_apply, if_true] at hz ⊢
              cases hz
              have := ih i z (by rw [hk]; rfl)
              rw [hk] at this
              exact this.read hok h
          · next z' rt tk hk =>
              cases hread
              simp only [setKpc_apply, if_true] at hz ⊢
              cases hz
              have := ih i z (by rw [hk]; rfl)
              rw [hk] at this
              exact this.step hok h
          · next z' rt tk ct hk =>
              cases hread
              simp only [setKpc_apply, if_true] at hz ⊢
              cases hz
              have := ih i z (by rw [hk]; rfl)
              rw [hk] at this
              exact this.step hok h
          · cases hread

/-! ## What the reads find -/

/-- The slot is still as it was given up. -/
def Kept (t : Table) (z : Reaped) : Prop :=
  (t z.slot).state = .UNUSED ∧ (t z.slot).rtime = z.rtime ∧ (t z.slot).ctime = z.ctime

/-- What has been read is the child's, and what has not is still there. -/
def ReadsRight (t : Table) : KPc → Prop
  | .yield k => ReadsRight t k
  | .waitx1 z => Kept t z
  | .waitx2 z rt => Kept t z ∧ rt = z.rtime
  | .waitx3 z rt _ => Kept t z ∧ rt = z.rtime
  | .waitx4 z rt _ ct => Kept t z ∧ rt = z.rtime ∧ ct = z.ctime
  | .waitxRet z rt wt tk => rt = z.rtime ∧ wt + rt = tk - z.ctime
  | _ => True

/-- No `allocproc` takes a slot a `waitx` has still to read from. -/
def slotKept (s : Kern C) (a : KAct C) : Prop :=
  ∀ c, a = .fork c → ∀ np ∈ findUnused s.proc, ∀ i, (s.kpc i).reads ≠ some np

instance (s : Kern C) (a : KAct C) : Decidable (slotKept s a) :=
  inferInstanceAs (Decidable (∀ _, _))

/-- The same for the slot that one process has still to read from. -/
def slotKeptFor (i : Slot) (s : Kern C) (a : KAct C) : Prop :=
  ∀ c, a = .fork c → ∀ np ∈ findUnused s.proc, (s.kpc i).reads ≠ some np

instance (i : Slot) (s : Kern C) (a : KAct C) : Decidable (slotKeptFor i s a) :=
  inferInstanceAs (Decidable (∀ _, _))

theorem slotKept_for {a : KAct C} (h : slotKept s a) (i : Slot) : slotKeptFor i s a :=
  fun c hc np hnp => h c hc np hnp i

theorem kept_step {a : KAct C} (hk : KInv s) {i : Slot} (hok : slotKeptFor i s a)
    (h : kernStep flag s a = some s') {z : Reaped} (hz : Kept s.proc z)
    (hread : (s.kpc i).reads = some z.slot) : Kept s'.proc z := by
  obtain ⟨hst, hrt, hct⟩ := hz
  have hembryo : ∀ j, (s.kpc j).child = some z.slot → False := fun j hj => by
    rw [hk.embryo j _ hj] at hst
    cases hst
  cases kernStep_table h z.slot with
  | woken hw =>
      rcases hw.2 with he | ⟨he, _⟩
      · exact ⟨he.trans hst, hw.1.2.1.trans hrt, hw.1.1.trans hct⟩
      · rw [hst] at he; cases he
  | priority n bounds h => rw [Kept, h]; exact ⟨hst, hrt, hct⟩
  | charge c act at' next running h => rw [hst] at running; cases running
  | check c act at' next h => rw [Kept, h]; exact ⟨hst, hrt, hct⟩
  | run c k act pick h =>
      have := schedNext_runnable pick
      rw [hst] at this
      cases this
  | leave c k act on away free back times next =>
      have := hk.running c _ ⟨on, k, away⟩
      rw [hst] at this
      cases this
  | alloc c act unused found ran h => exact absurd hread (hok c act _ found)
  | alloc' j at' h => exact (hembryo j (by rw [at']; rfl)).elim
  | freed j at' next h =>
      refine (hembryo j ?_).elim
      rcases at' with hp | hp <;> rw [hp] <;> rfl
  | publish j at' next h => exact (hembryo j (by rw [at']; rfl)).elim
  | reap zombie h => rw [hst] at zombie; cases zombie

theorem ReadsRight.mono {t t' : Table} {pc : KPc} (h : ReadsRight t pc)
    (hkept : ∀ z, pc.reads = some z.slot → Kept t z → Kept t' z) : ReadsRight t' pc := by
  induction pc with
  | yield k ih => exact ih h hkept
  | waitx1 z => exact hkept z rfl h
  | waitx2 z rt => exact ⟨hkept z rfl h.1, h.2⟩
  | waitx3 z rt tk => exact ⟨hkept z rfl h.1, h.2⟩
  | waitx4 z rt tk ct => exact ⟨hkept z rfl h.1, h.2⟩
  | waitxRet z rt wt tk => exact h
  | _ => trivial

theorem readsRight_outside {t : Table} {pc : KPc} (h : pc.reaped = none) :
    ReadsRight t pc := by
  induction pc with
  | yield k ih => exact ih h
  | waitx1 z => cases h
  | waitx2 z rt => cases h
  | waitx3 z rt tk => cases h
  | waitx4 z rt tk ct => cases h
  | waitxRet z rt wt tk => cases h
  | _ => trivial

theorem ReapStep.kept {i : Slot} {z : Reaped} (h : ReapStep i z s s') :
    Kept s'.proc z := by
  have hscan := h.scan
  rcases waitLoop_cases i s.ticks s.proc slots false with ⟨j, _, _, hw⟩ | hw | hw
  · rw [wait, hw, Prod.mk.injEq, WaitScan.reaped.injEq] at hscan
    obtain ⟨⟨rfl, _⟩, hp⟩ := hscan
    rw [Kept, ← hp, Table.modify_same]
    exact ⟨rfl, h.rtime.symm, h.ctime.symm⟩
  · rw [wait, hw] at hscan; cases hscan
  · rw [wait, hw] at hscan; cases hscan

theorem waitxRead_right {i : Slot} (hi : ReadsRight s.proc (s.kpc i))
    (h : waitxRead s i = some s') : ReadsRight s'.proc (s'.kpc i) := by
  simp only [waitxRead] at h
  split at h
  · next z hk =>
      rw [hk] at hi
      cases h
      simp only [setKpc_proc, setKpc_apply, if_true]
      exact ⟨hi, hi.2.1⟩
  · next z rt hk =>
      rw [hk] at hi
      cases h
      simp only [setKpc_proc, setKpc_apply, if_true]
      exact hi
  · next z rt tk hk =>
      rw [hk] at hi
      cases h
      simp only [setKpc_proc, setKpc_apply, if_true]
      exact ⟨hi.1, hi.2, hi.1.2.2⟩
  · next z rt tk ct hk =>
      rw [hk] at hi
      cases h
      obtain ⟨⟨_, hrt, _⟩, rfl, rfl⟩ := hi
      simp only [setKpc_proc, setKpc_apply, if_true]
      refine ⟨rfl, ?_⟩
      rw [hrt, BitVec.sub_add_cancel]
  · cases h

theorem readsRight_step {a : KAct C} (hk : KInv s) {i : Slot}
    (hi : ReadsRight s.proc (s.kpc i)) (hok : slotKeptFor i s a)
    (h : kernStep flag s a = some s') : ReadsRight s'.proc (s'.kpc i) := by
  have hold : ReadsRight s'.proc (s.kpc i) :=
    hi.mono fun z hread hz => kept_step hk hok h hz hread
  cases kernStep_waitx h i with
  | stay hpc => rw [hpc]; exact hold
  | preempt hpc => rw [hpc]; exact hold
  | back hpc => rw [hpc] at hold; exact hold
  | outside hpc => exact readsRight_outside hpc
  | reap c z act step hpc => rw [hpc]; exact step.kept
  | read hread => exact waitxRead_right hi hread

theorem boot_outside (C : Nat) (i : Slot) : ((Kern.boot C).kpc i).reaped = none := by
  simp only [Kern.boot, Function.update_apply]
  split <;> rfl

/-- `waitx` scans as `wait` does. And in a run in which no `allocproc` takes a
slot a `waitx` has still to read from, it returns with the `rtime` the child
had when it was reaped as a ZOMBIE, and with `wtime + rtime` a value `ticks` had
between that and the return, less the child's `ctime`. -/
theorem waitx_reports {i : Slot} {z : Reaped} {rtime wtime read : Ticks}
    (hr : Reach (kernStep flag) slotKept (Kern.boot C) s)
    (hpc : s.kpc i = .waitxRet z rtime wtime read) :
    (∀ cur ticks t, waitx cur ticks t = wait cur ticks t) ∧
    ∃ sz sz' s₁ c, Reach (kernStep flag) slotKept (Kern.boot C) sz ∧
      kernStep flag sz (.waitScan c) = some sz' ∧ ReapStep i z sz sz' ∧
      Reach (kernStep flag) slotKept sz' s₁ ∧ Reach (kernStep flag) slotKept s₁ s ∧
      rtime = (sz.proc z.slot).rtime ∧
      wtime + rtime = s₁.ticks - (sz.proc z.slot).ctime := by
  refine ⟨fun cur ticks t => waitxLoop_eq cur ticks t slots false, ?_⟩
  have hi : KInv s ∧ ∀ i, ReadsRight s.proc (s.kpc i) :=
    hr.invariant (I := fun s => KInv s ∧ ∀ i, ReadsRight s.proc (s.kpc i))
      ⟨kinv_boot C, fun i => readsRight_outside (boot_outside C i)⟩
      fun _ _ _ hi hok hs => ⟨kinv_step hi.1 hs,
        fun i => readsRight_step hi.1 (hi.2 i) (slotKept_for hok i) hs⟩
  have hright := hi.2 i
  have hreport := reportOf_reach (boot_outside C) hr i z (by rw [hpc]; rfl)
  rw [hpc] at hright hreport
  obtain ⟨sz, sz', s₁, c, h1, h2, h3, h4, h5, h6⟩ := hreport
  refine ⟨sz, sz', s₁, c, h1, h2, h3, h4, h5, ?_, ?_⟩
  · rw [← h3.rtime]
    exact hright.1
  · rw [← h3.ctime, h6 read rfl]
    exact hright.2

/-- `init` forks two children. The first runs for a tick on CPU 1, which a pass
of CPU 0 charges it for, and exits; the second takes its place, and `init`
reaps the first. -/
def reapedChild : List (KAct 2) :=
  acctOf 0 0 ++ [.schedGo 0, .release 0] ++ forkOf 0 ++ forkOf 0 ++
    acctOf 1 1 ++ [.schedGo 1, .release 1, .tick, .timer 0, .schedGo 0, .release 0,
      .timer 0, .schedGo 0] ++ acctOf 0 1 ++ [.schedGo 0, .release 0, .exit 1,
      .schedGo 1, .release 1, .waitCall 0 true, .waitScan 0]

/-- The report of a `waitx` that nobody interferes with. -/
theorem waitx_reports_child :
    ∃ (s : Kern 2) (z : Reaped) (rtime wtime read : Ticks),
      Reach (kernStep 'R') slotKept (Kern.boot 2) s ∧
      s.kpc 0 = .waitxRet z rtime wtime read ∧ z.slot = 1 ∧ rtime = 1 ∧
      ∃ sz sz' s₁ c, Reach (kernStep 'R') slotKept (Kern.boot 2) sz ∧
        kernStep 'R' sz (.waitScan c) = some sz' ∧ ReapStep 0 z sz sz' ∧
        Reach (kernStep 'R') slotKept sz' s₁ ∧ Reach (kernStep 'R') slotKept s₁ s ∧
        rtime = (sz.proc z.slot).rtime ∧
        wtime + rtime = s₁.ticks - (sz.proc z.slot).ctime := by
  have hrun : (exec (kernStep 'R') slotKept (Kern.boot 2)
      (reapedChild ++ List.replicate 4 (.waitxRead 0))).any
      (fun s => s.kpc 0 = .waitxRet ⟨1, 2, 1, 0⟩ 1 0 1) = true := by
    decide +kernel
  obtain ⟨s, hr, hp⟩ := exists_reach_of_exec hrun
  have hpc := of_decide_eq_true hp
  exact ⟨s, _, _, _, _, hr, hpc, rfl, rfl,
    (waitx_reports hr hpc).2⟩

/-- The second child forks before `waitx` reads: `allocproc` finds the slot of
the first one. `waitx` returns the pid of the reaped child with the times of the
new one. -/
theorem waitx_reads_reused :
    ∃ (s sz sz' : Kern 2) (c : Fin 2) (z : Reaped) (rtime wtime read : Ticks),
      Reach (kernStep 'R') anyStep (Kern.boot 2) sz ∧
      kernStep 'R' sz (.waitScan c) = some sz' ∧ ReapStep 0 z sz sz' ∧
      Reach (kernStep 'R') anyStep sz' s ∧
      s.kpc 0 = .waitxRet z rtime wtime read ∧ 0 < z.pid ∧
      rtime ≠ (sz.proc z.slot).rtime := by
  have hrun : (exec (kernStep 'R') anyStep (Kern.boot 2)
      (reapedChild ++ .fork 1 :: List.replicate 4 (.waitxRead 0))).any
      (fun s => s.kpc 0 = .waitxRet ⟨1, 2, 1, 0⟩ 0 0 1) = true := by
    decide +kernel
  obtain ⟨s, hr, hp⟩ := exists_reach_of_exec hrun
  have hpc := of_decide_eq_true hp
  obtain ⟨sz, sz', s₁, c, h1, h2, h3, h4, h5, _⟩ :=
    reportOf_reach (boot_outside 2) hr 0 ⟨1, 2, 1, 0⟩ (by rw [hpc]; rfl)
  refine ⟨s, sz, sz', c, _, _, _, _, h1, h2, h3, h4.trans h5, hpc, by decide, ?_⟩
  rw [← h3.rtime]
  decide

end Xv6.Ref
