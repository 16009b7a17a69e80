import Xv6.Proofs.ProcLife

/-!
# The process table as a state machine

Who is RUNNING, and who is returned by `wait`. A process is RUNNING exactly as
long as some CPU has been switched to it: `KInv` has one direction, and the
other is that the only way off a CPU is a section that writes another state
before it calls `sched`. While `ptable.lock` is free a scheduler thread is at
the head of its loop or switched away, so `c->proc` says the same.

A pid is returned when its slot is found ZOMBIE by the process that is its
parent then; from that step on the pid is below `nextpid` and nobody has it.
-/

namespace Xv6.Ref

open Xv6.Lib

variable {C : Nat} {flag : Char} {s s' : Kern C}

/-! ## On a CPU and RUNNING -/

theorem enterSched_left {t : Kern C} {c d : Fin C} {i j : Slot} {pc : KPc}
    {k k' : Resume} (h : enterSched t d j pc = some s') (hsched : t.sched = s.sched)
    (haway : s.sched c = .away k') (hback : s'.sched c = .back k)
    (hcpu : s.cpu c = some i) (hon : s.cpu d = some j)
    (hst : (t.proc j).state ≠ .RUNNING) :
    (s'.proc i).state ≠ .RUNNING := by
  obtain ⟨_, _, rfl⟩ := enterSched_some h
  by_cases he : c = d
  · subst he
    obtain rfl : i = j := Option.some.inj (hcpu.symm.trans hon)
    exact hst
  · simp only [setSched_apply, if_neg he, setKpc_sched] at hback
    rw [hsched, haway] at hback
    cases hback

theorem CpuFrame.stays (hf : CpuFrame s s') {c : Fin C} {k k' : Resume}
    (haway : s.sched c = .away k') (hback : s'.sched c = .back k) : False := by
  rw [hf.1, haway] at hback
  cases hback

/-- The scheduler threads never send a process away. -/
theorem SchedPc.not_back {c d : Fin C} {k k' : Resume} (pc : SchedPc)
    (haway : s.sched c = .away k') (hpc : pc.inPass = true → pc.accounting = true)
    (hsched : s'.sched = Function.update s.sched d pc) (hback : s'.sched c = .back k) :
    False := by
  rw [hsched, Function.update_apply] at hback
  split at hback
  · rw [hback] at hpc
    exact absurd (hpc rfl) nofun
  · rw [haway] at hback
    cases hback

/-- A process that leaves its CPU is not RUNNING any more. -/
theorem kernStep_left {a : KAct C} (h : kernStep flag s a = some s') {c : Fin C}
    {i : Slot} {k k' : Resume} (hcpu : s.cpu c = some i) (haway : s.sched c = .away k')
    (hback : s'.sched c = .back k) : (s'.proc i).state ≠ .RUNNING := by
  have hstay : CpuFrame s s' → (s'.proc i).state ≠ .RUNNING :=
    fun hf => (hf.stays haway hback).elim
  cases a <;> simp only [kernStep] at h
  case tick => cases h; exact hstay ⟨rfl, rfl⟩
  case wakeup a => cases (locked_some.mp h).2; exact hstay ⟨rfl, rfl⟩
  case kill pid => cases (locked_some.mp h).2; exact hstay ⟨rfl, rfl⟩
  case schedLock d =>
      split at h
      · cases (locked_some.mp h).2
        exact (SchedPc.not_back (.acct 0) haway (fun _ => rfl) rfl hback).elim
      · cases h
  case schedAcct d =>
      have h := (holding_some.mp h).2
      simp only [schedAcct] at h
      split at h
      · next e _ =>
          split at h <;> cases h
          · exact (SchedPc.not_back (.acct' e s.ticks) haway (fun _ => rfl) rfl
              hback).elim
          · exact (SchedPc.not_back _ haway (fun _ => acctNext_accounting e) rfl
              hback).elim
      · next e _ _ =>
          cases h
          exact (SchedPc.not_back _ haway (fun _ => acctNext_accounting e) rfl hback).elim
      · cases h
  case schedGo d =>
      rcases schedGo_some (holding_some.mp h).2 with ⟨_, rfl⟩ | ⟨p, k, _, rfl⟩
      · exact (SchedPc.not_back .top haway (by rintro ⟨⟩) rfl hback).elim
      · exact (SchedPc.not_back (.away k) haway (by rintro ⟨⟩) rfl hback).elim
  all_goals obtain ⟨j, _, hon, _, h⟩ := onCpu_some.mp h
  case release d _ => exact hstay (release_frame (holding_some.mp h).2)
  case timer d _ =>
      split at h
      · exact enterSched_left (locked_some.mp h).2 rfl haway hback hcpu hon (by simp)
      · cases h
  case setpriority d n _ => exact hstay (setpriority_frame h).1
  case yield d _ =>
      split at h
      · exact enterSched_left (locked_some.mp h).2 rfl haway hback hcpu hon (by simp)
      · cases h
  case sleep d a _ =>
      split at h
      · exact enterSched_left (locked_some.mp h).2 rfl haway hback hcpu hon (by simp)
      · cases h
  case exit d _ =>
      have h := (locked_some.mp h).2
      simp only [exit] at h
      split at h
      · cases h
      · exact enterSched_left h rfl haway hback hcpu hon
          (by rw [((exitSection_spec j s.ticks s.proc j).2 rfl).2]; rintro ⟨⟩)
  case fork d _ => exact hstay (fork_frame (locked_some.mp h).2)
  case forkAlloc d _ => exact hstay (forkAlloc_frame (holding_some.mp h).2)
  case forkKalloc d ok _ => exact hstay (forkKalloc_frame h).1
  case forkCopy d ok _ => exact hstay (forkCopy_frame h).1
  case forkPublish d _ => exact hstay (forkPublish_frame (locked_some.mp h).2)
  case waitCall d x _ => exact hstay (waitCall_frame (locked_some.mp h).2)
  case waitScan d _ =>
      have h := (holding_some.mp h).2
      simp only [waitScan] at h
      split at h
      · split at h
        · cases h; exact hstay ⟨rfl, rfl⟩
        · cases h; exact hstay ⟨rfl, rfl⟩
        · exact enterSched_left h rfl haway hback hcpu hon (by simp)
      · cases h
  case waitxRead d _ => exact hstay (waitxRead_frame h).1
  case waitxDone d _ => exact hstay (waitxDone_frame h).1

/-- What `c->proc` says, and who is RUNNING. -/
structure CpuInv (s : Kern C) : Prop where
  placed : ∀ i, (s.proc i).state = .RUNNING → ∃ c, OnCpu s c i
  idle : ∀ c, s.sched c = .top → s.cpu c = none

theorem cpuInv_boot (C : Nat) : CpuInv (Kern.boot C) where
  placed := by
    intro i h
    simp only [Kern.boot, Function.update_apply] at h
    split at h <;> cases h
  idle := fun _ _ => rfl

/-- A CPU keeps its process until that process leaves. -/
theorem onCpu_next {a : KAct C} (h : kernStep flag s a = some s') {c : Fin C}
    {i : Slot} (hc : OnCpu s c i) : OnCpu s' c i ∨ ∃ k, s'.sched c = .back k := by
  obtain ⟨hcpu, k, haway⟩ := hc
  cases kernStep_sched h with
  | keep frame lock =>
      exact Or.inl ⟨by rw [frame.2]; exact hcpu, k, by rw [frame.1]; exact haway⟩
  | lock d top free next =>
      have hne : c ≠ d := by
        rintro rfl
        rw [haway] at top
        cases top
      subst next
      exact Or.inl ⟨hcpu, k, by simp [hne, haway]⟩
  | acct d pc act held inside still sched cpu lock =>
      have hne : c ≠ d := by
        rintro rfl
        rw [haway] at inside
        cases inside
      exact Or.inl ⟨by rw [cpu]; exact hcpu, k, by
        rw [sched, Function.update_of_ne hne]; exact haway⟩
  | finish d act held stop next =>
      have hne : c ≠ d := by
        rintro rfl
        simp [schedNext, haway] at stop
      subst next
      exact Or.inl ⟨by simp [endPass, hne, hcpu], k, by simp [endPass, hne, haway]⟩
  | run d p k' act held pick next =>
      have hne : c ≠ d := by
        rintro rfl
        simp [schedNext, haway] at pick
      subst next
      exact Or.inl ⟨by simp [dispatch, hne, hcpu], k, by simp [dispatch, hne, haway]⟩
  | leave d j k' on away free sched cpu lock =>
      by_cases hne : c = d
      · exact Or.inr ⟨k', by rw [sched, hne, Function.update_self]⟩
      · exact Or.inl ⟨by rw [cpu]; exact hcpu, k, by
          rw [sched, Function.update_of_ne hne]; exact haway⟩

theorem cpuInv_step {a : KAct C} (hi : CpuInv s)
    (h : kernStep flag s a = some s') : CpuInv s' where
  placed := by
    intro i hrun
    have hkeep : (s.proc i).state = .RUNNING → ∃ c, OnCpu s' c i := by
      intro hst
      obtain ⟨c, hc⟩ := hi.placed i hst
      rcases onCpu_next h hc with hc' | ⟨k, hback⟩
      · exact ⟨c, hc'⟩
      · obtain ⟨hcpu, k', haway⟩ := hc
        exact absurd hrun (kernStep_left h hcpu haway hback)
    cases kernStep_table h i with
    | woken hw =>
        rcases hw.2 with hs | ⟨_, hs⟩
        · exact hkeep (hs.symm.trans hrun)
        · rw [hrun] at hs; cases hs
    | priority n bounds h => rw [h] at hrun; exact hkeep hrun
    | charge c act at' next running h => exact hkeep running
    | check c act at' next h => rw [h] at hrun; exact hkeep hrun
    | run c k act pick hp =>
        subst act
        rcases schedGo_some (holding_some.mp h).2 with ⟨hn, _⟩ | ⟨p, k', hn, rfl⟩
        · rw [pick] at hn; cases hn
        · rw [pick] at hn
          cases hn
          exact ⟨c, by simp [dispatch], k, by simp [dispatch]⟩
    | leave c k act on away free back times next =>
        exact absurd hrun (kernStep_left h on away back)
    | alloc c act unused found ran h => rw [h] at hrun; cases hrun
    | alloc' j at' h => rw [h] at hrun; exact hkeep hrun
    | freed j at' next h => rw [h] at hrun; cases hrun
    | publish j at' next h => rw [h] at hrun; cases hrun
    | reap zombie h => rw [h] at hrun; cases hrun
  idle := by
    intro c htop
    cases kernStep_sched h with
    | keep frame lock => rw [frame.1] at htop; rw [frame.2]; exact hi.idle c htop
    | lock d top free next =>
        subst next
        simp only [setSched_apply] at htop
        split at htop
        · cases htop
        · exact hi.idle c htop
    | acct d pc act held inside still sched cpu lock =>
        rw [sched, Function.update_apply] at htop
        rw [cpu]
        split at htop
        · rw [htop] at still; cases still
        · exact hi.idle c htop
    | finish d act held stop next =>
        subst next
        simp only [endPass, setSched_apply, Function.update_apply] at htop ⊢
        split at htop
        · next he => rw [if_pos he]
        · next hne => rw [if_neg hne]; exact hi.idle c htop
    | run d p k act held pick next =>
        subst next
        simp only [dispatch, setSched_apply, Function.update_apply, setProc_sched] at htop ⊢
        split at htop
        · cases htop
        · next hne => rw [if_neg hne]; exact hi.idle c htop
    | leave d j k on away free sched cpu lock =>
        rw [sched, Function.update_apply] at htop
        rw [cpu]
        split at htop
        · cases htop
        · exact hi.idle c htop

theorem cpuInv_reach {ok : Kern C → KAct C → Prop}
    (h : Reach (kernStep flag) ok (Kern.boot C) s) : CpuInv s :=
  h.invariant (cpuInv_boot C) fun _ _ _ hi _ hs => cpuInv_step hi hs

/-- With the lock free, `c->proc` is the process CPU `c` is running. -/
theorem cpu_iff_onCpu (hk : KInv s) (hi : CpuInv s) (hfree : s.lock = none) {c : Fin C}
    {i : Slot} : s.cpu c = some i ↔ OnCpu s c i := by
  refine ⟨fun hc => ⟨hc, ?_⟩, fun hc => hc.1⟩
  have hpass := hk.lock_free (free_of_none hfree) c
  cases hs : s.sched c with
  | away k => exact ⟨k, rfl⟩
  | top =>
      rw [hi.idle c hs] at hc
      cases hc
  | _ => rw [hs] at hpass; cases hpass

/-! ## Returned by `wait` -/

/-- The caller, the slot and the pid, when the step is the pass of a `wait` or
`waitx` that ends in returning that pid. -/
def Kern.returns (s : Kern C) : KAct C → Option (Slot × Slot × Int)
  | .waitScan c =>
      match s.cpu c with
      | some i =>
          match s.kpc i with
          | .scan x =>
              match (if x = true then waitx i s.ticks s.proc
                else wait i s.ticks s.proc) with
              | (.reaped z pid, _) => some (i, z, pid)
              | _ => none
          | _ => none
      | none => none
  | _ => none

/-- Such a step finds a zombie child of the caller, and is the step that buries
it. -/
theorem returns_some {a : KAct C} {i z : Slot} {pid : Int}
    (h : s.returns a = some (i, z, pid)) (hs : kernStep flag s a = some s') :
    (s.proc z).state = .ZOMBIE ∧ (s.proc z).parent = some i ∧ (s.proc z).pid = pid ∧
      (∀ j, j ≠ z → s'.proc j = s.proc j) ∧ s'.proc z = reap s.ticks (s.proc z) ∧
      s'.nextpid = s.nextpid := by
  cases a <;> simp only [Kern.returns] at h
  case waitScan c =>
      obtain ⟨j, k, hon, _, hs⟩ := onCpu_some.mp hs
      rw [hon] at h
      dsimp only at h
      have hs := (holding_some.mp hs).2
      simp only [waitScan] at hs
      split at h
      · next x hx =>
          rw [hx] at hs
          dsimp only at hs
          rw [scan_eq] at h hs
          rcases waitLoop_cases j s.ticks s.proc slots false with
            ⟨y, hy, hp, hw⟩ | hw | hw
          · rw [wait, hw] at h hs
            cases h
            cases hs
            exact ⟨hy, hp, rfl, fun l hl => Table.modify_other _ hl _,
              Table.modify_same _ _ _, rfl⟩
          · rw [wait, hw] at h
            cases h
          · rw [wait, hw] at h
            cases h
      · cases h
  all_goals cases h

/-- A ZOMBIE stays one until its pid is returned. -/
theorem zombie_step {a : KAct C} (hk : KInv s) (h : kernStep flag s a = some s')
    {z : Slot} (hz : (s.proc z).state = .ZOMBIE) :
    (s'.proc z).state = .ZOMBIE ∨ ∃ i, s.returns a = some (i, z, (s.proc z).pid) := by
  cases kernStep_event h with
  | quiet frame ids => exact Or.inl ((ids z).1.trans hz)
  | wake frame a h => exact Or.inl (h ▸ (wakeup1_nudged _ _).zombie hz)
  | kill frame pid act h => exact Or.inl (h ▸ (kill_nudged _ _).zombie hz)
  | exit frame c i on init pc h =>
      have he := exited_section i s.ticks s.proc
      rw [← h] at he
      by_cases hzi : z = i
      · rw [hzi]; exact Or.inl he.zombie
      · rcases he.other z hzi with hs | ⟨hs, _⟩
        · exact Or.inl (hs.trans hz)
        · rw [hz] at hs; cases hs
  | own frame c i on other h pc =>
      refine Or.inl ?_
      rw [other z]
      · exact hz
      · rintro rfl
        rw [hk.running c z on] at hz
        cases hz
  | run frame c p on ready other h =>
      refine Or.inl ?_
      rw [other z]
      · exact hz
      · rintro rfl
        rw [ready] at hz
        cases hz
  | alloc c i np act on found other h pid pcs =>
      refine Or.inl ?_
      rw [other z]
      · exact hz
      · rintro rfl
        rw [findUnused_some found] at hz
        cases hz
  | freed frame i np pc pc' other h =>
      refine Or.inl ?_
      rw [other z]
      · exact hz
      · rintro rfl
        rw [hk.embryo i z pc] at hz
        cases hz
  | adopt c i np on pc pcs other h pid =>
      refine Or.inl ?_
      by_cases he : z = np
      · rw [he] at hz ⊢
        rw [h]
        exact hz
      · rw [other z he]; exact hz
  | publish frame c i np act on pc other h =>
      refine Or.inl ?_
      rw [other z]
      · exact hz
      · rintro rfl
        rw [hk.embryo i z (by rw [pc]; rfl)] at hz
        cases hz
  | reap frame c i y x act on pc zombie parent scan other h =>
      by_cases he : z = y
      · subst he
        subst act
        refine Or.inr ⟨i, ?_⟩
        simp only [Kern.returns, on.1, pc]
        rw [scan_eq, scan]
      · exact Or.inl (by rw [other z he]; exact hz)

/-- The pid was given out and nobody has it any more. -/
def Gone (s : Kern C) (pid : Int) : Prop :=
  pid < s.nextpid ∧ ∀ j, (s.proc j).state ≠ .UNUSED → (s.proc j).pid ≠ pid

/-- A slot in use was in use with the same pid, or has just got a new one. -/
theorem pid_step {a : KAct C} (hk : KInv s) (h : kernStep flag s a = some s') :
    s.nextpid ≤ s'.nextpid ∧ ∀ j, (s'.proc j).state ≠ .UNUSED →
      ((s.proc j).state ≠ .UNUSED ∧ (s'.proc j).pid = (s.proc j).pid) ∨
        (s'.proc j).pid = s.nextpid := by
  have hcalm : Calm s s' → s.nextpid ≤ s'.nextpid ∧ ∀ j, (s'.proc j).state ≠ .UNUSED →
      ((s.proc j).state ≠ .UNUSED ∧ (s'.proc j).pid = (s.proc j).pid) ∨
        (s'.proc j).pid = s.nextpid :=
    fun hc => ⟨le_of_eq hc.frame.pid.symm, fun j hj => Or.inl ⟨hc.unused hj, hc.pid j⟩⟩
  -- A step on one slot, in use before it.
  have hslot : ∀ i, s'.nextpid = s.nextpid → (∀ j, j ≠ i → s'.proc j = s.proc j) →
      ((s'.proc i).state ≠ .UNUSED → (s.proc i).state ≠ .UNUSED ∧
        (s'.proc i).pid = (s.proc i).pid) →
      s.nextpid ≤ s'.nextpid ∧ ∀ j, (s'.proc j).state ≠ .UNUSED →
        ((s.proc j).state ≠ .UNUSED ∧ (s'.proc j).pid = (s.proc j).pid) ∨
          (s'.proc j).pid = s.nextpid := by
    intro i hn hother hi
    refine ⟨le_of_eq hn.symm, fun j hj => Or.inl ?_⟩
    by_cases he : j = i
    · subst he; exact hi hj
    · rw [hother j he] at hj ⊢
      exact ⟨hj, rfl⟩
  cases kernStep_event h with
  | quiet frame ids => exact hcalm (calm_quiet frame ids)
  | wake frame a h =>
      exact hcalm (calm_nudged frame (h ▸ wakeup1_nudged _ _) (h ▸ wakeup1_parent _ _))
  | kill frame pid act h =>
      exact hcalm (calm_nudged frame (h ▸ kill_nudged _ _) (h ▸ kill_parent _ _))
  | exit frame c i on init pc h =>
      have he := exited_section i s.ticks s.proc
      rw [← h] at he
      refine ⟨le_of_eq frame.pid.symm, fun j hj => Or.inl ⟨fun hu => ?_, he.pid j⟩⟩
      by_cases hji : j = i
      · rw [hji, hk.running c i on] at hu
        cases hu
      · rcases he.other j hji with hs | ⟨hs, _⟩
        · exact hj (hs.trans hu)
        · rw [hu] at hs; cases hs
  | own frame c i on other h pc => exact hcalm (calm_own hk frame on other h pc)
  | run frame c p on ready other h => exact hcalm (calm_run frame ready other h)
  | alloc c i np act on found other h pid pcs =>
      refine ⟨by omega, fun j hj => ?_⟩
      by_cases he : j = np
      · subst he; rw [h]; exact Or.inr rfl
      · rw [other j he] at hj ⊢
        exact Or.inl ⟨hj, rfl⟩
  | freed frame i np pc pc' other h =>
      exact hslot np frame.pid other fun hn => absurd (by rw [h]) hn
  | adopt c i np on pc pcs other h pid =>
      refine hslot np pid other fun _ => ⟨?_, by rw [h]⟩
      rw [hk.embryo i np (by rw [pc]; rfl)]
      nofun
  | publish frame c i np act on pc other h =>
      refine hslot np frame.pid other fun _ => ⟨?_, by rw [h]⟩
      rw [hk.embryo i np (by rw [pc]; rfl)]
      nofun
  | reap frame c i z x act on pc zombie parent scan other h =>
      exact hslot z frame.pid other fun hn => absurd (by rw [h]; rfl) hn

theorem gone_step {a : KAct C} (hk : KInv s) (h : kernStep flag s a = some s') {pid : Int}
    (hg : Gone s pid) : Gone s' pid := by
  obtain ⟨hn, hp⟩ := pid_step hk h
  have hlt := hg.1
  refine ⟨by omega, fun j hj => ?_⟩
  rcases hp j hj with ⟨hj', he⟩ | he
  · rw [he]; exact hg.2 j hj'
  · rw [he]; omega

theorem gone_reach {ok : Kern C → KAct C → Prop} (hk : KInv s) {pid : Int}
    (hg : Gone s pid) (h : Reach (kernStep flag) ok s s') : KInv s' ∧ Gone s' pid :=
  h.invariant (I := fun s => KInv s ∧ Gone s pid) ⟨hk, hg⟩
    fun _ _ _ hi _ hs => ⟨kinv_step hi.1 hs, gone_step hi.1 hs hi.2⟩

theorem gone_of_returns {a : KAct C} (hi : LifeInv s) {i z : Slot} {pid : Int}
    (hret : s.returns a = some (i, z, pid)) (h : kernStep flag s a = some s') :
    Gone s' pid := by
  obtain ⟨hz, _, rfl, hother, hreap, hn⟩ := returns_some hret h
  have hlive : (s.proc z).state ≠ .UNUSED := by rw [hz]; nofun
  refine ⟨by rw [hn]; exact hi.pids z, fun j hj => ?_⟩
  have hjz : j ≠ z := by
    rintro rfl
    rw [hreap] at hj
    exact hj rfl
  rw [hother j hjz] at hj ⊢
  exact fun he => hjz (hi.distinct j z hj hlive he)

/-- The process table in every state the kernel can reach. -/
theorem process_table (hr : Reach (kernStep flag) anyStep (Kern.boot C) s) :
    (s.lock = none → ∀ i, ((s.proc i).state = .RUNNING ↔ ∃! c, s.cpu c = some i) ∧
      ∀ c d, s.cpu c = some i → s.cpu d = some i → c = d) ∧
    (∀ i, (s.proc i).state ≠ .UNUSED → 0 < (s.proc i).pid) ∧
    (∀ i j, (s.proc i).state ≠ .UNUSED → (s.proc j).state ≠ .UNUSED →
      (s.proc i).pid = (s.proc j).pid → i = j) ∧
    ∀ a s', kernStep flag s a = some s' →
      (∀ z, (s.proc z).state = .ZOMBIE → (s'.proc z).state = .UNUSED →
        ∃ i, s.returns a = some (i, z, (s.proc z).pid)) ∧
      ∀ i z pid, s.returns a = some (i, z, pid) →
        (s.proc z).parent = some i ∧ (s.proc z).pid = pid ∧
        (s.proc z).state = .ZOMBIE ∧ (s'.proc z).state = .UNUSED ∧
        ∀ s₂ a₂ s₂' i₂ z₂ pid₂, Reach (kernStep flag) anyStep s' s₂ →
          kernStep flag s₂ a₂ = some s₂' → s₂.returns a₂ = some (i₂, z₂, pid₂) →
          pid₂ ≠ pid := by
  obtain ⟨hk, hi⟩ := lifeInv_reach hr
  have hc := cpuInv_reach hr
  refine ⟨?_, hi.live, hi.distinct, ?_⟩
  · intro hfree i
    have hiff : ∀ c, s.cpu c = some i ↔ OnCpu s c i := fun c => cpu_iff_onCpu hk hc hfree
    have hone : ∀ c d, s.cpu c = some i → s.cpu d = some i → c = d :=
      fun c d h1 h2 => hk.one c d i ((hiff c).mp h1) ((hiff d).mp h2)
    refine ⟨⟨fun hrun => ?_, fun ⟨c, hcpu, _⟩ => ?_⟩, hone⟩
    · obtain ⟨c, hon⟩ := hc.placed i hrun
      exact ⟨c, (hiff c).mpr hon, fun d hd => hone d c hd ((hiff c).mpr hon)⟩
    · exact hk.running c i ((hiff c).mp hcpu)
  · intro a s' hs
    refine ⟨fun z hz hz' => ?_, fun i z pid hret => ?_⟩
    · rcases zombie_step hk hs hz with h | h
      · rw [hz'] at h; cases h
      · exact h
    · obtain ⟨hz, hp, hpid, _, hreap, _⟩ := returns_some hret hs
      refine ⟨hp, hpid, hz, by rw [hreap]; rfl, ?_⟩
      intro s₂ a₂ s₂' i₂ z₂ pid₂ hr₂ hs₂ hret₂
      obtain ⟨_, hg⟩ := gone_reach (kinv_step hk hs) (gone_of_returns hi hret hs) hr₂
      obtain ⟨hz₂, _, rfl, _⟩ := returns_some hret₂ hs₂
      exact hg.2 z₂ (by rw [hz₂]; nofun)

/-- `init` forks, the child runs and exits, and `init` calls `wait`. -/
def childExits : List (KAct 1) :=
  acctOf 0 0 ++ [.schedGo 0, .release 0] ++ forkOf 0 ++ [.timer 0, .schedGo 0,
    .release 0, .exit 0, .schedGo 0] ++ acctOf 0 0 ++ [.schedGo 0, .release 0,
    .waitCall 0 false]

theorem process_table_wait :
    ∃ s s' : Kern 1, Reach (kernStep 'R') anyStep (Kern.boot 1) s ∧
      kernStep 'R' s (.waitScan 0) = some s' ∧
      s.returns (.waitScan 0) = some (initproc, 1, 2) ∧
      (s.proc 1).parent = some initproc ∧ (s'.proc 1).state = .UNUSED ∧
      0 < (s.proc initproc).pid := by
  have hrun : (exec (kernStep 'R') anyStep (Kern.boot 1) childExits).any (fun s =>
      (kernStep 'R' s (.waitScan 0)).isSome = true ∧
        s.returns (.waitScan 0) = some (initproc, 1, 2) ∧
        (s.proc initproc).state ≠ .UNUSED) = true := by
    decide +kernel
  obtain ⟨s, hr, hp⟩ := exists_reach_of_exec hrun
  obtain ⟨hsome, hret, hst⟩ := of_decide_eq_true hp
  obtain ⟨s', hs⟩ := Option.isSome_iff_exists.mp hsome
  obtain ⟨_, hlive, _, hstep⟩ := process_table hr
  obtain ⟨hpar, _, _, hgone, _⟩ := (hstep _ s' hs).2 _ _ _ hret
  exact ⟨s, s', hr, hs, hret, hpar, hgone, hlive _ hst⟩

end Xv6.Ref
