import Xv6.Ref.Kernel
import Xv6.Proofs.SchedPick

/-!
# What a step of the kernel can do

A step is one of twenty-odd pieces of code, and most of what is proved about
runs does not care which. This file says it once from the two sides the other
files look from: the scheduler threads with their hold on `ptable.lock`
(`SchedChange`), and a single entry of the process table (`Change`). Each
constructor carries the facts about the state before the step that the code
tested or that its place in the code implies. At the end is the third view,
the slot a `fork` in progress is setting up.
-/

namespace Xv6.Ref

open Xv6.Lib

variable {C : Nat} {flag : Char} {s s' : Kern C}

/-! ## What a step does to the scheduler threads -/

/-- The CPUs are left as they are. -/
def CpuFrame (s s' : Kern C) : Prop := s'.sched = s.sched ∧ s'.cpu = s.cpu

theorem release_frame {i : Slot} (h : release s i = some s') : CpuFrame s s' := by
  unfold release at h
  split at h <;> cases h <;> exact ⟨rfl, rfl⟩

theorem setpriority_frame {i : Slot} {n : Int} (h : setpriority s i n = some s') :
    CpuFrame s s' ∧ s'.lock = s.lock := by
  simp only [setpriority] at h
  split_ifs at h <;> cases h <;> exact ⟨⟨rfl, rfl⟩, rfl⟩

theorem fork_frame {i : Slot} (h : fork s i = some s') : CpuFrame s s' := by
  unfold fork at h
  split at h
  · cases h
  · split at h <;> cases h <;> exact ⟨rfl, rfl⟩

theorem forkAlloc_frame {i : Slot} (h : forkAlloc s i = some s') : CpuFrame s s' := by
  unfold forkAlloc at h
  split at h <;> cases h
  exact ⟨rfl, rfl⟩

theorem forkKalloc_frame {i : Slot} {ok : Bool} (h : forkKalloc s i ok = some s') :
    CpuFrame s s' ∧ s'.lock = s.lock := by
  unfold forkKalloc at h
  split at h
  · split at h <;> cases h <;> exact ⟨⟨rfl, rfl⟩, rfl⟩
  · cases h

theorem forkCopy_frame {i : Slot} {ok : Bool} (h : forkCopy s i ok = some s') :
    CpuFrame s s' ∧ s'.lock = s.lock := by
  unfold forkCopy at h
  split at h
  · split at h <;> cases h <;> exact ⟨⟨rfl, rfl⟩, rfl⟩
  · cases h

theorem forkPublish_frame {i : Slot} (h : forkPublish s i = some s') :
    CpuFrame s s' := by
  unfold forkPublish at h
  split at h <;> cases h
  exact ⟨rfl, rfl⟩

theorem waitCall_frame {i : Slot} {x : Bool} (h : waitCall s i x = some s') :
    CpuFrame s s' := by
  unfold waitCall at h
  split at h <;> cases h
  exact ⟨rfl, rfl⟩

theorem waitxRead_frame {i : Slot} (h : waitxRead s i = some s') :
    CpuFrame s s' ∧ s'.lock = s.lock := by
  unfold waitxRead at h
  split at h <;> cases h <;> exact ⟨⟨rfl, rfl⟩, rfl⟩

theorem waitxDone_frame {i : Slot} (h : waitxDone s i = some s') :
    CpuFrame s s' ∧ s'.lock = s.lock := by
  unfold waitxDone at h
  split at h <;> cases h
  exact ⟨⟨rfl, rfl⟩, rfl⟩

/-- Where a scheduler thread is inside the accounting loop, or behind it. -/
def SchedPc.accounting : SchedPc → Bool
  | .acct _ | .acct' _ _ | .switch => true
  | _ => false

/-- What a step can do to the scheduler threads and their hold on the lock.
`free` says that no scheduler holds it. -/
inductive SchedChange (flag : Char) (s : Kern C) (a : KAct C) (s' : Kern C) : Prop
  | keep (frame : CpuFrame s s')
      (lock : s'.lock = s.lock ∨ ∀ d, s.lock ≠ some (.cpu d))
  | lock (c : Fin C) (top : s.sched c = .top) (free : s.lock = none)
      (next : s' = { s.setSched c (.acct 0) with lock := some (.cpu c) })
  | acct (c : Fin C) (pc : SchedPc) (act : a = .schedAcct c)
      (held : s.lock = some (.cpu c)) (inside : (s.sched c).accounting = true)
      (still : pc.accounting = true) (sched : s'.sched = Function.update s.sched c pc)
      (cpu : s'.cpu = s.cpu) (lock : s'.lock = s.lock)
  | finish (c : Fin C) (act : a = .schedGo c) (held : s.lock = some (.cpu c))
      (stop : schedNext flag s c = some none) (next : s' = endPass s c)
  | run (c : Fin C) (p : Slot) (k : Resume) (act : a = .schedGo c)
      (held : s.lock = some (.cpu c))
      (pick : schedNext flag s c = some (some (p, k))) (next : s' = dispatch s c p k)
  | leave (c : Fin C) (i : Slot) (k : Resume) (on : s.cpu c = some i)
      (away : s.sched c = .away k) (free : ∀ d, s.lock ≠ some (.cpu d))
      (sched : s'.sched = Function.update s.sched c (.back k)) (cpu : s'.cpu = s.cpu)
      (lock : s'.lock = some (.cpu c))

theorem enterSched_leave {t : Kern C} {a : KAct C} {c : Fin C} {i j : Slot} {pc : KPc}
    (h : enterSched t c j pc = some s') (hs : t.sched = s.sched) (hc : t.cpu = s.cpu)
    (hon : s.cpu c = some i) (hfree : ∀ d, s.lock ≠ some (.cpu d)) :
    SchedChange flag s a s' := by
  obtain ⟨k, hk, rfl⟩ := enterSched_some h
  refine .leave c i k hon (hs ▸ hk) hfree ?_ hc rfl
  exact congrArg (Function.update · c _) hs

theorem acctNext_accounting (i : Slot) : (acctNext i).accounting = true := by
  unfold acctNext
  split <;> rfl

theorem schedAcct_change {c : Fin C} (hl : s.lock = some (.cpu c))
    (h : schedAcct s c = some s') : SchedChange flag s (.schedAcct c) s' := by
  unfold schedAcct at h
  split at h
  · next i hi =>
      have hfrom : (s.sched c).accounting = true := by rw [hi]; rfl
      split at h <;> cases h
      · exact .acct c _ rfl hl hfrom rfl rfl rfl rfl
      · exact .acct c _ rfl hl hfrom (acctNext_accounting i) rfl rfl rfl
  · next i r hi =>
      cases h
      exact .acct c _ rfl hl (by rw [hi]; rfl) (acctNext_accounting i) rfl rfl rfl
  · cases h

theorem waitScan_change {a : KAct C} {c : Fin C} {i : Slot} (hon : s.cpu c = some i)
    (hl : ∀ d, s.lock ≠ some (.cpu d)) (h : waitScan s c i = some s') :
    SchedChange flag s a s' := by
  unfold waitScan at h
  split at h
  · split at h
    · cases h
      exact .keep ⟨rfl, rfl⟩ (Or.inr hl)
    · cases h
      exact .keep ⟨rfl, rfl⟩ (Or.inr hl)
    · exact enterSched_leave h rfl rfl hon hl
  · cases h

theorem exit_change {a : KAct C} {c : Fin C} {i : Slot} (hon : s.cpu c = some i)
    (hl : ∀ d, s.lock ≠ some (.cpu d)) (h : exit s c i = some s') :
    SchedChange flag s a s' := by
  unfold exit at h
  split at h
  · cases h
  · exact enterSched_leave h rfl rfl hon hl

theorem free_of_none (h : s.lock = none) (d : Fin C) : s.lock ≠ some (.cpu d) := by
  rw [h]
  nofun

theorem free_of_proc {i : Slot} (h : s.lock = some (.proc i)) (d : Fin C) :
    s.lock ≠ some (.cpu d) := by
  rw [h]
  nofun

theorem kernStep_sched {a : KAct C} (h : kernStep flag s a = some s') :
    SchedChange flag s a s' := by
  cases a <;> simp only [kernStep] at h
  case tick =>
      cases h
      exact .keep ⟨rfl, rfl⟩ (Or.inl rfl)
  case wakeup a =>
      obtain ⟨_, h⟩ := locked_some.mp h
      cases h
      exact .keep ⟨rfl, rfl⟩ (Or.inl rfl)
  case kill pid =>
      obtain ⟨_, h⟩ := locked_some.mp h
      cases h
      exact .keep ⟨rfl, rfl⟩ (Or.inl rfl)
  case schedLock c =>
      split at h
      · next ht =>
          obtain ⟨hl, h⟩ := locked_some.mp h
          cases h
          exact .lock c ht hl rfl
      · cases h
  case schedAcct c =>
      obtain ⟨hl, h⟩ := holding_some.mp h
      exact schedAcct_change hl h
  case schedGo c =>
      obtain ⟨hl, h⟩ := holding_some.mp h
      rcases schedGo_some h with ⟨hn, hs⟩ | ⟨p, k, hn, hs⟩
      · exact .finish c rfl hl hn hs
      · exact .run c p k rfl hl hn hs
  all_goals obtain ⟨i, k, hon, _, h⟩ := onCpu_some.mp h
  case release c =>
      obtain ⟨hl, h⟩ := holding_some.mp h
      exact .keep (release_frame h) (Or.inr (free_of_proc hl))
  case timer c =>
      split at h
      · obtain ⟨hl, h⟩ := locked_some.mp h
        exact enterSched_leave h rfl rfl hon (free_of_none hl)
      · cases h
  case setpriority c n =>
      obtain ⟨hf, hl⟩ := setpriority_frame h
      exact .keep hf (Or.inl hl)
  case yield c =>
      split at h
      · obtain ⟨hl, h⟩ := locked_some.mp h
        exact enterSched_leave h rfl rfl hon (free_of_none hl)
      · cases h
  case sleep c a =>
      split at h
      · obtain ⟨hl, h⟩ := locked_some.mp h
        exact enterSched_leave h rfl rfl hon (free_of_none hl)
      · cases h
  case exit c =>
      obtain ⟨hl, h⟩ := locked_some.mp h
      exact exit_change hon (free_of_none hl) h
  case fork c =>
      obtain ⟨hl, h⟩ := locked_some.mp h
      exact .keep (fork_frame h) (Or.inr (free_of_none hl))
  case forkAlloc c =>
      obtain ⟨hl, h⟩ := holding_some.mp h
      exact .keep (forkAlloc_frame h) (Or.inr (free_of_proc hl))
  case forkKalloc c ok =>
      obtain ⟨hf, hl⟩ := forkKalloc_frame h
      exact .keep hf (Or.inl hl)
  case forkCopy c ok =>
      obtain ⟨hf, hl⟩ := forkCopy_frame h
      exact .keep hf (Or.inl hl)
  case forkPublish c =>
      obtain ⟨hl, h⟩ := locked_some.mp h
      exact .keep (forkPublish_frame h) (Or.inr (free_of_none hl))
  case waitCall c x =>
      obtain ⟨hl, h⟩ := locked_some.mp h
      exact .keep (waitCall_frame h) (Or.inr (free_of_none hl))
  case waitScan c =>
      obtain ⟨hl, h⟩ := holding_some.mp h
      exact waitScan_change hon (free_of_proc hl) h
  case waitxRead c =>
      obtain ⟨hf, hl⟩ := waitxRead_frame h
      exact .keep hf (Or.inl hl)
  case waitxDone c =>
      obtain ⟨hf, hl⟩ := waitxDone_frame h
      exact .keep hf (Or.inl hl)

/-- The dispatch a scheduler thread is in or back from. -/
def SchedPc.resume : SchedPc → Option Resume
  | .away k => some k
  | .back k => some k
  | _ => none

theorem resume_of_accounting {pc : SchedPc} (h : pc.accounting = true) :
    pc.resume = none := by
  cases pc <;> first | rfl | cases h

/-- A scheduler thread comes to a dispatch point only by dispatching there. -/
theorem kernStep_resume {a : KAct C} (h : kernStep flag s a = some s') {d : Fin C}
    {k : Resume} (hk : (s'.sched d).resume = some k) :
    (s.sched d).resume = some k ∨
      a = .schedGo d ∧ ∃ p, schedNext flag s d = some (some (p, k)) := by
  cases kernStep_sched h with
  | keep frame lock => rw [frame.1] at hk; exact Or.inl hk
  | lock c top free next =>
      subst next
      simp only [setSched_apply] at hk
      split at hk
      · cases hk
      · exact Or.inl hk
  | acct c pc act held inside still sched cpu lock =>
      rw [sched, Function.update_apply] at hk
      split at hk
      · rw [resume_of_accounting still] at hk; cases hk
      · exact Or.inl hk
  | finish c act held stop next =>
      subst next
      simp only [endPass, setSched_apply] at hk
      split at hk
      · cases hk
      · exact Or.inl hk
  | run c p k' act held pick next =>
      subst next
      simp only [dispatch, setSched_apply] at hk
      split at hk
      · next he =>
          cases hk
          subst he
          exact Or.inr ⟨act, p, pick⟩
      · exact Or.inl hk
  | leave c i k' on away free sched cpu lock =>
      rw [sched, Function.update_apply] at hk
      split at hk
      · next he => rw [he, away]; exact Or.inl hk
      · exact Or.inl hk

/-! ## What a step does to one entry of the table -/

/-- The fields the accounting and the policies read are the same. -/
def SameTimes (p q : Proc) : Prop :=
  q.ctime = p.ctime ∧ q.rtime = p.rtime ∧ q.lastCheck = p.lastCheck ∧
    q.priority = p.priority

theorem SameTimes.refl (p : Proc) : SameTimes p p := ⟨rfl, rfl, rfl, rfl⟩

theorem SameTimes.trans {p q r : Proc} (h₁ : SameTimes p q) (h₂ : SameTimes q r) :
    SameTimes p r :=
  ⟨h₂.1.trans h₁.1, h₂.2.1.trans h₁.2.1, h₂.2.2.1.trans h₁.2.2.1,
    h₂.2.2.2.trans h₁.2.2.2⟩

/-- Nothing that matters happened to the process, or it was woken. -/
def Woken (p q : Proc) : Prop :=
  SameTimes p q ∧
    (q.state = p.state ∨ p.state = .SLEEPING ∧ q.state = .RUNNABLE)

theorem Woken.refl (p : Proc) : Woken p p := ⟨.refl p, Or.inl rfl⟩

theorem Woken.trans {p q r : Proc} (h₁ : Woken p q) (h₂ : Woken q r) :
    Woken p r := by
  refine ⟨h₁.1.trans h₂.1, ?_⟩
  rcases h₁.2 with h | ⟨h, h'⟩ <;> rcases h₂.2 with g | ⟨g, g'⟩
  · exact Or.inl (g.trans h)
  · exact Or.inr ⟨h ▸ g, g'⟩
  · exact Or.inr ⟨h, g.trans h'⟩
  · exact Or.inr ⟨h, g'⟩

theorem wakeup1_woken (chan : Chan) (t : Table) (j : Slot) :
    Woken (t j) (wakeup1 chan t j) := by
  unfold wakeup1
  split
  · next h => exact ⟨⟨rfl, rfl, rfl, rfl⟩, Or.inr ⟨h.1, rfl⟩⟩
  · exact .refl _

theorem kill_woken (pid : Int) (t : Table) (j : Slot) :
    Woken (t j) ((kill pid t).getD t j) := by
  unfold kill
  split
  · exact .refl _
  · simp only [Option.getD_some, Table.modify]
    split
    · next he =>
        subst he
        refine ⟨⟨rfl, rfl, rfl, rfl⟩, ?_⟩
        dsimp only
        split
        · next hs => exact Or.inr ⟨hs, rfl⟩
        · exact Or.inl rfl
    · exact .refl _

theorem reparent_woken (cur : Slot) (j : Slot) (is : List Slot) :
    ∀ t : Table, Woken (t j) (reparent cur is t j) := by
  induction is with
  | nil => exact fun t => .refl _
  | cons i is ih =>
      intro t
      have hmod : Woken (t j)
          (t.modify i (fun p => { p with parent := some initproc }) j) := by
        unfold Table.modify
        split
        · next he => subst he; exact ⟨⟨rfl, rfl, rfl, rfl⟩, Or.inl rfl⟩
        · exact .refl _
      simp only [reparent]
      split
      · split
        · exact (hmod.trans (wakeup1_woken _ _ j)).trans (ih _)
        · exact hmod.trans (ih _)
      · exact ih t

/-- `exit` makes the caller a ZOMBIE and wakes others. -/
theorem exitSection_spec (cur : Slot) (ticks : Ticks) (t : Table) (j : Slot) :
    (j ≠ cur → Woken (t j) (exitSection cur ticks t j)) ∧
      (j = cur → SameTimes (t j) (exitSection cur ticks t j) ∧
        (exitSection cur ticks t j).state = .ZOMBIE) := by
  have hzombie : ∀ u : Table, Woken (t j) (u j) →
      (j ≠ cur → Woken (t j)
        (u.modify cur (fun p => { p with state := .ZOMBIE, etime := ticks }) j)) ∧
      (j = cur → SameTimes (t j)
          (u.modify cur (fun p => { p with state := .ZOMBIE, etime := ticks }) j) ∧
        (u.modify cur (fun p => { p with state := .ZOMBIE, etime := ticks }) j).state
          = .ZOMBIE) := by
    intro u hu
    refine ⟨fun hne => ?_, fun he => ?_⟩
    · rw [Table.modify_other _ hne]
      exact hu
    · subst he
      rw [Table.modify_same]
      exact ⟨hu.1, rfl⟩
  rw [exitSection]
  refine hzombie _ (Woken.trans ?_ (reparent_woken cur j slots _))
  cases (t cur).parent with
  | some q => exact wakeup1_woken _ _ j
  | none => exact .refl _

/-- A pass of `wait` changes nothing unless it finds a zombie child, and then
only that entry. -/
theorem waitLoop_cases (cur : Slot) (ticks : Ticks) (t : Table) (is : List Slot)
    (kids : Bool) :
    (∃ i, (t i).state = .ZOMBIE ∧ (t i).parent = some cur ∧
      waitLoop cur ticks t is kids =
        (.reaped i (t i).pid, t.modify i (reap ticks))) ∨
    waitLoop cur ticks t is kids = (.fail, t) ∨
    waitLoop cur ticks t is kids = (.sleep, t) := by
  induction is generalizing kids with
  | nil =>
      rw [waitLoop]
      split
      · exact Or.inr (Or.inl rfl)
      · exact Or.inr (Or.inr rfl)
  | cons i is ih =>
      rw [waitLoop]
      split
      · exact ih kids
      · next hp =>
          split
          · next hz => exact Or.inl ⟨i, hz, Decidable.not_not.mp hp, rfl⟩
          · exact ih true

/-- The two scans are the same loop. -/
theorem waitxLoop_eq (cur : Slot) (ticks : Ticks) (t : Table) (is : List Slot)
    (kids : Bool) : waitxLoop cur ticks t is kids = waitLoop cur ticks t is kids := by
  induction is generalizing kids with
  | nil => rfl
  | cons i is ih =>
      rw [waitxLoop, waitLoop, ih, ih]
      rfl

/-- The steps that end in a context switch. -/
def KAct.switches : KAct C → Bool
  | .schedGo _ | .timer _ | .yield _ | .sleep _ _ | .exit _ | .waitScan _ => true
  | _ => false

/-- What a step can do to slot `j`. -/
inductive Change (flag : Char) (s : Kern C) (a : KAct C) (s' : Kern C) (j : Slot) :
    Prop
  | woken (h : Woken (s.proc j) (s'.proc j))
  | priority (n : Int) (bounds : 0 ≤ n ∧ n ≤ 100)
      (h : s'.proc j = { s.proc j with priority := n })
  | charge (c : Fin C) (act : a = .schedAcct c) (at' : s.sched c = .acct j)
      (next : s'.sched c = .acct' j s.ticks) (running : (s.proc j).state = .RUNNING)
      (h : s'.proc j = { s.proc j with
        rtime := (s.proc j).rtime + (s.ticks - (s.proc j).lastCheck) })
  | check (c : Fin C) (act : a = .schedAcct c)
      (at' : (s.sched c = .acct j ∧ (s.proc j).state ≠ .RUNNING) ∨
        ∃ r, s.sched c = .acct' j r)
      (next : s'.sched c = acctNext j)
      (h : s'.proc j = { s.proc j with lastCheck := s.ticks })
  | run (c : Fin C) (k : Resume) (act : a = .schedGo c)
      (pick : schedNext flag s c = some (some (j, k)))
      (h : s'.proc j = { s.proc j with state := .RUNNING })
  | leave (c : Fin C) (k : Resume) (act : a.switches = true) (on : s.cpu c = some j)
      (away : s.sched c = .away k) (free : ∀ d, s.lock ≠ some (.cpu d))
      (back : s'.sched c = .back k)
      (times : SameTimes (s.proc j) (s'.proc j))
      (next : (s'.proc j).state = .RUNNABLE ∨ (s'.proc j).state = .SLEEPING ∨
        (a = .exit c ∧ (s'.proc j).state = .ZOMBIE))
  | alloc (c : Fin C) (act : a = .fork c) (unused : (s.proc j).state = .UNUSED)
      (found : findUnused s.proc = some j) (ran : s'.ran j = 0)
      (h : s'.proc j = allocproc s.nextpid s.ticks (s.proc j))
  | alloc' (i : Slot) (at' : s.kpc i = .alloc j)
      (h : s'.proc j = allocproc' s.ticks (s.proc j))
  | freed (i : Slot) (at' : s.kpc i = .kalloc j ∨ s.kpc i = .copyuvm j)
      (next : s'.kpc i = .user) (h : s'.proc j = { s.proc j with state := .UNUSED })
  | publish (i : Slot) (at' : s.kpc i = .publish j)
      (next : s'.kpc i = .user ∨ s'.kpc i = .forkret)
      (h : s'.proc j = { s.proc j with state := .RUNNABLE })
  | reap (zombie : (s.proc j).state = .ZOMBIE)
      (h : s'.proc j = reap s.ticks (s.proc j))

/-- A step that writes one slot only. -/
theorem Change.of_slot {a : KAct C} (i : Slot) {j : Slot}
    (hother : ∀ l, l ≠ i → s'.proc l = s.proc l) (h : Change flag s a s' i) :
    Change flag s a s' j := by
  by_cases he : j = i
  · exact he ▸ h
  · refine .woken ?_
    rw [hother j he]
    exact .refl _

theorem Change.of_eq {a : KAct C} {j : Slot} (hp : s'.proc = s.proc) :
    Change flag s a s' j := .woken (by rw [hp]; exact .refl _)

theorem findUnused_some {t : Table} {i : Slot} (h : findUnused t = some i) :
    (t i).state = .UNUSED := by
  have := List.find?_some h
  simpa using this

/-- `sched()` behind a change of the caller's own entry. -/
theorem enterSched_table {a : KAct C} {t : Kern C} {c : Fin C} {i : Slot} {k : Resume}
    {pc : KPc} (h : enterSched t c i pc = some s') (hact : a.switches = true)
    (hon : s.cpu c = some i) (haway : s.sched c = .away k)
    (hfree : ∀ d, s.lock ≠ some (.cpu d))
    (hsched : t.sched = s.sched) (hother : ∀ l, l ≠ i → t.proc l = s.proc l)
    (htimes : SameTimes (s.proc i) (t.proc i))
    (hst : (t.proc i).state = .RUNNABLE ∨ (t.proc i).state = .SLEEPING)
    (j : Slot) : Change flag s a s' j := by
  obtain ⟨k', hk', rfl⟩ := enterSched_some h
  obtain rfl : k' = k := by
    rw [hsched, haway] at hk'
    exact (SchedPc.away.inj hk').symm
  exact .of_slot i hother
    (.leave c k' hact hon haway hfree (by simp) htimes (hst.imp id Or.inl))

theorem release_table {a : KAct C} {i : Slot} (h : release s i = some s') (j : Slot) :
    Change flag s a s' j := by
  have hchan : ∀ p : Proc, Woken p { p with chan := none } :=
    fun p => ⟨⟨rfl, rfl, rfl, rfl⟩, Or.inl rfl⟩
  unfold release at h
  split at h <;> cases h
  · exact .of_eq rfl
  · exact .of_eq rfl
  · exact .of_slot i (fun l hl => by simp [hl]) (.woken (by simpa using hchan _))
  · exact .of_slot i (fun l hl => by simp [hl]) (.woken (by simpa using hchan _))

theorem setpriority_table {a : KAct C} {i : Slot} {n : Int}
    (h : setpriority s i n = some s') (j : Slot) : Change flag s a s' j := by
  simp only [setpriority] at h
  split_ifs at h with hpc hn hlt <;> cases h
  · exact .of_eq rfl
  · exact .of_slot i (fun l hl => by simp [hl]) (.priority n (by omega) (by simp))
  · exact .of_slot i (fun l hl => by simp [hl]) (.priority n (by omega) (by simp))

theorem exit_table {c : Fin C} {i : Slot} {k : Resume} (h : exit s c i = some s')
    (hon : s.cpu c = some i) (haway : s.sched c = .away k)
    (hfree : ∀ d, s.lock ≠ some (.cpu d)) (j : Slot) :
    Change flag s (.exit c) s' j := by
  unfold exit at h
  split at h
  · cases h
  · obtain ⟨k', hk', rfl⟩ := enterSched_some h
    obtain rfl : k' = k := SchedPc.away.inj (hk'.symm.trans haway)
    obtain ⟨hne, heq⟩ := exitSection_spec i s.ticks s.proc j
    by_cases he : j = i
    · obtain ⟨ht, hz⟩ := heq he
      exact .leave c k' rfl (he ▸ hon) haway hfree (by simp) ht
        (Or.inr (Or.inr ⟨rfl, hz⟩))
    · exact .woken (hne he)

theorem fork_table {c : Fin C} {i : Slot} (h : fork s i = some s') (j : Slot) :
    Change flag s (.fork c) s' j := by
  unfold fork at h
  split at h
  · cases h
  · split at h <;> cases h
    · exact .of_eq rfl
    · next np hf =>
        exact .of_slot np (fun l hl => by simp [hl])
          (.alloc c rfl (findUnused_some hf) hf (by simp) (by simp))

theorem forkAlloc_table {a : KAct C} {i : Slot} (h : forkAlloc s i = some s')
    (j : Slot) : Change flag s a s' j := by
  unfold forkAlloc at h
  split at h <;> cases h
  next np hi =>
    exact .of_slot np (fun l hl => by simp [hl]) (.alloc' i hi (by simp))

theorem forkKalloc_table {a : KAct C} {i : Slot} {ok : Bool}
    (h : forkKalloc s i ok = some s') (j : Slot) : Change flag s a s' j := by
  unfold forkKalloc at h
  split at h
  · next np hi =>
      split at h <;> cases h
      · exact .of_eq rfl
      · exact .of_slot np (fun l hl => by simp [hl])
          (.freed i (Or.inl hi) (by simp) (by simp))
  · cases h

theorem forkCopy_table {a : KAct C} {i : Slot} {ok : Bool}
    (h : forkCopy s i ok = some s') (j : Slot) : Change flag s a s' j := by
  unfold forkCopy at h
  split at h
  · next np hi =>
      split at h <;> cases h
      · exact .of_slot np (fun l hl => by simp [hl]) (.woken (by
          simp only [setKpc_proc, setProc_apply, if_true]
          exact ⟨⟨rfl, rfl, rfl, rfl⟩, Or.inl rfl⟩))
      · exact .of_slot np (fun l hl => by simp [hl])
          (.freed i (Or.inr hi) (by simp) (by simp))
  · cases h

theorem forkPublish_table {a : KAct C} {i : Slot} (h : forkPublish s i = some s')
    (j : Slot) : Change flag s a s' j := by
  unfold forkPublish at h
  split at h <;> cases h
  next np hi =>
    refine .of_slot np (fun l hl => by simp [hl]) (.publish i hi ?_ (by simp))
    rw [setKpc_apply]
    split
    · exact Or.inr rfl
    · exact Or.inl (by simp)

/-- `wait` and `waitx` make the same pass. -/
theorem scan_eq (x : Bool) (i : Slot) (ticks : Ticks) (t : Table) :
    (if x = true then waitx i ticks t else wait i ticks t) = wait i ticks t := by
  split
  · exact waitxLoop_eq i ticks t slots false
  · rfl

theorem waitScan_table {c : Fin C} {i : Slot} {k : Resume}
    (h : waitScan s c i = some s') (hon : s.cpu c = some i)
    (haway : s.sched c = .away k) (hfree : ∀ d, s.lock ≠ some (.cpu d)) (j : Slot) :
    Change flag s (.waitScan c) s' j := by
  unfold waitScan at h
  split at h
  · next x hi =>
      rw [scan_eq] at h
      rcases waitLoop_cases i s.ticks s.proc slots false with
        ⟨z, hz, _, hw⟩ | hw | hw
      · rw [wait, hw] at h
        cases h
        exact .of_slot z (fun l hl => Table.modify_other _ hl _)
          (.reap hz (Table.modify_same _ _ _))
      · rw [wait, hw] at h
        cases h
        exact .of_eq rfl
      · rw [wait, hw] at h
        refine enterSched_table h rfl hon haway hfree rfl (fun l hl => by simp [hl]) ?_ ?_ j
        · simp only [setProc_apply, if_true]
          exact ⟨rfl, rfl, rfl, rfl⟩
        · simp
  · cases h

theorem schedAcct_table {c : Fin C} (h : schedAcct s c = some s') (j : Slot) :
    Change flag s (.schedAcct c) s' j := by
  unfold schedAcct at h
  split at h
  · next i hi =>
      split at h <;> cases h
      · next hr =>
          exact .of_slot i (fun l hl => by simp [hl])
            (.charge c rfl hi (by simp) hr (by simp))
      · next hr =>
          exact .of_slot i (fun l hl => by simp [hl])
            (.check c rfl (Or.inl ⟨hi, hr⟩) (by simp) (by simp))
  · next i r hi =>
      cases h
      exact .of_slot i (fun l hl => by simp [hl])
        (.check c rfl (Or.inr ⟨r, hi⟩) (by simp) (by simp))
  · cases h

theorem kernStep_table {a : KAct C} (h : kernStep flag s a = some s') (j : Slot) :
    Change flag s a s' j := by
  cases a <;> simp only [kernStep] at h
  case tick =>
      cases h
      exact .of_eq rfl
  case wakeup a =>
      obtain ⟨_, h⟩ := locked_some.mp h
      cases h
      exact .woken (wakeup1_woken _ _ j)
  case kill pid =>
      obtain ⟨_, h⟩ := locked_some.mp h
      cases h
      exact .woken (kill_woken _ _ j)
  case schedLock c =>
      split at h
      · obtain ⟨_, h⟩ := locked_some.mp h
        cases h
        exact .of_eq rfl
      · cases h
  case schedAcct c => exact schedAcct_table (holding_some.mp h).2 j
  case schedGo c =>
      rcases schedGo_some (holding_some.mp h).2 with ⟨_, rfl⟩ | ⟨p, k, hn, rfl⟩
      · exact .of_eq rfl
      · refine .of_slot p (fun l hl => by simp [dispatch, hl]) ?_
        exact .run c k rfl hn (by simp [dispatch])
  all_goals obtain ⟨i, k, hon, haway, h⟩ := onCpu_some.mp h
  case release c => exact release_table (holding_some.mp h).2 j
  case timer c =>
      split at h
      · obtain ⟨hl, h⟩ := locked_some.mp h
        exact enterSched_table h rfl hon haway (free_of_none hl) rfl
          (fun l hl => by simp [hl]) (by simp [SameTimes]) (by simp) j
      · cases h
  case setpriority c n => exact setpriority_table h j
  case yield c =>
      split at h
      · obtain ⟨hl, h⟩ := locked_some.mp h
        exact enterSched_table h rfl hon haway (free_of_none hl) rfl
          (fun l hl => by simp [hl]) (by simp [SameTimes]) (by simp) j
      · cases h
  case sleep c a =>
      split at h
      · obtain ⟨hl, h⟩ := locked_some.mp h
        exact enterSched_table h rfl hon haway (free_of_none hl) rfl
          (fun l hl => by simp [hl]) (by simp [SameTimes]) (by simp) j
      · cases h
  case exit c =>
      obtain ⟨hl, h⟩ := locked_some.mp h
      exact exit_table h hon haway (free_of_none hl) j
  case fork c => exact fork_table (locked_some.mp h).2 j
  case forkAlloc c => exact forkAlloc_table (holding_some.mp h).2 j
  case forkKalloc c ok => exact forkKalloc_table h j
  case forkCopy c ok => exact forkCopy_table h j
  case forkPublish c => exact forkPublish_table (locked_some.mp h).2 j
  case waitCall c x =>
      obtain ⟨_, h⟩ := locked_some.mp h
      unfold waitCall at h
      split at h <;> cases h
      exact .of_eq rfl
  case waitScan c =>
      obtain ⟨hl, h⟩ := holding_some.mp h
      exact waitScan_table h hon haway (free_of_proc hl) j
  case waitxRead c =>
      unfold waitxRead at h
      split at h <;> cases h <;> exact .of_eq rfl
  case waitxDone c =>
      unfold waitxDone at h
      split at h <;> cases h
      exact .of_eq rfl

/-- A scheduler switches to RUNNABLE processes only. -/
theorem schedNext_runnable {c : Fin C} {p : Slot} {k : Resume}
    (h : schedNext flag s c = some (some (p, k))) : (s.proc p).state = .RUNNABLE := by
  unfold schedNext at h
  split at h
  · exact schedSwitch_runnable (Option.some.inj h)
  · exact schedResume_runnable (Option.some.inj h)
  · cases h

/-! ## What a step does to a `fork` in progress -/

/-- The slot a process is setting up. A preempted process keeps it. -/
def KPc.child : KPc → Option Slot
  | .alloc np | .kalloc np | .copyuvm np | .publish np => some np
  | .yield k => k.child
  | _ => none

/-- A step of process `i` that gives it no new child, and moves no other. -/
def ChildFrame (s : Kern C) (s' : Kern C) : Prop :=
  ∀ j np, (s'.kpc j).child = some np → (s.kpc j).child = some np

theorem ChildFrame.of_kpc {i : Slot} (pc : KPc)
    (h : ∀ np, pc.child = some np → (s.kpc i).child = some np)
    (hk : s'.kpc = Function.update s.kpc i pc) : ChildFrame s s' := by
  intro j np hj
  rw [hk, Function.update_apply] at hj
  split at hj
  · next he => subst he; exact h np hj
  · exact hj

theorem ChildFrame.of_eq (h : s'.kpc = s.kpc) : ChildFrame s s' := by
  intro j np hj
  rwa [h] at hj

theorem enterSched_child {t : Kern C} {c : Fin C} {i : Slot} {pc : KPc}
    (h : enterSched t c i pc = some s') (ht : t.kpc = s.kpc)
    (hpc : ∀ np, pc.child = some np → (s.kpc i).child = some np) : ChildFrame s s' := by
  obtain ⟨k, _, rfl⟩ := enterSched_some h
  exact .of_kpc pc hpc (by rw [← ht]; rfl)

theorem release_child {i : Slot} (h : release s i = some s') : ChildFrame s s' := by
  unfold release at h
  split at h <;> cases h
  · exact .of_kpc .user nofun rfl
  · next k hk => exact .of_kpc k (fun np hnp => by rw [hk]; exact hnp) rfl
  · exact .of_kpc .user nofun rfl
  · exact .of_kpc (.scan _) nofun rfl

theorem setpriority_child {i : Slot} {n : Int} (h : setpriority s i n = some s') :
    ChildFrame s s' := by
  simp only [setpriority] at h
  split_ifs at h <;> cases h
  · exact .of_eq rfl
  · exact .of_kpc .toYield nofun rfl
  · exact .of_eq rfl

theorem forkAlloc_child {i : Slot} (h : forkAlloc s i = some s') : ChildFrame s s' := by
  unfold forkAlloc at h
  split at h <;> cases h
  next np hk => exact .of_kpc (.kalloc np) (fun _ hnp => by rw [hk]; exact hnp) rfl

theorem forkKalloc_child {i : Slot} {ok : Bool} (h : forkKalloc s i ok = some s') :
    ChildFrame s s' := by
  unfold forkKalloc at h
  split at h
  · next np hk =>
      split at h <;> cases h
      · exact .of_kpc (.copyuvm np) (fun _ hnp => by rw [hk]; exact hnp) rfl
      · exact .of_kpc .user nofun rfl
  · cases h

theorem forkCopy_child {i : Slot} {ok : Bool} (h : forkCopy s i ok = some s') :
    ChildFrame s s' := by
  unfold forkCopy at h
  split at h
  · next np hk =>
      split at h <;> cases h
      · exact .of_kpc (.publish np) (fun _ hnp => by rw [hk]; exact hnp) rfl
      · exact .of_kpc .user nofun rfl
  · cases h

theorem forkPublish_child {i : Slot} (h : forkPublish s i = some s') :
    ChildFrame s s' := by
  unfold forkPublish at h
  split at h <;> cases h
  intro j np hj
  simp only [setKpc_apply] at hj
  split at hj
  · cases hj
  · split at hj
    · cases hj
    · exact hj

theorem waitScan_child {c : Fin C} {i : Slot} (h : waitScan s c i = some s') :
    ChildFrame s s' := by
  unfold waitScan at h
  split at h
  · next x hk =>
      split at h
      · cases h
        refine .of_kpc _ (fun np hnp => ?_) rfl
        split at hnp <;> cases hnp
      · cases h
        exact .of_kpc .user nofun rfl
      · exact enterSched_child h rfl nofun
  · cases h

theorem waitxRead_child {i : Slot} (h : waitxRead s i = some s') : ChildFrame s s' := by
  unfold waitxRead at h
  split at h <;> cases h
  · exact .of_kpc (.waitx2 _ _) nofun rfl
  · exact .of_kpc (.waitx3 _ _ _) nofun rfl
  · exact .of_kpc (.waitx4 _ _ _ _) nofun rfl
  · exact .of_kpc (.waitxRet _ _ _ _) nofun rfl

/-- A new child is a slot `fork` found UNUSED. -/
theorem fork_child {i : Slot} (h : fork s i = some s') :
    ChildFrame s s' ∨ ∃ np, (s.proc np).state = .UNUSED ∧
      (s'.proc np).state = .EMBRYO ∧
      ∀ j, s'.kpc j = if j = i then .alloc np else s.kpc j := by
  unfold fork at h
  split at h
  · cases h
  · split at h <;> cases h
    · exact Or.inl (.of_eq rfl)
    · next np hf =>
        exact Or.inr ⟨np, findUnused_some hf, by simp [allocproc], fun j => by simp⟩

theorem kernStep_child {a : KAct C} (h : kernStep flag s a = some s') :
    ChildFrame s s' ∨ ∃ i np, (s.proc np).state = .UNUSED ∧
      (s'.proc np).state = .EMBRYO ∧
      ∀ j, s'.kpc j = if j = i then .alloc np else s.kpc j := by
  cases a <;> simp only [kernStep] at h
  case tick => cases h; exact Or.inl (.of_eq rfl)
  case wakeup a => cases (locked_some.mp h).2; exact Or.inl (.of_eq rfl)
  case kill pid => cases (locked_some.mp h).2; exact Or.inl (.of_eq rfl)
  case schedLock c =>
      split at h
      · cases (locked_some.mp h).2; exact Or.inl (.of_eq rfl)
      · cases h
  case schedAcct c =>
      have h := (holding_some.mp h).2
      unfold schedAcct at h
      split at h
      · split at h <;> cases h <;> exact Or.inl (.of_eq rfl)
      · cases h; exact Or.inl (.of_eq rfl)
      · cases h
  case schedGo c =>
      rcases schedGo_some (holding_some.mp h).2 with ⟨_, rfl⟩ | ⟨p, k, _, rfl⟩ <;>
        exact Or.inl (.of_eq rfl)
  all_goals obtain ⟨i, k, _, _, h⟩ := onCpu_some.mp h
  case fork c =>
      exact (fork_child (locked_some.mp h).2).imp id fun ⟨np, h⟩ => ⟨i, np, h⟩
  all_goals refine Or.inl ?_
  case release c => exact release_child (holding_some.mp h).2
  case timer c =>
      split at h
      · exact enterSched_child (locked_some.mp h).2 rfl fun np hnp => hnp
      · cases h
  case setpriority c n => exact setpriority_child h
  case yield c =>
      split at h
      · exact enterSched_child (locked_some.mp h).2 rfl nofun
      · cases h
  case sleep c a =>
      split at h
      · exact enterSched_child (locked_some.mp h).2 rfl nofun
      · cases h
  case exit c =>
      have h := (locked_some.mp h).2
      unfold exit at h
      split at h
      · cases h
      · exact enterSched_child h rfl nofun
  case forkAlloc c => exact forkAlloc_child (holding_some.mp h).2
  case forkKalloc c ok => exact forkKalloc_child h
  case forkCopy c ok => exact forkCopy_child h
  case forkPublish c => exact forkPublish_child (locked_some.mp h).2
  case waitCall c x =>
      have h := (locked_some.mp h).2
      unfold waitCall at h
      split at h <;> cases h
      exact .of_kpc (.scan _) nofun rfl
  case waitScan c => exact waitScan_child (holding_some.mp h).2
  case waitxRead c => exact waitxRead_child h
  case waitxDone c =>
      unfold waitxDone at h
      split at h <;> cases h
      exact .of_kpc .user nofun rfl

/-! ## Runs to look at

The accounting loop that opens a pass of CPU `c` while `n` slots are RUNNING,
and a `fork` that succeeds. -/

def acctOf (c : Fin C) (n : Nat) : List (KAct C) :=
  .schedLock c :: List.replicate (NPROC + n) (.schedAcct c)

def forkOf (c : Fin C) : List (KAct C) :=
  [.fork c, .forkAlloc c, .forkKalloc c true, .forkCopy c true, .forkPublish c]

end Xv6.Ref
