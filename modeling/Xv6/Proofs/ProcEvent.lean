import Xv6.Proofs.KernelInv

/-!
# What a step does to the identities of the processes

`KernelStep.lean` reads a step for the accounting: times, priorities, states.
The properties of `fork`, `exit`, `wait` and `kill` are about other fields —
pid, parent, `killed` and the channel — and about what one step does to several
slots at once, so this file reads the step a second time. An `TableEvent` says which
critical section ran and what the whole table is afterwards, up to the times.
-/

namespace Xv6.Ref

open Xv6.Lib

variable {C : Nat} {flag : Char} {s s' : Kern C}

/-- The fields that say who the process is and whether it can run. -/
def SameId (p q : Proc) : Prop :=
  q.state = p.state ∧ q.pid = p.pid ∧ q.parent = p.parent ∧ q.killed = p.killed ∧
    q.chan = p.chan

theorem SameId.refl (p : Proc) : SameId p p := ⟨rfl, rfl, rfl, rfl, rfl⟩

/-- The child whose `parent` has been set and which is not yet RUNNABLE. -/
def KPc.adopted : KPc → Option Slot
  | .publish np => some np
  | .yield k => k.adopted
  | _ => none

theorem KPc.child_of_adopted {pc : KPc} {np : Slot} (h : pc.adopted = some np) :
    pc.child = some np := by
  induction pc with
  | publish np' => exact h
  | yield k ih => exact ih h
  | _ => cases h

/-- No pid is given out, no child is found or adopted. -/
structure IdFrame (s s' : Kern C) : Prop where
  pid : s'.nextpid = s.nextpid
  child : ChildFrame s s'
  adopted : ∀ j np, (s'.kpc j).adopted = some np → (s.kpc j).adopted = some np

theorem IdFrame.of_kpc {i : Slot} (pc : KPc) (hpid : s'.nextpid = s.nextpid)
    (hk : s'.kpc = Function.update s.kpc i pc)
    (hc : ∀ np, pc.child = some np → (s.kpc i).child = some np)
    (ha : ∀ np, pc.adopted = some np → (s.kpc i).adopted = some np) :
    IdFrame s s' where
  pid := hpid
  child := .of_kpc pc hc hk
  adopted := by
    intro j np hj
    rw [hk, Function.update_apply] at hj
    split at hj
    · next he => subst he; exact ha np hj
    · exact hj

/-- The caller moves to a place that holds no child. -/
theorem IdFrame.of_childless {i : Slot} (pc : KPc) (hpid : s'.nextpid = s.nextpid)
    (hk : s'.kpc = Function.update s.kpc i pc) (hc : pc.child = none) : IdFrame s s' := by
  refine .of_kpc pc hpid hk (fun np h => ?_) fun np h => ?_
  · rw [hc] at h
    cases h
  · rw [KPc.child_of_adopted h] at hc
    cases hc

theorem IdFrame.of_eq (hpid : s'.nextpid = s.nextpid) (hk : s'.kpc = s.kpc) :
    IdFrame s s' := ⟨hpid, .of_eq hk, fun j np hj => by rwa [hk] at hj⟩

/-- What the process on a CPU does to its own entry when it enters or leaves
`sched`. -/
inductive OwnMove (s : Kern C) (i : Slot) : Proc → Prop
  | tidy : OwnMove s i { s.proc i with chan := none }
  | yield : OwnMove s i { s.proc i with state := .RUNNABLE }
  | sleep (a : Nat) :
      OwnMove s i { s.proc i with chan := some (.addr a), state := .SLEEPING }
  | wait (none : ∀ z, (s.proc z).parent = some i → (s.proc z).state ≠ .ZOMBIE) :
      OwnMove s i { s.proc i with chan := some (.proc i), state := .SLEEPING }

/-- What a step can do to the table. -/
inductive TableEvent (s : Kern C) (a : KAct C) (s' : Kern C) : Prop
  | quiet (frame : IdFrame s s') (ids : ∀ j, SameId (s.proc j) (s'.proc j))
  | wake (frame : IdFrame s s') (a : Nat) (h : s'.proc = wakeup1 (.addr a) s.proc)
  | kill (frame : IdFrame s s') (pid : Int) (act : a = .kill pid)
      (h : s'.proc = (kill pid s.proc).getD s.proc)
  | exit (frame : IdFrame s s') (c : Fin C) (i : Slot) (on : OnCpu s c i)
      (init : i ≠ initproc) (pc : s.kpc i = .user)
      (h : s'.proc = exitSection i s.ticks s.proc)
  | own (frame : IdFrame s s') (c : Fin C) (i : Slot) (on : OnCpu s c i)
      (other : ∀ j, j ≠ i → s'.proc j = s.proc j) (h : OwnMove s i (s'.proc i))
      (pc : (s.kpc i).child = none ∨ (s'.proc i).state = .RUNNABLE)
  | run (frame : IdFrame s s') (c : Fin C) (p : Slot) (on : OnCpu s' c p)
      (ready : (s.proc p).state = .RUNNABLE)
      (other : ∀ j, j ≠ p → s'.proc j = s.proc j)
      (h : s'.proc p = { s.proc p with state := .RUNNING })
  | alloc (c : Fin C) (i np : Slot) (act : a = .fork c) (on : OnCpu s c i)
      (found : findUnused s.proc = some np)
      (other : ∀ j, j ≠ np → s'.proc j = s.proc j)
      (h : s'.proc np = allocproc s.nextpid s.ticks (s.proc np))
      (pid : s'.nextpid = s.nextpid + 1)
      (pcs : ∀ j, s'.kpc j = if j = i then .alloc np else s.kpc j)
  | freed (frame : IdFrame s s') (i np : Slot) (pc : (s.kpc i).child = some np)
      (pc' : s'.kpc i = .user) (other : ∀ j, j ≠ np → s'.proc j = s.proc j)
      (h : s'.proc np = { s.proc np with state := .UNUSED })
  | adopt (c : Fin C) (i np : Slot) (on : OnCpu s c i) (pc : s.kpc i = .copyuvm np)
      (pcs : ∀ j, s'.kpc j = if j = i then .publish np else s.kpc j)
      (other : ∀ j, j ≠ np → s'.proc j = s.proc j)
      (h : s'.proc np = { s.proc np with parent := some i })
      (pid : s'.nextpid = s.nextpid)
  | publish (frame : IdFrame s s') (c : Fin C) (i np : Slot) (act : a = .forkPublish c)
      (on : OnCpu s c i) (pc : s.kpc i = .publish np)
      (other : ∀ j, j ≠ np → s'.proc j = s.proc j)
      (h : s'.proc np = { s.proc np with state := .RUNNABLE })
  | reap (frame : IdFrame s s') (c : Fin C) (i z : Slot) (x : Bool)
      (act : a = .waitScan c) (on : OnCpu s c i) (pc : s.kpc i = .scan x)
      (zombie : (s.proc z).state = .ZOMBIE) (parent : (s.proc z).parent = some i)
      (scan : wait i s.ticks s.proc = (.reaped z (s.proc z).pid, s'.proc))
      (other : ∀ j, j ≠ z → s'.proc j = s.proc j)
      (h : s'.proc z = reap s.ticks (s.proc z))

theorem TableEvent.of_eq {a : KAct C} (frame : IdFrame s s') (h : s'.proc = s.proc) :
    TableEvent s a s' := .quiet frame fun j => by rw [h]; exact .refl _

/-- A step that leaves the identity of the one slot it writes. -/
theorem TableEvent.of_slot {a : KAct C} (frame : IdFrame s s') (i : Slot)
    (other : ∀ j, j ≠ i → s'.proc j = s.proc j)
    (h : SameId (s.proc i) (s'.proc i)) : TableEvent s a s' := by
  refine .quiet frame fun j => ?_
  by_cases he : j = i
  · subst he; exact h
  · rw [other j he]; exact .refl _

/-! ## One lemma for each section -/

theorem schedAcct_event {a : KAct C} {c : Fin C} (h : schedAcct s c = some s') :
    TableEvent s a s' := by
  simp only [schedAcct] at h
  split at h
  · next i hi =>
      split at h <;> cases h <;>
        exact .of_slot (.of_eq rfl rfl) i (fun j hj => by simp [hj])
          (by simp [SameId])
  · next i r hi =>
      cases h
      exact .of_slot (.of_eq rfl rfl) i (fun j hj => by simp [hj]) (by simp [SameId])
  · cases h

theorem setpriority_event {a : KAct C} {i : Slot} {n : Int}
    (h : setpriority s i n = some s') : TableEvent s a s' := by
  simp only [setpriority] at h
  split_ifs at h <;> cases h
  · exact .of_eq (.of_eq rfl rfl) rfl
  · exact .of_slot (.of_childless .toYield rfl rfl rfl) i (fun j hj => by simp [hj])
      (by simp [SameId])
  · exact .of_slot (.of_eq rfl rfl) i (fun j hj => by simp [hj]) (by simp [SameId])

theorem release_event {a : KAct C} {c : Fin C} {i : Slot} (hon : OnCpu s c i)
    (h : release s i = some s') : TableEvent s a s' := by
  have htidy : ∀ p : Proc, p = { s.proc i with chan := none } → OwnMove s i p := by
    rintro p rfl
    exact .tidy
  simp only [release] at h
  split at h <;> cases h
  · exact .of_eq (.of_childless .user rfl rfl rfl) rfl
  · next k hk =>
      exact .of_eq (.of_kpc k rfl rfl (fun np hnp => by rw [hk]; exact hnp)
        (fun np hnp => by rw [hk]; exact hnp)) rfl
  · next hk =>
      exact .own (.of_childless .user rfl rfl rfl) c i hon (fun j hj => by simp [hj])
        (htidy _ (by simp)) (Or.inl (by rw [hk]; rfl))
  · next x hk =>
      exact .own (.of_childless (.scan x) rfl rfl rfl) c i hon (fun j hj => by simp [hj])
        (htidy _ (by simp)) (Or.inl (by rw [hk]; rfl))

/-- `sched()` behind a change of the caller's own entry. -/
theorem enterSched_event {a : KAct C} {c : Fin C} {i : Slot} {pc : KPc}
    {f : Proc → Proc} (h : enterSched (s.setProc i f) c i pc = some s')
    (hon : OnCpu s c i) (hmove : OwnMove s i (f (s.proc i)))
    (hpc : (s.kpc i).child = none ∨ (f (s.proc i)).state = .RUNNABLE)
    (hc : ∀ np, pc.child = some np → (s.kpc i).child = some np)
    (ha : ∀ np, pc.adopted = some np → (s.kpc i).adopted = some np) :
    TableEvent s a s' := by
  obtain ⟨k, _, rfl⟩ := enterSched_some h
  exact .own (.of_kpc pc rfl rfl hc ha) c i hon (fun j hj => by simp [hj])
    (by simpa using hmove) (by simpa using hpc)

theorem exit_event {a : KAct C} {c : Fin C} {i : Slot} (hon : OnCpu s c i)
    (h : exit s c i = some s') : TableEvent s a s' := by
  simp only [exit] at h
  split at h
  · cases h
  · next hn =>
      obtain ⟨hpc, hi⟩ : s.kpc i = .user ∧ i ≠ initproc := by
        simpa [not_or] using hn
      obtain ⟨k, _, rfl⟩ := enterSched_some h
      exact .exit (.of_childless .user rfl rfl rfl) c i hon hi hpc rfl

theorem fork_event {c : Fin C} {i : Slot} (hon : OnCpu s c i)
    (h : fork s i = some s') : TableEvent s (.fork c) s' := by
  simp only [fork] at h
  split at h
  · cases h
  · split at h <;> cases h
    · exact .of_eq (.of_eq rfl rfl) rfl
    · next np hf =>
        exact .alloc c i np rfl hon hf (fun j hj => by simp [hj]) (by simp) rfl
          fun j => by simp

theorem forkAlloc_event {a : KAct C} {i : Slot} (h : forkAlloc s i = some s') :
    TableEvent s a s' := by
  simp only [forkAlloc] at h
  split at h <;> cases h
  next np hi =>
    exact .of_slot
      (.of_kpc (.kalloc np) rfl rfl (fun _ hnp => by rw [hi]; exact hnp) nofun) np
      (fun j hj => by simp [hj]) (by simp [SameId, allocproc'])

theorem forkKalloc_event {a : KAct C} {i : Slot} {ok : Bool}
    (h : forkKalloc s i ok = some s') : TableEvent s a s' := by
  simp only [forkKalloc] at h
  split at h
  · next np hi =>
      split at h <;> cases h
      · exact .of_eq
          (.of_kpc (.copyuvm np) rfl rfl (fun _ hnp => by rw [hi]; exact hnp) nofun) rfl
      · exact .freed (.of_childless .user rfl rfl rfl) i np (by rw [hi]; rfl) (by simp)
          (fun j hj => by simp [hj]) (by simp)
  · cases h

theorem forkCopy_event {a : KAct C} {c : Fin C} {i : Slot} {ok : Bool}
    (hon : OnCpu s c i) (h : forkCopy s i ok = some s') : TableEvent s a s' := by
  simp only [forkCopy] at h
  split at h
  · next np hi =>
      split at h <;> cases h
      · exact .adopt c i np hon hi (fun j => by simp) (fun j hj => by simp [hj])
          (by simp) rfl
      · exact .freed (.of_childless .user rfl rfl rfl) i np (by rw [hi]; rfl) (by simp)
          (fun j hj => by simp [hj]) (by simp)
  · cases h

theorem forkPublish_event {c : Fin C} {i : Slot} (hon : OnCpu s c i)
    (h : forkPublish s i = some s') : TableEvent s (.forkPublish c) s' := by
  simp only [forkPublish] at h
  split at h <;> cases h
  next np hi =>
    have hsub : ∀ f : KPc → Option Slot, f .user = none → f .forkret = none →
        ∀ j np', f ((((s.setProc np fun p => { p with state := .RUNNABLE }).setKpc i
          .user).setKpc np .forkret).kpc j) = some np' → f (s.kpc j) = some np' := by
      intro f hu hf j np' hj
      simp only [setKpc_apply] at hj
      split at hj
      · rw [hf] at hj; cases hj
      · split at hj
        · rw [hu] at hj; cases hj
        · exact hj
    exact .publish ⟨rfl, hsub _ rfl rfl, hsub _ rfl rfl⟩ c i np rfl hon hi
      (fun j hj => by simp [hj]) (by simp)

/-- A pass that ends in `sleep` saw no zombie child. -/
theorem waitLoop_sleep {cur : Slot} {ticks : Ticks} {t u : Table} {is : List Slot}
    {kids : Bool} (h : waitLoop cur ticks t is kids = (.sleep, u)) :
    ∀ z ∈ is, (t z).parent = some cur → (t z).state ≠ .ZOMBIE := by
  induction is generalizing kids with
  | nil => nofun
  | cons i is ih =>
      intro z hz hp
      rw [waitLoop] at h
      split at h
      · next hne =>
          rcases List.mem_cons.mp hz with rfl | hz
          · exact absurd hp hne
          · exact ih h z hz hp
      · split at h
        · cases h
        · next hnz =>
            rcases List.mem_cons.mp hz with rfl | hz
            · exact hnz
            · exact ih h z hz hp

theorem waitScan_event {c : Fin C} {i : Slot} (hon : OnCpu s c i)
    (h : waitScan s c i = some s') : TableEvent s (.waitScan c) s' := by
  simp only [waitScan] at h
  split at h
  · next x hi =>
      rw [scan_eq] at h
      rcases waitLoop_cases i s.ticks s.proc slots false with
        ⟨z, hz, hp, hw⟩ | hw | hw
      · rw [wait, hw] at h
        cases h
        refine .reap (.of_kpc _ rfl rfl ?_ ?_) c i z x rfl hon hi hz hp hw
          (fun j hj => Table.modify_other _ hj _) (Table.modify_same _ _ _)
        · intro np hnp
          split at hnp <;> cases hnp
        · intro np hnp
          split at hnp <;> cases hnp
      · rw [wait, hw] at h
        cases h
        exact .of_eq (.of_childless .user rfl rfl rfl) rfl
      · rw [wait, hw] at h
        refine enterSched_event h hon (.wait fun z hz => ?_) (Or.inl (by rw [hi]; rfl))
          (by rintro _ ⟨⟩) (by rintro _ ⟨⟩)
        exact waitLoop_sleep hw z (List.mem_finRange z) hz
  · cases h

theorem kernStep_event {a : KAct C} (h : kernStep flag s a = some s') :
    TableEvent s a s' := by
  cases a <;> simp only [kernStep] at h
  case tick => cases h; exact .of_eq (.of_eq rfl rfl) rfl
  case wakeup a => cases (locked_some.mp h).2; exact .wake (.of_eq rfl rfl) a rfl
  case kill pid => cases (locked_some.mp h).2; exact .kill (.of_eq rfl rfl) pid rfl rfl
  case schedLock c =>
      split at h
      · cases (locked_some.mp h).2; exact .of_eq (.of_eq rfl rfl) rfl
      · cases h
  case schedAcct c => exact schedAcct_event (holding_some.mp h).2
  case schedGo c =>
      rcases schedGo_some (holding_some.mp h).2 with ⟨_, rfl⟩ | ⟨p, k, hn, rfl⟩
      · exact .of_eq (.of_eq rfl rfl) rfl
      · refine .run (.of_eq rfl rfl) c p ⟨by simp [dispatch], k, by simp [dispatch]⟩
          (schedNext_runnable hn) (fun j hj => by simp [dispatch, hj]) ?_
        simp [dispatch]
  all_goals
    obtain ⟨i, k, hcpu, haway, h⟩ := onCpu_some.mp h
    have hon : OnCpu s _ i := ⟨hcpu, k, haway⟩
  case release c => exact release_event hon (holding_some.mp h).2
  case timer c =>
      split at h
      · exact enterSched_event (locked_some.mp h).2 hon .yield (Or.inr rfl)
          (fun np hnp => hnp) fun np hnp => hnp
      · cases h
  case setpriority c n => exact setpriority_event h
  case yield c =>
      split at h
      · exact enterSched_event (locked_some.mp h).2 hon .yield (Or.inr rfl)
          (by rintro _ ⟨⟩) (by rintro _ ⟨⟩)
      · cases h
  case sleep c a _ =>
      split at h
      · next hk =>
          exact enterSched_event (locked_some.mp h).2 hon (.sleep a)
            (Or.inl (by rw [hk]; rfl)) (by rintro _ ⟨⟩) (by rintro _ ⟨⟩)
      · cases h
  case exit c => exact exit_event hon (locked_some.mp h).2
  case fork c => exact fork_event hon (locked_some.mp h).2
  case forkAlloc c => exact forkAlloc_event (holding_some.mp h).2
  case forkKalloc c ok => exact forkKalloc_event h
  case forkCopy c ok => exact forkCopy_event hon h
  case forkPublish c => exact forkPublish_event hon (locked_some.mp h).2
  case waitCall c x _ =>
      have h := (locked_some.mp h).2
      simp only [waitCall] at h
      split at h <;> cases h
      exact .of_eq (.of_childless (.scan x) rfl rfl rfl) rfl
  case waitScan c => exact waitScan_event hon (holding_some.mp h).2
  case waitxRead c =>
      simp only [waitxRead] at h
      split at h <;> cases h <;> exact .of_eq (.of_childless _ rfl rfl rfl) rfl
  case waitxDone c =>
      simp only [waitxDone] at h
      split at h <;> cases h
      exact .of_eq (.of_childless .user rfl rfl rfl) rfl

end Xv6.Ref
