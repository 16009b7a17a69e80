import Xv6.Proofs.ProcLife

/-!
# Whom `kill` hits

`kill` compares pids without looking at the state, and a slot that is not in
use still has one: 0 when it was never used or was buried by `wait`, the pid of
a process that never came to be when a `fork` failed. And `killed` is cleared
by `wait` only, neither by `allocproc` nor by the error paths of `fork`. So
`kill(0)` succeeds, and marks a slot whose next owner is born killed.

Where no such slot is hit or handed out, a process is marked because `kill` was
called with its pid while it had it.
-/

namespace Xv6.Ref

open Xv6.Lib

variable {C : Nat} {flag : Char} {s s' : Kern C}

/-- `kill` is not called with a pid left behind in an UNUSED slot, and
`allocproc` does not find a slot left marked. -/
def noStaleSlot (s : Kern C) : KAct C → Prop
  | .kill pid => ∀ i, (s.proc i).state = .UNUSED → (s.proc i).pid ≠ pid
  | .fork _ => ∀ np, findUnused s.proc = some np → (s.proc np).killed = false
  | _ => True

instance (s : Kern C) (a : KAct C) : Decidable (noStaleSlot s a) := by
  cases a <;> simp only [noStaleSlot] <;> infer_instance

/-! ## Who is marked -/

theorem wakeup1_killed (chan : Chan) (t : Table) (j : Slot) :
    (wakeup1 chan t j).killed = (t j).killed := by
  simp only [wakeup1]
  split <;> rfl

theorem reparent_killed (cur : Slot) (is : List Slot) (t : Table) (j : Slot) :
    (reparent cur is t j).killed = (t j).killed := by
  induction is generalizing t with
  | nil => rfl
  | cons i is ih =>
      have hmod : (t.modify i (fun p => { p with parent := some initproc }) j).killed
          = (t j).killed := by
        simp only [Table.modify]
        split
        · next he => rw [he]
        · rfl
      simp only [reparent]
      split
      · split
        · rw [ih, wakeup1_killed, hmod]
        · rw [ih, hmod]
      · exact ih t

theorem exitSection_killed (cur : Slot) (ticks : Ticks) (t : Table) (j : Slot) :
    (exitSection cur ticks t j).killed = (t j).killed := by
  have hz : ∀ u : Table, (u.modify cur (fun p => { p with state := .ZOMBIE, etime := ticks })
      j).killed = (u j).killed := by
    intro u
    simp only [Table.modify]
    split
    · next he => rw [he]
    · rfl
  simp only [exitSection]
  rw [hz, reparent_killed]
  cases (t cur).parent with
  | some q => exact wakeup1_killed _ t j
  | none => rfl

/-- `kill` marks the first slot with the pid, and nothing else changes. -/
theorem kill_some {pid : Int} {t u : Table} (h : kill pid t = some u) :
    ∃ i, (t i).pid = pid ∧ ∀ j, j ≠ i → u j = t j := by
  simp only [kill] at h
  split at h
  · cases h
  · next i hi =>
      cases h
      exact ⟨i, by simpa using List.find?_some hi, fun j hj => Table.modify_other t hj _⟩

theorem kill_isSome (pid : Int) (t : Table) :
    (kill pid t).isSome = true ↔ ∃ i, (t i).pid = pid := by
  simp only [kill]
  split
  · next hn =>
      have hall : ∀ i, (t i).pid ≠ pid := by simpa using hn
      simpa using hall
  · next i hi => exact ⟨fun _ => ⟨i, by simpa using List.find?_some hi⟩, fun _ => rfl⟩

/-- The step found the process in use, and marked before or is the `kill` that
marks it. -/
def Marks (s : Kern C) (a : KAct C) (s' : Kern C) (j : Slot) : Prop :=
  (s.proc j).state ≠ .UNUSED ∧ (s'.proc j).pid = (s.proc j).pid ∧
    ((s.proc j).killed = true ∨ a = .kill (s.proc j).pid)

theorem Marks.of_slot {a : KAct C} (i : Slot) (other : ∀ j, j ≠ i → s'.proc j = s.proc j)
    (h : (s'.proc i).state ≠ .UNUSED → (s'.proc i).killed = true → Marks s a s' i)
    {j : Slot} (hj : (s'.proc j).state ≠ .UNUSED) (hm : (s'.proc j).killed = true) :
    Marks s a s' j := by
  by_cases he : j = i
  · subst he; exact h hj hm
  · have ho := other j he
    rw [ho] at hj hm
    exact ⟨hj, by rw [ho], Or.inl hm⟩

theorem kill_marks {pid : Int} (h : s'.proc = (kill pid s.proc).getD s.proc) {j : Slot}
    (hj : (s'.proc j).state ≠ .UNUSED) (hm : (s'.proc j).killed = true) :
    Marks s (.kill pid) s' j := by
  have hn := kill_nudged pid s.proc j
  rw [← h] at hn
  have hst : (s.proc j).state ≠ .UNUSED := by
    rcases hn.2.2 with hs | ⟨hs, _⟩
    · rw [← hs]; exact hj
    · rw [hs]; nofun
  refine ⟨hst, hn.1, ?_⟩
  cases hk : kill pid s.proc with
  | none =>
      rw [hk] at h
      rw [h] at hm
      exact Or.inl hm
  | some u =>
      obtain ⟨i, hpid, hother⟩ := kill_some hk
      by_cases he : j = i
      · rw [he, hpid]; exact Or.inr rfl
      · rw [hk] at h
        rw [h, Option.getD_some, hother j he] at hm
        exact Or.inl hm

theorem killed_step {a : KAct C} (hk : KInv s) (hok : noStaleSlot s a)
    (hs : kernStep flag s a = some s') {j : Slot} (hj : (s'.proc j).state ≠ .UNUSED)
    (hm : (s'.proc j).killed = true) : Marks s a s' j := by
  cases kernStep_event hs with
  | quiet frame ids =>
      obtain ⟨hs, hp, _, hkl, _⟩ := ids j
      rw [hs] at hj
      rw [hkl] at hm
      exact ⟨hj, hp, Or.inl hm⟩
  | wake frame a h =>
      have hn := wakeup1_nudged (.addr a) s.proc j
      rw [← h] at hn
      rw [h, wakeup1_killed] at hm
      refine ⟨fun hu => ?_, hn.1, Or.inl hm⟩
      rcases hn.2.2 with hst | ⟨hst, _⟩
      · exact hj (hst.trans hu)
      · rw [hu] at hst; cases hst
  | kill frame pid act h => subst act; exact kill_marks h hj hm
  | exit frame c i on init pc h =>
      have he := exited_section i s.ticks s.proc
      rw [← h] at he
      rw [h, exitSection_killed] at hm
      refine ⟨fun hu => ?_, he.pid j, Or.inl hm⟩
      by_cases hji : j = i
      · rw [hji, hk.running c i on] at hu
        cases hu
      · rcases he.other j hji with hs | ⟨hs, _⟩
        · exact hj (hs.trans hu)
        · rw [hu] at hs; cases hs
  | own frame c i on other h pc =>
      refine Marks.of_slot i other (fun _ hm => ?_) hj hm
      refine ⟨by rw [hk.running c i on]; nofun, ?_, Or.inl ?_⟩
      · generalize s'.proc i = p at h
        cases h <;> rfl
      · generalize s'.proc i = p at h hm
        cases h <;> exact hm
  | run frame c p on ready other h =>
      refine Marks.of_slot p other (fun _ hm => ?_) hj hm
      rw [h] at hm
      exact ⟨by rw [ready]; nofun, by rw [h], Or.inl hm⟩
  | alloc c i np act on found other h pid pcs =>
      refine Marks.of_slot np other (fun _ hm => ?_) hj hm
      subst act
      rw [h] at hm
      rw [show (allocproc s.nextpid s.ticks (s.proc np)).killed = (s.proc np).killed from
        rfl, hok np found] at hm
      cases hm
  | freed frame i np pc pc' other h =>
      exact Marks.of_slot np other (fun hn _ => absurd (by rw [h]) hn) hj hm
  | adopt c i np on pc pcs other h pid =>
      refine Marks.of_slot np other (fun _ hm => ?_) hj hm
      rw [h] at hm
      exact ⟨by rw [hk.embryo i np (by rw [pc]; rfl)]; nofun, by rw [h], Or.inl hm⟩
  | publish frame c i np act on pc other h =>
      refine Marks.of_slot np other (fun _ hm => ?_) hj hm
      rw [h] at hm
      exact ⟨by rw [hk.embryo i np (by rw [pc]; rfl)]; nofun, by rw [h], Or.inl hm⟩
  | reap frame c i z x act on pc zombie parent scan other h =>
      exact Marks.of_slot z other (fun hn _ => absurd (by rw [h]; rfl) hn) hj hm

/-- `kill` was called with the pid of slot `j` while the slot had it. -/
def Called (flag : Char) (ok : Kern C → KAct C → Prop) (s : Kern C) (j : Slot) : Prop :=
  ∃ s₁ s₂, Reach (kernStep flag) ok (Kern.boot C) s₁ ∧
    kernStep flag s₁ (.kill (s.proc j).pid) = some s₂ ∧ Reach (kernStep flag) ok s₂ s ∧
    (s₁.proc j).state ≠ .UNUSED ∧ (s₁.proc j).pid = (s.proc j).pid

theorem called_reach (hr : Reach (kernStep flag) noStaleSlot (Kern.boot C) s) :
    ∀ j, (s.proc j).state ≠ .UNUSED → (s.proc j).killed = true →
      Called flag noStaleSlot s j := by
  induction hr with
  | refl =>
      intro j _ hm
      simp only [Kern.boot, Function.update_apply] at hm
      split at hm <;> cases hm
  | tail hr hok hs ih =>
      intro j hj hm
      obtain ⟨hlive, hpid, hm | hkill⟩ := killed_step (kinv_reach hr) hok hs hj hm
      · obtain ⟨s₁, s₂, h₁, h₂, h₃, h₄, h₅⟩ := ih j hlive hm
        exact ⟨s₁, s₂, h₁, by rw [hpid]; exact h₂, .tail h₃ hok hs, h₄, by rw [hpid, h₅]⟩
      · subst hkill
        exact ⟨_, _, hr, by rw [hpid]; exact hs, .refl, hlive, hpid.symm⟩

/-- Along runs in which no stale slot is hit or handed out, `kill` succeeds
exactly for the pid of a process, changes that process only, and a child is
born marked only if it was killed in the meantime. -/
theorem kill_hits_target (hr : Reach (kernStep flag) noStaleSlot (Kern.boot C) s) :
    (∀ pid, noStaleSlot s (.kill pid) →
      ((kill pid s.proc).isSome = true ↔
        ∃ i, (s.proc i).state ≠ .UNUSED ∧ (s.proc i).pid = pid) ∧
      ∀ i t, (s.proc i).state ≠ .UNUSED → (s.proc i).pid = pid →
        kill pid s.proc = some t → ∀ j, j ≠ i → t j = s.proc j) ∧
    ∀ c s' np, kernStep flag s (.forkPublish c) = some s' →
      (s.proc np).state ≠ .RUNNABLE → (s'.proc np).state = .RUNNABLE →
      (s'.proc np).killed = true → Called flag noStaleSlot s' np := by
  obtain ⟨_, hi⟩ := lifeInv_reach hr
  refine ⟨fun pid hok => ⟨?_, ?_⟩, ?_⟩
  · rw [kill_isSome]
    exact ⟨fun ⟨i, hp⟩ => ⟨i, fun hu => hok i hu hp, hp⟩, fun ⟨i, _, hp⟩ => ⟨i, hp⟩⟩
  · intro i t hlive hp hk j hj
    obtain ⟨i', hp', hother⟩ := kill_some hk
    have hlive' : (s.proc i').state ≠ .UNUSED := fun hu => hok i' hu hp'
    obtain rfl : i' = i := hi.distinct i' i hlive' hlive (hp'.trans hp.symm)
    exact hother j hj
  · intro c s' np hs _ hst hm
    have hok : noStaleSlot s (.forkPublish c) := trivial
    exact called_reach (.tail hr hok hs) np (by rw [hst]; nofun) hm

/-- `init` forks; the child is killed before it is RUNNABLE. -/
def killEmbryo : List (KAct 1) :=
  acctOf 0 0 ++ [.schedGo 0, .release 0, .fork 0, .forkAlloc 0, .forkKalloc 0 true,
    .kill 2, .forkCopy 0 true]

theorem kill_hits_target_embryo :
    ∃ s s' : Kern 1, Reach (kernStep 'R') noStaleSlot (Kern.boot 1) s ∧
      kernStep 'R' s (.forkPublish 0) = some s' ∧ (s'.proc 1).killed = true ∧
      Called 'R' noStaleSlot s' 1 ∧ (kill 2 s.proc).isSome = true := by
  have hrun : (exec (kernStep 'R') noStaleSlot (Kern.boot 1) killEmbryo).any (fun s =>
      (kernStep 'R' s (.forkPublish 0)).any (fun s' => (s'.proc 1).state = .RUNNABLE ∧
        (s'.proc 1).killed = true) = true ∧ noStaleSlot s (.kill 2) ∧
        (s.proc 1).state = .EMBRYO ∧ (s.proc 1).pid = 2) = true := by
    decide +kernel
  obtain ⟨s, hr, hp⟩ := exists_reach_of_exec hrun
  obtain ⟨hnext, hok, hst, hpid⟩ := of_decide_eq_true hp
  obtain ⟨s', hs, hs'⟩ := (Option.any_eq_true _ _).mp hnext
  obtain ⟨hst', hm⟩ := of_decide_eq_true hs'
  obtain ⟨hkill, hborn⟩ := kill_hits_target hr
  refine ⟨s, s', hr, hs, hm, hborn 0 s' 1 hs (by rw [hst]; nofun) hst' hm, ?_⟩
  exact (hkill 2 hok).1.mpr ⟨1, by rw [hst]; nofun, hpid⟩

/-- Every `kill` is `kill(0)`. -/
def killsZero (_ : Kern C) : KAct C → Prop
  | .kill pid => pid = 0
  | _ => True

instance (s : Kern C) (a : KAct C) : Decidable (killsZero s a) := by
  cases a <;> simp only [killsZero] <;> infer_instance

/-- `kill(0)` returns 0 although no process has pid 0, and the child `init` then
forks is RUNNABLE and marked, although nobody called `kill` with its pid. -/
theorem kill_marks_unused :
    (kill 0 (Kern.boot 1).proc).isSome = true ∧
    (∀ i, ((Kern.boot 1).proc i).state ≠ .UNUSED → ((Kern.boot 1).proc i).pid ≠ 0) ∧
    ∃ s : Kern 1, Reach (kernStep 'R') killsZero (Kern.boot 1) s ∧
      (s.proc 1).state = .RUNNABLE ∧ (s.proc 1).pid = 2 ∧ (s.proc 1).killed = true := by
  refine ⟨by decide +kernel, by decide +kernel, ?_⟩
  have hrun : (exec (kernStep 'R') killsZero (Kern.boot 1)
      (.kill 0 :: acctOf 0 0 ++ [.schedGo 0, .release 0] ++ forkOf 0)).any (fun s =>
      (s.proc 1).state = .RUNNABLE ∧ (s.proc 1).pid = 2 ∧ (s.proc 1).killed = true)
      = true := by
    decide +kernel
  obtain ⟨s, hr, hp⟩ := exists_reach_of_exec hrun
  exact ⟨s, hr, of_decide_eq_true hp⟩

end Xv6.Ref
