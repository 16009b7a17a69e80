import Xv6.Ref.Proc

/-!
# What the scheduler's loops select

One specification for each loop of `scheduler`, over an arbitrary table and,
where the loop can be entered in the middle, over an arbitrary rest of the
slots. Everything a pass switches to is RUNNABLE; case 1 selects the oldest
RUNNABLE process, and case 2 one whose priority is `priority_chosen`, which is
the best there was when it was computed.
-/

namespace Xv6.Ref

theorem mem_slots (i : Slot) : i ∈ slots := List.mem_finRange i

/-- Case 4 finds the first RUNNABLE slot. -/
theorem case4_some {t : Table} {is : List Slot} {p : Slot} {k : Resume}
    (h : case4 t is = some (p, k)) :
    p ∈ is ∧ (t p).state = .RUNNABLE ∧ k = .rr p := by
  induction is with
  | nil => cases h
  | cons i is ih =>
      rw [case4] at h
      split at h
      · obtain ⟨h1, h2⟩ := ih h
        exact ⟨List.mem_cons_of_mem _ h1, h2⟩
      · next hr =>
          cases h
          exact ⟨List.mem_cons_self, Decidable.not_not.mp hr, rfl⟩

/-- The second loop of case 2 finds a RUNNABLE slot with the chosen priority;
where there is none, case 4 takes over. -/
theorem case2Loop_some {t : Table} {chosen : Int} {is : List Slot} {p : Slot}
    {k : Resume} (h : case2Loop t chosen is = some (p, k)) :
    (p ∈ is ∧ (t p).state = .RUNNABLE ∧ (t p).priority = chosen ∧
        k = .prio p chosen) ∨
      ((chosen = 101 ∨ ∀ i ∈ is, (t i).state = .RUNNABLE → (t i).priority ≠ chosen) ∧
        case4 t slots = some (p, k)) := by
  induction is with
  | nil => exact Or.inr ⟨Or.inr fun i hi => (nomatch hi), h⟩
  | cons i is ih =>
      rw [case2Loop] at h
      split at h
      · next hc => exact Or.inr ⟨Or.inl hc, h⟩
      · split at h
        · next hr =>
            rcases ih h with ⟨h1, h2⟩ | ⟨h1, h2⟩
            · exact Or.inl ⟨List.mem_cons_of_mem _ h1, h2⟩
            · refine Or.inr ⟨h1.imp id fun hall j hj hrun => ?_, h2⟩
              rcases List.mem_cons.mp hj with rfl | hj
              · exact absurd hrun hr
              · exact hall j hj hrun
        · next hr =>
            split at h
            · next hp =>
                cases h
                exact Or.inl ⟨List.mem_cons_self, Decidable.not_not.mp hr, hp, rfl⟩
            · next hp =>
                rcases ih h with ⟨h1, h2⟩ | ⟨h1, h2⟩
                · exact Or.inl ⟨List.mem_cons_of_mem _ h1, h2⟩
                · refine Or.inr ⟨h1.imp id fun hall j hj hrun => ?_, h2⟩
                  rcases List.mem_cons.mp hj with rfl | hj
                  · exact hp
                  · exact hall j hj hrun

/-- `priority_chosen` is a lower bound for the RUNNABLE slots and is the
priority of one of them, if it is not the initial value. -/
theorem priorityChosen_spec (t : Table) (is : List Slot) (init : Int) :
    priorityChosen t is init ≤ init ∧
      (∀ i ∈ is, (t i).state = .RUNNABLE →
        priorityChosen t is init ≤ (t i).priority) ∧
      (priorityChosen t is init = init ∨
        ∃ i ∈ is, (t i).state = .RUNNABLE ∧
          (t i).priority = priorityChosen t is init) := by
  induction is generalizing init with
  | nil => exact ⟨Int.le_refl _, fun i hi => (nomatch hi), Or.inl rfl⟩
  | cons i is ih =>
      rw [priorityChosen]
      split
      · next hr =>
          obtain ⟨h1, h2, h3⟩ := ih init
          refine ⟨h1, fun j hj hrun => ?_, h3.imp id fun ⟨j, hj, h⟩ =>
            ⟨j, List.mem_cons_of_mem _ hj, h⟩⟩
          rcases List.mem_cons.mp hj with rfl | hj
          · exact absurd hrun hr
          · exact h2 j hj hrun
      · next hr =>
          split
          · next hlt =>
              obtain ⟨h1, h2, h3⟩ := ih (t i).priority
              refine ⟨by omega, fun j hj hrun => ?_, Or.inr ?_⟩
              · rcases List.mem_cons.mp hj with rfl | hj
                · exact h1
                · exact h2 j hj hrun
              · rcases h3 with h3 | ⟨j, hj, h⟩
                · exact ⟨i, List.mem_cons_self, Decidable.not_not.mp hr, h3.symm⟩
                · exact ⟨j, List.mem_cons_of_mem _ hj, h⟩
          · next hlt =>
              obtain ⟨h1, h2, h3⟩ := ih init
              refine ⟨h1, fun j hj hrun => ?_, h3.imp id fun ⟨j, hj, h⟩ =>
                ⟨j, List.mem_cons_of_mem _ hj, h⟩⟩
              rcases List.mem_cons.mp hj with rfl | hj
              · omega
              · exact h2 j hj hrun

/-- The selection loop of case 1 ends with what it had, if no RUNNABLE slot is below the
bound, or with the first of the oldest RUNNABLE slots. -/
theorem fcfsLoop_cases (t : Table) (is : List Slot) (best : Option Slot) (m : Ticks) :
    (fcfsLoop t is best m = best ∧ ∀ i ∈ is, (t i).state = .RUNNABLE → m ≤ (t i).ctime) ∨
      ∃ l p r, is = l ++ p :: r ∧ fcfsLoop t is best m = some p ∧
        (t p).state = .RUNNABLE ∧ (t p).ctime < m ∧
        (∀ i ∈ l, (t i).state = .RUNNABLE → (t p).ctime < (t i).ctime) ∧
        ∀ i ∈ r, (t i).state = .RUNNABLE → (t p).ctime ≤ (t i).ctime := by
  induction is generalizing best m with
  | nil => exact Or.inl ⟨rfl, nofun⟩
  | cons i is ih =>
      rw [fcfsLoop]
      split
      · next hr =>
          rcases ih best m with ⟨he, hall⟩ | ⟨l, p, r, rfl, he, hp, hlt, hl, hrest⟩
          · refine Or.inl ⟨he, fun j hj hrun => ?_⟩
            rcases List.mem_cons.mp hj with rfl | hj
            · exact absurd hrun hr
            · exact hall j hj hrun
          · refine Or.inr ⟨i :: l, p, r, rfl, he, hp, hlt, fun j hj hrun => ?_, hrest⟩
            rcases List.mem_cons.mp hj with rfl | hj
            · exact absurd hrun hr
            · exact hl j hj hrun
      · next hr =>
          split
          · next hlt =>
              rcases ih (some i) (t i).ctime with ⟨he, hall⟩ | ⟨l, p, r, rfl, he, hp, hlt', hl, hrest⟩
              · exact Or.inr ⟨[], i, is, rfl, he, Decidable.not_not.mp hr, hlt, nofun, hall⟩
              · refine Or.inr ⟨i :: l, p, r, rfl, he, hp, by bv_omega, fun j hj hrun => ?_, hrest⟩
                rcases List.mem_cons.mp hj with rfl | hj
                · exact hlt'
                · exact hl j hj hrun
          · next hge =>
              rcases ih best m with ⟨he, hall⟩ | ⟨l, p, r, rfl, he, hp, hlt, hl, hrest⟩
              · refine Or.inl ⟨he, fun j hj hrun => ?_⟩
                rcases List.mem_cons.mp hj with rfl | hj
                · exact BitVec.not_lt.mp hge
                · exact hall j hj hrun
              · refine Or.inr ⟨i :: l, p, r, rfl, he, hp, hlt, fun j hj hrun => ?_, hrest⟩
                rcases List.mem_cons.mp hj with rfl | hj
                · bv_omega
                · exact hl j hj hrun

/-- What case 1 selects is RUNNABLE, and the RUNNABLE slots before it are younger, those
behind it not older. -/
theorem fcfsPick_some {t : Table} {ticks : Ticks} {p : Slot} (h : fcfsPick t ticks = some p) :
    (t p).state = .RUNNABLE ∧ ∀ q, (t q).state = .RUNNABLE →
      (t p).ctime < (t q).ctime ∨ (t p).ctime ≤ (t q).ctime ∧ p ≤ q := by
  rcases fcfsLoop_cases t slots none (ticks + 1000) with
    ⟨he, -⟩ | ⟨l, p', r, hs, he, hp, -, hl, hr⟩
  · rw [fcfsPick, he] at h
    cases h
  · obtain rfl : p' = p := Option.some.inj (he.symm.trans h)
    refine ⟨hp, fun q hq => ?_⟩
    have hmem := mem_slots q
    have hsorted : slots.Pairwise (· < ·) := List.pairwise_lt_finRange NPROC
    rw [hs] at hmem hsorted
    rcases List.mem_append.mp hmem with hq' | hq'
    · exact Or.inl (hl q hq' hq)
    · rcases List.mem_cons.mp hq' with rfl | hq'
      · exact Or.inr ⟨BitVec.le_of_eq rfl, Fin.le_refl _⟩
      · have hpair := (List.pairwise_cons.mp (List.pairwise_append.mp hsorted).2.1).1 q hq'
        exact Or.inr ⟨hr q hq' hq, Fin.le_of_lt hpair⟩

theorem fcfsPick_spec {t : Table} {ticks : Ticks} {p : Slot}
    (h : fcfsPick t ticks = some p) :
    (t p).state = .RUNNABLE ∧
      ∀ q, (t q).state = .RUNNABLE → (t p).ctime ≤ (t q).ctime := by
  obtain ⟨hp, hall⟩ := fcfsPick_some h
  exact ⟨hp, fun q hq => (hall q hq).elim BitVec.le_of_lt And.left⟩

/-- A table with one RUNNABLE process. -/
def oneRunnable (ctime : Ticks) : Table := fun i =>
  if i = 0 then { Proc.zero with state := .RUNNABLE, ctime := ctime } else Proc.zero

theorem oneRunnable_iff (ctime : Ticks) (i : Slot) :
    (oneRunnable ctime i).state = .RUNNABLE ↔ i = 0 := by
  unfold oneRunnable
  split
  · next h => exact iff_of_true rfl h
  · next h => exact iff_of_false nofun h

/-- Whatever a scheduler switches to is RUNNABLE. -/
theorem case2_runnable {t : Table} {p : Slot} {k : Resume} {chosen : Int}
    {is : List Slot} (h : case2Loop t chosen is = some (p, k)) :
    (t p).state = .RUNNABLE := by
  rcases case2Loop_some h with ⟨_, hr, _⟩ | ⟨_, h4⟩
  · exact hr
  · exact (case4_some h4).2.1

/-- Wherever a pass goes on, what it switches to is RUNNABLE. -/
theorem schedResume_runnable {t : Table} {r k : Resume} {p : Slot}
    (h : schedResume t r = some (p, k)) : (t p).state = .RUNNABLE := by
  cases r with
  | fcfs => exact case2_runnable h
  | prio i chosen => exact case2_runnable h
  | rr i => exact (case4_some h).2.1

theorem schedSwitch_runnable {flag : Char} {t : Table} {ticks : Ticks} {k : Resume}
    {p : Slot} (h : schedSwitch flag t ticks = some (p, k)) :
    (t p).state = .RUNNABLE := by
  unfold schedSwitch at h
  split at h
  · unfold case1 at h
    split at h
    · next i hp => cases h; exact (fcfsPick_spec hp).1
    · exact case2_runnable h
  · exact case2_runnable h
  · exact (case4_some h).2.1
  · exact (case4_some h).2.1
  · cases h

/-- Behind case 1 no dispatch is case 1's. -/
theorem case2_ne_fcfs {t : Table} {p : Slot} {k : Resume} {chosen : Int}
    {is : List Slot} (h : case2Loop t chosen is = some (p, k)) : k ≠ .fcfs := by
  rcases case2Loop_some h with ⟨_, _, _, rfl⟩ | ⟨_, h4⟩
  · nofun
  · rw [(case4_some h4).2.2]
    nofun

theorem schedResume_ne_fcfs {t : Table} {r k : Resume} {p : Slot}
    (h : schedResume t r = some (p, k)) : k ≠ .fcfs := by
  cases r with
  | fcfs => exact case2_ne_fcfs h
  | prio i chosen => exact case2_ne_fcfs h
  | rr i =>
      rw [(case4_some h).2.2]
      nofun

/-- Entered from the top, case 2 dispatches a process with the best priority,
as long as no priority is above 100. -/
theorem case2_best {t : Table} {p : Slot} {k : Resume} (h : case2 t = some (p, k))
    (hmax : ∀ i, (t i).priority ≤ 100) {q : Slot} (hq : (t q).state = .RUNNABLE) :
    (t p).priority ≤ (t q).priority := by
  obtain ⟨_, hle, hmem⟩ := priorityChosen_spec t slots 101
  rcases case2Loop_some h with ⟨_, _, hp, _⟩ | ⟨hno, _⟩
  · rw [hp]
    exact hle q (mem_slots q) hq
  · exfalso
    have hchosen := hle q (mem_slots q) hq
    have := hmax q
    rcases hno with h101 | hno
    · omega
    · rcases hmem with h101 | ⟨i, hi, hrun, hpri⟩
      · omega
      · exact hno i hi hrun hpri

end Xv6.Ref
