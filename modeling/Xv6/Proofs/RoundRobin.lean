import Xv6.Proofs.SchedPolicy

/-!
# Round robin

Under SCHEDFLAG `R` only case 4 dispatches, and behind the dispatch of slot `i` its
loop goes on with slot `i + 1`, past the end of the table with slot 0. A RUNNABLE
process `q` is therefore ahead of the loop until the loop has gone all the way
round: from the dispatch of `p` on, the CPU is at a slot of the circular interval
from `p` to `q` (`Ahead`), as long as `q` stays RUNNABLE.
-/

namespace Xv6.Ref

open Xv6.Lib

variable {C : Nat} {s s' : Kern C} {c : Fin C} {p q : Slot}

/-! ## The loop of case 4 -/

/-- Case 4 takes no slot behind a RUNNABLE one. -/
theorem case4_le {t : Table} {is : List Slot} {k : Resume} (hsort : is.Pairwise (· < ·))
    (h : case4 t is = some (p, k)) (hq : q ∈ is) (hrun : (t q).state = .RUNNABLE) : p ≤ q := by
  induction is with
  | nil => cases h
  | cons i is ih =>
      obtain ⟨hlt, hsort⟩ := List.pairwise_cons.mp hsort
      rw [case4] at h
      split at h
      · next hi =>
          refine ih hsort h ((List.mem_cons.mp hq).resolve_left ?_)
          rintro rfl
          exact hi hrun
      · cases h
        rcases List.mem_cons.mp hq with rfl | hq
        · exact le_refl _
        · exact le_of_lt (hlt q hq)

theorem case4_ne_none {t : Table} {is : List Slot} (hq : q ∈ is)
    (hrun : (t q).state = .RUNNABLE) : case4 t is ≠ none := by
  induction is with
  | nil => cases hq
  | cons i is ih =>
      rw [case4]
      split
      · next hi =>
          refine ih ((List.mem_cons.mp hq).resolve_left ?_)
          rintro rfl
          exact hi hrun
      · rintro ⟨⟩

theorem slots_sorted : slots.Pairwise (· < ·) := List.pairwise_lt_finRange NPROC

theorem slotsAfter_sorted (i : Slot) : (slotsAfter i).Pairwise (· < ·) :=
  slots_sorted.filter _

theorem mem_slotsAfter {i : Slot} : q ∈ slotsAfter i ↔ i < q := by
  simp [slotsAfter, slots]

/-- Only case 4 dispatches. -/
def OnlyCase4 (s : Kern C) : Prop := ∀ c k, (s.sched c).resume = some k → ∃ i, k = .rr i

/-- The next dispatch under round robin: from the start of the table, or from behind
the last one. -/
theorem schedNext_rr {o : Option (Slot × Resume)} (hi : OnlyCase4 s)
    (hn : schedNext 'R' s c = some o) :
    ((s.sched c).resume = none ∧ o = case4 s.proc slots) ∨
      ∃ i, (s.sched c).resume = some (.rr i) ∧ o = case4 s.proc (slotsAfter i) := by
  unfold schedNext at hn
  split at hn
  · next hs =>
      rw [hs]
      exact Or.inl ⟨rfl, (Option.some.inj hn).symm⟩
  · next k hs =>
      obtain ⟨i, rfl⟩ := hi c k (by rw [hs]; rfl)
      rw [hs]
      exact Or.inr ⟨i, rfl, (Option.some.inj hn).symm⟩
  · cases hn

theorem onlyCase4_step {a : KAct C} (hi : OnlyCase4 s) (h : kernStep 'R' s a = some s') :
    OnlyCase4 s' := by
  intro d k hk
  rcases kernStep_resume h hk with hk | ⟨-, j, hn⟩
  · exact hi d k hk
  · rcases schedNext_rr hi hn with ⟨-, hc⟩ | ⟨i, -, hc⟩
    · exact ⟨j, (case4_some hc.symm).2.2⟩
    · exact ⟨j, (case4_some hc.symm).2.2⟩

/-! ## One round -/

/-- Between `p` and `q`, `q` excluded, going round the table. -/
def Between (p q i : Slot) : Prop := if p < q then p ≤ i ∧ i < q else p ≤ i ∨ i < q

/-- The CPU has dispatched `p` and not yet come to `q`. -/
def Ahead (p q : Slot) (pc : SchedPc) : Prop :=
  match pc.resume with
  | some (.rr i) => Between p q i
  | some _ => False
  | none => ¬ p < q

/-- A dispatch of another process than `q`, while `q` is RUNNABLE and ahead. -/
theorem ahead_run {j : Slot} {k : Resume} (hi : OnlyCase4 s)
    (h : Ahead p q (s.sched c)) (hq : (s.proc q).state = .RUNNABLE) (hj : j ≠ q)
    (hn : schedNext 'R' s c = some (some (j, k))) : j ≠ p ∧ k = .rr j ∧ Between p q j := by
  rcases schedNext_rr hi hn with ⟨hr, hc⟩ | ⟨i, hr, hc⟩
  · obtain ⟨-, -, rfl⟩ := case4_some hc.symm
    have hlt : j < q := lt_of_le_of_ne (case4_le slots_sorted hc.symm (mem_slots q) hq) hj
    rw [Ahead, hr] at h
    have h : ¬ p < q := h
    rw [Between, if_neg h]
    exact ⟨ne_of_lt (hlt.trans_le (not_lt.mp h)), rfl, Or.inr hlt⟩
  · obtain ⟨hmem, -, rfl⟩ := case4_some hc.symm
    have hij := mem_slotsAfter.mp hmem
    have hlt : i < q → j < q := fun hiq =>
      lt_of_le_of_ne (case4_le (slotsAfter_sorted i) hc.symm (mem_slotsAfter.mpr hiq) hq) hj
    rw [Ahead, hr] at h
    have h : Between p q i := h
    rw [Between] at h ⊢
    split at h
    · next hpq =>
        rw [if_pos hpq]
        have hpj := h.1.trans_lt hij
        exact ⟨ne_of_gt hpj, rfl, le_of_lt hpj, hlt h.2⟩
    · next hpq =>
        rw [if_neg hpq]
        by_cases hiq : i < q
        · exact ⟨ne_of_lt ((hlt hiq).trans_le (not_lt.mp hpq)), rfl, Or.inr (hlt hiq)⟩
        · have hpj := (h.resolve_right hiq).trans_lt hij
          exact ⟨ne_of_gt hpj, rfl, Or.inl (le_of_lt hpj)⟩

/-- A pass does not end before it has come to `q`. -/
theorem ahead_finish (hi : OnlyCase4 s) (h : Ahead p q (s.sched c))
    (hq : (s.proc q).state = .RUNNABLE) (hn : schedNext 'R' s c = some none) : ¬ p < q := by
  rcases schedNext_rr hi hn with ⟨hr, hc⟩ | ⟨i, hr, hc⟩
  · exact absurd hc.symm (case4_ne_none (mem_slots q) hq)
  · intro hlt
    rw [Ahead, hr] at h
    have h : Between p q i := h
    rw [Between, if_pos hlt] at h
    exact case4_ne_none (mem_slotsAfter.mpr h.2) hq hc.symm

theorem ahead_step {a : KAct C} (hi : OnlyCase4 s) (h : Ahead p q (s.sched c))
    (hq : (s.proc q).state = .RUNNABLE) (hq' : (s'.proc q).state = .RUNNABLE)
    (hs : kernStep 'R' s a = some s') : Ahead p q (s'.sched c) := by
  have hsame : (s'.sched c).resume = (s.sched c).resume → Ahead p q (s'.sched c) := by
    intro he
    rw [Ahead, he]
    exact h
  cases kernStep_sched hs with
  | keep frame lock => exact hsame (by rw [frame.1])
  | lock d top free next =>
      subst next
      refine hsame ?_
      simp only [setSched_apply]
      split
      · next he => rw [he, top]; rfl
      · rfl
  | acct d pc act held inside still sched cpu lock =>
      refine hsame ?_
      rw [sched, Function.update_apply]
      split
      · next he => rw [he, resume_of_accounting still, resume_of_accounting inside]
      · rfl
  | finish d act held stop next =>
      subst next
      simp only [endPass, setSched_apply]
      split
      · next he =>
          subst he
          exact ahead_finish hi h hq stop
      · exact h
  | run d j k act held pick next =>
      subst next
      have hj : d = c → j ≠ q := by
        rintro rfl rfl
        simp [dispatch] at hq'
      simp only [dispatch, setSched_apply]
      split
      · next he =>
          subst he
          obtain ⟨-, rfl, hb⟩ := ahead_run hi h hq (hj rfl) pick
          exact hb
      · exact h
  | leave d i k on away free sched cpu lock =>
      refine hsame ?_
      rw [sched, Function.update_apply]
      split
      · next he => rw [he, away]; rfl
      · rfl

/-! ## Whole runs -/

/-- The CPU is at the slot it has dispatched. -/
theorem ahead_self (hi : OnlyCase4 s) (hs : kernStep 'R' s (.schedGo c) = some s')
    (hp : s'.cpu c = some p) : Ahead p q (s'.sched c) := by
  have hself : Between p q p := by
    rw [Between]
    split
    · next hlt => exact ⟨le_refl p, hlt⟩
    · exact Or.inl (le_refl p)
  obtain ⟨-, hgo⟩ := holding_some.mp hs
  rcases schedGo_some hgo with ⟨-, rfl⟩ | ⟨j, k, hn, rfl⟩
  · simp [endPass] at hp
  · simp only [dispatch, Function.update_self, Option.some.injEq] at hp
    subst hp
    have hk : k = .rr j := by
      rcases schedNext_rr hi hn with ⟨-, hc⟩ | ⟨i, -, hc⟩
      · exact (case4_some hc.symm).2.2
      · exact (case4_some hc.symm).2.2
    subst hk
    simp only [dispatch, setSched_apply, if_pos]
    exact hself

/-- Between two dispatches of `p` by one CPU, no other process is RUNNABLE all the
time. -/
theorem roundRobin_no_overtaking {s₁ s₁' s₂ s₂' : Kern C} {ss : List (Kern C)}
    (hreach : Reach (kernStep 'R') anyStep (Kern.boot C) s₁)
    (hfirst : kernStep 'R' s₁ (.schedGo c) = some s₁') (hp : s₁'.cpu c = some p)
    (hpath : Lib.Path (kernStep 'R') s₁' s₂ ss)
    (hsecond : kernStep 'R' s₂ (.schedGo c) = some s₂') (hp' : s₂'.cpu c = some p)
    (hq : q ≠ p) : ∃ s ∈ ss, (s.proc q).state ≠ .RUNNABLE := by
  by_contra hno
  have hrun : ∀ s ∈ ss, (s.proc q).state = .RUNNABLE := by
    intro s hs
    by_contra hne
    exact hno ⟨s, hs, hne⟩
  have hrr : OnlyCase4 s₁ :=
    hreach.invariant (fun c k hk => by cases hk) fun s s' a hi _ hs => onlyCase4_step hi hs
  have hstart : Ahead p q (s₁'.sched c) := ahead_self hrr hfirst hp
  have hall : OnlyCase4 s₂ ∧ Ahead p q (s₂.sched c) := by
    clear hsecond hno
    induction hpath with
    | refl => exact ⟨onlyCase4_step hrr hfirst, hstart⟩
    | tail hpath hs ih =>
        obtain ⟨hi, ha⟩ := ih fun s hs => hrun s (List.mem_cons_of_mem _ hs)
        exact ⟨onlyCase4_step hi hs, ahead_step hi ha
          (hrun _ (List.mem_cons_of_mem _ hpath.mem_last)) (hrun _ List.mem_cons_self) hs⟩
  obtain ⟨k, hn⟩ := schedGo_cpu hsecond hp'
  exact (ahead_run hall.1 hall.2 (hrun s₂ hpath.mem_last) hq.symm hn).1 rfl

/-- `init` is dispatched, forks, and yields to its child, which yields as well. -/
def twoRounds : List (KAct 1) :=
  [.release 0] ++ forkOf 0 ++ [.timer 0, .schedGo 0, .release 0, .timer 0, .schedGo 0] ++
    acctOf 0 0

theorem roundRobin_no_overtaking_child :
    ∃ (s₁ s₁' s₂ s₂' : Kern 1) (ss : List (Kern 1)),
      Reach (kernStep 'R') anyStep (Kern.boot 1) s₁ ∧
      kernStep 'R' s₁ (.schedGo 0) = some s₁' ∧ s₁'.cpu 0 = some 0 ∧
      Lib.Path (kernStep 'R') s₁' s₂ ss ∧
      kernStep 'R' s₂ (.schedGo 0) = some s₂' ∧ s₂'.cpu 0 = some 0 ∧
      (s₂.proc 1).state = .RUNNABLE ∧ ∃ s ∈ ss, (s.proc 1).state ≠ .RUNNABLE := by
  have hrun : (exec (kernStep 'R') anyStep (Kern.boot 1) (acctOf 0 0)).any (fun s₁ =>
      (kernStep 'R' s₁ (.schedGo 0)).any fun s₁' => decide (s₁'.cpu 0 = some 0) &&
        (exec (kernStep 'R') anyStep s₁' twoRounds).any fun s₂ =>
          decide ((s₂.proc 1).state = .RUNNABLE) &&
          (kernStep 'R' s₂ (.schedGo 0)).any fun s₂' => s₂'.cpu 0 = some 0) = true := by
    decide +kernel
  obtain ⟨s₁, hr₁, h⟩ := exists_reach_of_exec hrun
  obtain ⟨s₁', hd₁, h⟩ := (Option.any_eq_true _ _).mp h
  obtain ⟨hp₁, h⟩ := Bool.and_eq_true_iff.mp h
  obtain ⟨s₂, hr₂, h⟩ := exists_reach_of_exec h
  obtain ⟨hq, h⟩ := Bool.and_eq_true_iff.mp h
  obtain ⟨s₂', hd₂, hp₂⟩ := (Option.any_eq_true _ _).mp h
  obtain ⟨ss, hss⟩ := exists_path_of_reach hr₂
  exact ⟨s₁, s₁', s₂, s₂', ss, hr₁, hd₁, of_decide_eq_true hp₁, hss, hd₂,
    of_decide_eq_true hp₂, of_decide_eq_true hq,
    roundRobin_no_overtaking hr₁ hd₁ (of_decide_eq_true hp₁) hss hd₂ (of_decide_eq_true hp₂)
      (by decide)⟩

end Xv6.Ref
