import Xv6.Lib.Trans
import Xv6.Ref.Sleeplock

/-!
# Sleep locks exclude and lose no wakeup

Mutual exclusion is an invariant of the lock's fields and of the places of the
processes (`SleepInv`). That nobody sleeps on a free lock is the debt of
`Lib/Monitor.lean`: the only reason to sleep is that the lock is taken, and
`releasesleep` owes a wakeup from the moment it clears the field.
-/

namespace Xv6.Ref

open Xv6.Lib

variable {P : Type} {pid : P → Nat}

/-- The places behind the inner spinlock. -/
def SleepPlace.spin : SleepPlace → Bool
  | .test | .acquired | .clear | .wake | .released | .compare _ | .answer _ _ => true
  | _ => false

theorem sleepCode_disciplined : Disciplined SleepPlace.spin (sleepCode pid) := by
  intro p call lk l
  cases l with
  | outside => cases call <;> rfl
  | test =>
      simp only [sleepCode]
      split
      · exact ⟨rfl, rfl⟩
      · rfl
  | inside => cases call <;> rfl
  | clear => rfl
  | compare held => rfl
  | answer held r => cases held <;> exact ⟨rfl, rfl⟩
  | _ => exact ⟨rfl, rfl⟩

/-! ## Exclusion -/

/-- The fields say whether the lock is taken, and by whom. -/
structure SleepInv (pid : P → Nat) (s : SleepState P) : Prop where
  one : ∀ p q, (s.pc p).place.has → (s.pc q).place.has → p = q
  owner : ∀ p, (s.pc p).place.has → s.data = { locked := true, pid := pid p }
  locked : s.data.locked = true → ∃ p, (s.pc p).place.has

variable {s s' : SleepState P}

theorem sleepInv_init : SleepInv pid (SleepState.init P) where
  one := by
    intro p q h
    cases h
  owner := by
    intro p h
    cases h
  locked := by
    intro h
    cases h

/-- A move that neither takes nor gives back the lock. -/
theorem SleepInv.keep (h : SleepInv pid s) (hd : s'.data = s.data)
    (hp : ∀ p, (s'.pc p).place.has = (s.pc p).place.has) : SleepInv pid s' where
  one := by
    intro p q hp' hq
    rw [hp] at hp' hq
    exact h.one p q hp' hq
  owner := by
    intro p hp'
    rw [hp] at hp'
    rw [hd]
    exact h.owner p hp'
  locked := by
    intro hl
    rw [hd] at hl
    obtain ⟨p, hp'⟩ := h.locked hl
    exact ⟨p, by rw [hp]; exact hp'⟩

theorem SleepInv.free (h : SleepInv pid s) (hl : s.data.locked = false) (p : P) :
    (s.pc p).place.has = false := by
  by_contra hp
  have := h.owner p (by simpa using hp)
  rw [this] at hl
  cases hl

theorem SleepInv.take (h : SleepInv pid s) {p : P} (hl : s.data.locked = false)
    (hd : s'.data = { locked := true, pid := pid p }) (hp : (s'.pc p).place.has = true)
    (hq : ∀ q, q ≠ p → (s'.pc q).place = (s.pc q).place) : SleepInv pid s' := by
  have honly : ∀ q, (s'.pc q).place.has → q = p := by
    intro q hq'
    by_contra hne
    rw [hq q hne, h.free hl q] at hq'
    cases hq'
  exact ⟨fun q r hq' hr => (honly q hq').trans (honly r hr).symm,
    fun q hq' => by rw [honly q hq', hd], fun _ => ⟨p, hp⟩⟩

theorem SleepInv.give (h : SleepInv pid s) {p : P} (hhas : (s.pc p).place.has = true)
    (hd : s'.data.locked = false) (hp : (s'.pc p).place.has = false)
    (hq : ∀ q, q ≠ p → (s'.pc q).place = (s.pc q).place) : SleepInv pid s' := by
  have hnone : ∀ q, ¬ (s'.pc q).place.has := by
    intro q hq'
    by_cases hne : q = p
    · rw [hne, hp] at hq'
      cases hq'
    · rw [hq q hne] at hq'
      exact hne (h.one q p hq' hhas)
  exact ⟨fun q r hq' => absurd hq' (hnone q), fun q hq' => absurd hq' (hnone q),
    fun hl => by rw [hd] at hl; cases hl⟩

/-- One instruction takes the lock, gives it back, or does neither. -/
theorem sleepCode_has {p : P} {call : SleepCall} {lk lk' : Sleeplock} {l l' : SleepPlace}
    (h : (sleepCode pid p call lk l).next lk = some (lk', l')) :
    lk' = lk ∧ l'.has = l.has ∨
      lk.locked = false ∧ lk' = { locked := true, pid := pid p } ∧ l'.has = true ∨
      l.has = true ∧ lk'.locked = false ∧ l'.has = false := by
  cases l with
  | outside => cases call <;> cases h <;> exact Or.inl ⟨rfl, rfl⟩
  | test =>
      simp only [sleepCode] at h
      split at h <;> cases h
      · exact Or.inl ⟨rfl, rfl⟩
      · next hl => exact Or.inr (Or.inl ⟨by simpa using hl, rfl, rfl⟩)
  | inside => cases call <;> cases h <;> exact Or.inl ⟨rfl, rfl⟩
  | clear =>
      cases h
      exact Or.inr (Or.inr ⟨rfl, rfl, rfl⟩)
  | answer held r => cases held <;> cases h <;> exact Or.inl ⟨rfl, rfl⟩
  | _ =>
      cases h
      exact Or.inl ⟨rfl, rfl⟩

/-! ## Wakeups -/

/-- The reason to sleep on the lock. -/
def Sleeplock.taken (_ : Unit) (lk : Sleeplock) : Prop := lk.locked = true

/-- `releasesleep` between clearing the field and `wakeup`. -/
def SleepPlace.owes (l : SleepPlace) (_ : Unit) : Prop := l = .wake

theorem sleepCode_pays (p : P) (call : SleepCall) (lk : Sleeplock) (l : SleepPlace) :
    (sleepCode pid p call lk l).pays Sleeplock.taken SleepPlace.owes lk l := by
  cases l with
  | outside => cases call <;> exact fun c h => h.imp id nofun
  | test =>
      simp only [sleepCode]
      split
      · next h => exact ⟨h, fun _ => nofun⟩
      · exact fun c _ => Or.inl rfl
  | inside => cases call <;> exact fun c h => h.imp id nofun
  | clear => exact fun c _ => Or.inr rfl
  | wake => exact fun c _ => Or.inl rfl
  | compare held => exact fun c h => h.imp id nofun
  | _ => exact fun c h => nomatch h

/-! ## Whole runs -/

variable [DecidableEq P]

theorem sleepInv_step {act : MonAct P SleepCall} (h : SleepInv pid s)
    (hs : sleeplockStep pid s act = some s') : SleepInv pid s' := by
  rcases step_place hs with ⟨hd, hpc⟩ | ⟨p, call, l, -, hl, hnext, hother⟩
  · exact h.keep hd fun p => by rw [hpc]
  have hplace : (s.pc p).place = l := by rw [hl]; rfl
  rcases sleepCode_has hnext with ⟨hd, hhas⟩ | ⟨hfree, hd, hhas⟩ | ⟨hhas, hd, hno⟩
  · refine h.keep hd fun q => ?_
    by_cases he : q = p
    · rw [he, hhas, hplace]
    · rw [hother q he]
  · exact h.take hfree hd hhas fun q hq => by rw [hother q hq]
  · exact h.give (by rw [hplace, hhas]) hd hno fun q hq => by rw [hother q hq]

theorem sleep_reach {s : SleepState P}
    (h : Reach (sleeplockStep pid) anyStep (SleepState.init P) s) :
    MonInv SleepPlace.spin s ∧ Debt Sleeplock.taken SleepPlace.owes s ∧ SleepInv pid s := by
  refine h.invariant
    (I := fun s => MonInv SleepPlace.spin s ∧ Debt Sleeplock.taken SleepPlace.owes s ∧
      SleepInv pid s)
    ⟨monInv_init _ rfl, debt_init _ _, sleepInv_init⟩ ?_
  rintro s s' act ⟨hm, hd, hi⟩ - hs
  refine ⟨monInv_step sleepCode_disciplined hm hs, ?_, sleepInv_step hi hs⟩
  exact debt_step hm hd (fun p a l _ _ => sleepCode_pays p a s.data l) hs

/-- At most one process is between its `acquiresleep` and its `releasesleep`, and
while both spinlocks are free nobody sleeps on a lock that is not taken. -/
theorem acquiresleep_excludes {s : SleepState P}
    (h : Reach (sleeplockStep pid) anyStep (SleepState.init P) s) :
    (∀ p q, (s.pc p).place.has → (s.pc q).place.has → p = q) ∧
      (s.lock = none → s.table = none → s.data.locked = false → ∀ p, s.asleep p = none) := by
  obtain ⟨hm, hd, hi⟩ := sleep_reach h
  refine ⟨hi.one, fun hlock htable hfree p => ?_⟩
  cases hp : s.asleep p with
  | none => rfl
  | some c =>
      have howes : ∀ q, ¬ (s.pc q).owes SleepPlace.owes c := by
        intro q hq
        have hno : (s.pc q).holds SleepPlace.spin ≠ true := by
          rw [ne_eq, hm.lock q, hlock]
          exact nofun
        cases hv : s.pc q with rw [hv] at hq hno
        | «at» l =>
            cases hq
            exact hno rfl
        | wakeup c' l => exact hno rfl
        | waking c' l => exact hno rfl
        | woken l => exact hno rfl
        | _ => exact hq
      have htaken : s.data.locked = true := hd.reason (Or.inl hp) howes
      rw [hfree] at htaken
      cases htaken

/-- What `holdingsleep` finds out. -/
theorem holdingsleep_iff {s : SleepState P} (hpid : Function.Injective pid)
    (h : Reach (sleeplockStep pid) anyStep (SleepState.init P) s) {p : P} {held : Bool}
    (hp : s.pc p = .at (.compare held)) :
    (s.data.locked && s.data.pid == pid p) = held := by
  obtain ⟨-, -, hi⟩ := sleep_reach h
  have hplace : (s.pc p).place.has = held := by rw [hp]; rfl
  cases held with
  | true =>
      rw [hi.owner p hplace]
      simp
  | false =>
      cases hl : s.data.locked with
      | false => rfl
      | true =>
          obtain ⟨q, hq⟩ := hi.locked hl
          have hne : pid q ≠ pid p := by
            intro he
            rw [hpid he, hplace] at hq
            cases hq
          rw [hi.owner q hq]
          simpa using hne

/-- One process has the lock and another one asks. -/
theorem holdingsleep_iff_other :
    ∃ s : SleepState Bool, (s.pc false = .at (.compare false) ∧ s.data.locked = true) ∧
      (s.data.locked && s.data.pid == Bool.toNat false) = false := by
  have hrun : (exec (sleeplockStep Bool.toNat) anyStep (SleepState.init Bool)
      (List.replicate 4 (.run true .lock) ++ List.replicate 2 (.run false .holding))).any
      (fun s => s.pc false = .at (.compare false) ∧ s.data.locked = true) = true := by
    decide +kernel
  obtain ⟨s, hs, ht⟩ := exists_reach_of_exec hrun
  exact ⟨s, of_decide_eq_true ht, holdingsleep_iff (by decide) hs (of_decide_eq_true ht).1⟩

/-- One process has the lock and another one sleeps on it. -/
theorem acquiresleep_excludes_sleeper :
    ∃ s : SleepState Bool,
      (s.pc true = .at .inside ∧ s.asleep false = some () ∧ s.lock = none ∧ s.table = none) ∧
      (∀ p q, (s.pc p).place.has → (s.pc q).place.has → p = q) ∧
      (s.lock = none → s.table = none → s.data.locked = false → ∀ p, s.asleep p = none) := by
  have hrun : (exec (sleeplockStep Bool.toNat) anyStep (SleepState.init Bool)
      (List.replicate 4 (.run true .lock) ++ List.replicate 6 (.run false .lock))).any
      (fun s => s.pc true = .at .inside ∧ s.asleep false = some () ∧ s.lock = none ∧
        s.table = none) = true := by
    decide +kernel
  obtain ⟨s, hs, ht⟩ := exists_reach_of_exec hrun
  exact ⟨s, of_decide_eq_true ht, acquiresleep_excludes hs⟩

end Xv6.Ref
