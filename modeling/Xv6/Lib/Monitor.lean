import Mathlib

/-!
# Sleeping and waking under a lock

Processes that run code of their own over data behind one lock, and wait for each
other with `sleep` and `wakeup`. The state of a process as the scheduler sees it
is behind a second lock, the table lock. `sleep` takes the table lock before it
lets go of the first one, and `wakeup` takes it to change the sleepers' state, so
a process on its way to sleep cannot be overlooked.

The code is a parameter: an instruction for each place, which may depend on the
process, on an input and on the data. What `sleep` and `wakeup` do is taken apart
into the operations on the two locks, and any process can run between any two of
them. A sleeper can also be woken for no reason at all (`kill`).

`MonInv` is what the two locks guarantee by themselves. `Debt` is the argument
against lost wakeups: whoever sleeps has a reason to, or somebody owes a wakeup.
`debt_step` says what the code has to see to.
-/

namespace Xv6.Lib

/-- Where a process is: at a place of its code, or in `sleep` or `wakeup` and
about to go on at a place. -/
inductive Mpc (C L : Type) where
  | at (l : L)
  /-- In `sleep`: before it takes the table lock, -/
  | sleep (c : C) (l : L)
  /-- before it lets go of the lock, -/
  | sleepRelease (c : C) (l : L)
  /-- before it is put to sleep, -/
  | sleepSched (c : C) (l : L)
  /-- and until it runs again. -/
  | slept (c : C) (l : L)
  /-- Scheduled again, with the table lock. -/
  | tidy (l : L)
  /-- At the end of `sleep`, before it takes the lock. -/
  | reacquire (l : L)
  /-- In `wakeup`: before it takes the table lock, -/
  | wakeup (c : C) (l : L)
  /-- before it changes the sleepers' state, -/
  | waking (c : C) (l : L)
  /-- and before it lets go of the table lock. -/
  | woken (l : L)
  deriving DecidableEq

/-- What a process does next. -/
inductive Instr (σ C L : Type) where
  | acquire (l : L)
  | release (l : L)
  | go (d : σ) (l : L)
  | sleep (c : C) (l : L)
  | wakeup (c : C) (l : L)
  | halt

structure Mon (P σ C L : Type) where
  data : σ
  /-- Who holds the lock, and the table lock. -/
  lock : Option P
  table : Option P
  pc : P → Mpc C L
  /-- What a process is asleep on. -/
  asleep : P → Option C

/-- The code: what process `p` does at a place on an input. -/
abbrev Code (P A σ C L : Type) := P → A → σ → L → Instr σ C L

inductive MonAct (P A : Type) where
  | run (p : P) (a : A)
  | kill (p : P)
  deriving DecidableEq

variable {P A σ C L : Type}

/-- Nobody has begun, and everybody is at `l`. -/
def Mon.init (P C : Type) (d : σ) (l : L) : Mon P σ C L where
  data := d
  lock := none
  table := none
  pc := fun _ => .at l
  asleep := fun _ => none

section

variable [DecidableEq P]

def Mon.goto (s : Mon P σ C L) (p : P) (pc : Mpc C L) : Mon P σ C L :=
  { s with pc := fun q => if q = p then pc else s.pc q }

def Mon.exec (s : Mon P σ C L) (p : P) : Instr σ C L → Option (Mon P σ C L)
  | .acquire l => if s.lock = none then some { s.goto p (.at l) with lock := some p } else none
  | .release l => some { s.goto p (.at l) with lock := none }
  | .go d l => some { s.goto p (.at l) with data := d }
  | .sleep c l => some (s.goto p (.sleep c l))
  | .wakeup c l => some (s.goto p (.wakeup c l))
  | .halt => none

variable [DecidableEq C]

def Mon.run (code : Code P A σ C L) (s : Mon P σ C L) (p : P) (a : A) :
    Option (Mon P σ C L) :=
  match s.pc p with
  | .at l => s.exec p (code p a s.data l)
  | .sleep c l =>
      if s.table = none then some { s.goto p (.sleepRelease c l) with table := some p }
      else none
  | .sleepRelease c l => some { s.goto p (.sleepSched c l) with lock := none }
  | .sleepSched c l =>
      some { s.goto p (.slept c l) with
        table := none
        asleep := fun q => if q = p then some c else s.asleep q }
  | .slept _ l =>
      if s.asleep p = none ∧ s.table = none then
        some { s.goto p (.tidy l) with table := some p }
      else none
  | .tidy l => some { s.goto p (.reacquire l) with table := none }
  | .reacquire l =>
      if s.lock = none then some { s.goto p (.at l) with lock := some p } else none
  | .wakeup c l =>
      if s.table = none then some { s.goto p (.waking c l) with table := some p } else none
  | .waking c l =>
      some { s.goto p (.woken l) with
        asleep := fun q => if s.asleep q = some c then none else s.asleep q }
  | .woken l => some { s.goto p (.at l) with table := none }

def Mon.step (code : Code P A σ C L) (s : Mon P σ C L) : MonAct P A → Option (Mon P σ C L)
  | .run p a => s.run code p a
  | .kill p =>
      if s.table = none then
        some { s with asleep := fun q => if q = p then none else s.asleep q }
      else none

end

/-! ## The two locks -/

/-- An instruction at `l` that agrees with `holds`, the places with the lock. -/
def Instr.locks (holds : L → Bool) (l : L) : Instr σ C L → Prop
  | .acquire l' => holds l = false ∧ holds l' = true
  | .release l' => holds l = true ∧ holds l' = false
  | .go _ l' => holds l' = holds l
  | .sleep _ l' | .wakeup _ l' => holds l = true ∧ holds l' = true
  | .halt => True

def Disciplined (holds : L → Bool) (code : Code P A σ C L) : Prop :=
  ∀ p a d l, (code p a d l).locks holds l

/-- Inside the lock. -/
def Mpc.holds (holds : L → Bool) : Mpc C L → Bool
  | .at l => holds l
  | .sleep _ _ | .sleepRelease _ _ | .wakeup _ _ | .waking _ _ | .woken _ => true
  | .sleepSched _ _ | .slept _ _ | .tidy _ | .reacquire _ => false

/-- Inside the table lock. -/
def Mpc.inTable : Mpc C L → Bool
  | .sleepRelease _ _ | .sleepSched _ _ | .tidy _ | .waking _ _ | .woken _ => true
  | _ => false

/-- The place a process is at or goes on at. -/
def Mpc.place : Mpc C L → L
  | .at l | .sleep _ l | .sleepRelease _ l | .sleepSched _ l | .slept _ l | .tidy l
  | .reacquire l | .wakeup _ l | .waking _ l | .woken l => l

structure MonInv (holds : L → Bool) (s : Mon P σ C L) : Prop where
  lock : ∀ p, (s.pc p).holds holds = true ↔ s.lock = some p
  table : ∀ p, (s.pc p).inTable = true ↔ s.table = some p
  slept : ∀ p c, s.asleep p = some c → ∃ l, s.pc p = .slept c l
  /-- `sleep` and `wakeup` are called with the lock and return with it. -/
  back : ∀ p, (∃ l, s.pc p = .at l) ∨ holds (s.pc p).place = true

variable {holds : L → Bool} {code : Code P A σ C L} {s s' : Mon P σ C L} {p : P} {a : A}

theorem monInv_init {l : L} (d : σ) (h : holds l = false) :
    MonInv holds (Mon.init P C d l) where
  lock := by
    intro p
    show holds l = true ↔ none = some p
    rw [h]
    exact ⟨nofun, nofun⟩
  table := fun p => ⟨nofun, nofun⟩
  slept := nofun
  back := fun p => Or.inl ⟨l, rfl⟩

theorem MonInv.awake (h : MonInv holds s) (hp : ∀ c l, s.pc p ≠ .slept c l) {q : P} {c : C}
    (hq : s.asleep q = some c) : q ≠ p := by
  rintro rfl
  obtain ⟨l, hl⟩ := h.slept q c hq
  exact hp c l hl

section

variable [DecidableEq P]

theorem goto_self (s : Mon P σ C L) (p : P) (v : Mpc C L) : (s.goto p v).pc p = v :=
  if_pos rfl

theorem goto_ne {q : P} (h : q ≠ p) (s : Mon P σ C L) (v : Mpc C L) :
    (s.goto p v).pc q = s.pc q := if_neg h

/-- One of the locks before and after a step of `p`: taken, let go, or left alone. -/
def Moved (p : P) (l l' : Option P) (b b' : Bool) : Prop :=
  (b' = b ∧ l' = l) ∨ (b' = true ∧ l = none ∧ l' = some p) ∨ (b = true ∧ b' = false ∧ l' = none)

theorem moved_iff {f f' : P → Bool} {l l' : Option P} (h : ∀ q, f q = true ↔ l = some q)
    (hother : ∀ q, q ≠ p → f' q = f q) (hm : Moved p l l' (f p) (f' p)) :
    ∀ q, f' q = true ↔ l' = some q := by
  intro q
  by_cases he : q = p
  · subst he
    rcases hm with ⟨hb, hl⟩ | ⟨hb, -, hl⟩ | ⟨-, hb, hl⟩
    · rw [hb, hl]
      exact h q
    · rw [hb, hl]
      exact ⟨fun _ => rfl, fun _ => rfl⟩
    · rw [hb, hl]
      exact ⟨nofun, nofun⟩
  · rw [hother q he, h q]
    have hne : some p ≠ some q := fun hc => he (Option.some.inj hc).symm
    rcases hm with ⟨-, hl⟩ | ⟨-, hn, hl⟩ | ⟨hb, -, hl⟩
    · rw [hl]
    · rw [hn, hl]
      exact ⟨nofun, fun hc => absurd hc hne⟩
    · rw [(h p).mp hb, hl]
      exact ⟨fun hc => absurd hc hne, nofun⟩

/-- A step of `p` that keeps within the discipline. -/
theorem MonInv.move (h : MonInv holds s) (p : P) {v : Mpc C L}
    (hpc : s'.pc = (s.goto p v).pc)
    (hlock : Moved p s.lock s'.lock ((s.pc p).holds holds) (v.holds holds))
    (htable : Moved p s.table s'.table (s.pc p).inTable v.inTable)
    (hslept : ∀ q c, s'.asleep q = some c →
      (q ≠ p ∧ s.asleep q = some c) ∨ q = p ∧ ∃ l, v = .slept c l)
    (hback : (∃ l, v = .at l) ∨ holds v.place = true) : MonInv holds s' := by
  have hself : s'.pc p = v := by rw [hpc]; exact goto_self ..
  have hother : ∀ q, q ≠ p → s'.pc q = s.pc q := fun q hq => by rw [hpc]; exact goto_ne hq ..
  refine ⟨moved_iff h.lock (fun q hq => by rw [hother q hq]) (by rw [hself]; exact hlock),
    moved_iff h.table (fun q hq => by rw [hother q hq]) (by rw [hself]; exact htable),
    fun q c hc => ?_, fun q => ?_⟩
  · rcases hslept q c hc with ⟨hq, hold⟩ | ⟨rfl, l, hv⟩
    · rw [hother q hq]
      exact h.slept q c hold
    · exact ⟨l, by rw [hself, hv]⟩
  · by_cases hq : q = p
    · rw [hq, hself]
      exact hback
    · rw [hother q hq]
      exact h.back q

/-- What the step of a process in its own code does. -/
theorem exec_inv (h : MonInv holds s) {l : L} {i : Instr σ C L} (hl : s.pc p = .at l)
    (hi : i.locks holds l) (hs : s.exec p i = some s') : MonInv holds s' := by
  have hawake : ∀ q c, s.asleep q = some c → q ≠ p := fun q c =>
    h.awake fun c' l' hc => by rw [hl] at hc; cases hc
  cases i with
  | acquire l' =>
      rw [Mon.exec] at hs
      split at hs <;> cases hs
      next hfree =>
      refine h.move p rfl (Or.inr (Or.inl ⟨hi.2, hfree, rfl⟩)) (Or.inl ⟨?_, rfl⟩)
        (fun q c hc => Or.inl ⟨hawake q c hc, hc⟩) (Or.inl ⟨l', rfl⟩)
      rw [hl]
      rfl
  | release l' =>
      cases hs
      refine h.move p rfl (Or.inr (Or.inr ⟨?_, hi.2, rfl⟩)) (Or.inl ⟨?_, rfl⟩)
        (fun q c hc => Or.inl ⟨hawake q c hc, hc⟩) (Or.inl ⟨l', rfl⟩)
      · rw [hl]
        exact hi.1
      · rw [hl]
        rfl
  | go d' l' =>
      cases hs
      refine h.move p rfl (Or.inl ⟨?_, rfl⟩) (Or.inl ⟨?_, rfl⟩)
        (fun q c hc => Or.inl ⟨hawake q c hc, hc⟩) (Or.inl ⟨l', rfl⟩)
      · rw [hl]
        exact hi
      · rw [hl]
        rfl
  | sleep c l' =>
      cases hs
      refine h.move p rfl (Or.inl ⟨?_, rfl⟩) (Or.inl ⟨?_, rfl⟩)
        (fun q c hc => Or.inl ⟨hawake q c hc, hc⟩) (Or.inr hi.2)
      · rw [hl]
        exact hi.1.symm
      · rw [hl]
        rfl
  | wakeup c l' =>
      cases hs
      refine h.move p rfl (Or.inl ⟨?_, rfl⟩) (Or.inl ⟨?_, rfl⟩)
        (fun q c hc => Or.inl ⟨hawake q c hc, hc⟩) (Or.inr hi.2)
      · rw [hl]
        exact hi.1.symm
      · rw [hl]
        rfl
  | halt => cases hs

variable [DecidableEq C]

theorem run_inv (hd : Disciplined holds code) (h : MonInv holds s)
    (hs : s.run code p a = some s') : MonInv holds s' := by
  have hback := h.back p
  rw [Mon.run] at hs
  cases hpc : s.pc p with
  | «at» l =>
      rw [hpc] at hs
      exact exec_inv h hpc (hd p a s.data l) hs
  | sleep c l =>
      simp only [hpc] at hs hback
      split at hs <;> cases hs
      next hfree =>
      refine h.move p rfl (Or.inl ⟨by rw [hpc]; rfl, rfl⟩) (Or.inr (Or.inl ⟨rfl, hfree, rfl⟩))
        (fun q c' hc => Or.inl ?_) (Or.inr (hback.resolve_left nofun))
      exact ⟨h.awake (by rw [hpc]; nofun) hc, hc⟩
  | sleepRelease c l =>
      simp only [hpc] at hs hback
      cases hs
      refine h.move p rfl (Or.inr (Or.inr ⟨by rw [hpc]; rfl, rfl, rfl⟩))
        (Or.inl ⟨by rw [hpc]; rfl, rfl⟩) (fun q c' hc => Or.inl ?_)
        (Or.inr (hback.resolve_left nofun))
      exact ⟨h.awake (by rw [hpc]; nofun) hc, hc⟩
  | sleepSched c l =>
      simp only [hpc] at hs hback
      cases hs
      refine h.move p rfl (Or.inl ⟨by rw [hpc]; rfl, rfl⟩)
        (Or.inr (Or.inr ⟨by rw [hpc]; rfl, rfl, rfl⟩)) (fun q c' hc => ?_)
        (Or.inr (hback.resolve_left nofun))
      dsimp only at hc
      split at hc
      · next he =>
          cases hc
          exact Or.inr ⟨he, l, rfl⟩
      · next he => exact Or.inl ⟨he, hc⟩
  | slept c l =>
      simp only [hpc] at hs hback
      split at hs <;> cases hs
      next hfree =>
      refine h.move p rfl (Or.inl ⟨by rw [hpc]; rfl, rfl⟩)
        (Or.inr (Or.inl ⟨rfl, hfree.2, rfl⟩)) (fun q c' hc => Or.inl ⟨?_, hc⟩)
        (Or.inr (hback.resolve_left nofun))
      rintro rfl
      exact absurd (hfree.1.symm.trans hc) nofun
  | tidy l =>
      simp only [hpc] at hs hback
      cases hs
      refine h.move p rfl (Or.inl ⟨by rw [hpc]; rfl, rfl⟩)
        (Or.inr (Or.inr ⟨by rw [hpc]; rfl, rfl, rfl⟩)) (fun q c' hc => Or.inl ?_)
        (Or.inr (hback.resolve_left nofun))
      exact ⟨h.awake (by rw [hpc]; nofun) hc, hc⟩
  | reacquire l =>
      simp only [hpc] at hs hback
      split at hs <;> cases hs
      next hfree =>
      refine h.move p rfl (Or.inr (Or.inl ⟨hback.resolve_left nofun, hfree, rfl⟩))
        (Or.inl ⟨by rw [hpc]; rfl, rfl⟩) (fun q c' hc => Or.inl ?_) (Or.inl ⟨l, rfl⟩)
      exact ⟨h.awake (by rw [hpc]; nofun) hc, hc⟩
  | wakeup c l =>
      simp only [hpc] at hs hback
      split at hs <;> cases hs
      next hfree =>
      refine h.move p rfl (Or.inl ⟨by rw [hpc]; rfl, rfl⟩)
        (Or.inr (Or.inl ⟨rfl, hfree, rfl⟩)) (fun q c' hc => Or.inl ?_)
        (Or.inr (hback.resolve_left nofun))
      exact ⟨h.awake (by rw [hpc]; nofun) hc, hc⟩
  | waking c l =>
      simp only [hpc] at hs hback
      cases hs
      refine h.move p rfl (Or.inl ⟨by rw [hpc]; rfl, rfl⟩) (Or.inl ⟨by rw [hpc]; rfl, rfl⟩)
        (fun q c' hc => Or.inl ?_) (Or.inr (hback.resolve_left nofun))
      dsimp only at hc
      split at hc
      · cases hc
      · exact ⟨h.awake (by rw [hpc]; nofun) hc, hc⟩
  | woken l =>
      simp only [hpc] at hs hback
      cases hs
      refine h.move p rfl (Or.inl ⟨?_, rfl⟩) (Or.inr (Or.inr ⟨by rw [hpc]; rfl, rfl, rfl⟩))
        (fun q c' hc => Or.inl ?_) (Or.inl ⟨l, rfl⟩)
      · rw [hpc]
        exact hback.resolve_left nofun
      · exact ⟨h.awake (by rw [hpc]; nofun) hc, hc⟩

theorem monInv_step (hd : Disciplined holds code) (h : MonInv holds s) {act : MonAct P A}
    (hs : s.step code act = some s') : MonInv holds s' := by
  cases act with
  | run p a => exact run_inv hd h hs
  | kill p =>
      rw [Mon.step] at hs
      split at hs <;> cases hs
      refine ⟨h.lock, h.table, fun q c hc => ?_, h.back⟩
      dsimp only at hc
      split at hc
      · cases hc
      · exact h.slept q c hc

end

/-! ## Wakeups that are due -/

/-- On the way to sleep. -/
def Mpc.dozing : Mpc C L → Option C
  | .sleep c _ | .sleepRelease c _ | .sleepSched c _ => some c
  | _ => none

/-- Asleep on the channel, or on the way to it. -/
def Mon.dozes (s : Mon P σ C L) (p : P) (c : C) : Prop :=
  s.asleep p = some c ∨ (s.pc p).dozing = some c

/-- The wakeups a process owes, given those owed at the places of its code. -/
def Mpc.owes (owes : L → C → Prop) (v : Mpc C L) (c : C) : Prop :=
  match v with
  | .at l | .woken l => owes l c
  | .wakeup c' l | .waking c' l => c = c' ∨ owes l c
  | _ => False

/-- Who sleeps has a reason, or somebody owes a wakeup. -/
def Debt (waits : C → σ → Prop) (owes : L → C → Prop) (s : Mon P σ C L) : Prop :=
  ∀ p c, s.dozes p c → waits c s.data ∨ ∃ q, (s.pc q).owes owes c

/-- What an instruction at `l` has to see to: a change that takes away the reason
owes the wakeup, a debt is kept until the wakeup, and nobody goes to sleep without
a reason or with a debt. -/
def Instr.pays (waits : C → σ → Prop) (owes : L → C → Prop) (d : σ) (l : L) :
    Instr σ C L → Prop
  | .acquire l' | .release l' => ∀ c, owes l c → owes l' c
  | .go d' l' => ∀ c, waits c d ∨ owes l c → waits c d' ∨ owes l' c
  | .sleep c _ => waits c d ∧ ∀ c', ¬ owes l c'
  | .wakeup c' l' => ∀ c, owes l c → c = c' ∨ owes l' c
  | .halt => True

variable {waits : C → σ → Prop} {owes : L → C → Prop}

theorem debt_init (d : σ) (l : L) : Debt waits owes (Mon.init P C d l) := by
  rintro p c (h | h) <;> cases h

/-- Without a debtor there is a reason. -/
theorem Debt.reason (h : Debt waits owes s) {c : C} (hp : s.dozes p c)
    (hno : ∀ q, ¬ (s.pc q).owes owes c) : waits c s.data :=
  (h p c hp).resolve_right fun ⟨q, hq⟩ => hno q hq

section

variable [DecidableEq P]

/-- A step of `p` that makes nobody sleepy without a reason and pays what it owes. -/
theorem Debt.move (h : Debt waits owes s) (p : P) {v : Mpc C L}
    (hpc : s'.pc = (s.goto p v).pc)
    (hdoze : ∀ q c, s'.dozes q c → s.dozes q c ∨ waits c s'.data)
    (hpay : ∀ q c, s'.dozes q c → waits c s.data ∨ (s.pc p).owes owes c →
      waits c s'.data ∨ v.owes owes c) : Debt waits owes s' := by
  have hself : s'.pc p = v := by rw [hpc]; exact goto_self ..
  have hother : ∀ q, q ≠ p → s'.pc q = s.pc q := fun q hq => by rw [hpc]; exact goto_ne hq ..
  intro q c hq
  rcases hdoze q c hq with hold | hw
  · have hdue : waits c s'.data ∨ v.owes owes c →
        waits c s'.data ∨ ∃ r, (s'.pc r).owes owes c :=
      fun hd => hd.imp id fun ho => ⟨p, by rw [hself]; exact ho⟩
    rcases h q c hold with hw | ⟨r, hr⟩
    · exact hdue (hpay q c hq (Or.inl hw))
    · by_cases he : r = p
      · exact hdue (hpay q c hq (Or.inr (he ▸ hr)))
      · exact Or.inr ⟨r, by rw [hother r he]; exact hr⟩
  · exact Or.inl hw

/-- A move to a place that is no sleepier. -/
theorem dozes_of_goto {v : Mpc C L} {q : P} {c : C} (h : s'.dozes q c)
    (hpc : s'.pc = (s.goto p v).pc) (has : ∀ q c, s'.asleep q = some c → s.dozes q c)
    (hv : ∀ c, v.dozing = some c → s.dozes p c) : s.dozes q c := by
  rcases h with h | h
  · exact has q c h
  · rw [hpc] at h
    by_cases he : q = p
    · subst he
      rw [goto_self] at h
      exact hv c h
    · rw [goto_ne he] at h
      exact Or.inr h

theorem exec_debt (h : Debt waits owes s) {l : L} {i : Instr σ C L} (hl : s.pc p = .at l)
    (hpays : i.pays waits owes s.data l) (hs : s.exec p i = some s') : Debt waits owes s' := by
  have howe : ∀ c, (s.pc p).owes owes c → owes l c := by
    intro c ho
    rw [hl] at ho
    exact ho
  cases i with
  | acquire l' =>
      rw [Mon.exec] at hs
      split at hs <;> cases hs
      refine h.move p rfl (fun q c hq => Or.inl ?_) fun q c hq hold =>
        hold.imp id fun ho => hpays c (howe c ho)
      exact dozes_of_goto hq rfl (fun _ _ => Or.inl) nofun
  | release l' =>
      cases hs
      refine h.move p rfl (fun q c hq => Or.inl ?_) fun q c hq hold =>
        hold.imp id fun ho => hpays c (howe c ho)
      exact dozes_of_goto hq rfl (fun _ _ => Or.inl) nofun
  | go d' l' =>
      cases hs
      refine h.move p rfl (fun q c hq => Or.inl ?_) fun q c hq hold =>
        hpays c (hold.imp id (howe c))
      exact dozes_of_goto hq rfl (fun _ _ => Or.inl) nofun
  | sleep c' l' =>
      cases hs
      refine h.move p rfl (fun q c hq => ?_) fun q c hq hold =>
        Or.inl (hold.resolve_right fun ho => hpays.2 c (howe c ho))
      rcases hq with hq | hq
      · exact Or.inl (Or.inl hq)
      · by_cases he : q = p
        · subst he
          rw [goto_self] at hq
          cases hq
          exact Or.inr hpays.1
        · rw [goto_ne he] at hq
          exact Or.inl (Or.inr hq)
  | wakeup c' l' =>
      cases hs
      refine h.move p rfl (fun q c hq => Or.inl ?_) fun q c hq hold =>
        hold.imp id fun ho => hpays c (howe c ho)
      exact dozes_of_goto hq rfl (fun _ _ => Or.inl) nofun
  | halt => cases hs

variable [DecidableEq C]

/-- Wakeups are not lost if the instructions pay what they owe. -/
theorem run_debt (hi : MonInv holds s) (h : Debt waits owes s)
    (hpays : ∀ l, s.pc p = .at l → (code p a s.data l).pays waits owes s.data l)
    (hs : s.run code p a = some s') : Debt waits owes s' := by
  rw [Mon.run] at hs
  cases hpc : s.pc p with
  | «at» l =>
      rw [hpc] at hs
      exact exec_debt h hpc (hpays l hpc) hs
  | sleep c l =>
      simp only [hpc] at hs
      split at hs <;> cases hs
      refine h.move p rfl (fun q c' hq => Or.inl ?_) fun q c' hq hold => ?_
      · exact dozes_of_goto hq rfl (fun _ _ => Or.inl)
          fun c'' hc => Or.inr (by rw [hpc]; exact hc)
      · rw [hpc] at hold
        exact hold.imp id False.elim
  | sleepRelease c l =>
      simp only [hpc] at hs
      cases hs
      refine h.move p rfl (fun q c' hq => Or.inl ?_) fun q c' hq hold => ?_
      · exact dozes_of_goto hq rfl (fun _ _ => Or.inl)
          fun c'' hc => Or.inr (by rw [hpc]; exact hc)
      · rw [hpc] at hold
        exact hold.imp id False.elim
  | sleepSched c l =>
      simp only [hpc] at hs
      cases hs
      refine h.move p rfl (fun q c' hq => Or.inl ?_) fun q c' hq hold => ?_
      · refine dozes_of_goto hq rfl (fun r c'' hc => ?_) nofun
        dsimp only at hc
        split at hc
        · next he =>
            cases hc
            exact Or.inr (by rw [he, hpc]; rfl)
        · exact Or.inl hc
      · rw [hpc] at hold
        exact hold.imp id False.elim
  | slept c l =>
      simp only [hpc] at hs
      split at hs <;> cases hs
      refine h.move p rfl (fun q c' hq => Or.inl ?_) fun q c' hq hold => ?_
      · exact dozes_of_goto hq rfl (fun _ _ => Or.inl) nofun
      · rw [hpc] at hold
        exact hold.imp id False.elim
  | tidy l =>
      simp only [hpc] at hs
      cases hs
      refine h.move p rfl (fun q c' hq => Or.inl ?_) fun q c' hq hold => ?_
      · exact dozes_of_goto hq rfl (fun _ _ => Or.inl) nofun
      · rw [hpc] at hold
        exact hold.imp id False.elim
  | reacquire l =>
      simp only [hpc] at hs
      split at hs <;> cases hs
      refine h.move p rfl (fun q c' hq => Or.inl ?_) fun q c' hq hold => ?_
      · exact dozes_of_goto hq rfl (fun _ _ => Or.inl) nofun
      · rw [hpc] at hold
        exact hold.imp id False.elim
  | wakeup c l =>
      simp only [hpc] at hs
      split at hs <;> cases hs
      refine h.move p rfl (fun q c' hq => Or.inl ?_) fun q c' hq hold => ?_
      · exact dozes_of_goto hq rfl (fun _ _ => Or.inl) nofun
      · rw [hpc] at hold
        exact hold
  | waking c l =>
      simp only [hpc] at hs
      cases hs
      refine h.move p rfl (fun q c' hq => Or.inl ?_) fun q c' hq hold => ?_
      · refine dozes_of_goto hq rfl (fun r c'' hc => ?_) nofun
        dsimp only at hc
        split at hc
        · cases hc
        · exact Or.inl hc
      · rw [hpc] at hold
        refine hold.imp id fun ho => ho.resolve_left ?_
        -- whoever is on the way to sleep has one of the locks, and so has the waker
        rintro rfl
        have hlock : s.lock = some p := (hi.lock p).mp (by rw [hpc]; rfl)
        have htable : s.table = some p := (hi.table p).mp (by rw [hpc]; rfl)
        rcases hq with hq | hq
        · dsimp only at hq
          split at hq
          · cases hq
          · next hne => exact hne hq
        · by_cases he : q = p
          · subst he
            rw [goto_self] at hq
            cases hq
          · rw [goto_ne he] at hq
            have hneq : ∀ {o : Option P}, o = some p → o ≠ some q := by
              rintro o rfl hc
              exact he (Option.some.inj hc).symm
            cases hv : s.pc q with rw [hv] at hq
            | sleep c'' l'' => exact hneq hlock ((hi.lock q).mp (by rw [hv]; rfl))
            | sleepRelease c'' l'' => exact hneq hlock ((hi.lock q).mp (by rw [hv]; rfl))
            | sleepSched c'' l'' => exact hneq htable ((hi.table q).mp (by rw [hv]; rfl))
            | _ => cases hq
  | woken l =>
      simp only [hpc] at hs
      cases hs
      refine h.move p rfl (fun q c' hq => Or.inl ?_) fun q c' hq hold => ?_
      · exact dozes_of_goto hq rfl (fun _ _ => Or.inl) nofun
      · rw [hpc] at hold
        exact hold

theorem debt_step (hi : MonInv holds s) (h : Debt waits owes s) {act : MonAct P A}
    (hpays : ∀ p a l, act = .run p a → s.pc p = .at l →
      (code p a s.data l).pays waits owes s.data l)
    (hs : s.step code act = some s') : Debt waits owes s' := by
  cases act with
  | run p a => exact run_debt hi h (fun l => hpays p a l rfl) hs
  | kill p =>
      rw [Mon.step] at hs
      split at hs <;> cases hs
      intro q c hq
      refine h q c (hq.imp (fun hc => ?_) id)
      dsimp only at hc
      split at hc
      · cases hc
      · exact hc

end

/-! ## The code by itself -/

/-- The data after an instruction, and the place the process goes on at. -/
def Instr.next (d : σ) : Instr σ C L → Option (σ × L)
  | .acquire l | .release l | .sleep _ l | .wakeup _ l => some (d, l)
  | .go d' l => some (d', l)
  | .halt => none

section

variable [DecidableEq P]

theorem exec_next {i : Instr σ C L} (hs : s.exec p i = some s') :
    i.next s.data = some (s'.data, (s'.pc p).place) ∧ ∀ q, q ≠ p → s'.pc q = s.pc q := by
  cases i with
  | acquire l =>
      rw [Mon.exec] at hs
      split at hs <;> cases hs
      exact ⟨by rw [Instr.next]; simp only [goto_self]; rfl, fun q hq => goto_ne hq ..⟩
  | release l =>
      cases hs
      exact ⟨by rw [Instr.next]; simp only [goto_self]; rfl, fun q hq => goto_ne hq ..⟩
  | go d l =>
      cases hs
      exact ⟨by rw [Instr.next]; simp only [goto_self]; rfl, fun q hq => goto_ne hq ..⟩
  | sleep c l =>
      cases hs
      exact ⟨by rw [Instr.next]; simp only [goto_self]; rfl, fun q hq => goto_ne hq ..⟩
  | wakeup c l =>
      cases hs
      exact ⟨by rw [Instr.next]; simp only [goto_self]; rfl, fun q hq => goto_ne hq ..⟩
  | halt => cases hs

variable [DecidableEq C]

/-- To the code, a step is nothing or one instruction. -/
theorem step_place {act : MonAct P A} (hs : s.step code act = some s') :
    (s'.data = s.data ∧ ∀ q, (s'.pc q).place = (s.pc q).place) ∨
      ∃ p a l, act = .run p a ∧ s.pc p = .at l ∧
        (code p a s.data l).next s.data = some (s'.data, (s'.pc p).place) ∧
        ∀ q, q ≠ p → s'.pc q = s.pc q := by
  cases act with
  | kill p =>
      rw [Mon.step] at hs
      split at hs <;> cases hs
      exact Or.inl ⟨rfl, fun _ => rfl⟩
  | run p a =>
      have hkeep : ∀ {v : Mpc C L}, (s'.data = s.data ∧ s'.pc = (s.goto p v).pc) →
          v.place = (s.pc p).place →
          s'.data = s.data ∧ ∀ q, (s'.pc q).place = (s.pc q).place := by
        rintro v ⟨hd, hpc⟩ hv
        refine ⟨hd, fun q => ?_⟩
        rw [hpc]
        by_cases he : q = p
        · rw [he, goto_self, hv]
        · rw [goto_ne he]
      rw [Mon.step, Mon.run] at hs
      cases hpc : s.pc p with
      | «at» l =>
          simp only [hpc] at hs
          exact Or.inr ⟨p, a, l, rfl, hpc, exec_next hs⟩
      | sleep c l =>
          simp only [hpc] at hs
          split at hs <;> cases hs
          exact Or.inl (hkeep ⟨rfl, rfl⟩ (by rw [hpc]; rfl))
      | sleepRelease c l =>
          simp only [hpc] at hs
          cases hs
          exact Or.inl (hkeep ⟨rfl, rfl⟩ (by rw [hpc]; rfl))
      | sleepSched c l =>
          simp only [hpc] at hs
          cases hs
          exact Or.inl (hkeep ⟨rfl, rfl⟩ (by rw [hpc]; rfl))
      | slept c l =>
          simp only [hpc] at hs
          split at hs <;> cases hs
          exact Or.inl (hkeep ⟨rfl, rfl⟩ (by rw [hpc]; rfl))
      | tidy l =>
          simp only [hpc] at hs
          cases hs
          exact Or.inl (hkeep ⟨rfl, rfl⟩ (by rw [hpc]; rfl))
      | reacquire l =>
          simp only [hpc] at hs
          split at hs <;> cases hs
          exact Or.inl (hkeep ⟨rfl, rfl⟩ (by rw [hpc]; rfl))
      | wakeup c l =>
          simp only [hpc] at hs
          split at hs <;> cases hs
          exact Or.inl (hkeep ⟨rfl, rfl⟩ (by rw [hpc]; rfl))
      | waking c l =>
          simp only [hpc] at hs
          cases hs
          exact Or.inl (hkeep ⟨rfl, rfl⟩ (by rw [hpc]; rfl))
      | woken l =>
          simp only [hpc] at hs
          cases hs
          exact Or.inl (hkeep ⟨rfl, rfl⟩ (by rw [hpc]; rfl))

/-! ## Places that keep the lock -/

/-- In `sleep`. -/
def Mpc.sleeping : Mpc C L → Bool
  | .sleep _ _ | .sleepRelease _ _ | .sleepSched _ _ | .slept _ _ | .tidy _
  | .reacquire _ => true
  | _ => false

/-- Nobody sleeps at a place of `solo`. -/
def Wakeful (solo : L → Bool) (s : Mon P σ C L) : Prop :=
  ∀ p, (s.pc p).sleeping = true → solo (s.pc p).place = false

def Instr.wakeful (solo : L → Bool) : Instr σ C L → Prop
  | .sleep _ l => solo l = false
  | _ => True

variable {solo : L → Bool}

omit [DecidableEq P] [DecidableEq C] in
theorem wakeful_init (d : σ) (l : L) : Wakeful solo (Mon.init P C d l) := by
  intro p h
  cases h

theorem wakeful_step (hcode : ∀ p a d l, (code p a d l).wakeful solo) (h : Wakeful solo s)
    {act : MonAct P A} (hs : s.step code act = some s') : Wakeful solo s' := by
  have hgoto : ∀ {p : P} {v : Mpc C L}, s'.pc = (s.goto p v).pc →
      (v.sleeping = true → solo v.place = false) → Wakeful solo s' := by
    intro p v hpc hv q hq
    rw [hpc] at hq ⊢
    by_cases he : q = p
    · rw [he, goto_self] at hq ⊢
      exact hv hq
    · rw [goto_ne he] at hq ⊢
      exact h q hq
  cases act with
  | kill p =>
      rw [Mon.step] at hs
      split at hs <;> cases hs
      exact h
  | run p a =>
      have hp := h p
      rw [Mon.step, Mon.run] at hs
      cases hpc : s.pc p with simp only [hpc] at hs hp
      | «at» l =>
          have hi := hcode p a s.data l
          cases he : code p a s.data l with rw [he] at hs hi
          | acquire l' =>
              rw [Mon.exec] at hs
              split at hs <;> cases hs
              exact hgoto rfl nofun
          | sleep c l' =>
              cases hs
              exact hgoto rfl fun _ => hi
          | release l' | go d l' | wakeup c l' =>
              cases hs
              exact hgoto rfl nofun
          | halt => cases hs
      | sleep c l | slept c l =>
          split at hs <;> cases hs
          exact hgoto rfl fun _ => hp rfl
      | sleepRelease c l | sleepSched c l | tidy l =>
          cases hs
          exact hgoto rfl fun _ => hp rfl
      | reacquire l | wakeup c l =>
          split at hs <;> cases hs
          exact hgoto rfl nofun
      | waking c l | woken l =>
          cases hs
          exact hgoto rfl nofun

omit [DecidableEq P] [DecidableEq C] in
/-- The places of `solo` are reached with the lock and left with it. -/
theorem Wakeful.locked (h : Wakeful solo s) (hsolo : ∀ l, solo l = true → holds l = true)
    (hp : solo (s.pc p).place = true) : (s.pc p).holds holds = true := by
  have hno := h p
  cases hpc : s.pc p with rw [hpc] at hp hno
  | «at» l => exact hsolo l hp
  | sleep | sleepRelease | wakeup | waking | woken => rfl
  | sleepSched c l | slept c l | tidy l | reacquire l =>
      rw [hno rfl] at hp
      cases hp

omit [DecidableEq P] [DecidableEq C] in
theorem Wakeful.unique (h : Wakeful solo s) (hi : MonInv holds s)
    (hsolo : ∀ l, solo l = true → holds l = true) {q : P} (hp : solo (s.pc p).place = true)
    (hq : (s.pc q).holds holds = true) : q = p := by
  have hlock := (hi.lock p).mp (h.locked hsolo hp)
  rw [(hi.lock q).mp hq] at hlock
  exact Option.some.inj hlock

end

end Xv6.Lib
