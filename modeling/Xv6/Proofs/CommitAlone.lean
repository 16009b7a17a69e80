import Xv6.Lib.Sum
import Xv6.Lib.Trans
import Xv6.Ref.LogLock

/-!
# A commit has the log to itself

`outstanding` counts the admitted operations, `committing` says that exactly one
process is on its way through `commit`, and the two exclude each other
(`CommitInv`). A process in `begin_op` sleeps for a reason: a commit, or an
operation whose `end_op` will make room. Both places that take a reason away owe a
wakeup, in the sense of `Lib/Monitor.lean`.
-/

namespace Xv6.Ref

open Xv6.Lib

variable {P : Type} {lg : LogDev}

/-- The places behind `log.lock`. -/
def LogPlace.locked : LogPlace → Bool
  | .beginTest | .beginRelease | .writeAppend _ | .writeRelease | .endTest | .endWakeup
  | .endRelease _ | .finishClear | .finishWakeup | .finishRelease | .panicCommitting => true
  | _ => false

theorem logCode_disciplined : Disciplined LogPlace.locked (logCode (P := P) lg) := by
  intro p call d l
  cases l with
  | beginTest =>
      simp only [logCode, beginTest]
      repeat' split
      · exact ⟨rfl, rfl⟩
      · exact ⟨rfl, rfl⟩
      · rfl
  | op =>
      cases call with
      | logWrite b =>
          simp only [logCode]
          repeat' split
          all_goals rfl
      | endOp => rfl
  | endTest =>
      simp only [logCode, endTest]
      repeat' split
      all_goals rfl
  | endRelease doCommit => cases doCommit <;> exact ⟨rfl, rfl⟩
  | commit =>
      simp only [logCode]
      split <;> rfl
  | writeLog tail =>
      simp only [logCode]
      split <;> rfl
  | installTrans tail =>
      simp only [logCode]
      split <;> rfl
  | user | writeAppend b | writeHead | clear | eraseHead | finishClear => rfl
  | panicTooBig | panicOutside | panicCommitting => trivial
  | _ => exact ⟨rfl, rfl⟩

/-! ## One instruction -/

/-- What an instruction does to the shared fields and to the role of its process. -/
inductive LogMove (d : LogLock) : LogRole → LogLock → LogRole → Prop
  | keep (r : LogRole) : LogMove d r d r
  | join : d.committing = false →
      LogMove d .out { d with outstanding := d.outstanding + 1 } .op
  | append (b : Nat) : LogMove d .op { d with block := absorb d.block b } .op
  | leave : d.outstanding - 1 ≠ 0 →
      LogMove d .op { d with outstanding := d.outstanding - 1 } .out
  | last : d.outstanding - 1 = 0 →
      LogMove d .op { d with outstanding := d.outstanding - 1, committing := true } .commit
  | panic (d' : LogLock) : d.committing = true → LogMove d .op d' .panicked
  | empty : d.block = [] → LogMove d .commit d .cleared
  | clear : LogMove d .commit { d with block := [] } .cleared
  | finish : LogMove d .cleared { d with committing := false } .out

theorem logCode_move {p : P} {call : OpCall} {d d' : LogLock} {l l' : LogPlace}
    (h : (logCode lg p call d l).next d = some (d', l')) :
    LogMove d l.role d' l'.role := by
  cases l with
  | beginTest =>
      simp only [logCode, beginTest] at h
      split at h
      · cases h
        exact .keep _
      · next hc =>
          split at h <;> cases h
          · exact .keep _
          · exact .join (by simpa using hc)
  | op =>
      cases call with
      | logWrite b =>
          simp only [logCode] at h
          repeat' split at h
          all_goals
            cases h
            exact .keep _
      | endOp =>
          cases h
          exact .keep _
  | writeAppend b =>
      cases h
      exact .append b
  | endTest =>
      simp only [logCode, endTest] at h
      split at h
      · next hc =>
          cases h
          exact .panic _ hc
      · split at h <;> cases h
        · next ho => exact .last ho
        · next ho => exact .leave ho
  | endRelease doCommit => cases doCommit <;> cases h <;> exact .keep _
  | commit =>
      simp only [logCode] at h
      split at h <;> cases h
      · exact .keep _
      · next hn => exact .empty (by simpa using hn)
  | writeLog tail =>
      simp only [logCode] at h
      split at h <;> cases h <;> exact .keep _
  | installTrans tail =>
      simp only [logCode] at h
      split at h <;> cases h <;> exact .keep _
  | clear =>
      cases h
      exact .clear
  | finishClear =>
      cases h
      exact .finish
  | panicTooBig | panicOutside | panicCommitting => cases h
  | _ =>
      cases h
      exact .keep _

/-! ## Operations and commits -/

def LogRole.share : LogRole → Int
  | .op => 1
  | _ => 0

def LogRole.commits : LogRole → Prop
  | .commit | .cleared => True
  | _ => False

/-- The fields agree with the roles. -/
structure CommitInv [Fintype P] (d : LogLock) (role : P → LogRole) : Prop where
  count : d.outstanding = ∑ p, (role p).share
  commits : ∀ p, (role p).commits → d.committing = true
  one : ∀ p q, (role p).commits → (role q).commits → p = q
  alone : d.committing = true → d.outstanding = 0
  empty : d.committing = false → d.outstanding = 0 → d.block = []
  cleared : ∀ p, role p = .cleared → d.block = []
  fine : ∀ p, role p ≠ .panicked

variable [Fintype P] {d d' : LogLock} {role : P → LogRole} {r r' : LogRole}

theorem commitInv_init : CommitInv LogLock.init fun _ : P => .out where
  count := by
    symm
    exact Finset.sum_eq_zero fun _ _ => rfl
  commits := by
    intro p h
    cases h
  one := by
    intro p q h
    cases h
  alone := fun _ => rfl
  empty := fun _ _ => rfl
  cleared := fun _ _ => rfl
  fine := fun _ => nofun

theorem LogRole.share_nonneg (r : LogRole) : 0 ≤ r.share := by
  cases r <;> decide

/-- An admitted operation keeps commits away. -/
theorem CommitInv.op (h : CommitInv d role) {p : P} (hp : role p = .op) :
    0 < d.outstanding ∧ d.committing = false := by
  have hpos : 0 < d.outstanding := by
    rw [h.count]
    refine Finset.sum_pos' (fun q _ => (role q).share_nonneg) ⟨p, Finset.mem_univ p, ?_⟩
    rw [hp]
    decide
  refine ⟨hpos, ?_⟩
  cases hc : d.committing with
  | false => rfl
  | true =>
      have := h.alone hc
      omega

theorem CommitInv.nobody (h : CommitInv d role) (hc : d.committing = false) (p : P) :
    ¬ (role p).commits := by
  intro hp
  rw [h.commits p hp] at hc
  cases hc

theorem CommitInv.outstanding_nonneg (h : CommitInv d role) : 0 ≤ d.outstanding := by
  rw [h.count]
  exact Finset.sum_nonneg fun p _ => (role p).share_nonneg

theorem LogMove.share (h : LogMove d r d' r') (hop : r = .op → d.committing = false) :
    d'.outstanding + r.share = d.outstanding + r'.share := by
  cases h with
  | keep r => rfl
  | join | leave | last =>
      simp only [LogRole.share]
      omega
  | append b | empty | clear | finish => rfl
  | panic d' hc =>
      rw [hop rfl] at hc
      cases hc

/-- The invariant while nobody commits, -/
theorem CommitInv.idle (hcount : d.outstanding = ∑ p, (role p).share)
    (hc : d.committing = false) (hno : ∀ p, ¬ (role p).commits)
    (hempty : d.outstanding = 0 → d.block = []) (hfine : ∀ p, role p ≠ .panicked) :
    CommitInv d role where
  count := hcount
  commits := fun p hp => absurd hp (hno p)
  one := fun p _ hp => absurd hp (hno p)
  alone := fun hc' => by rw [hc] at hc'; cases hc'
  empty := fun _ => hempty
  cleared := fun p hp => absurd (show (role p).commits by rw [hp]; trivial) (hno p)
  fine := hfine

/-- and while `p` does. -/
theorem CommitInv.busy (p : P) (hcount : d.outstanding = ∑ p, (role p).share)
    (hc : d.committing = true) (ho : d.outstanding = 0)
    (honly : ∀ q, (role q).commits → q = p) (hcleared : role p = .cleared → d.block = [])
    (hfine : ∀ p, role p ≠ .panicked) : CommitInv d role where
  count := hcount
  commits := fun _ _ => hc
  one := fun q q' hq hq' => (honly q hq).trans (honly q' hq').symm
  alone := fun _ => ho
  empty := fun hc' => by rw [hc] at hc'; cases hc'
  cleared := fun q hq => by
    have hqp : q = p := honly q (by rw [hq]; trivial)
    exact hcleared (hqp ▸ hq)
  fine := hfine

theorem CommitInv.move [DecidableEq P] (h : CommitInv d role) {p : P}
    (hm : LogMove d (role p) d' r') : CommitInv d' (Function.update role p r') := by
  have hself : Function.update role p r' p = r' := Function.update_self ..
  have hother : ∀ q, q ≠ p → Function.update role p r' q = role q := fun q hq =>
    Function.update_of_ne hq ..
  have hcount : d'.outstanding = ∑ q, (Function.update role p r' q).share := by
    have hsum := sum_change (f := fun q => (Function.update role p r' q).share)
      (g := fun q => (role q).share) (i := p) fun q hq => by rw [hother q hq]
    rw [hself] at hsum
    have hshare := hm.share fun hp => (h.op hp).2
    have := h.count
    omega
  have hfine : r' ≠ .panicked → ∀ q, Function.update role p r' q ≠ .panicked := by
    intro hr' q
    by_cases he : q = p
    · rw [he, hself]
      exact hr'
    · rw [hother q he]
      exact h.fine q
  have hno : ¬ r'.commits → (∀ q, q ≠ p → ¬ (role q).commits) →
      ∀ q, ¬ (Function.update role p r' q).commits := by
    intro hr' hq q
    by_cases he : q = p
    · rw [he, hself]
      exact hr'
    · rw [hother q he]
      exact hq q he
  have honly : (∀ q, (role q).commits → q = p) →
      ∀ q, (Function.update role p r' q).commits → q = p := by
    intro hq q hq'
    by_contra he
    rw [hother q he] at hq'
    exact he (hq q hq')
  generalize hr : role p = r at hm
  have hop : r = .op → 0 < d.outstanding ∧ d.committing = false := fun hp =>
    h.op (hr.trans hp)
  have hcommits : r.commits → d.committing = true ∧ ∀ q, (role q).commits → q = p := by
    rintro hp
    rw [← hr] at hp
    exact ⟨h.commits p hp, fun q hq => h.one q p hq hp⟩
  have hold := h.nobody
  cases hm with
  | keep r =>
      rw [← hr, Function.update_eq_self]
      exact h
  | join hc =>
      refine .idle hcount hc (hno id fun q _ => hold hc q) (fun ho => ?_) (hfine nofun)
      have := h.outstanding_nonneg
      dsimp only at ho
      omega
  | append b =>
      obtain ⟨hpos, hc⟩ := hop rfl
      refine .idle hcount hc (hno id fun q _ => hold hc q) (fun ho => ?_) (hfine nofun)
      dsimp only at ho
      omega
  | leave hne =>
      obtain ⟨hpos, hc⟩ := hop rfl
      exact .idle hcount hc (hno id fun q _ => hold hc q) (fun ho => absurd ho hne) (hfine nofun)
  | last hz =>
      obtain ⟨hpos, hc⟩ := hop rfl
      refine .busy p hcount rfl hz (honly fun q hq => absurd hq (hold hc q)) ?_ (hfine nofun)
      rw [hself]
      exact nofun
  | panic d' hc =>
      rw [(hop rfl).2] at hc
      cases hc
  | empty hb =>
      obtain ⟨hc, hq⟩ := hcommits trivial
      exact .busy p hcount hc (h.alone hc) (honly hq) (fun _ => hb) (hfine nofun)
  | clear =>
      obtain ⟨hc, hq⟩ := hcommits trivial
      exact .busy p hcount hc (h.alone hc) (honly hq) (fun _ => rfl) (hfine nofun)
  | finish =>
      obtain ⟨hc, hq⟩ := hcommits trivial
      exact .idle hcount rfl (hno id fun q hne hq' => hne (hq q hq'))
        (fun _ => h.cleared p hr) (hfine nofun)

/-! ## Wakeups -/

/-- A reason to sleep in `begin_op`. -/
def LogLock.waits (_ : Unit) (d : LogLock) : Prop :=
  d.committing = true ∨
    (d.block.length : Int) + (d.outstanding + 1) * MAXOPBLOCKS > LOGSIZE ∧ d.outstanding > 0

/-- `end_op` between a change that may let others in and `wakeup`. -/
def LogPlace.owes (l : LogPlace) (_ : Unit) : Prop :=
  match l with
  | .endWakeup | .finishWakeup => True
  | _ => False

omit [Fintype P] in
theorem le_length_absorb (block : List Nat) (b : Nat) :
    block.length ≤ (absorb block b).length := by
  induction block with
  | nil => exact Nat.zero_le _
  | cons x xs ih =>
      rw [absorb]
      split
      · exact le_refl _
      · exact Nat.succ_le_succ ih

/-- Operations that are admitted and blocks that are logged leave the reasons. -/
theorem LogLock.waits.mono {c : Unit} (h : d.waits c) (hc : d'.committing = d.committing)
    (hn : d.block.length ≤ d'.block.length) (ho : d.outstanding ≤ d'.outstanding) :
    d'.waits c := by
  rcases h with h | ⟨h, hpos⟩
  · exact Or.inl (hc.trans h)
  · refine Or.inr ⟨?_, by omega⟩
    have hm : MAXOPBLOCKS = 10 := rfl
    rw [hm] at h ⊢
    push_cast at *
    omega

/-- Without a commit there is a reason only if an operation is outstanding. -/
theorem CommitInv.waits (h : CommitInv d role) (c : Unit) (hc : d.committing = false)
    (hn : (d.block.length : Int) + (d.outstanding + 1) * MAXOPBLOCKS > LOGSIZE) :
    d.waits c := by
  refine Or.inr ⟨hn, ?_⟩
  by_contra hpos
  have hz : d.outstanding = 0 := by
    have := h.outstanding_nonneg
    omega
  rw [h.empty hc hz, hz] at hn
  revert hn
  decide

theorem logCode_pays (h : CommitInv d role) (p : P) (call : OpCall) {l : LogPlace}
    (hl : role p = l.role) :
    (logCode lg p call d l).pays LogLock.waits LogPlace.owes d l := by
  have hcommits : l.role.commits → d.committing = true := by
    rw [← hl]
    exact h.commits p
  cases l with
  | beginTest =>
      simp only [logCode, beginTest]
      split
      · next hc => exact ⟨Or.inl hc, fun _ => id⟩
      · next hc =>
          split
          · next hn => exact ⟨h.waits _ (by simpa using hc) hn, fun _ => id⟩
          · exact fun c hw => Or.inl
              ((hw.resolve_right id).mono rfl (le_refl _) (by dsimp only; omega))
  | op =>
      cases call with
      | logWrite b =>
          simp only [logCode]
          repeat' split
          all_goals exact fun c hw => hw.imp id False.elim
      | endOp => exact fun c hw => hw.imp id False.elim
  | writeAppend b =>
      exact fun c hw => Or.inl
        ((hw.resolve_right id).mono rfl (le_length_absorb ..) (le_refl _))
  | endTest =>
      obtain ⟨-, hc⟩ := h.op hl
      simp only [logCode, endTest, hc]
      split
      · next hc' => cases hc'
      · split
        · exact fun c _ => Or.inl (Or.inl rfl)
        · exact fun c _ => Or.inr trivial
  | endWakeup | finishWakeup => exact fun c _ => Or.inl rfl
  | clear => exact fun c _ => Or.inl (Or.inl (hcommits trivial))
  | finishClear => exact fun c _ => Or.inr trivial
  | panicTooBig | panicOutside | panicCommitting => trivial
  | user | commit | writeLog tail | writeHead | installTrans tail | eraseHead =>
      exact fun c hw => hw.imp id False.elim
  | _ => exact fun c ho => ho.elim

/-! ## Whole runs -/

variable [DecidableEq P] {s s' : LogState P}

theorem commitInv_step {act : MonAct P OpCall} (h : CommitInv s.data (logRole s))
    (hs : logLockStep lg s act = some s') : CommitInv s'.data (logRole s') := by
  rcases step_place hs with ⟨hd, hpc⟩ | ⟨p, call, l, -, hl, hnext, hother⟩
  · have hrole : logRole s' = logRole s := funext fun p => congrArg LogPlace.role (hpc p)
    rw [hd, hrole]
    exact h
  · have hrole : logRole s' = Function.update (logRole s) p (logRole s' p) := by
      refine (Function.update_eq_iff.mpr ⟨rfl, fun q hq => ?_⟩).symm
      rw [logRole, logRole, hother q hq]
    have hplace : logRole s p = l.role := by rw [logRole, hl]; rfl
    rw [hrole]
    refine h.move ?_
    rw [hplace]
    exact logCode_move hnext

theorem commit_reach (h : Reach (logLockStep lg) anyStep (LogState.init P) s) :
    MonInv LogPlace.locked s ∧ Debt LogLock.waits LogPlace.owes s ∧
      CommitInv s.data (logRole s) := by
  refine h.invariant
    (I := fun s => MonInv LogPlace.locked s ∧ Debt LogLock.waits LogPlace.owes s ∧
      CommitInv s.data (logRole s))
    ⟨monInv_init _ rfl, debt_init _ _, commitInv_init⟩ ?_
  rintro s s' act ⟨hm, hd, hi⟩ - hs
  refine ⟨monInv_step logCode_disciplined hm hs, ?_, commitInv_step hi hs⟩
  refine debt_step hm hd (fun p call l _ hl => logCode_pays hi p call ?_) hs
  rw [logRole, hl]
  rfl

/-- A commit finds no operation outstanding and admits none until it is over,
`end_op` does not panic, and whoever sleeps in `begin_op` has a reason to. -/
theorem commit_alone (h : Reach (logLockStep lg) anyStep (LogState.init P) s) :
    (∀ p, (logRole s p).commits → s.data.committing = true) ∧
      (s.data.committing = true → s.data.outstanding = 0 ∧ ∀ p, logRole s p ≠ .op) ∧
      (∀ p, s.pc p ≠ .at .panicCommitting) ∧
      (s.lock = none → s.table = none → ∀ p c, s.asleep p = some c →
        s.data.committing = true ∨
          (s.data.block.length : Int) + (s.data.outstanding + 1) * MAXOPBLOCKS > LOGSIZE ∧
            s.data.outstanding > 0) := by
  obtain ⟨hm, hd, hi⟩ := commit_reach h
  refine ⟨hi.commits, fun hc => ⟨hi.alone hc, fun p hp => ?_⟩, fun p hp => ?_,
    fun hlock _ p c hp => ?_⟩
  · have hno := (hi.op hp).2
    rw [hc] at hno
    cases hno
  · exact hi.fine p (by rw [logRole, hp]; rfl)
  · refine hd.reason (Or.inl hp) fun q hq => ?_
    have hno : (s.pc q).holds LogPlace.locked ≠ true := by
      rw [ne_eq, hm.lock q, hlock]
      exact nofun
    cases hv : s.pc q with rw [hv] at hq hno
    | «at» l =>
        cases l with
        | endWakeup | finishWakeup => exact hno rfl
        | _ => exact hq
    | wakeup c' l => exact hno rfl
    | waking c' l => exact hno rfl
    | woken l => exact hno rfl
    | _ => exact hq

/-- One process in `write_log` and another one asleep in `begin_op`. -/
theorem commit_alone_sleeper :
    ∃ s : LogState Bool,
      (s.pc true = .at (.writeLog 0) ∧ s.asleep false = some () ∧ s.lock = none ∧
        s.table = none) ∧
      (∀ p, (logRole s p).commits → s.data.committing = true) ∧
      (s.data.committing = true → s.data.outstanding = 0 ∧ ∀ p, logRole s p ≠ .op) ∧
      (∀ p, s.pc p ≠ .at .panicCommitting) ∧
      (s.lock = none → s.table = none → ∀ p c, s.asleep p = some c →
        s.data.committing = true ∨
          (s.data.block.length : Int) + (s.data.outstanding + 1) * MAXOPBLOCKS > LOGSIZE ∧
            s.data.outstanding > 0) := by
  have hrun : (exec (logLockStep ⟨2, 30⟩) anyStep (LogState.init Bool)
      (List.replicate 5 (.run true (.logWrite 40)) ++ List.replicate 8 (.run true .endOp) ++
        List.replicate 6 (.run false .endOp))).any
      (fun s => s.pc true = .at (.writeLog 0) ∧ s.asleep false = some () ∧ s.lock = none ∧
        s.table = none) = true := by
    decide +kernel
  obtain ⟨s, hs, ht⟩ := exists_reach_of_exec hrun
  exact ⟨s, of_decide_eq_true ht, commit_alone hs⟩

end Xv6.Ref
