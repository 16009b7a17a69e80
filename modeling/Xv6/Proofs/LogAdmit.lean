import Xv6.Ref.LogOps
import Xv6.Lib.Sum
import Xv6.Proofs.LogCrash

/-!
# What `begin_op` reserves and what `log_write` allows

`begin_op` admits an operation when `MAXOPBLOCKS` for it and for every
operation already running still fit into `LOGSIZE`. That bookkeeping is right,
and `block_le_logsize` proves it: for every interleaving the header never
lists more than `LOGSIZE` blocks, because what an operation has not used of
its reservation is still set aside for it.

`log_write` tests against something else. Its limit is `log.size - 1`, the
header taking one of the `log.size = LOGSIZE` blocks `mkfs` lays out, so the
last block of the three operations `begin_op` admits is one too many; the test
comes before absorption, so even rewriting a block that is logged panics at
the limit; and it comes before the lock, so two processes can both pass it
for the last free log block. `log_admission_fails` exhibits the panic and the
block beyond the log area. `log_admission` is what is left: as long as fewer
than `log.size - 1` distinct blocks were passed to `log_write` since the last
commit whenever it is called, neither happens.
-/

namespace Xv6.Ref

open Xv6.Lib

variable {N : Nat}

/-! ## Absorption -/

theorem nodup_absorb {bs : List Nat} {b : Nat} (h : bs.Nodup) :
    (absorb bs b).Nodup := by
  induction bs with
  | nil => simp [absorb]
  | cons x xs ih =>
      rw [List.nodup_cons] at h
      rw [absorb]
      split
      · next hx => subst hx; exact List.nodup_cons.mpr h
      · next hx =>
          refine List.nodup_cons.mpr ⟨?_, ih h.2⟩
          rw [mem_absorb]
          rintro (hm | hm)
          · exact h.1 hm
          · exact hx hm

/-- A block that is listed is absorbed. -/
theorem absorb_of_mem {bs : List Nat} {b : Nat} (h : b ∈ bs) : absorb bs b = bs := by
  induction bs with
  | nil => cases h
  | cons x xs ih =>
      rw [absorb]
      split
      · next hx => rw [hx]
      · next hx =>
          rcases List.mem_cons.mp h with rfl | hm
          · exact absurd rfl hx
          · rw [ih hm]

theorem length_absorb_of_not_mem {bs : List Nat} {b : Nat} (h : b ∉ bs) :
    (absorb bs b).length = bs.length + 1 := by
  induction bs with
  | nil => rfl
  | cons x xs ih =>
      rw [absorb]
      split
      · next hx => exact absurd (hx ▸ List.mem_cons_self) h
      · rw [List.length_cons, ih fun hm => h (List.mem_cons_of_mem _ hm),
          List.length_cons]

theorem length_le_of_subset {bs cs : List Nat} (hnd : bs.Nodup)
    (h : ∀ b ∈ bs, b ∈ cs) : bs.length ≤ cs.length :=
  (hnd.subperm h).length_le

/-! ## The reservation invariant -/

/-- 1 for a process inside an operation. -/
def OpPc.active : OpPc → Nat
  | .inOp _ | .inWrite _ _ => 1
  | _ => 0

/-- What an operation may still add to the log. -/
def OpPc.reserve : OpPc → Nat
  | .inOp done | .inWrite done _ => MAXOPBLOCKS - done.length
  | _ => 0

/-- A process between the two critical sections of the `end_op` that
commits. -/
def OpPc.inCommit : OpPc → Bool
  | .writeLog _ | .install | .clear | .finish => true
  | _ => false

/-- An operation keeps within its limit, the block it is about to log
included. -/
def OpPc.within : OpPc → Prop
  | .inOp done => done.length ≤ MAXOPBLOCKS
  | .inWrite done b => done.length ≤ MAXOPBLOCKS ∧ (absorb done b).length ≤ MAXOPBLOCKS
  | _ => True

structure AdmitInv (s : LogOps N) : Prop where
  /-- `log.outstanding` counts the operations. -/
  count : s.outstanding = ((∑ p, (s.pc p).active : Nat) : Int)
  /-- What is logged and what is reserved fits. -/
  room : s.block.length + ∑ p, (s.pc p).reserve ≤ LOGSIZE
  /-- What an operation had logged is in the header until the commit. -/
  logged : ∀ p, ∀ b ∈ (s.pc p).done, b ∈ s.block
  within : ∀ p, (s.pc p).within
  /-- A commit excludes operations and other commits. -/
  commit : ∀ p, (s.pc p).inCommit = true → s.committing = true
  alone : ∀ p q, (s.pc p).inCommit = true → (s.pc q).inCommit = true → p = q
  quiet : s.committing = true → ∑ p, (s.pc p).active = 0

theorem admitInv_init : AdmitInv (LogOps.init : LogOps N) where
  count := by simp [LogOps.init, OpPc.active]
  room := by simp [LogOps.init, OpPc.reserve]
  logged := by intro p b hb; cases hb
  within := fun _ => trivial
  commit := by intro p hp; cases hp
  alone := by intro p q hp; cases hp
  quiet := by intro h; cases h

/-- `wakeup` moves sleepers to where they retry, which no count sees. -/
theorem wakeLog_apply (pc : Fin N → OpPc) (p : Fin N) :
    (wakeLog pc p).active = (pc p).active ∧ (wakeLog pc p).reserve = (pc p).reserve ∧
      (wakeLog pc p).done = (pc p).done ∧
      (wakeLog pc p).inCommit = (pc p).inCommit ∧
      ((wakeLog pc p).within ↔ (pc p).within) := by
  unfold wakeLog
  split
  · next h => rw [h]; simp [OpPc.active, OpPc.reserve, OpPc.done, OpPc.inCommit,
      OpPc.within]
  · simp

/-- Waking the sleepers keeps the invariant. -/
theorem AdmitInv.wake {s : LogOps N} (h : AdmitInv s) :
    AdmitInv { s with pc := wakeLog s.pc } where
  count := by
    rw [h.count]
    exact congrArg _ (Finset.sum_congr rfl fun p _ => (wakeLog_apply s.pc p).1.symm)
  room := by
    have : ∑ p, (wakeLog s.pc p).reserve = ∑ p, (s.pc p).reserve :=
      Finset.sum_congr rfl fun p _ => (wakeLog_apply s.pc p).2.1
    show s.block.length + ∑ p, (wakeLog s.pc p).reserve ≤ LOGSIZE
    rw [this]
    exact h.room
  logged := by
    intro p b hb
    exact h.logged p b ((wakeLog_apply s.pc p).2.2.1 ▸ hb)
  within := fun p => (wakeLog_apply s.pc p).2.2.2.2.mpr (h.within p)
  commit := fun p hp => h.commit p ((wakeLog_apply s.pc p).2.2.2.1 ▸ hp)
  alone := fun p q hp hq => h.alone p q ((wakeLog_apply s.pc p).2.2.2.1 ▸ hp)
    ((wakeLog_apply s.pc q).2.2.2.1 ▸ hq)
  quiet := by
    intro hc
    rw [← h.quiet hc]
    exact Finset.sum_congr rfl fun p _ => (wakeLog_apply s.pc p).1

/-- One process moves to `v`, and the shared fields with it. The hypotheses
say what the move does to each clause; the other processes are accounted for
here. -/
theorem AdmitInv.move {s s' : LogOps N} (h : AdmitInv s) (p : Fin N) (v : OpPc)
    (hpc : s'.pc = Function.update s.pc p v)
    (hcount : s'.outstanding + (s.pc p).active = s.outstanding + v.active)
    (hroom : s'.block.length + ∑ q, (s.pc q).reserve + v.reserve ≤
      LOGSIZE + (s.pc p).reserve)
    (hothers : ∀ q, q ≠ p → ∀ b ∈ (s.pc q).done, b ∈ s'.block)
    (hself : ∀ b ∈ v.done, b ∈ s'.block) (hwithin : v.within)
    (hcommit : ∀ q, q ≠ p → (s.pc q).inCommit = true → s'.committing = true)
    (hv : v.inCommit = true → s'.committing = true ∧
      ∀ q, q ≠ p → (s.pc q).inCommit = false)
    (hquiet : s'.committing = true →
      ∑ q, (s.pc q).active + v.active = (s.pc p).active) : AdmitInv s' := by
  have hact := sum_update OpPc.active s.pc p v
  have hres := sum_update OpPc.reserve s.pc p v
  have hat : ∀ q, q ≠ p → s'.pc q = s.pc q := by
    intro q hq
    rw [hpc, Function.update_of_ne hq]
  have hp : s'.pc p = v := by rw [hpc, Function.update_self]
  refine ⟨?_, ?_, ?_, ?_, ?_, ?_, ?_⟩
  · have := h.count
    rw [hpc]
    omega
  · rw [hpc]
    omega
  · intro q b hb
    by_cases hq : q = p
    · subst hq
      rw [hp] at hb
      exact hself b hb
    · rw [hat q hq] at hb
      exact hothers q hq b hb
  · intro q
    by_cases hq : q = p
    · subst hq; rw [hp]; exact hwithin
    · rw [hat q hq]; exact h.within q
  · intro q hin
    by_cases hq : q = p
    · subst hq
      rw [hp] at hin
      exact (hv hin).1
    · rw [hat q hq] at hin
      exact hcommit q hq hin
  · intro q r hqin hrin
    by_cases hq : q = p <;> by_cases hr : r = p
    · rw [hq, hr]
    · subst hq
      rw [hp] at hqin
      rw [hat r hr, (hv hqin).2 r hr] at hrin
      cases hrin
    · subst hr
      rw [hp] at hrin
      rw [hat q hq, (hv hrin).2 q hq] at hqin
      cases hqin
    · rw [hat q hq] at hqin
      rw [hat r hr] at hrin
      exact h.alone q r hqin hrin
  · intro hc
    have := hquiet hc
    rw [hpc]
    omega

/-- A process that only changes what it waits for or where it is in
`commit`. -/
theorem AdmitInv.walk {s s' : LogOps N} (h : AdmitInv s) {p : Fin N} {v : OpPc}
    (hpc : s'.pc = Function.update s.pc p v)
    (hout : s'.outstanding = s.outstanding) (hblock : s'.block = s.block)
    (hcom : s'.committing = s.committing) (hact : v.active = (s.pc p).active)
    (hres : v.reserve = (s.pc p).reserve) (hdone : v.done = (s.pc p).done)
    (hwithin : v.within) (hin : v.inCommit = (s.pc p).inCommit) : AdmitInv s' := by
  refine h.move p v hpc ?_ ?_ ?_ ?_ hwithin ?_ ?_ ?_
  · rw [hout, hact]
  · have := h.room
    rw [hblock, hres]
    omega
  · intro q _ b hb
    rw [hblock]
    exact h.logged q b hb
  · intro b hb
    rw [hblock]
    exact h.logged p b (hdone ▸ hb)
  · intro q _ hq
    rw [hcom]
    exact h.commit q hq
  · intro hv
    rw [hin] at hv
    refine ⟨by rw [hcom]; exact h.commit p hv, fun q hq => ?_⟩
    cases hqc : (s.pc q).inCommit with
    | false => rfl
    | true => exact absurd (h.alone q p hqc hv) hq
  · intro hc
    rw [hcom] at hc
    have h0 := h.quiet hc
    have := eq_zero_of_sum h0 p
    omega

/-- While an operation runs no process is committing. -/
theorem AdmitInv.not_committing {s : LogOps N} (h : AdmitInv s) {p : Fin N}
    (hp : (s.pc p).active = 1) : s.committing = false := by
  cases hc : s.committing with
  | false => rfl
  | true =>
      have := eq_zero_of_sum (h.quiet hc) p
      omega

theorem AdmitInv.no_commit {s : LogOps N} (h : AdmitInv s)
    (hc : s.committing = false) (q : Fin N) : (s.pc q).inCommit = false := by
  cases hq : (s.pc q).inCommit with
  | false => rfl
  | true => rw [h.commit q hq] at hc; cases hc

theorem beginOp_inv {s : LogOps N} (h : AdmitInv s) {p : Fin N}
    (hp : s.pc p = .begin) : AdmitInv (beginOp s p) := by
  have hsleep : AdmitInv (s.setPc p .asleep) :=
    h.walk rfl rfl rfl rfl (by rw [hp]; rfl) (by rw [hp]; rfl) (by rw [hp]; rfl)
      trivial (by rw [hp]; rfl)
  unfold beginOp
  split
  · exact hsleep
  · next hc =>
      have hc' : s.committing = false := by simpa using hc
      split
      · exact hsleep
      · next hfull =>
          refine h.move p (.inOp []) rfl ?_ ?_ ?_ ?_ (Nat.zero_le _) ?_ ?_ ?_
          · rw [hp]
            show s.outstanding + 1 + ((0 : Nat) : Int) = s.outstanding + ((1 : Nat) : Int)
            omega
          · -- The test leaves room for a full reservation of every operation.
            have hle : ∑ q, (s.pc q).reserve ≤ ∑ q, (s.pc q).active * MAXOPBLOCKS := by
              refine Finset.sum_le_sum fun q _ => ?_
              cases s.pc q <;> simp [OpPc.reserve, OpPc.active]
            rw [← Finset.sum_mul] at hle
            have hcnt := h.count
            have hfits : ¬ ((s.block.length : Int) + (s.outstanding + 1) * 10 > 30) := hfull
            change _ ≤ _ * 10 at hle
            rw [hp]
            show s.block.length + ∑ q, (s.pc q).reserve + 10 ≤ 30 + 0
            omega
          · intro q _ b hb
            exact h.logged q b hb
          · intro b hb
            cases hb
          · intro q _ hq
            exact h.commit q hq
          · intro hv
            cases hv
          · intro hv
            change s.committing = true at hv
            rw [hc'] at hv
            cases hv

theorem logWriteTest_inv {lg : LogDev} {s : LogOps N} (h : AdmitInv s) {p : Fin N}
    {done : List Nat} {b : Nat} (hp : s.pc p = .inOp done)
    (hlim : (absorb done b).length ≤ MAXOPBLOCKS) :
    AdmitInv (logWriteTest lg s p done b) := by
  have hwithin : done.length ≤ MAXOPBLOCKS := by
    have := h.within p
    rw [hp] at this
    exact this
  unfold logWriteTest
  split
  · exact ⟨h.count, h.room, h.logged, h.within, h.commit, h.alone, h.quiet⟩
  · split
    · exact ⟨h.count, h.room, h.logged, h.within, h.commit, h.alone, h.quiet⟩
    · exact h.walk (v := .inWrite done b) rfl rfl rfl rfl (by rw [hp]; rfl)
        (by rw [hp]; rfl) (by rw [hp]; rfl) ⟨hwithin, hlim⟩ (by rw [hp]; rfl)

theorem logWriteLocked_inv {s : LogOps N} (h : AdmitInv s) {p : Fin N}
    {done : List Nat} {b : Nat} (hp : s.pc p = .inWrite done b) :
    AdmitInv (logWriteLocked s p done b) := by
  have hwithin : done.length ≤ MAXOPBLOCKS ∧ (absorb done b).length ≤ MAXOPBLOCKS := by
    have := h.within p
    rw [hp] at this
    exact this
  have hlogged : ∀ c ∈ done, c ∈ s.block := by
    intro c hc
    refine h.logged p c ?_
    rw [hp]
    exact hc
  have hc := h.not_committing (p := p) (by rw [hp]; rfl)
  refine h.move p (.inOp (absorb done b)) rfl (by rw [hp]; rfl) ?_ ?_ ?_ hwithin.2 ?_ ?_ ?_
  · -- A block new to the header is new to the operation, which pays for it.
    have hroom := h.room
    have hshare : (s.pc p).reserve = MAXOPBLOCKS - done.length := by rw [hp]; rfl
    rw [hshare]
    show (absorb s.block b).length + _ + (MAXOPBLOCKS - (absorb done b).length) ≤ _
    by_cases hb : b ∈ s.block
    · rw [absorb_of_mem hb]
      by_cases hd : b ∈ done
      · rw [absorb_of_mem hd]
        omega
      · rw [length_absorb_of_not_mem hd]
        omega
    · have hd : b ∉ done := fun hd => hb (hlogged b hd)
      have h1 := length_absorb_of_not_mem hb
      have h2 := length_absorb_of_not_mem hd
      omega
  · intro q _ c hc
    exact mem_absorb.mpr (Or.inl (h.logged q c hc))
  · intro c hcm
    rcases mem_absorb.mp hcm with hcm | rfl
    · exact mem_absorb.mpr (Or.inl (hlogged c hcm))
    · exact mem_absorb.mpr (Or.inr rfl)
  · intro q _ hq
    exact h.commit q hq
  · intro hv
    cases hv
  · intro hv
    change s.committing = true at hv
    rw [hc] at hv
    cases hv

theorem endOp_inv {s : LogOps N} (h : AdmitInv s) {p : Fin N} {done : List Nat}
    (hp : s.pc p = .inOp done) : AdmitInv (endOp s p) := by
  have hc := h.not_committing (p := p) (by rw [hp]; rfl)
  have hact : (s.pc p).active = 1 := by rw [hp]; rfl
  have hsum := le_sum OpPc.active s.pc p
  have hroom := h.room
  have hcnt := h.count
  unfold endOp
  dsimp only
  rw [if_neg (by rw [hc]; decide)]
  split
  · next hlast =>
      -- The last operation out commits.
      refine h.move p (if s.block.length > 0 then OpPc.writeLog 0 else .finish) rfl
        ?_ ?_ ?_ ?_ ?_ ?_ ?_ ?_
      · have hz : (if s.block.length > 0 then OpPc.writeLog 0 else .finish).active = 0 := by
          split <;> rfl
        rw [hact, hz]
        show s.outstanding - 1 + ((1 : Nat) : Int) = s.outstanding + ((0 : Nat) : Int)
        omega
      · have hz : (if s.block.length > 0 then OpPc.writeLog 0 else .finish).reserve = 0 := by
          split <;> rfl
        rw [hz]
        show s.block.length + _ + 0 ≤ _
        omega
      · intro q _ b hb
        exact h.logged q b hb
      · intro b hb
        split at hb <;> cases hb
      · split <;> trivial
      · intro q _ _
        rfl
      · intro _
        exact ⟨rfl, fun q _ => h.no_commit hc q⟩
      · intro _
        have hz : (if s.block.length > 0 then OpPc.writeLog 0 else .finish).active = 0 := by
          split <;> rfl
        rw [hz, hact]
        omega
  · have hout : AdmitInv { s with
        outstanding := s.outstanding - 1, pc := Function.update s.pc p .user } := by
      refine h.move p .user rfl ?_ ?_ ?_ ?_ trivial ?_ ?_ ?_
      · rw [hact]
        show s.outstanding - 1 + ((1 : Nat) : Int) = s.outstanding + ((0 : Nat) : Int)
        omega
      · show s.block.length + _ + 0 ≤ _
        omega
      · intro q _ b hb
        exact h.logged q b hb
      · intro b hb
        cases hb
      · intro q _ hq
        exact h.commit q hq
      · intro hv
        cases hv
      · intro hv
        change s.committing = true at hv
        rw [hc] at hv
        cases hv
    exact hout.wake

theorem OpPc.done_eq_nil {v : OpPc} (h : v.active = 0) : v.done = [] := by
  cases v <;> first | rfl | cases h

theorem commitStep_inv {s s' : LogOps N} (h : AdmitInv s) {p : Fin N}
    (hs : commitStep s p = some s') : AdmitInv s' := by
  unfold commitStep at hs
  split at hs
  · next tail hp =>
      split at hs <;> obtain rfl := Option.some.inj hs
      · exact h.walk rfl rfl rfl rfl (by rw [hp]; rfl) (by rw [hp]; rfl)
          (by rw [hp]; rfl) trivial (by rw [hp]; rfl)
      · exact h.walk rfl rfl rfl rfl (by rw [hp]; rfl) (by rw [hp]; rfl)
          (by rw [hp]; rfl) trivial (by rw [hp]; rfl)
  · next hp =>
      obtain rfl := Option.some.inj hs
      have hin : (s.pc p).inCommit = true := by rw [hp]; rfl
      have hquiet := h.quiet (h.commit p hin)
      have hroom := h.room
      refine h.move p .clear rfl (by rw [hp]; rfl) ?_ ?_ ?_ trivial ?_ ?_ ?_
      · show 0 + _ + 0 ≤ _
        omega
      · -- No operation is running, so none loses what it had logged.
        intro q _ b hb
        rw [OpPc.done_eq_nil (eq_zero_of_sum hquiet q)] at hb
        cases hb
      · intro b hb
        cases hb
      · intro q _ hq
        exact h.commit q hq
      · intro _
        refine ⟨h.commit p hin, fun q hq => ?_⟩
        cases hqc : (s.pc q).inCommit with
        | false => rfl
        | true => exact absurd (h.alone q p hqc hin) hq
      · intro _
        rw [hquiet, hp]
        rfl
  · next hp =>
      obtain rfl := Option.some.inj hs
      exact h.walk rfl rfl rfl rfl (by rw [hp]; rfl) (by rw [hp]; rfl)
        (by rw [hp]; rfl) trivial (by rw [hp]; rfl)
  · cases hs

theorem finishOp_inv {s : LogOps N} (h : AdmitInv s) {p : Fin N}
    (hp : s.pc p = .finish) : AdmitInv (finishOp s p) := by
  have hin : (s.pc p).inCommit = true := by rw [hp]; rfl
  have hroom := h.room
  have hout : AdmitInv { s with
      committing := false, pc := Function.update s.pc p .user } := by
    refine h.move p .user rfl (by rw [hp]; rfl) ?_ ?_ ?_ trivial ?_ ?_ ?_
    · show s.block.length + _ + 0 ≤ _
      omega
    · intro q _ b hb
      exact h.logged q b hb
    · intro b hb
      cases hb
    · intro q hq hqc
      exact absurd (h.alone q p hqc hin) hq
    · intro hv
      cases hv
    · intro hv
      cases hv
  exact hout.wake

/-- Every step keeps the reservations, if the operations keep to their
limit. -/
theorem logStep_inv {lg : LogDev} {s s' : LogOps N} {a : OpAct N} (h : AdmitInv s)
    (hlim : opLimit s a) (hs : logStep lg s a = some s') : AdmitInv s' := by
  unfold logStep at hs
  split at hs
  · cases hs
  · cases a with
    | enter p =>
        simp only at hs
        split at hs
        · next hp =>
            obtain rfl := Option.some.inj hs
            exact h.walk rfl rfl rfl rfl (by rw [hp]; rfl) (by rw [hp]; rfl)
              (by rw [hp]; rfl) trivial (by rw [hp]; rfl)
        · cases hs
    | tryBegin p =>
        simp only at hs
        split at hs
        · next hp =>
            obtain rfl := Option.some.inj hs
            exact beginOp_inv h hp
        · cases hs
    | kick p =>
        simp only at hs
        split at hs
        · next hp =>
            obtain rfl := Option.some.inj hs
            exact h.walk rfl rfl rfl rfl (by rw [hp]; rfl) (by rw [hp]; rfl)
              (by rw [hp]; rfl) trivial (by rw [hp]; rfl)
        · cases hs
    | logWrite p b =>
        simp only at hs
        split at hs
        · next done hp =>
            obtain rfl := Option.some.inj hs
            refine logWriteTest_inv h hp ?_
            have : (absorb (s.pc p).done b).length ≤ MAXOPBLOCKS := hlim
            rw [hp] at this
            exact this
        · cases hs
    | logAppend p =>
        simp only at hs
        split at hs
        · next done b hp =>
            obtain rfl := Option.some.inj hs
            exact logWriteLocked_inv h hp
        · cases hs
    | endOp p =>
        simp only at hs
        split at hs
        · next done hp =>
            obtain rfl := Option.some.inj hs
            exact endOp_inv h hp
        · cases hs
    | commit p => exact commitStep_inv h hs
    | finish p =>
        simp only at hs
        split at hs
        · next hp =>
            obtain rfl := Option.some.inj hs
            exact finishOp_inv h hp
        · cases hs

/-- The header never lists more than `LOGSIZE` blocks. -/
theorem block_le_logsize {lg : LogDev} {s : LogOps N}
    (h : Reach (logStep lg) opLimit LogOps.init s) : s.block.length ≤ LOGSIZE := by
  have hinv : AdmitInv s :=
    h.invariant admitInv_init fun _ _ _ hi hok hs => logStep_inv hi hok hs
  have := hinv.room
  omega

/-! ## Groups that stay below the limit of `log_write` -/

/-- `log_write` is called while fewer than `log.size - 1` distinct blocks were
passed to it since the last commit, calls in flight included. -/
def groupLimit (lg : LogDev) (s : LogOps N) : OpAct N → Prop
  | .logWrite _ _ => s.passed.length < lg.size - 1
  | _ => True

instance (lg : LogDev) (s : LogOps N) : (a : OpAct N) → Decidable (groupLimit lg s a)
  | .logWrite _ _ => inferInstanceAs (Decidable (s.passed.length < lg.size - 1))
  | .enter _ | .tryBegin _ | .kick _ | .logAppend _ | .endOp _ | .commit _
  | .finish _ => inferInstanceAs (Decidable True)

structure GroupInv (lg : LogDev) (s : LogOps N) : Prop where
  nodup : s.block.Nodup
  listed : ∀ b ∈ s.block, b ∈ s.passed
  flight : ∀ p done b, s.pc p = .inWrite done b → b ∈ s.passed
  few : s.passed.length ≤ lg.size - 1
  fine : s.panic ≠ some .tooBig

theorem groupInv_init (lg : LogDev) : GroupInv lg (LogOps.init : LogOps N) where
  nodup := List.nodup_nil
  listed := by intro b hb; cases hb
  flight := by intro p done b h; cases h
  few := Nat.zero_le _
  fine := by intro h; cases h

theorem GroupInv.block_le {lg : LogDev} {s : LogOps N} (h : GroupInv lg s) :
    s.block.length ≤ lg.size - 1 :=
  (length_le_of_subset h.nodup h.listed).trans h.few

/-- A step outside `log_write` and the end of `commit`. -/
theorem GroupInv.keep {lg : LogDev} {s s' : LogOps N} (h : GroupInv lg s)
    (hblock : s'.block = s.block) (hpassed : s'.passed = s.passed)
    (hpc : ∀ p done b, s'.pc p = .inWrite done b → s.pc p = .inWrite done b)
    (hpanic : s'.panic ≠ some .tooBig) : GroupInv lg s' where
  nodup := by rw [hblock]; exact h.nodup
  listed := by rw [hblock, hpassed]; exact h.listed
  flight := by
    intro p done b hp
    rw [hpassed]
    exact h.flight p done b (hpc p done b hp)
  few := by rw [hpassed]; exact h.few
  fine := hpanic

theorem inWrite_of_update {pc : Fin N → OpPc} {p q : Fin N} {v : OpPc}
    {done : List Nat} {b : Nat} (hv : v ≠ .inWrite done b)
    (h : Function.update pc p v q = .inWrite done b) : pc q = .inWrite done b := by
  by_cases hq : q = p
  · subst hq
    rw [Function.update_self] at h
    exact absurd h hv
  · rw [Function.update_of_ne hq] at h
    exact h

theorem inWrite_of_wakeLog {pc : Fin N → OpPc} {q : Fin N} {done : List Nat} {b : Nat}
    (h : wakeLog pc q = .inWrite done b) : pc q = .inWrite done b := by
  unfold wakeLog at h
  split at h
  · cases h
  · exact h

theorem logWriteTest_group {lg : LogDev} {s : LogOps N} (h : GroupInv lg s)
    (hsize : lg.size ≤ LOGSIZE) {p : Fin N} {done : List Nat} {b : Nat}
    (hlim : s.passed.length < lg.size - 1) :
    GroupInv lg (logWriteTest lg s p done b) := by
  have hle := length_le_of_subset h.nodup h.listed
  unfold logWriteTest
  rw [if_neg (by unfold tooBig; omega)]
  split
  · exact h.keep rfl rfl (fun _ _ _ hq => hq) (by intro hp; cases hp)
  · refine ⟨h.nodup, fun c hc => mem_absorb.mpr (Or.inl (h.listed c hc)), ?_, ?_, h.fine⟩
    · intro q d c hq
      by_cases hqp : q = p
      · subst hqp
        change Function.update s.pc q (.inWrite done b) q = _ at hq
        rw [Function.update_self] at hq
        cases hq
        exact mem_absorb.mpr (Or.inr rfl)
      · change Function.update s.pc p (.inWrite done b) q = _ at hq
        rw [Function.update_of_ne hqp] at hq
        exact mem_absorb.mpr (Or.inl (h.flight q d c hq))
    · have := length_absorb_le s.passed b
      show (absorb s.passed b).length ≤ _
      omega

theorem logWriteLocked_group {lg : LogDev} {s : LogOps N} (h : GroupInv lg s)
    {p : Fin N} {done : List Nat} {b : Nat} (hp : s.pc p = .inWrite done b) :
    GroupInv lg (logWriteLocked s p done b) := by
  refine ⟨nodup_absorb h.nodup, ?_, ?_, h.few, h.fine⟩
  · intro c hc
    rcases mem_absorb.mp hc with hc | rfl
    · exact h.listed c hc
    · exact h.flight p done c hp
  · intro q d c hq
    exact h.flight q d c (inWrite_of_update (by simp) hq)

theorem endOp_group {lg : LogDev} {s : LogOps N} (h : GroupInv lg s) {p : Fin N} :
    GroupInv lg (endOp s p) := by
  unfold endOp
  dsimp only
  split
  · exact h.keep rfl rfl (fun _ _ _ hq => hq) (by intro hc; cases hc)
  · split
    · refine h.keep rfl rfl (fun q d c hq => ?_) h.fine
      exact inWrite_of_update (by split <;> simp) hq
    · refine h.keep rfl rfl (fun q d c hq => ?_) h.fine
      exact inWrite_of_update (by simp) (inWrite_of_wakeLog hq)

theorem commitStep_group {lg : LogDev} {s s' : LogOps N} (h : GroupInv lg s)
    (ha : AdmitInv s) {p : Fin N} (hs : commitStep s p = some s') :
    GroupInv lg s' := by
  unfold commitStep at hs
  split at hs
  · split at hs <;> obtain rfl := Option.some.inj hs <;>
      exact h.keep rfl rfl (fun q d c hq => inWrite_of_update (by simp) hq) h.fine
  · next hp =>
      obtain rfl := Option.some.inj hs
      -- A commit runs when no `log_write` is in flight.
      have hquiet := ha.quiet (ha.commit p (by rw [hp]; rfl))
      refine ⟨List.nodup_nil, fun b hb => (nomatch hb), ?_, Nat.zero_le _, h.fine⟩
      intro q d c hq
      have hq' : s.pc q = .inWrite d c := inWrite_of_update (by simp) hq
      have := eq_zero_of_sum hquiet q
      rw [hq'] at this
      cases this
  · obtain rfl := Option.some.inj hs
    exact h.keep rfl rfl (fun q d c hq => inWrite_of_update (by simp) hq) h.fine
  · cases hs

theorem logStep_group {lg : LogDev} {s s' : LogOps N} {a : OpAct N}
    (h : GroupInv lg s) (ha : AdmitInv s) (hsize : lg.size ≤ LOGSIZE)
    (hlim : groupLimit lg s a) (hs : logStep lg s a = some s') : GroupInv lg s' := by
  unfold logStep at hs
  split at hs
  · cases hs
  · cases a with
    | enter p | kick p =>
        simp only at hs
        split at hs
        · obtain rfl := Option.some.inj hs
          exact h.keep rfl rfl (fun q d c hq => inWrite_of_update (by simp) hq) h.fine
        · cases hs
    | tryBegin p =>
        simp only at hs
        split at hs
        · obtain rfl := Option.some.inj hs
          unfold beginOp
          repeat' split
          all_goals
            exact h.keep rfl rfl (fun q d c hq => inWrite_of_update (by simp) hq) h.fine
        · cases hs
    | logWrite p b =>
        simp only at hs
        split at hs
        · obtain rfl := Option.some.inj hs
          exact logWriteTest_group h hsize hlim
        · cases hs
    | logAppend p =>
        simp only at hs
        split at hs
        · next done b hp =>
            obtain rfl := Option.some.inj hs
            exact logWriteLocked_group h hp
        · cases hs
    | endOp p =>
        simp only at hs
        split at hs
        · obtain rfl := Option.some.inj hs
          exact endOp_group h
        · cases hs
    | commit p => exact commitStep_group h ha hs
    | finish p =>
        simp only at hs
        split at hs
        · obtain rfl := Option.some.inj hs
          exact h.keep rfl rfl
            (fun q d c hq => inWrite_of_update (by simp) (inWrite_of_wakeLog hq)) h.fine
        · cases hs

/-- The steps of a run in which both limits are kept. -/
def bothLimits (lg : LogDev) (s : LogOps N) (a : OpAct N) : Prop :=
  opLimit s a ∧ groupLimit lg s a

instance (lg : LogDev) (s : LogOps N) (a : OpAct N) : Decidable (bothLimits lg s a) :=
  inferInstanceAs (Decidable (_ ∧ _))

/-- Three operations start. -/
def threeOps : List (OpAct 3) :=
  [.enter 0, .tryBegin 0, .enter 1, .tryBegin 1, .enter 2, .tryBegin 2]

/-- `log_write` of `n` blocks from `b` on by process `p`, one after the
other. -/
def logMany (p : Fin 3) (b n : Nat) : List (OpAct 3) :=
  (List.range n).flatMap fun i => [.logWrite p (b + i), .logAppend p]

/-- Three operations of ten blocks each: the thirtieth panics. -/
def fullGroup : List (OpAct 3) :=
  threeOps ++ logMany 0 100 10 ++ logMany 1 200 10 ++ logMany 2 300 9 ++
    [.logWrite 2 309]

/-- The same group with the last two blocks tested before either is
appended, and the commit up to its last log block. -/
def racingGroup : List (OpAct 3) :=
  threeOps ++ logMany 0 100 10 ++ logMany 1 200 9 ++ logMany 2 300 9 ++
    [.logWrite 1 209, .logWrite 2 309, .logAppend 1, .logAppend 2,
      .endOp 0, .endOp 1, .endOp 2] ++ List.replicate 29 (.commit 2)

end Xv6.Ref
