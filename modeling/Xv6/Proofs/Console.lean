import Xv6.Ref.Console

/-!
# The console's line discipline

`input` holds the bytes from `r` to `e`; those before `w` are committed and wait
for a reader, those behind it are the line being edited. The bytes on the screen are
those readers have taken followed by those `input` holds: nothing is lost, doubled or
overwritten. Each operation keeps that and takes back nothing committed.
-/

namespace Xv6.Ref.Cons

open Xv6.Lib

variable {P : Type} {s s' s'' : Console P} {d : Nat}

def Console.held (s : Console P) : List UInt8 := Ring.buffered INPUT_BUF_pos s.buf s.r s.e

/-- The number of bytes a reader can have. -/
def Console.ready (s : Console P) : Nat := Ring.count s.r s.w

/-- Everything committed since the boot, whether taken or not. -/
def Console.committed (s : Console P) : List UInt8 := s.taken ++ s.held.take s.ready

/-- What a call has: no `^D`, and a newline only as the last byte of its result. It
sleeps when nothing is ready. -/
def Reader.Ok (ready : Nat) : Reader → Prop
  | .idle => True
  | .reading target n got => got.length + n = target ∧ C 'D' ∉ got ∧ newline ∉ got
  | .sleeping target n got =>
      ready = 0 ∧ got.length + n = target ∧ C 'D' ∉ got ∧ newline ∉ got
  | .returned target got => got.length ≤ target ∧ C 'D' ∉ got ∧ newline ∉ got.dropLast

/-- The invariant, where `d` counts the `^D` taken by a call that has yet to return. -/
structure LineInv (d : Nat) (s : Console P) : Prop where
  order : s.ready ≤ s.held.length
  room : s.held.length ≤ INPUT_BUF
  full : s.held.length = INPUT_BUF → s.ready = INPUT_BUF
  shown : s.echoed = s.taken ++ s.held
  eof : s.taken.count (C 'D') = s.eofs + d
  calls : ∀ p, (s.reader p).Ok s.ready

/-- Code from `s` to `s'` that keeps the invariant and everything committed. -/
def Keeps (d : Nat) (s s' : Console P) : Prop := LineInv d s' ∧ s.committed <+: s'.committed

theorem LineInv.keeps (h : LineInv d s) : Keeps d s s := ⟨h, List.prefix_rfl⟩

theorem Keeps.trans {d' : Nat} (h : Keeps d s s') (h' : Keeps d' s' s'') : Keeps d' s s'' :=
  ⟨h'.1, h.2.trans h'.2⟩

theorem held_length : s.held.length = Ring.count s.r s.e := Ring.buffered_length _ _ _ _

theorem wakeup_ok {x : Reader} {k k' : Nat} (h : x.Ok k) : x.wakeup.Ok k' := by
  cases x with
  | sleeping target n got => exact h.2
  | _ => exact h

theorem lineInv_boot : LineInv 0 (Console.boot P) := by
  have hheld : (Console.boot P).held = [] := Ring.buffered_self _ _ _
  refine ⟨(Ring.count_self _).trans_le (Nat.zero_le _), ?_, ?_, hheld.symm, rfl, fun _ => trivial⟩
  · rw [hheld]
    exact Nat.zero_le _
  · rw [hheld]
    rintro ⟨⟩

/-! ## The operations on `input` -/

theorem LineInv.erase (h : LineInv d s) (hne : s.e ≠ s.w) : Keeps d s s.erase := by
  have hlt : s.ready < s.held.length := by
    refine lt_of_le_of_ne h.order fun heq => hne ?_
    exact (Ring.count_inj (heq.trans held_length)).symm
  have hre : s.r ≠ s.e := mt Ring.count_eq_zero.mpr (by rw [← held_length]; omega)
  have hheld : s.erase.held = s.held.dropLast := Ring.buffered_unput INPUT_BUF_pos s.buf hre
  have hlen : s.erase.held.length = s.held.length - 1 := by rw [hheld, List.length_dropLast]
  have hready : s.erase.ready = s.ready := rfl
  have hroom := h.room
  refine ⟨⟨by omega, by omega, by omega, ?_, h.eof, h.calls⟩, ?_⟩
  · show s.echoed.dropLast = s.taken ++ s.erase.held
    rw [hheld, h.shown, List.dropLast_append_of_ne_nil (List.ne_nil_of_length_pos (by omega))]
  · show s.taken ++ s.held.take s.ready <+: s.taken ++ s.erase.held.take s.ready
    rw [hheld, List.dropLast_eq_take, List.take_take, Nat.min_eq_left (by omega)]

/-- `^U` erases no more than the line that is being edited. -/
theorem LineInv.killLine (n : Nat) (h : LineInv d s) : Keeps d s (s.killLine n) := by
  induction n generalizing s with
  | zero => exact h.keeps
  | succ n ih =>
      rw [Console.killLine]
      split
      · next hc =>
          have he := h.erase hc.1
          exact he.trans (ih he.1)
      · exact h.keeps

theorem LineInv.stored (h : LineInv d s) (c : UInt8) (hlt : s.held.length < INPUT_BUF) :
    (s.store c).held = s.held ++ [c] ∧ (s.store c).held.length = s.held.length + 1 ∧
      (s.store c).echoed = s.taken ++ (s.store c).held := by
  have hheld : (s.store c).held = s.held ++ [c] :=
    Ring.buffered_put _ (by decide) (by decide) _ _ (held_length ▸ hlt)
  rw [hheld, List.length_append, ← List.append_assoc, ← h.shown]
  exact ⟨rfl, rfl, rfl⟩

theorem LineInv.store {c : UInt8} (h : LineInv d s) (hlt : s.held.length < INPUT_BUF)
    (hfull : (s.store c).held.length ≠ INPUT_BUF) : Keeps d s (s.store c) := by
  obtain ⟨hheld, hlen, hshown⟩ := h.stored c hlt
  have hready : (s.store c).ready = s.ready := rfl
  have hle := h.order
  refine ⟨⟨by omega, by omega, by omega, hshown, h.eof, h.calls⟩, ?_⟩
  show s.taken ++ s.held.take s.ready <+: s.taken ++ (s.store c).held.take s.ready
  rw [hheld, List.take_append_of_le_length h.order]

theorem LineInv.commit {c : UInt8} (h : LineInv d s) (hlt : s.held.length < INPUT_BUF) :
    Keeps d s (s.store c).commit := by
  obtain ⟨hheld, hlen, hshown⟩ := h.stored c hlt
  have hready : (s.store c).commit.ready = (s.store c).held.length := held_length.symm
  refine ⟨⟨hready.le, hlen.trans_le hlt, hready.trans, hshown, h.eof,
    fun p => wakeup_ok (h.calls p)⟩, ?_⟩
  show s.taken ++ _ <+: s.taken ++ (s.store c).held.take _
  rw [hready, List.take_length, hheld, List.prefix_append_right_inj]
  exact (List.take_prefix _ _).trans (List.prefix_append _ _)

theorem key_keeps (h : LineInv 0 s) (c : UInt8) : Keeps 0 s (s.key c) := by
  dsimp only [Console.key]
  generalize (if c = 13 then newline else c) = c'
  split_ifs with _ _ _ hne hc hlast
  · exact h.keeps
  · exact h.killLine _
  · exact h.erase hne
  · exact h.keeps
  · exact h.commit (held_length ▸ hc.2)
  · rw [not_or, not_or, ← Ring.count_eq_iff (by decide), ← held_length] at hlast
    exact h.store (held_length ▸ hc.2) hlast.2.2
  · exact h.keeps

theorem consoleintr_keeps (h : LineInv 0 s) (keys : List UInt8) :
    Keeps 0 s (s.consoleintr keys) := by
  induction keys generalizing s with
  | nil => exact h.keeps
  | cons c keys ih => exact (key_keeps h c).trans (ih (key_keeps h c).1)

/-- A reader only goes on when nobody sleeps. -/
theorem LineInv.take (h : LineInv 0 s) (hne : s.r ≠ s.w) :
    Keeps (if s.byte s.r = C 'D' then 1 else 0) s s.take := by
  obtain ⟨k, hk : s.ready = k + 1⟩ :=
    Nat.exists_eq_succ_of_ne_zero (mt Ring.count_eq_zero.mp hne)
  have hready : s.take.ready = k := Ring.count_take hk
  have hle := h.order
  have hheld : s.held = s.byte s.r :: s.take.held :=
    Ring.buffered_take _ _ (mt Ring.count_eq_zero.mpr (by rw [← held_length]; omega))
  have hlen : s.held.length = s.take.held.length + 1 := by rw [hheld]; rfl
  have hroom := h.room
  refine ⟨⟨by omega, by omega, by omega, ?_, ?_, fun p => ?_⟩, ?_⟩
  · show s.echoed = (s.taken ++ [s.byte s.r]) ++ s.take.held
    rw [h.shown, hheld, List.append_cons]
  · show (s.taken ++ [s.byte s.r]).count (C 'D') = s.eofs + _
    rw [List.count_append, h.eof, List.count_singleton]
    simp only [beq_iff_eq]
    rfl
  · have hok := h.calls p
    show (s.reader p).Ok s.take.ready
    cases hr : s.reader p with rw [hr] at hok
    | sleeping => exact absurd (hok.1.symm.trans hk) (Nat.succ_ne_zero k).symm
    | _ => exact hok
  · rw [Console.committed, Console.committed, hready, hk, hheld, List.take_succ_cons,
      List.append_cons]
    exact List.prefix_rfl

/-! ## Reading -/

variable [DecidableEq P] {p : P} {target : Nat}

theorem LineInv.set {x : Reader} (h : LineInv d s) (hx : x.Ok s.ready) :
    Keeps d s (s.set p x) := by
  refine ⟨⟨h.order, h.room, h.full, h.shown, h.eof, fun q => ?_⟩, List.prefix_rfl⟩
  show (Function.update s.reader p x q).Ok s.ready
  rw [Function.update_apply]
  split
  · exact hx
  · exact h.calls q

theorem LineInv.ret {got : List UInt8} (h : LineInv d s)
    (hd : d = if 0 < target ∧ got = [] then 1 else 0)
    (hok : got.length ≤ target ∧ C 'D' ∉ got ∧ newline ∉ got.dropLast) :
    Keeps 0 s (s.ret p target got) := by
  obtain ⟨hset, hpre⟩ := h.set (p := p) (x := .returned target got) hok
  refine ⟨⟨hset.order, hset.room, hset.full, hset.shown, ?_, hset.calls⟩, hpre⟩
  show s.taken.count (C 'D') = (if _ then s.eofs + 1 else s.eofs) + 0
  rw [h.eof, hd]
  split <;> rfl

theorem consoleread_keeps (n : Nat) {got : List UInt8} (h : LineInv 0 s)
    (hlen : got.length + n = target) (hD : C 'D' ∉ got) (hnl : newline ∉ got) :
    Keeps 0 s (consoleread p target n got s) := by
  induction n generalizing got s with
  | zero =>
      refine h.ret (if_neg ?_).symm ⟨hlen.le, hD, fun hm => hnl (List.mem_of_mem_dropLast hm)⟩
      rintro ⟨hpos, rfl⟩
      exact absurd hlen hpos.ne
  | succ n ih =>
      rw [consoleread]
      split
      · next hempty =>
          split
          · exact h.set trivial
          · exact h.set ⟨Ring.count_eq_zero.mpr hempty, hlen, hD, hnl⟩
      · next hne =>
          have htake := h.take hne
          dsimp only
          split
          · next hbyte =>
              have hdrop : newline ∉ got.dropLast := fun hm => hnl (List.mem_of_mem_dropLast hm)
              rw [if_pos hbyte] at htake
              split
              · next hlt =>
                  -- the `^D` is put back, and `got` is not empty
                  have hback : { s.take with r := s.take.r - 1, taken := s.taken } = s := by
                    simp [Console.take]
                  rw [hback]
                  refine h.ret (if_neg ?_).symm ⟨by omega, hD, hdrop⟩
                  rintro ⟨-, rfl⟩
                  rw [List.length_nil] at hlen
                  omega
              · next hlt =>
                  have hnil : got = [] := List.eq_nil_of_length_eq_zero (by omega)
                  refine htake.trans (htake.1.ret ?_ ⟨by omega, hD, hdrop⟩)
                  rw [if_pos ⟨by omega, hnil⟩]
          · next hbyte =>
              rw [if_neg hbyte] at htake
              have hD' : C 'D' ∉ got ++ [s.byte s.r] := by simp [hD, Ne.symm hbyte]
              have hlen' : (got ++ [s.byte s.r]).length = got.length + 1 := List.length_append
              split
              · refine htake.trans (htake.1.ret (by simp) ⟨by omega, hD', ?_⟩)
                rw [List.dropLast_concat]
                exact hnl
              · next hbyte' =>
                  have hnl' : newline ∉ got ++ [s.byte s.r] := by simp [hnl, Ne.symm hbyte']
                  exact htake.trans (ih htake.1 (by omega) hD' hnl')

theorem consoleStep_keeps {a : ConsoleOp P} (h : LineInv 0 s) (hs : consoleStep s a = some s') :
    Keeps 0 s s' := by
  cases a with
  | intr keys =>
      cases hs
      exact consoleintr_keeps h keys
  | read p n =>
      simp only [consoleStep] at hs
      split at hs <;> cases hs <;>
        exact h.set ⟨Nat.zero_add n, List.not_mem_nil, List.not_mem_nil⟩
  | run p =>
      simp only [consoleStep] at hs
      split at hs
      · next hr =>
          cases hs
          have hok := h.calls p
          rw [hr] at hok
          exact consoleread_keeps _ h hok.1 hok.2.1 hok.2.2
      · cases hs
  | kill p wakes =>
      cases hs
      have hk : LineInv 0 { s with killed := Function.update s.killed p true } :=
        ⟨h.order, h.room, h.full, h.shown, h.eof, h.calls⟩
      split
      · exact hk.set (wakeup_ok (h.calls p))
      · exact hk.keeps

theorem consoleStep_reach (h : LineInv 0 s) (hr : Reach consoleStep anyStep s s') : Keeps 0 s s' :=
  hr.invariant h.keeps fun _ _ _ hk _ hs => hk.trans (consoleStep_keeps hk.1 hs)

end Xv6.Ref.Cons
