import Xv6.Ref.Kernel
import Xv6.Ref.Syscall

/-!
# `setpriority` as a system call

The stub, the number, the handler and the function behind it are all there; the entry of
the handler in `syscalls[]` is not. The array ends behind `SYS_waitx`, so `syscall` takes
the number of `setpriority` for an unknown call and answers -1 whatever the argument is.
That is the right answer for an argument out of range, and for no other.
-/

namespace Xv6.Ref.Syscall

/-- What the call `setpriority(n)` is for: `s` when it traps, `r` and `s'` what it returns
and leaves. -/
def SetsPriority (s : Trapped) (n : BitVec 32) (r : BitVec 32) (s' : Trapped) : Prop :=
  if 0 ≤ n.toInt ∧ n.toInt ≤ 100 then
    r = BitVec.ofInt 32 (s.proc s.cur).priority ∧
      s'.proc = s.proc.modify s.cur (fun p => { p with priority := n.toInt }) ∧
      s'.yields = s.yields + if n.toInt < (s.proc s.cur).priority then 1 else 0
  else r = -1 ∧ s'.proc = s.proc ∧ s'.yields = s.yields

theorem setpriority_sets (s : Trapped) (n : BitVec 32) :
    SetsPriority s n (setpriority n s).1 (setpriority n s).2 := by
  unfold SetsPriority setpriority
  by_cases hn : 0 ≤ n.toInt ∧ n.toInt ≤ 100
  · rw [if_pos hn, if_neg (by omega)]
    refine ⟨rfl, ?_, ?_⟩
    · dsimp only
      split <;> rfl
    · dsimp only
      split <;> rfl
  · rw [if_neg hn, if_pos (by omega)]
    exact ⟨rfl, rfl, rfl⟩

theorem sysSetpriority_sets {s : Trapped} {n : BitVec 32} (h : (argint s.user 0).result = .ok n) :
    SetsPriority s n (sysSetpriority s).1 (sysSetpriority s).2 := by
  rw [sysSetpriority, h]
  exact setpriority_sets s n

/-- The number is behind the end of the table. -/
theorem syscall_setpriority (call : Handler → Trapped → BitVec 32 × Trapped) {s : Trapped}
    (h : s.eax = BitVec.ofNat 32 SYS_setpriority) : syscall call s = { s with eax := -1 } := by
  have hend : nelemSyscalls = SYS_waitx + 1 := rfl
  rw [syscall, if_neg]
  rw [h, hend]
  decide

/-- The piece of `setpriority` that the model of the kernel's threads runs is the same
function: it leaves the same table, and goes on to `yield` in the same cases. -/
theorem setpriority_kernel {C : Nat} (k : Kern C) (u : Curproc) (i : Slot) (n eax : BitVec 32)
    (hk : k.kpc i = .user) :
    ∃ k', Ref.setpriority k i n.toInt = some k' ∧
      k'.proc = (setpriority n ⟨k.proc, i, u, eax, 0⟩).2.proc ∧
      (k'.kpc i = .toYield ↔ (setpriority n ⟨k.proc, i, u, eax, 0⟩).2.yields = 1) := by
  unfold Ref.setpriority setpriority
  rw [if_neg (not_not_intro hk)]
  by_cases hn : n.toInt > 100 ∨ n.toInt < 0
  · rw [if_pos hn, if_pos hn]
    exact ⟨k, rfl, rfl, by simp [hk]⟩
  · rw [if_neg hn, if_neg hn]
    dsimp only
    by_cases hlt : n.toInt < (k.proc i).priority
    · rw [if_pos hlt, if_pos hlt]
      exact ⟨_, rfl, rfl, by simp⟩
    · rw [if_neg hlt, if_neg hlt]
      exact ⟨_, rfl, rfl, by simp [hk]⟩

/-! ## The whole path -/

/-- A process of priority 60 that has called `setpriority(n)`. -/
def callSetpriority (n : UInt8) : Trapped where
  proc := fun _ => { Proc.zero with state := .RUNNING, pid := 1, priority := 60 }
  cur := 0
  user := { sz := 4096, esp := 0, mem := fun a => if a = 4 then n else 0 }
  eax := 23
  yields := 0

end Xv6.Ref.Syscall
