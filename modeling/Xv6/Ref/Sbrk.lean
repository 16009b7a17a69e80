import Xv6.Ref.Vm

/-!
# `sbrk` as a program sees it

The size of the process is all that a program learns of `growproc`. Whether `allocuvm` finds
the pages it needs is up to the rest of the system: `found` says it for each call.
-/

namespace Xv6.Ref.Sbrk

open Xv6.Ref.Vm

/-- What `allocuvm` returns. -/
def allocSize (found : Bool) (oldsz newsz : Nat) : Nat :=
  if newsz ≥ KERNBASE then 0
  else if newsz < oldsz then oldsz
  else if found then newsz
  else 0

/-- What `deallocuvm` returns. -/
def deallocSize (oldsz newsz : Nat) : Nat := if newsz ≥ oldsz then oldsz else newsz

/-- What `growproc` returns, and the size it leaves. -/
def growSize (found : Bool) (sz : Nat) (n : Int) : Int × Nat :=
  let newsz := (((sz : Int) + n) % 2 ^ 32).toNat
  if n > 0 then
    let sz' := allocSize found sz newsz
    if sz' = 0 then (-1, sz) else (0, sz')
  else if n < 0 then
    let sz' := deallocSize sz newsz
    if sz' = 0 then (-1, sz) else (0, sz')
  else (0, sz)

theorem growSize_below {found : Bool} {sz : Nat} {n : Int} (h : sz < KERNBASE) :
    (growSize found sz n).2 < KERNBASE := by
  simp only [growSize, allocSize, deallocSize]
  repeat' split
  all_goals omega

/-- The size of the process and the calls it has made. -/
structure Brk where
  sz : Nat
  calls : Nat
  below : sz < KERNBASE

/-- The argument as an `int`. -/
def toInt (n : Nat) : Int := if n < 2 ^ 31 then n else (n : Int) - 2 ^ 32

/-- `sys_sbrk`: the old size, or `none` for -1. -/
def sysSbrk (found : Nat → Bool) (n : Nat) (os : Brk) : Option Nat × Brk :=
  (if (growSize (found os.calls) os.sz (toInt n)).1 < 0 then none else some os.sz,
    ⟨(growSize (found os.calls) os.sz (toInt n)).2, os.calls + 1, growSize_below os.below⟩)

end Xv6.Ref.Sbrk
