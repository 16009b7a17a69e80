import Xv6.Lib.Memory

/-!
# Functions of the two C libraries (`string.c`, `ulib.c`)

Kernel and user programs each have a `memmove`. Pointers are 32-bit numbers, and a step
beyond the last address comes back at 0. An `int` is its 32 bits.
-/

namespace Xv6.Ref.Ulib

open Xv6.Lib

/-- `while(n-- > 0) *d++ = *s++`. -/
def copyUp (m : Mem) : Nat → Nat → Nat → Mem
  | 0, _, _ => m
  | n + 1, s, d => copyUp (store8 m d (m s)) n ((s + 1) % 2 ^ 32) ((d + 1) % 2 ^ 32)

/-- `memmove` of `ulib.c`; `n` is an `int`. -/
def memmove (m : Mem) (vdst vsrc : Nat) (n : Int) : Mem := copyUp m n.toNat vsrc vdst

/-- The loop of `atoi`. The sum wraps, as compiled. -/
def atoiLoop : List Char → BitVec 32 → BitVec 32
  | [], n => n
  | c :: s, n =>
      if '0' ≤ c ∧ c ≤ '9' then atoiLoop s (n * 10 + BitVec.ofNat 32 c.toNat - 48) else n

/-- `atoi` of the string `s`, without its NUL. -/
def atoi (s : List Char) : BitVec 32 := atoiLoop s 0

end Xv6.Ref.Ulib

namespace Xv6.Ref.Kstring

open Xv6.Lib Xv6.Ref.Ulib

/-- `p - 1`. -/
def below (p : Nat) : Nat := if p = 0 then 0xffffffff else p - 1

/-- `while(n-- > 0) *--d = *--s`. -/
def copyDown (m : Mem) : Nat → Nat → Nat → Mem
  | 0, _, _ => m
  | n + 1, s, d => copyDown (store8 m (below d) (m (below s))) n (below s) (below d)

/-- `memmove` of `string.c`; `n` is an `uint`. -/
def memmove (m : Mem) (dst src n : Nat) : Mem :=
  if src < dst ∧ (src + n) % 2 ^ 32 > dst then
    copyDown m n ((src + n) % 2 ^ 32) ((dst + n) % 2 ^ 32)
  else copyUp m n src dst

end Xv6.Ref.Kstring
