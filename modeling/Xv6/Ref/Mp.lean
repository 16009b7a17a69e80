import Xv6.Lib.Memory

/-!
# The table of processors (`mp.c`)

`m` holds the physical memory that the kernel sees through `P2V`. The configuration table
lies below the end of the address space, so pointers into it do not wrap.
-/

namespace Xv6.Ref.Mp

open Xv6.Lib

def NCPU : Nat := 8

/-- `sum`; only the low byte is returned. -/
def sum (m : Mem) (addr len : Nat) : UInt8 := (List.range len).foldl (fun s i => s + m (addr + i)) 0

/-- `memcmp(p, s, strlen(s)) == 0`. -/
def hasBytes (m : Mem) (p : Nat) (s : List UInt8) : Bool :=
  (List.range s.length).map (fun i => m (p + i)) == s

/-- `mpsearch1`: the structures have 16 bytes. -/
def mpsearch1 (m : Mem) (a len : Nat) : Option Nat :=
  ((List.range ((len + 15) / 16)).map fun i => a + 16 * i).find? fun p =>
    hasBytes m p "_MP_".toUTF8.toList && sum m p 16 == 0

def mpsearch (m : Mem) : Option Nat :=
  let bda := 0x400
  let p := ((m (bda + 0x0F)).toNat * 2 ^ 8 + (m (bda + 0x0E)).toNat) * 2 ^ 4
  let found :=
    if p ≠ 0 then mpsearch1 m p 1024
    else
      let p := ((m (bda + 0x14)).toNat * 2 ^ 8 + (m (bda + 0x13)).toNat) * 1024
      mpsearch1 m (p - 1024) 1024
  found.or (mpsearch1 m 0xF0000 0x10000)

/-- `conf->length`. -/
def confLength (m : Mem) (conf : Nat) : Nat := (m (conf + 4)).toNat + 2 ^ 8 * (m (conf + 5)).toNat

/-- What `mpconfig` checks of the table at `conf`. -/
def confOk (m : Mem) (conf : Nat) : Bool :=
  hasBytes m conf "PCMP".toUTF8.toList && (m (conf + 6) == 1 || m (conf + 6) == 4) &&
    sum m conf (confLength m conf) == 0

def mpconfig (m : Mem) : Option Nat :=
  match mpsearch m with
  | none => none
  | some mp =>
      let conf := load32 m (mp + 4)
      if conf = 0 then none else if confOk m conf then some conf else none

/-- The variables of the loop over the entries. `cpus` are the `apicid`s recorded, `ncpu` of
them. -/
structure Walk where
  p : Nat
  cpus : List UInt8
  ioapicid : UInt8
  ismp : Bool

/-- One round: the `switch`. The `break` of its default leaves the `switch` only. -/
def mpEntry (m : Mem) (s : Walk) : Walk :=
  match (m s.p).toNat with
  | 0 =>
      { s with
        cpus := if s.cpus.length < NCPU then s.cpus ++ [m (s.p + 1)] else s.cpus
        p := s.p + 20 }
  | 2 => { s with ioapicid := m (s.p + 1), p := s.p + 8 }
  | 1 | 3 | 4 => { s with p := s.p + 8 }
  | _ => { s with ismp := false }

/-- The loop after `n` rounds, or after fewer if it has ended by then. -/
def mpLoop (m : Mem) (e : Nat) : Nat → Walk → Walk
  | 0, s => s
  | n + 1, s => if s.p < e then mpLoop m e n (mpEntry m s) else s

/-- The state before the loop; the header of the table has 44 bytes. -/
def mpStart (conf : Nat) (ioapicid : UInt8) : Walk := ⟨conf + 44, [], ioapicid, true⟩

end Xv6.Ref.Mp
