import Xv6.Lib.Memory

/-!
# The allocator of user programs (`umalloc.c`)

`malloc` and `free` keep the free blocks in a ring of headers in the memory of the process.
The memory is its bytes; pointers and sizes are 32-bit words in it, and arithmetic on them
wraps. `sbrk` is a parameter: a function on the state `σ` of whatever stands behind the
system call, which returns the address of the new memory or -1, here `none`.

The loops over the ring end when they find a place or a block. They run with `rounds`
rounds at most; `none` is a loop that has not ended by then.

`got` counts the units that `sbrk` gave. No modelled code reads it.
-/

namespace Xv6.Ref.Umalloc

open Xv6.Lib

/-! ## Headers -/

/-- `sizeof(Header)`: a pointer and an `uint`. -/
def HDR : Nat := 8

/-- `p->s.ptr`. -/
def ptr (m : Mem) (p : Nat) : Nat := load32 m p

/-- `p->s.size`. -/
def size (m : Mem) (p : Nat) : Nat := load32 m (p + 4)

def setPtr (m : Mem) (p v : Nat) : Mem := store32 m p v

def setSize (m : Mem) (p v : Nat) : Mem := store32 m (p + 4) v

/-- `p + n` for a `Header *p`. -/
def hdr (p n : Nat) : Nat := (p + n * HDR) % 2 ^ 32

/-- The memory, `freep`, the system behind `sbrk`, and the units it has given. -/
structure Heap (σ : Type) where
  mem : Mem
  freep : Nat
  os : σ
  got : Nat

/-! ## `free` -/

/-- The block of the ring that `bp` goes behind. -/
def freeLoop (m : Mem) (bp : Nat) : Nat → Nat → Option Nat
  | 0, _ => none
  | fuel + 1, p =>
      if bp > p ∧ bp < ptr m p then some p
      else if p ≥ ptr m p ∧ (bp > p ∨ bp < ptr m p) then some p
      else freeLoop m bp fuel (ptr m p)

/-- Joins the block with the one above it, or links it to it. -/
def joinUpper (m : Mem) (p bp : Nat) : Mem :=
  if hdr bp (size m bp) = ptr m p then
    let m := setSize m bp ((size m bp + size m (ptr m p)) % 2 ^ 32)
    setPtr m bp (ptr m (ptr m p))
  else setPtr m bp (ptr m p)

/-- Joins the block with the one below it, or links that to it. -/
def joinLower (m : Mem) (p bp : Nat) : Mem :=
  if hdr p (size m p) = bp then
    let m := setSize m p ((size m p + size m bp) % 2 ^ 32)
    setPtr m p (ptr m bp)
  else setPtr m p bp

/-- `(Header*)ap - 1`. -/
def headerOf (ap : Nat) : Nat := (ap + 2 ^ 32 - HDR) % 2 ^ 32

/-- The memory and `freep` after `free(ap)`. -/
def free (rounds : Nat) (m : Mem) (freep ap : Nat) : Option (Mem × Nat) :=
  match freeLoop m (headerOf ap) rounds freep with
  | none => none
  | some p => some (joinLower (joinUpper m p (headerOf ap)) p (headerOf ap), p)

/-! ## `malloc` -/

section

variable {σ : Type} (rounds : Nat) (sbrk : Nat → σ → Option Nat × σ)

/-- `freep` after the ring has grown, or `none` for 0. -/
def morecore (h : Heap σ) (nu : Nat) : Option (Heap σ × Option Nat) :=
  let nu := if nu < 4096 then 4096 else nu
  match sbrk (nu * HDR % 2 ^ 32) h.os with
  | (none, os) => some ({ h with os := os }, none)
  | (some hp, os) =>
      match free rounds (setSize h.mem hp nu) h.freep (hdr hp 1) with
      | none => none
      | some (m, freep) => some (⟨m, freep, os, h.got + nu⟩, some freep)

/-- `(nbytes + sizeof(Header) - 1)/sizeof(Header) + 1`. -/
def nunits (nbytes : Nat) : Nat := (nbytes + HDR - 1) % 2 ^ 32 / HDR + 1

/-- Takes `nunits` from the block `p`: all of it or its tail. The block taken is returned. -/
def takeUnits (m : Mem) (prevp p nunits : Nat) : Mem × Nat :=
  if size m p = nunits then (setPtr m prevp (ptr m p), p)
  else
    let m := setSize m p (size m p - nunits)
    let p := hdr p (size m p)
    (setSize m p nunits, p)

/-- The search, which returns the pointer or 0. -/
def mallocLoop (nunits : Nat) : Nat → Heap σ → Nat → Nat → Option (Heap σ × Nat)
  | 0, _, _, _ => none
  | fuel + 1, h, prevp, p =>
      if size h.mem p ≥ nunits then
        let (m, p) := takeUnits h.mem prevp p nunits
        some ({ h with mem := m, freep := prevp }, hdr p 1)
      else if p = h.freep then
        match morecore rounds sbrk h nunits with
        | none => none
        | some (h, none) => some (h, 0)
        | some (h, some p) => mallocLoop nunits fuel h p (ptr h.mem p)
      else mallocLoop nunits fuel h p (ptr h.mem p)

/-- The ring of the empty list: `base` alone. -/
def initBase (base : Nat) (h : Heap σ) : Heap σ :=
  { h with mem := setSize (setPtr h.mem base base) base 0, freep := base }

/-- `malloc`; `base` is the address of the variable. -/
def malloc (base : Nat) (h : Heap σ) (nbytes : Nat) : Option (Heap σ × Nat) :=
  let h := if h.freep = 0 then initBase base h else h
  mallocLoop rounds sbrk (nunits nbytes) rounds h h.freep (ptr h.mem h.freep)

end

/-! ## A program that uses it -/

/-- The heap, the blocks in use by the address of their header, and what was asked for. -/
structure Client (σ : Type) where
  heap : Heap σ
  live : Finset Nat
  asked : Nat → Nat

inductive HeapAct where
  | malloc (nbytes : Nat)
  /-- Give back the block of the header at `a`. -/
  | free (a : Nat)
  /-- Write a byte. -/
  | store (a : Nat) (v : UInt8)

variable {σ : Type} (rounds : Nat) (sbrk : Nat → σ → Option Nat × σ) (base : Nat)

def heapStep (s : Client σ) : HeapAct → Option (Client σ)
  | .malloc nbytes =>
      match malloc rounds sbrk base s.heap nbytes with
      | none => none
      | some (h, 0) => some { s with heap := h }
      | some (h, ap + 1) =>
          let a := ap + 1 - HDR
          some ⟨h, insert a s.live, fun b => if b = a then nbytes else s.asked b⟩
  | .free a =>
      match free rounds s.heap.mem s.heap.freep (hdr a 1) with
      | none => none
      | some (m, freep) =>
          some { s with heap := { s.heap with mem := m, freep := freep }, live := s.live.erase a }
  | .store a v => some { s with heap := { s.heap with mem := store8 s.heap.mem a v } }

end Xv6.Ref.Umalloc
