import Mathlib

/-!
# Physical pages and page tables (`kalloc.c`, `vm.c`)

A page is the physical address it begins at. `kmem.freelist` is a list of pages,
and `mem` holds the bytes of the pages that user memory is made of.

A page directory is a value: the page it is stored in, and for each of its
entries that is present the page table behind it, again with its page. What
`walkpgdir` returns a pointer to is written and read through the directory with
`setPte` and `pte`; `none` is an entry whose `PTE_P` is clear. Sizes and user
addresses are below `KERNBASE`, so their arithmetic does not wrap; where the
source relies on `uint` wrapping round, the sum is taken modulo `2 ^ 32`.

A function that stops the machine is an error here, and a negative or null
result is one of the function's results.
-/

namespace Xv6.Ref.Vm

abbrev PGSIZE : Nat := 4096
abbrev NPDENTRIES : Nat := 1024
abbrev NPTENTRIES : Nat := 1024

abbrev EXTMEM : Nat := 0x100000
abbrev PHYSTOP : Nat := 0xE000000
abbrev DEVSPACE : Nat := 0xFE000000
abbrev KERNBASE : Nat := 0x80000000
abbrev KERNLINK : Nat := KERNBASE + EXTMEM

def V2P (a : Nat) : Nat := a - KERNBASE
def P2V (a : Nat) : Nat := a + KERNBASE

def PDX (va : Nat) : Fin NPDENTRIES := ⟨va / 2 ^ 22 % 1024, Nat.mod_lt _ (by decide)⟩
def PTX (va : Nat) : Fin NPTENTRIES := ⟨va / 2 ^ 12 % 1024, Nat.mod_lt _ (by decide)⟩
def PGADDR (d t o : Nat) : Nat := d * 2 ^ 22 + t * 2 ^ 12 + o

def PGROUNDUP (sz : Nat) : Nat := (sz + PGSIZE - 1) / PGSIZE * PGSIZE
def PGROUNDDOWN (a : Nat) : Nat := a / PGSIZE * PGSIZE

/-- Why the machine stops. -/
inductive Stop where
  /-- `panic("kfree")`. -/
  | kfree
  /-- `panic("remap")`. -/
  | remap
  /-- `panic("PHYSTOP too high")`. -/
  | phystop
  /-- `panic("inituvm: more than a page")`. -/
  | inituvm
  /-- `panic("loaduvm: addr must be page aligned")`. -/
  | loaduvmAligned
  /-- `panic("loaduvm: address should exist")`. -/
  | loaduvmExist
  /-- `panic("clearpteu")`. -/
  | clearpteu
  /-- `panic("copyuvm: pte should exist")`. -/
  | copyuvmExist
  /-- `panic("copyuvm: page not present")`. -/
  | copyuvmPresent
  /-- `uva2ka` follows the null pointer `walkpgdir` returned. -/
  | nullPte
  /-- `kalloc` returns null while the kernel boots, where nothing tests for it. -/
  | bootMemory
  /-- `panic("userinit: out of memory?")`. -/
  | userinit
  /-- `panic("init exiting")`. -/
  | initExiting
  /-- `panic("filedup")`. -/
  | filedup
  /-- `panic("fileclose")`. -/
  | fileclose
  deriving DecidableEq

/-- The linker's symbols: the first address after the kernel, and the first of
its writable data, which `kernel.ld` puts on a page boundary behind the text. -/
structure Kernel where
  endAddr : Nat
  data : Nat
  text : KERNLINK < data
  bss : data ≤ endAddr
  top : data < P2V PHYSTOP
  aligned : data % PGSIZE = 0

/-! ## `kalloc.c` -/

structure Phys where
  freelist : List Nat
  mem : Nat → Nat → UInt8

def Phys.setPage (m : Phys) (pg : Nat) (b : Nat → UInt8) : Phys :=
  { m with mem := fun pg' => if pg' = pg then b else m.mem pg' }

def kalloc (m : Phys) : Option (Nat × Phys) :=
  match m.freelist with
  | [] => none
  | r :: next => some (r, { m with freelist := next })

def kfree (k : Kernel) (m : Phys) (pg : Nat) : Except Stop Phys :=
  if pg % PGSIZE ≠ 0 ∨ P2V pg < k.endAddr ∨ pg ≥ PHYSTOP then .error .kfree
  else
    let m := m.setPage pg fun _ => 1
    .ok { m with freelist := pg :: m.freelist }

def kfreeAll (k : Kernel) (m : Phys) : List Nat → Except Stop Phys
  | [] => .ok m
  | pg :: pgs => do
      let m ← kfree k m pg
      kfreeAll k m pgs

/-- The pages `freerange` goes over: from `PGROUNDUP(vstart)` as long as a whole
page fits. -/
def rangePages (vstart vend : Nat) : List Nat :=
  (List.range ((vend - PGROUNDUP vstart) / PGSIZE)).map fun i =>
    V2P (PGROUNDUP vstart) + i * PGSIZE

def freerange (k : Kernel) (m : Phys) (vstart vend : Nat) : Except Stop Phys :=
  kfreeAll k m (rangePages vstart vend)

/-! ## Page tables -/

structure Perm where
  /-- `PTE_W`. -/
  w : Bool
  /-- `PTE_U`. -/
  u : Bool
  deriving DecidableEq

structure Pte where
  /-- `PTE_ADDR`. -/
  pa : Nat
  /-- `PTE_FLAGS`. -/
  perm : Perm
  deriving DecidableEq

structure Pgtab where
  page : Nat
  pte : Fin NPTENTRIES → Option Pte

structure Pgdir where
  page : Nat
  tab : Fin NPDENTRIES → Option Pgtab

/-- A directory in a zeroed page. -/
def Pgdir.empty (pg : Nat) : Pgdir := ⟨pg, fun _ => none⟩

def Pgdir.setTab (d : Pgdir) (i : Fin NPDENTRIES) (t : Pgtab) : Pgdir :=
  { d with tab := fun j => if j = i then some t else d.tab j }

/-- The entry for `va`, if there is a table for it and it is present. -/
def Pgdir.pte (d : Pgdir) (va : Nat) : Option Pte :=
  match d.tab (PDX va) with
  | none => none
  | some t => t.pte (PTX va)

/-- `*pte = v` for the entry of `va`. -/
def Pgdir.setPte (d : Pgdir) (va : Nat) (v : Option Pte) : Pgdir :=
  match d.tab (PDX va) with
  | none => d
  | some t =>
      d.setTab (PDX va) { t with pte := fun j => if j = PTX va then v else t.pte j }

/-- With a result there is a table for `va` in the directory returned. -/
def walkpgdir (m : Phys) (d : Pgdir) (va : Nat) (alloc : Bool) : Option (Phys × Pgdir) :=
  match d.tab (PDX va) with
  | some _ => some (m, d)
  | none =>
      if alloc = false then none
      else
        match kalloc m with
        | none => none
        | some (pg, m) => some (m, d.setTab (PDX va) ⟨pg, fun _ => none⟩)

/-- The loop of `mappages`; the count is the number of pages from `a` to `last`. -/
def mappagesLoop (last : Nat) (perm : Perm) :
    Nat → Phys → Pgdir → Nat → Nat → Except Stop (Phys × Pgdir × Bool)
  | 0, m, d, _, _ => .ok (m, d, true)
  | n + 1, m, d, a, pa =>
      match walkpgdir m d a true with
      | none => .ok (m, d, false)
      | some (m, d) =>
          match d.pte a with
          | some _ => .error .remap
          | none =>
              let d := d.setPte a (some ⟨pa, perm⟩)
              if a = last then .ok (m, d, true)
              else
                mappagesLoop last perm n m d ((a + PGSIZE) % 2 ^ 32) ((pa + PGSIZE) % 2 ^ 32)

def mappages (m : Phys) (d : Pgdir) (va size pa : Nat) (perm : Perm) :
    Except Stop (Phys × Pgdir × Bool) :=
  let a := PGROUNDDOWN va
  let last := PGROUNDDOWN ((va + size + 2 ^ 32 - 1) % 2 ^ 32)
  mappagesLoop last perm ((last + 2 ^ 32 - a) % 2 ^ 32 / PGSIZE + 1) m d a pa

/-- The loop of `deallocuvm`; the bound is the number of pages below `oldsz`. -/
def deallocuvmLoop (k : Kernel) (oldsz : Nat) :
    Nat → Phys → Pgdir → Nat → Except Stop (Phys × Pgdir)
  | 0, m, d, _ => .ok (m, d)
  | n + 1, m, d, a =>
      if a < oldsz then
        match walkpgdir m d a false with
        | none => deallocuvmLoop k oldsz n m d (PGADDR ((PDX a).val + 1) 0 0)
        | some _ =>
            match d.pte a with
            | none => deallocuvmLoop k oldsz n m d (a + PGSIZE)
            | some pte =>
                if pte.pa = 0 then .error .kfree
                else do
                  let m ← kfree k m pte.pa
                  deallocuvmLoop k oldsz n m (d.setPte a none) (a + PGSIZE)
      else .ok (m, d)

def deallocuvm (k : Kernel) (m : Phys) (d : Pgdir) (oldsz newsz : Nat) :
    Except Stop (Phys × Pgdir × Nat) :=
  if newsz ≥ oldsz then .ok (m, d, oldsz)
  else do
    let (m, d) ← deallocuvmLoop k oldsz (oldsz / PGSIZE + 1) m d (PGROUNDUP newsz)
    .ok (m, d, newsz)

/-- The second loop of `freevm`. -/
def freeTables (k : Kernel) (d : Pgdir) (m : Phys) : List (Fin NPDENTRIES) → Except Stop Phys
  | [] => .ok m
  | i :: is =>
      match d.tab i with
      | none => freeTables k d m is
      | some t => do
          let m ← kfree k m t.page
          freeTables k d m is

def freevm (k : Kernel) (m : Phys) (d : Pgdir) : Except Stop Phys := do
  let (m, d, _) ← deallocuvm k m d KERNBASE 0
  let m ← freeTables k d m (List.finRange NPDENTRIES)
  kfree k m d.page

structure Kmap where
  virt : Nat
  physStart : Nat
  physEnd : Nat
  perm : Perm

def kmap (k : Kernel) : List Kmap :=
  [⟨KERNBASE, 0, EXTMEM, ⟨true, false⟩⟩,
    ⟨KERNLINK, V2P KERNLINK, V2P k.data, ⟨false, false⟩⟩,
    ⟨k.data, V2P k.data, PHYSTOP, ⟨true, false⟩⟩,
    ⟨DEVSPACE, DEVSPACE, 0, ⟨true, false⟩⟩]

def setupkvmLoop (k : Kernel) : List Kmap → Phys → Pgdir → Except Stop (Option Pgdir × Phys)
  | [], m, d => .ok (some d, m)
  | e :: es, m, d => do
      let (m, d, mapped) ←
        mappages m d e.virt ((e.physEnd + 2 ^ 32 - e.physStart) % 2 ^ 32) e.physStart e.perm
      if mapped then setupkvmLoop k es m d
      else do
        let m ← freevm k m d
        .ok (none, m)

def setupkvm (k : Kernel) (m : Phys) : Except Stop (Option Pgdir × Phys) :=
  match kalloc m with
  | none => .ok (none, m)
  | some (pg, m) =>
      if P2V PHYSTOP > DEVSPACE then .error .phystop
      else setupkvmLoop k (kmap k) m (Pgdir.empty pg)

/-- `inituvm` with the bytes of `initcode`; it looks at the results of neither
`kalloc` nor `mappages`. -/
def inituvm (m : Phys) (d : Pgdir) (init : List UInt8) : Except Stop (Phys × Pgdir) :=
  if init.length ≥ PGSIZE then .error .inituvm
  else
    match kalloc m with
    | none => .error .bootMemory
    | some (pg, m) => do
        let (m, d, _) ← mappages m d 0 PGSIZE pg ⟨true, true⟩
        .ok (m.setPage pg fun o => init.getD o 0, d)

/-- The loop of `allocuvm`; the bound is the number of pages below `newsz`. -/
def allocuvmLoop (k : Kernel) (oldsz newsz : Nat) :
    Nat → Phys → Pgdir → Nat → Except Stop (Phys × Pgdir × Nat)
  | 0, m, d, _ => .ok (m, d, newsz)
  | n + 1, m, d, a =>
      if a < newsz then
        match kalloc m with
        | none => do
            let (m, d, _) ← deallocuvm k m d newsz oldsz
            .ok (m, d, 0)
        | some (pg, m) => do
            let (m, d, mapped) ← mappages (m.setPage pg fun _ => 0) d a PGSIZE pg ⟨true, true⟩
            if mapped then allocuvmLoop k oldsz newsz n m d (a + PGSIZE)
            else do
              let (m, d, _) ← deallocuvm k m d newsz oldsz
              let m ← kfree k m pg
              .ok (m, d, 0)
      else .ok (m, d, newsz)

/-- The new size, or 0. -/
def allocuvm (k : Kernel) (m : Phys) (d : Pgdir) (oldsz newsz : Nat) :
    Except Stop (Phys × Pgdir × Nat) :=
  if newsz ≥ KERNBASE then .ok (m, d, 0)
  else if newsz < oldsz then .ok (m, d, oldsz)
  else allocuvmLoop k oldsz newsz (newsz / PGSIZE + 1) m d (PGROUNDUP oldsz)

def clearpteu (d : Pgdir) (uva : Nat) : Except Stop Pgdir :=
  match d.tab (PDX uva) with
  | none => .error .clearpteu
  | some _ =>
      match d.pte uva with
      | none => .ok d
      | some pte => .ok (d.setPte uva (some { pte with perm := { pte.perm with u := false } }))

/-- The loop of `copyuvm` from the directory `d` into `new`; the bound is the
number of pages below `sz`. -/
def copyuvmLoop (k : Kernel) (d : Pgdir) (sz : Nat) :
    Nat → Phys → Pgdir → Nat → Except Stop (Option Pgdir × Phys)
  | 0, m, new, _ => .ok (some new, m)
  | n + 1, m, new, i =>
      if i < sz then
        match walkpgdir m d i false with
        | none => .error .copyuvmExist
        | some _ =>
            match d.pte i with
            | none => .error .copyuvmPresent
            | some pte =>
                match kalloc m with
                | none => do
                    let m ← freevm k m new
                    .ok (none, m)
                | some (pg, m) => do
                    let (m, new, mapped) ←
                      mappages (m.setPage pg (m.mem pte.pa)) new i PGSIZE pg pte.perm
                    if mapped then copyuvmLoop k d sz n m new (i + PGSIZE)
                    else do
                      let m ← kfree k m pg
                      let m ← freevm k m new
                      .ok (none, m)
      else .ok (some new, m)

def copyuvm (k : Kernel) (m : Phys) (d : Pgdir) (sz : Nat) :
    Except Stop (Option Pgdir × Phys) := do
  match ← setupkvm k m with
  | (none, m) => .ok (none, m)
  | (some new, m) => copyuvmLoop k d sz (sz / PGSIZE + 1) m new 0

/-- The physical page that `uva` is on, if the user may use it. -/
def uva2ka (d : Pgdir) (uva : Nat) : Except Stop (Option Nat) :=
  match d.tab (PDX uva) with
  | none => .error .nullPte
  | some _ =>
      match d.pte uva with
      | none => .ok none
      | some pte => if pte.perm.u = false then .ok none else .ok (some pte.pa)

/-- The bytes from offset `o` of the page `pg` become `bs`. -/
def Phys.write (m : Phys) (pg o : Nat) (bs : List UInt8) : Phys :=
  m.setPage pg fun i => if o ≤ i ∧ i < o + bs.length then bs.getD (i - o) 0 else m.mem pg i

/-- The loop of `copyout`; each round takes at least one byte. -/
def copyoutLoop (d : Pgdir) : Nat → Phys → Nat → List UInt8 → Except Stop (Phys × Bool)
  | 0, m, _, _ => .ok (m, true)
  | fuel + 1, m, va, buf =>
      if buf.length > 0 then do
        let va0 := PGROUNDDOWN va
        match ← uva2ka d va0 with
        | none => .ok (m, false)
        | some pa0 =>
            let n := min (PGSIZE - (va - va0)) buf.length
            copyoutLoop d fuel (m.write pa0 (va - va0) (buf.take n)) ((va0 + PGSIZE) % 2 ^ 32)
              (buf.drop n)
      else .ok (m, true)

def copyout (m : Phys) (d : Pgdir) (va : Nat) (buf : List UInt8) :
    Except Stop (Phys × Bool) :=
  copyoutLoop d buf.length m va buf

end Xv6.Ref.Vm
