import Xv6.Ref.Vm

/-!
# Loading a program (`exec.c`)

The file is known by what `readi` returns from it: `rd off n` are the bytes that
are read, and `none` is `-1`. The argument strings are those `sys_exec` has
found; they have no `NUL`. `exec` works on a directory of its own until the end,
so its result is the image to switch to, or `none` for `-1`, and the pages.
-/

namespace Xv6.Ref.Vm

abbrev MAXARG : Nat := 32
abbrev ELF_MAGIC : Nat := 0x464C457F
abbrev ELF_PROG_LOAD : Nat := 1

abbrev Reader := Nat → Nat → Option (List UInt8)

/-- What `readi` returns from a file with the bytes `c`. -/
def fileReader (c : List UInt8) : Reader := fun off n =>
  if off > c.length ∨ (off + n) % 2 ^ 32 < off then none else some ((c.drop off).take n)

/-- The `ushort` at an offset. -/
def half (bs : List UInt8) (o : Nat) : Nat :=
  (bs.getD o 0).toNat + (bs.getD (o + 1) 0).toNat * 2 ^ 8

/-- The `uint` at an offset. -/
def word (bs : List UInt8) (o : Nat) : Nat := half bs o + half bs (o + 2) * 2 ^ 16

/-- The bytes of a `uint`. -/
def wordBytes (n : Nat) : List UInt8 :=
  (List.range 4).map fun i => UInt8.ofNat (n / 2 ^ (8 * i))

structure Elfhdr where
  magic : Nat
  entry : Nat
  phoff : Nat
  phnum : Nat

/-- `sizeof(struct elfhdr)`. -/
abbrev elfhdrSize : Nat := 52

def Elfhdr.ofBytes (bs : List UInt8) : Elfhdr where
  magic := word bs 0
  entry := word bs 24
  phoff := word bs 28
  phnum := half bs 44

structure Proghdr where
  type : Nat
  off : Nat
  vaddr : Nat
  filesz : Nat
  memsz : Nat

/-- `sizeof(struct proghdr)`. -/
abbrev proghdrSize : Nat := 32

def Proghdr.ofBytes (bs : List UInt8) : Proghdr where
  type := word bs 0
  off := word bs 4
  vaddr := word bs 8
  filesz := word bs 16
  memsz := word bs 20

/-- `readi` with the test that it returned all `n` bytes. -/
def readAll (rd : Reader) (off n : Nat) : Option (List UInt8) :=
  match rd off n with
  | none => none
  | some bs => if bs.length = n then some bs else none

/-- The loop of `loaduvm`; the bound is the number of pages of the segment. -/
def loaduvmLoop (d : Pgdir) (rd : Reader) (addr offset sz : Nat) :
    Nat → Phys → Nat → Except Stop (Phys × Bool)
  | 0, m, _ => .ok (m, true)
  | fuel + 1, m, i =>
      if i < sz then
        match d.tab (PDX (addr + i)) with
        | none => .error .loaduvmExist
        | some _ =>
            let pa := ((d.pte (addr + i)).map (·.pa)).getD 0
            let n := if sz - i < PGSIZE then sz - i else PGSIZE
            match readAll rd ((offset + i) % 2 ^ 32) n with
            | none => .ok (m, false)
            | some bs => loaduvmLoop d rd addr offset sz fuel (m.write pa 0 bs) (i + PGSIZE)
      else .ok (m, true)

def loaduvm (m : Phys) (d : Pgdir) (addr : Nat) (rd : Reader) (offset sz : Nat) :
    Except Stop (Phys × Bool) :=
  if addr % PGSIZE ≠ 0 then .error .loaduvmAligned
  else loaduvmLoop d rd addr offset sz (sz / PGSIZE + 1) m 0

/-- The loop over the program headers; the size of the image, or `none` for
`goto bad`. -/
def loadSegments (k : Kernel) (rd : Reader) :
    Nat → Nat → Phys → Pgdir → Nat → Except Stop (Phys × Pgdir × Option Nat)
  | 0, _, m, d, sz => .ok (m, d, some sz)
  | n + 1, off, m, d, sz =>
      match readAll rd off proghdrSize with
      | none => .ok (m, d, none)
      | some bs =>
          let ph := Proghdr.ofBytes bs
          let off' := (off + proghdrSize) % 2 ^ 32
          if ph.type ≠ ELF_PROG_LOAD then loadSegments k rd n off' m d sz
          else if ph.memsz < ph.filesz then .ok (m, d, none)
          else if (ph.vaddr + ph.memsz) % 2 ^ 32 < ph.vaddr then .ok (m, d, none)
          else do
            let (m, d, sz) ← allocuvm k m d sz ((ph.vaddr + ph.memsz) % 2 ^ 32)
            if sz = 0 then .ok (m, d, none)
            else if ph.vaddr % PGSIZE ≠ 0 then .ok (m, d, none)
            else do
              let (m, loaded) ← loaduvm m d ph.vaddr rd ph.off ph.filesz
              if loaded then loadSegments k rd n off' m d sz else .ok (m, d, none)

/-- `a - b` on `uint`s. -/
def subWrap (a b : Nat) : Nat := (a + 2 ^ 32 - b % 2 ^ 32) % 2 ^ 32

/-- The loop that pushes the argument strings; the stack pointer and where the
strings are, or `none` for `goto bad`. -/
def pushArgs (d : Pgdir) :
    List (List UInt8) → Nat → Phys → Nat → List Nat →
      Except Stop (Phys × Option (Nat × List Nat))
  | [], _, m, sp, at_ => .ok (m, some (sp, at_))
  | s :: argv, argc, m, sp, at_ =>
      if argc ≥ MAXARG then .ok (m, none)
      else do
        let sp := subWrap sp (s.length + 1) / 4 * 4
        let (m, copied) ← copyout m d sp (s ++ [0])
        if copied then pushArgs d argv (argc + 1) m sp (at_ ++ [sp]) else .ok (m, none)

/-- What `exec` puts in the process. -/
structure Image where
  pgdir : Pgdir
  sz : Nat
  eip : Nat
  esp : Nat
  name : List UInt8

/-- What follows the last slash. -/
def lastName (path : List UInt8) : List UInt8 :=
  path.foldl (fun last c => if c = 47 then [] else last ++ [c]) []

/-- The part of `exec` behind the loop over the segments: the stack with the
arguments. -/
def pushStack (k : Kernel) (path : List UInt8) (argv : List (List UInt8)) (entry : Nat)
    (m : Phys) (d : Pgdir) (sz : Nat) : Except Stop (Phys × Pgdir × Option Image) := do
  let sz := PGROUNDUP sz
  let (m, d, sz) ← allocuvm k m d sz (sz + 2 * PGSIZE)
  if sz = 0 then .ok (m, d, none)
  else do
    let d ← clearpteu d (sz - 2 * PGSIZE)
    match ← pushArgs d argv 0 m sz [] with
    | (m, none) => .ok (m, d, none)
    | (m, some (sp, at_)) => do
        let argc := at_.length
        let ustack := [0xffffffff, argc, subWrap sp ((argc + 1) * 4)] ++ at_ ++ [0]
        let sp := subWrap sp ((3 + argc + 1) * 4)
        let (m, copied) ← copyout m d sp (ustack.flatMap wordBytes)
        if copied then .ok (m, d, some ⟨d, sz, entry, sp, (lastName path).take 15⟩)
        else .ok (m, d, none)

/-- The label `bad`. -/
def execBad (k : Kernel) (m : Phys) (d : Pgdir) : Except Stop (Option Image × Phys) := do
  let m ← freevm k m d
  .ok (none, m)

/-- `exec` up to the commit; `ip` is what `namei` finds. -/
def exec (k : Kernel) (m : Phys) (ip : Option Reader) (path : List UInt8)
    (argv : List (List UInt8)) : Except Stop (Option Image × Phys) :=
  match ip with
  | none => .ok (none, m)
  | some rd =>
      match readAll rd 0 elfhdrSize with
      | none => .ok (none, m)
      | some bs =>
          let elf := Elfhdr.ofBytes bs
          if elf.magic ≠ ELF_MAGIC then .ok (none, m)
          else do
            match ← setupkvm k m with
            | (none, m) => .ok (none, m)
            | (some d, m) => do
                match ← loadSegments k rd elf.phnum elf.phoff m d 0 with
                | (m, d, none) => execBad k m d
                | (m, d, some sz) => do
                    match ← pushStack k path argv elf.entry m d sz with
                    | (m, d, none) => execBad k m d
                    | (m, _, some image) => .ok (some image, m)

end Xv6.Ref.Vm
