import Xv6.Proofs.UserMemory
import Xv6.Proofs.PageOwners

/-!
# A process's memory as it sees it

The pages behind a directory are of no interest to a process: it has the bytes below some
address, with permissions, and nothing above. `Space` says that a directory and the
physical pages give that picture. The kernel's functions are then described by what they
do to it: `allocuvm` adds zeroes at the end, `deallocuvm` cuts off, and `growproc` does one
or the other.
-/

namespace Xv6.Ref.Vm

open Xv6.Lib

variable {k : Kernel} {m m' : Phys} {d d' : Pgdir} {top va : Nat} {perm : Nat → Perm}
  {img : Nat → UInt8}

/-- The user has the bytes `img` with the permissions `perm` below `top`, on pages of its
own, and nothing from there to `KERNBASE`. -/
structure Space (k : Kernel) (m : Phys) (d : Pgdir) (top : Nat) (perm : Nat → Perm)
    (img : Nat → UInt8) : Prop where
  le : top ≤ KERNBASE
  mapped : ∀ va, va < top → ∃ pg, d.pte va = some ⟨pg, perm va⟩ ∧ usable k pg ∧
    pg ∉ m.freelist ∧ m.mem pg (va % PGSIZE) = img va
  unmapped : ∀ va, top ≤ va → va < KERNBASE → d.pte va = none
  inj : ∀ va va' e e', va < top → va' < top → d.pte va = some e → d.pte va' = some e' →
    e.pa = e'.pa → va / PGSIZE = va' / PGSIZE

/-- `f` below `lo` and the constant `c` from there on. -/
def upTo {α : Type} (lo : Nat) (f : Nat → α) (c : α) (va : Nat) : α := if va < lo then f va else c

theorem upTo_lt {α : Type} {lo : Nat} {f : Nat → α} {c : α} (h : va < lo) :
    upTo lo f c va = f va := if_pos h

theorem upTo_ge {α : Type} {lo : Nat} {f : Nat → α} {c : α} (h : lo ≤ va) :
    upTo lo f c va = c := if_neg (Nat.not_lt.mpr h)

theorem lt_of_user (h : va < KERNBASE) : va < 2 ^ 32 := Nat.lt_trans h (by decide)

theorem PGROUNDUP_mono {a b : Nat} (h : a ≤ b) : PGROUNDUP a ≤ PGROUNDUP b := by
  show (a + 4096 - 1) / 4096 * 4096 ≤ (b + 4096 - 1) / 4096 * 4096
  omega

theorem le_PGROUNDUP (a : Nat) : a ≤ PGROUNDUP a := by
  show a ≤ (a + 4096 - 1) / 4096 * 4096
  omega

theorem PGROUNDUP_le {a : Nat} (h : a ≤ KERNBASE) : PGROUNDUP a ≤ KERNBASE := by
  have h : a ≤ 0x80000000 := h
  show (a + 4096 - 1) / 4096 * 4096 ≤ 0x80000000
  omega

/-- The picture depends on the user's entries, the bytes of the pages that are not free, and
which pages are free. -/
theorem Space.congr (h : Space k m d top perm img)
    (hpte : ∀ va, va < KERNBASE → d'.pte va = d.pte va)
    (hmem : ∀ pg, pg ∉ m.freelist → m'.mem pg = m.mem pg)
    (hsub : m'.freelist ⊆ m.freelist) : Space k m' d' top perm img := by
  have hlt : ∀ va, va < top → d'.pte va = d.pte va := fun va hva =>
    hpte va (Nat.lt_of_lt_of_le hva h.le)
  refine ⟨h.le, fun va hva => ?_, fun va h1 h2 => ?_, fun va va' e e' h1 h2 he he' => ?_⟩
  · obtain ⟨pg, hp, hu, hf, hb⟩ := h.mapped va hva
    exact ⟨pg, by rw [hlt va hva, hp], hu, fun hin => hf (hsub hin), by rw [hmem pg hf, hb]⟩
  · rw [hpte va h2, h.unmapped va h1 h2]
  · rw [hlt va h1] at he
    rw [hlt va' h2] at he'
    exact h.inj va va' e e' h1 h2 he he'

theorem Space.undone (h : Space k m d top perm img) (hu : Undone m d m' d') :
    Space k m' d' top perm img :=
  h.congr (fun va hva => hu.pte va (lt_of_user hva)) hu.mem hu.sub

theorem Space.extended {lo : Nat} (h : Space k m d lo perm img) (hpool : Pool k m)
    (hx : Extended lo top m d m' d') (hle : lo ≤ top) (htop : top ≤ KERNBASE) :
    Space k m' d' top (upTo lo perm ⟨true, true⟩) (upTo lo img 0) := by
  have hbelow : ∀ va, va < lo → d'.pte va = d.pte va := fun va hva =>
    hx.outside va (lt_of_user (Nat.lt_of_lt_of_le hva h.le)) (Or.inl hva)
  -- a page from the free list is not one that was mapped
  have hapart : ∀ va va' e e', va < lo → lo ≤ va' → va' < top → d'.pte va = some e →
      d'.pte va' = some e' → e.pa ≠ e'.pa := by
    intro va va' e e' h1 h2 h3 he he' hpa
    obtain ⟨pg, hp, -, hf, -⟩ := h.mapped va h1
    obtain ⟨pg', hp', hin, -⟩ := hx.inside va' h2 h3
    rw [hbelow va h1, hp] at he
    rw [hp'] at he'
    cases he
    cases he'
    obtain rfl : pg = pg' := hpa
    exact hf hin
  refine ⟨htop, fun va hva => ?_, fun va h1 h2 => ?_, fun va va' e e' h1 h2 he he' hpa => ?_⟩
  · rcases Nat.lt_or_ge va lo with hlo | hlo
    · obtain ⟨pg, hp, hu, hf, hb⟩ := h.mapped va hlo
      rw [upTo_lt hlo, upTo_lt hlo]
      exact ⟨pg, by rw [hbelow va hlo, hp], hu, fun hin => hf (hx.suffix.subset hin),
        by rw [hx.mem pg hf, hb]⟩
    · obtain ⟨pg, hp, hin, hf, hz⟩ := hx.inside va hlo hva
      rw [upTo_ge hlo, upTo_ge hlo]
      exact ⟨pg, hp, hpool.usable pg hin, hf, hz _⟩
  · rw [hx.outside va (lt_of_user h2) (Or.inr h1), h.unmapped va (Nat.le_trans hle h1) h2]
  · rcases Nat.lt_or_ge va lo with hlo | hlo <;> rcases Nat.lt_or_ge va' lo with hlo' | hlo'
    · rw [hbelow va hlo] at he
      rw [hbelow va' hlo'] at he'
      exact h.inj va va' e e' hlo hlo' he he' hpa
    · exact absurd hpa (hapart va va' e e' hlo hlo' h2 he he')
    · exact absurd hpa.symm (hapart va' va e' e hlo' hlo h1 he' he)
    · exact hx.inj va va' e e' hlo h1 hlo' h2 he he' hpa

theorem allocuvm_space {oldsz newsz : Nat} (hs : Space k m d (PGROUNDUP oldsz) perm img)
    (hpool : Pool k m) (hle : oldsz ≤ newsz) (hsz : newsz < KERNBASE) :
    ∃ m' d' r, allocuvm k m d oldsz newsz = .ok (m', d', r) ∧
      (r = newsz ∧ m'.freelist <:+ m.freelist ∧
          (∀ va, KERNBASE ≤ va → va < 2 ^ 32 → d'.pte va = d.pte va) ∧
          Space k m' d' (PGROUNDUP newsz) (upTo (PGROUNDUP oldsz) perm ⟨true, true⟩)
            (upTo (PGROUNDUP oldsz) img 0) ∨
        r = 0 ∧ Undone m d m' d') := by
  obtain ⟨m', d', r, ha, hr⟩ := allocuvm_exact hpool hle hsz hs.unmapped
  have htop := PGROUNDUP_le (Nat.le_of_lt hsz)
  refine ⟨m', d', r, ha, hr.imp_left fun ⟨hr, hx⟩ => ⟨hr, hx.suffix, fun va h1 h2 => ?_,
    hs.extended hpool hx (PGROUNDUP_mono hle) htop⟩⟩
  exact hx.outside va h2 (Or.inr (Nat.le_trans htop h1))

/-- The pages that are given up are those of the addresses that are cut off. -/
theorem Space.freed {newsz oldsz : Nat} (h : Space k m d (PGROUNDUP oldsz) perm img)
    (hle : newsz ≤ oldsz)
    (hf : Freed (pagesTo oldsz (PGROUNDUP newsz)) m d m' d') :
    Space k m' d' (PGROUNDUP newsz) perm img := by
  have hup := PGROUNDUP_mono hle
  have hcut : ∀ va, PGROUNDDOWN va ∈ pagesTo oldsz (PGROUNDUP newsz) ↔
      PGROUNDUP newsz ≤ va ∧ va < PGROUNDUP oldsz := by
    intro va
    rw [down_mem_pagesTo (PGROUNDUP_mod newsz)]
    refine and_congr_right fun _ => ?_
    show va / 4096 * 4096 < oldsz ↔ va < (oldsz + 4096 - 1) / 4096 * 4096
    omega
  have hbelow : ∀ va, va < PGROUNDUP newsz → d'.pte va = d.pte va := by
    intro va hva
    rw [hf.pte va (lt_of_user (Nat.lt_of_lt_of_le hva (Nat.le_trans hup h.le))),
      if_neg fun hin => absurd ((hcut va).mp hin).1 (Nat.not_le.mpr hva)]
  -- what stays mapped is on none of these pages
  have hkept : ∀ va pg, va < PGROUNDUP newsz → d.pte va = some ⟨pg, perm va⟩ →
      pg ∉ present d (pagesTo oldsz (PGROUNDUP newsz)) := by
    intro va pg hva hp hin
    obtain ⟨x, hx, hmap⟩ := List.mem_filterMap.mp hin
    obtain ⟨e, he, rfl⟩ := Option.map_eq_some_iff.mp hmap
    have hal := (pagesTo_pages (PGROUNDUP_mod newsz) (Nat.le_trans (le_PGROUNDUP _) h.le)).aligned
      x hx
    obtain ⟨hx1, hx2⟩ := (hcut x).mp (by rwa [aligned_down hal])
    have hpage := h.inj va x _ _ (Nat.lt_of_lt_of_le hva hup) hx2 hp he rfl
    have hpage : va / 4096 = x / 4096 := hpage
    have hva : va < (newsz + 4096 - 1) / 4096 * 4096 := hva
    have hx1 : (newsz + 4096 - 1) / 4096 * 4096 ≤ x := hx1
    omega
  refine ⟨Nat.le_trans hup h.le, fun va hva => ?_, fun va h1 h2 => ?_,
    fun va va' e e' h1 h2 he he' => ?_⟩
  · obtain ⟨pg, hp, hu, hfree, hb⟩ := h.mapped va (Nat.lt_of_lt_of_le hva hup)
    have hpres := hkept va pg hva hp
    refine ⟨pg, by rw [hbelow va hva, hp], hu, fun hin => ?_, ?_⟩
    · rw [hf.freelist, List.mem_append, List.mem_reverse] at hin
      exact hin.elim hpres hfree
    · rw [hf.mem pg, if_neg hpres, hb]
  · rw [hf.pte va (lt_of_user h2)]
    split
    · rfl
    · next hout =>
        refine h.unmapped va (Nat.not_lt.mp fun hlt => hout ((hcut va).mpr ⟨h1, hlt⟩)) h2
  · rw [hbelow va h1] at he
    rw [hbelow va' h2] at he'
    exact h.inj va va' e e' (Nat.lt_of_lt_of_le h1 hup) (Nat.lt_of_lt_of_le h2 hup) he he'

theorem deallocuvm_space {oldsz newsz : Nat} (hs : Space k m d (PGROUNDUP oldsz) perm img)
    (hlt : newsz < oldsz) : ∃ m' d', deallocuvm k m d oldsz newsz = .ok (m', d', newsz) ∧
      Space k m' d' (PGROUNDUP newsz) perm img := by
  have hsz : oldsz ≤ KERNBASE := Nat.le_trans (le_PGROUNDUP _) hs.le
  have hpages := pagesTo_pages (PGROUNDUP_mod newsz) hsz
  obtain ⟨⟨m', d'⟩, hf⟩ := freePages_ok (k := k) (m := m) (d := d) hpages fun x hx e he => by
    obtain ⟨-, -, hx⟩ := mem_pagesTo.mp hx
    obtain ⟨pg, hp, hu, -⟩ := hs.mapped x (Nat.lt_of_lt_of_le hx (le_PGROUNDUP _))
    rw [hp] at he
    cases he
    exact hu
  exact ⟨m', d', by rw [deallocuvm_plain hlt hsz, hf]; rfl,
    hs.freed (Nat.le_of_lt hlt) (freePages_freed hpages hf)⟩

/-! ## `growproc` -/

theorem growproc_result (s : Machine) (p : Slot) (n : Int) :
    growproc k s p n = (growprocResult k s p n).map (·.2) := by
  rw [growproc, growprocResult]
  split
  · cases allocuvm k s.phys (s.proc p).pgdir (s.proc p).sz
        (((s.proc p).sz + n) % 2 ^ 32).toNat with
    | error e => rfl
    | ok x =>
        simp only [ok_bind]
        split <;> rfl
  · split
    · cases deallocuvm k s.phys (s.proc p).pgdir (s.proc p).sz
          (((s.proc p).sz + n) % 2 ^ 32).toNat with
      | error e => rfl
      | ok x =>
          simp only [ok_bind]
          split <;> rfl
    · rfl

theorem setProc_self (s : Machine) (p : Slot) (g : Mproc → Mproc) :
    (s.setProc p g).proc p = g (s.proc p) := if_pos rfl

/-- What is left of the picture after a change by `n`. -/
structure Resized (k : Kernel) (perm : Nat → Perm) (img : Nat → UInt8) (n : Int) (s s' : Machine)
    (p : Slot) : Prop where
  sz : ((s'.proc p).sz : Int) = (s.proc p).sz + n
  space : Space k s'.phys (s'.proc p).pgdir (PGROUNDUP (s'.proc p).sz)
    (upTo (PGROUNDUP (s.proc p).sz) perm ⟨true, true⟩) (upTo (PGROUNDUP (s.proc p).sz) img 0)

/-- Nothing the process can see has changed. -/
structure Unsized (k : Kernel) (perm : Nat → Perm) (img : Nat → UInt8) (s s' : Machine)
    (p : Slot) : Prop where
  sz : (s'.proc p).sz = (s.proc p).sz
  pte : ∀ va, va < KERNBASE → (s'.proc p).pgdir.pte va = (s.proc p).pgdir.pte va
  space : Space k s'.phys (s'.proc p).pgdir (PGROUNDUP (s'.proc p).sz) perm img

theorem Undone.refl (m : Phys) (d : Pgdir) : Undone m d m d :=
  ⟨fun _ _ => rfl, fun _ _ => rfl, fun _ h => h, rfl⟩

theorem unsized_of_undone {s : Machine} {p : Slot}
    (hs : Space k s.phys (s.proc p).pgdir (PGROUNDUP (s.proc p).sz) perm img)
    (hu : Undone s.phys (s.proc p).pgdir m' d') : Unsized k perm img s
      { s.setProc p fun r => { r with pgdir := d' } with phys := m' } p := by
  refine ⟨?_, fun va hva => ?_, ?_⟩
  · rw [setProc_self]
  · rw [setProc_self]
    exact hu.pte va (lt_of_user hva)
  · rw [setProc_self]
    exact hs.undone hu

/-- The picture of a smaller space says nothing about what would be added to a larger one. -/
theorem Space.upTo {lo : Nat} (h : Space k m d top perm img) (hle : top ≤ lo) (c : Perm)
    (b : UInt8) : Space k m d top (Vm.upTo lo perm c) (Vm.upTo lo img b) := by
  refine ⟨h.le, fun va hva => ?_, h.unmapped, h.inj⟩
  rw [upTo_lt (Nat.lt_of_lt_of_le hva hle), upTo_lt (Nat.lt_of_lt_of_le hva hle)]
  exact h.mapped va hva

/-- A directory with one user page, at address 0. -/
def onePage : Pgdir :=
  ⟨0x401000, fun i => if i.val = 0 then
      some ⟨0x402000, fun j => if j.val = 0 then some ⟨0x400000, ⟨true, true⟩⟩ else none⟩
    else none⟩

theorem onePage_pte (h : va < KERNBASE) :
    onePage.pte va = if va < PGSIZE then some ⟨0x400000, ⟨true, true⟩⟩ else none := by
  have h : va < 0x80000000 := h
  change onePage.pte va = if va < 4096 then _ else _
  rw [Pgdir.pte]
  split
  · next hn =>
      change (if va / 2 ^ 22 % 1024 = 0 then _ else _) = _ at hn
      split at hn
      · cases hn
      · rw [if_neg (by omega)]
  · next t hn =>
      change (if va / 2 ^ 22 % 1024 = 0 then _ else _) = _ at hn
      split at hn
      · next hd =>
          cases hn
          show (if va / 2 ^ 12 % 1024 = 0 then _ else _) = _
          split
          · rw [if_pos (by omega)]
          · rw [if_neg (by omega)]
      · cases hn

/-- The first process of a small kernel, with one page of memory and one page free. -/
def tinyMachine : Machine :=
  Machine.booted ⟨[0x403000], fun _ _ => 7⟩ (Pgdir.empty 0) [] 0x404000 onePage

theorem tinyMachine_space : Space tinyKernel tinyMachine.phys (tinyMachine.proc initproc).pgdir
    (PGROUNDUP (tinyMachine.proc initproc).sz) (fun _ => ⟨true, true⟩) (fun _ => 7) := by
  show Space tinyKernel ⟨[0x403000], fun _ _ => 7⟩ onePage 4096 _ _
  refine ⟨by decide, fun va hva => ?_, fun va h1 h2 => ?_, fun va va' e e' h1 h2 _ _ _ => ?_⟩
  · refine ⟨0x400000, ?_, ⟨by decide, by decide, by decide⟩, by decide, rfl⟩
    rw [onePage_pte (Nat.lt_trans hva (by decide)), if_pos hva]
  · rw [onePage_pte h2, if_neg (Nat.not_lt.mpr h1)]
  · rw [Nat.div_eq_of_lt h1, Nat.div_eq_of_lt h2]

end Xv6.Ref.Vm
