import Xv6.Proofs.Built
import Xv6.Ref.Fork

/-!
# `fork` copies the address space or leaves no trace

`copyuvm` goes over the parent's pages in order, and what it has built so far is the
child's picture below the page it has come to: the same bytes with the same permissions.
When a page is missing, everything that was taken is given back.
-/

namespace Xv6.Ref.Vm

open Xv6.Lib

variable {k : Kernel} {m m' m₀ : Phys} {d d' new : Pgdir} {a pg top va : Nat}
  {perm : Nat → Perm} {img : Nat → UInt8}

/-! ## `copyuvm` -/

/-- A page was taken and could not be mapped. -/
theorem Built.untaken {m₁ : Phys} {b : Nat → UInt8} (h : Built k perm img m₀ a m new)
    (hpool : Pool k m₀) (hk : kalloc m = some (pg, m₁)) :
    ∃ m₂ m', kfree k (m₁.setPage pg b) pg = .ok m₂ ∧ freevm k m₂ new = .ok m' ∧
      Returned m₀ m' := by
  obtain ⟨hcons, hmem₁⟩ := kalloc_cons hk
  have hpg : pg ∈ m₀.freelist := h.suffix.subset (hcons ▸ List.mem_cons_self)
  have hf := kfree_ok (m := m₁.setPage pg b) (hpool.usable pg hpg)
  obtain ⟨m', hv, hr⟩ := freevm_returned (k := k) (d := new) hpool
    (by rw [kfree_free hf, free_setPage, ← kalloc_free hk, h.pages]) fun q hq => by
      have hne : q ≠ pg := by
        rintro rfl
        exact hq hpg
      show (if q = pg then _ else if q = pg then _ else m₁.mem q) = _
      rw [if_neg hne, if_neg hne, hmem₁, h.mem q hq]
  exact ⟨_, m', hf, hv, hr⟩

theorem copyuvmLoop_exact {sz : Nat} (hpool : Pool k m₀)
    (hd : Space k m₀ d (PGROUNDUP sz) perm img) (n : Nat) :
    ∀ {m : Phys} {new : Pgdir} {a : Nat}, Built k perm img m₀ a m new → a % PGSIZE = 0 →
      a ≤ PGROUNDUP sz → sz ≤ a + n * PGSIZE →
      ∃ r m', copyuvmLoop k d sz n m new a = .ok (r, m') ∧
        ((∃ d', r = some d' ∧ Built k perm img m₀ (PGROUNDUP sz) m' d') ∨
          r = none ∧ Returned m₀ m') := by
  -- at the end of the loop the last page begins below `sz`
  have hdone : ∀ {a : Nat}, a % PGSIZE = 0 → a ≤ PGROUNDUP sz → sz ≤ a → a = PGROUNDUP sz := by
    intro a hal hle hge
    have hal : a % 4096 = 0 := hal
    have hle : a ≤ (sz + 4096 - 1) / 4096 * 4096 := hle
    show a = (sz + 4096 - 1) / 4096 * 4096
    omega
  induction n with
  | zero =>
      intro m new a h hal hle hge
      rw [Nat.zero_mul, Nat.add_zero] at hge
      obtain rfl := hdone hal hle hge
      exact ⟨some new, m, rfl, Or.inl ⟨new, rfl, h⟩⟩
  | succ n ih =>
      intro m new a h hal hle hfuel
      rw [copyuvmLoop]
      split
      · next hlt =>
          have hal' : a % 4096 = 0 := hal
          have htop : a < PGROUNDUP sz := Nat.lt_of_lt_of_le hlt (le_PGROUNDUP sz)
          have ha : a < KERNBASE := Nat.lt_of_lt_of_le htop hd.le
          have hin : ∀ va, va < a + PGSIZE → va < PGROUNDUP sz := by
            intro va hva
            have hva : va < a + 4096 := hva
            show va < (sz + 4096 - 1) / 4096 * 4096
            omega
          obtain ⟨pa, hpa, -, hused, -⟩ := hd.mapped a htop
          have hsame : ∀ va, a ≤ va → va < a + PGSIZE →
              perm va = perm a ∧ img va = m.mem pa (va % PGSIZE) := by
            intro va h1 h2
            obtain ⟨pg', hpg', -, -, hb⟩ := hd.mapped va (hin va h2)
            have hdown : PGROUNDDOWN va = a := by
              have h2 : va < a + 4096 := h2
              show va / 4096 * 4096 = a
              omega
            rw [← pte_down d va, hdown, hpa] at hpg'
            obtain ⟨he, hp⟩ := Pte.mk.inj (Option.some.inj hpg')
            rw [← he] at hb
            exact ⟨hp.symm, by rw [h.mem pa hused, hb]⟩
          have hwalk : walkpgdir m d a false = some (m, d) := by
            obtain ⟨t, ht⟩ := Option.ne_none_iff_exists'.mp (tab_of_pte hpa)
            simp only [walkpgdir, ht]
          simp only [hwalk, hpa]
          cases hk : kalloc m with
          | none =>
              obtain ⟨m', hf, hr⟩ := freevm_returned hpool h.pages h.mem
              exact ⟨none, m', by simp only [hf, ok_bind], Or.inr ⟨rfl, hr⟩⟩
          | some x =>
              obtain ⟨pg, m₁⟩ := x
              obtain ⟨⟨m₂, new₂, b⟩, hm⟩ : ∃ r, mappages (m₁.setPage pg (m₁.mem pa)) new a PGSIZE pg
                  (perm a) = .ok r := by
                have ha' : a < 0x80000000 := ha
                refine mappages_ok (by decide) (by show a + 4096 ≤ 2 ^ 32; omega) fun x h1 h2 => ?_
                rw [aligned_down hal] at h1
                have h2 : x < (a + 4096 - 1) / 4096 * 4096 + 4096 := h2
                refine h.space.unmapped x h1 ?_
                show x < 0x80000000
                omega
              simp only [hm, ok_bind]
              cases b with
              | true =>
                  refine ih (h.page hpool hal ha hk hm (fun va h1 h2 => (hsame va h1 h2).1)
                    fun va h1 h2 => ?_) ?_ ?_ ?_
                  · rw [(hsame va h1 h2).2, (kalloc_cons hk).2]
                  · rw [Nat.add_mod_right]
                    exact hal
                  · show a + 4096 ≤ (sz + 4096 - 1) / 4096 * 4096
                    omega
                  · have hfuel : sz ≤ a + (n + 1) * 4096 := hfuel
                    show sz ≤ a + 4096 + n * 4096
                    omega
              | false =>
                  obtain ⟨rfl, rfl⟩ := mappages_fails hal ha hm
                  obtain ⟨m₃, m', hf₁, hf₂, hr⟩ := h.untaken (b := m₁.mem pa) hpool hk
                  exact ⟨none, m', by simp [hf₁, hf₂], Or.inr ⟨rfl, hr⟩⟩
      · next hge =>
          obtain rfl := hdone hal hle (Nat.not_lt.mp hge)
          exact ⟨some new, m, rfl, Or.inl ⟨new, rfl, h⟩⟩

theorem copyuvm_exact {sz : Nat} (hpool : Pool k m) (hd : Space k m d (PGROUNDUP sz) perm img) :
    ∃ r m', copyuvm k m d sz = .ok (r, m') ∧
      ((∃ d', r = some d' ∧ Built k perm img m (PGROUNDUP sz) m' d') ∨
        r = none ∧ Returned m m') := by
  obtain ⟨⟨r, m₁⟩, hs⟩ := setupkvm_total hpool.usable
  rw [copyuvm, hs, ok_bind]
  cases r with
  | none => exact ⟨none, m₁, rfl, Or.inr ⟨rfl, setupkvm_none hs⟩⟩
  | some new =>
      refine copyuvmLoop_exact hpool hd (sz / PGSIZE + 1) (setupkvm_built hs) rfl (Nat.zero_le _) ?_
      show sz ≤ 0 + (sz / 4096 + 1) * 4096
      omega

/-! ## `fork` -/

theorem setState_setState (fs : Ftable.Files) (p : Slot) (x y : Procstate) :
    (fs.setState p x).setState p y = fs.setState p y := by
  simp only [Ftable.Files.setState]
  congr 1
  funext q
  split <;> rfl

theorem setState_self {fs : Ftable.Files} {p : Slot} {x : Procstate} (h : fs.state p = x) :
    fs.setState p x = fs := by
  simp only [Ftable.Files.setState]
  congr 1
  funext q
  split
  · next hq => rw [hq, h]
  · rfl

/-- The states of processes are no concern of the loop over the descriptors. -/
theorem forkLoop_setState (fs : Ftable.Files) (p np q : Slot) (x : Procstate)
    (fds : List Ftable.Fd) : Ftable.forkLoop (fs.setState q x) p np fds =
      (Ftable.forkLoop fs p np fds).map fun fs => fs.setState q x := by
  induction fds generalizing fs with
  | nil => rfl
  | cons fd fds ih =>
      simp only [Ftable.forkLoop, Ftable.filedup]
      rw [show (fs.setState q x).ofile = fs.ofile from rfl,
        show (fs.setState q x).file = fs.file from rfl]
      cases fs.ofile p fd with
      | none => exact ih fs
      | some f =>
          by_cases hr : (fs.file f).ref < 1
          · simp only [if_pos hr, Option.map_none]
          · simp only [if_neg hr]
            exact ih ((fs.setFile f fun g => { g with ref := g.ref + 1 }).setOfile np fd (some f))

theorem forkLoop_ok {fs : Ftable.Files} {p np : Slot} (hne : np ≠ p) {fds : List Ftable.Fd}
    (h : ∀ fd f, fs.ofile p fd = some f → 1 ≤ (fs.file f).ref) :
    ∃ fs', Ftable.forkLoop fs p np fds = some fs' := by
  induction fds generalizing fs with
  | nil => exact ⟨fs, rfl⟩
  | cons fd fds ih =>
      rw [Ftable.forkLoop]
      cases ho : fs.ofile p fd with
      | none => exact ih h
      | some f =>
          have hf := h fd f ho
          simp only [Ftable.filedup, if_neg (Nat.not_lt.mpr hf)]
          refine ih fun fd' f' ho' => ?_
          simp only [Ftable.Files.setOfile, Ftable.Files.setFile, hne.symm, false_and,
            if_false] at ho' ⊢
          split
          · next he => exact Nat.le_add_left _ _
          · exact h fd' f' ho'

/-- `fork` of the page model is this one with the rest left out. -/
theorem fork_result {s : Procs} {p : Slot} (hp : s.mach.files.state p ≠ .UNUSED) :
    fork k s.mach p = (forkResult k s p).map (·.2.mach) := by
  rw [fork, forkResult, allocproc]
  cases hnp : slots.find? fun i => s.mach.files.state i = .UNUSED with
  | none => rfl
  | some np =>
      have hun : s.mach.files.state np = .UNUSED := by simpa using List.find?_some hnp
      have hne : p ≠ np := by
        rintro rfl
        exact hp hun
      dsimp only [Procs.setState]
      cases hk : kalloc s.mach.phys with
      | none =>
          simp only [Procs.setProc, Except.map, Machine.setProc, setState_setState,
            setState_self hun]
      | some x =>
          obtain ⟨kstack, m₁⟩ := x
          simp only [Procs.setProc, Procs.setPhys, Machine.setProc, if_neg hne]
          cases copyuvm k m₁ (s.mach.proc p).pgdir (s.mach.proc p).sz with
          | error e => rfl
          | ok y =>
              obtain ⟨r, m₂⟩ := y
              simp only [ok_bind]
              cases r with
              | none =>
                  simp only [if_true]
                  cases kfree k m₂ kstack with
                  | error e => rfl
                  | ok m₃ =>
                      simp only [ok_bind, Except.map, setState_setState, setState_self hun]
                      congr 2
                      funext q
                      split <;> simp_all
              | some d =>
                  simp only [forkLoop_setState]
                  cases Ftable.forkLoop s.mach.files p np (List.finRange NOFILE) with
                  | none => rfl
                  | some files =>
                      simp only [Option.map_some, Except.map, setState_setState, idup]
                      congr 2
                      funext q
                      split <;> simp_all

structure Forked (k : Kernel) (perm : Nat → Perm) (img : Nat → UInt8) (s s' : Procs)
    (p np : Slot) : Prop where
  unused : s.mach.files.state np = .UNUSED
  runnable : s'.mach.files.state np = .RUNNABLE
  sz : (s'.mach.proc np).sz = (s.mach.proc p).sz
  space : Space k s'.mach.phys (s'.mach.proc np).pgdir (PGROUNDUP (s'.mach.proc np).sz) perm img
  fresh : ∀ va e, va < PGROUNDUP (s'.mach.proc np).sz →
    (s'.mach.proc np).pgdir.pte va = some e → e.pa ∈ s.mach.phys.freelist
  taken : s'.mach.phys.free + {(s'.mach.proc np).kstack} + (s'.mach.proc np).pgdir.pages =
    s.mach.phys.free
  kernel : ∀ va, KERNBASE ≤ va → va < 2 ^ 32 →
    (s'.mach.proc np).pgdir.pte va = (s.mach.proc p).pgdir.pte va
  others : ∀ q, q ≠ np → s'.mach.proc q = s.mach.proc q
  bytes : ∀ pg, pg ∉ s.mach.phys.freelist → s'.mach.phys.mem pg = s.mach.phys.mem pg

structure Unforked (s s' : Procs) : Prop where
  free : s'.mach.phys.freelist.Perm s.mach.phys.freelist
  /-- The slot is `UNUSED` as before, and the files have the references they had. -/
  files : s'.mach.files = s.mach.files
  iref : s'.iref = s.iref
  procs : ∀ q, s.mach.files.state q ≠ .UNUSED → s'.mach.proc q = s.mach.proc q
  bytes : ∀ pg, pg ∉ s.mach.phys.freelist → s'.mach.phys.mem pg = s.mach.phys.mem pg

/-- A directory with the kernel's part filled in. -/
def kernelDir (k : Kernel) (d : Pgdir) : Pgdir :=
  ⟨d.page, fun i => if i.val < 512 then d.tab i
    else some ⟨0x402000, fun j => kernelPte k (PGADDR i.val j.val 0)⟩⟩

theorem kernelPte_down (k : Kernel) (va : Nat) : kernelPte k (PGROUNDDOWN va) = kernelPte k va := by
  have hal : k.data % 4096 = 0 := k.aligned
  have hram : (KERNBASE ≤ PGROUNDDOWN va ∧ PGROUNDDOWN va < P2V PHYSTOP) ↔
      (KERNBASE ≤ va ∧ va < P2V PHYSTOP) := by
    show (0x80000000 ≤ va / 4096 * 4096 ∧ va / 4096 * 4096 < 0x8E000000) ↔ _
    show _ ↔ (0x80000000 ≤ va ∧ va < 0x8E000000)
    omega
  have htext : (KERNLINK ≤ PGROUNDDOWN va ∧ PGROUNDDOWN va < k.data) ↔
      (KERNLINK ≤ va ∧ va < k.data) := by
    show (0x80100000 ≤ va / 4096 * 4096 ∧ va / 4096 * 4096 < k.data) ↔ _
    show _ ↔ (0x80100000 ≤ va ∧ va < k.data)
    omega
  have hdev : DEVSPACE ≤ PGROUNDDOWN va ↔ DEVSPACE ≤ va := by
    show 0xFE000000 ≤ va / 4096 * 4096 ↔ 0xFE000000 ≤ va
    omega
  simp only [kernelPte, hram, htext, hdev, aligned_down (PGROUNDDOWN_mod va)]

theorem kernelDir_kernel (h1 : KERNBASE ≤ va) (h2 : va < 2 ^ 32) :
    (kernelDir k d).pte va = kernelPte k va := by
  have hhalf : ¬ (PDX va).val < 512 := fun hc => absurd ((PDX_lt_iff h2).mp hc) (Nat.not_lt.mpr h1)
  have haddr : PGADDR (PDX va).val (PTX va).val 0 = PGROUNDDOWN va := by
    show va / 2 ^ 22 % 1024 * 2 ^ 22 + va / 2 ^ 12 % 1024 * 2 ^ 12 + 0 = va / 4096 * 4096
    omega
  simp only [Pgdir.pte, kernelDir, if_neg hhalf, haddr, kernelPte_down]

theorem kernelDir_user (h : va < KERNBASE) : (kernelDir k d).pte va = d.pte va := by
  have hhalf : (PDX va).val < 512 := (PDX_lt_iff (lt_of_user h)).mpr h
  simp only [Pgdir.pte, kernelDir, if_pos hhalf]

/-- The first process of a small kernel, with `n` pages left. -/
def tinyProcs (n : Nat) : Procs where
  mach := Machine.booted (tinyPhys n) (Pgdir.empty 0) [] 0x404000 (kernelDir tinyKernel onePage)
  pid := fun _ => 1
  nextpid := 2
  cwd := fun _ => 0
  iref := fun _ => 1
  eax := fun _ => 0

theorem tinyProcs_space (n : Nat) :
    Space tinyKernel (tinyProcs n).mach.phys (kernelDir tinyKernel onePage) (PGROUNDUP PGSIZE)
      (fun _ => ⟨true, true⟩) (fun _ => 7) := by
  show Space tinyKernel (tinyProcs n).mach.phys (kernelDir tinyKernel onePage) 4096 _ _
  refine ⟨by decide, fun va hva => ?_, fun va h1 h2 => ?_, fun va va' e e' h1 h2 _ _ _ => ?_⟩
  · refine ⟨0x400000, ?_, ⟨by decide, by decide, by decide⟩, fun hin => ?_, rfl⟩
    · have hva' := Nat.lt_trans hva (show 4096 < KERNBASE by decide)
      rw [kernelDir_user hva', onePage_pte hva', if_pos hva]
    · obtain ⟨i, -, he⟩ := List.mem_map.mp hin
      have he : 0x500000 + i * 4096 = 0x400000 := he
      omega
  · rw [kernelDir_user h2, onePage_pte h2, if_neg (Nat.not_lt.mpr h1)]
  · rw [Nat.div_eq_of_lt h1, Nat.div_eq_of_lt h2]

end Xv6.Ref.Vm
