import Xv6.Proofs.ExecImage

/-!
# Where `exec` copies its arguments to

`exec` again, with a record of the memory that `copyout` writes: the size of the image at
the time, the virtual address and the number of bytes. The copies stay below that size for
every file and every list of arguments, since a pointer that has wrapped round finds only
entries of the kernel. It may also find no page table at all, and then `uva2ka` reads
through a null pointer: between the end of physical memory and the devices the kernel maps
nothing.
-/

namespace Xv6.Ref.Vm

open Xv6.Lib

variable {k : Kernel} {m m' m₀ : Phys} {d d' : Pgdir} {a pg top va : Nat}
  {perm : Nat → Perm} {img : Nat → UInt8}

/-! ## The writes -/

/-- `copyoutLoop` with the ranges it writes. -/
def copyoutTraced (d : Pgdir) :
    Nat → Phys → Nat → List UInt8 → List (Nat × Nat) × Except Stop (Phys × Bool)
  | 0, m, _, _ => ([], .ok (m, true))
  | fuel + 1, m, va, buf =>
      if buf.length > 0 then
        let va0 := PGROUNDDOWN va
        match uva2ka d va0 with
        | .error e => ([], .error e)
        | .ok none => ([], .ok (m, false))
        | .ok (some pa0) =>
            let n := min (PGSIZE - (va - va0)) buf.length
            let r := copyoutTraced d fuel (m.write pa0 (va - va0) (buf.take n))
              ((va0 + PGSIZE) % 2 ^ 32) (buf.drop n)
            ((va, n) :: r.1, r.2)
      else ([], .ok (m, true))

/-- `pushArgs` with the ranges it writes. -/
def pushArgsTraced (d : Pgdir) :
    List (List UInt8) → Nat → Phys → Nat → List Nat →
      List (Nat × Nat) × Except Stop (Phys × Option (Nat × List Nat))
  | [], _, m, sp, at_ => ([], .ok (m, some (sp, at_)))
  | s :: argv, argc, m, sp, at_ =>
      if argc ≥ MAXARG then ([], .ok (m, none))
      else
        let sp := subWrap sp (s.length + 1) / 4 * 4
        match copyoutTraced d (s ++ [0]).length m sp (s ++ [0]) with
        | (ws, .error e) => (ws, .error e)
        | (ws, .ok (m, false)) => (ws, .ok (m, none))
        | (ws, .ok (m, true)) =>
            let r := pushArgsTraced d argv (argc + 1) m sp (at_ ++ [sp])
            (ws ++ r.1, r.2)

/-- `pushStack` with the ranges it writes and the size of the image. -/
def pushStackTraced (k : Kernel) (path : List UInt8) (argv : List (List UInt8)) (entry : Nat)
    (m : Phys) (d : Pgdir) (sz : Nat) :
    List (Nat × Nat × Nat) × Except Stop (Phys × Pgdir × Option Image) :=
  let sz := PGROUNDUP sz
  match allocuvm k m d sz (sz + 2 * PGSIZE) with
  | .error e => ([], .error e)
  | .ok (m, d, sz) =>
      if sz = 0 then ([], .ok (m, d, none))
      else
        match clearpteu d (sz - 2 * PGSIZE) with
        | .error e => ([], .error e)
        | .ok d =>
            match pushArgsTraced d argv 0 m sz [] with
            | (ws, .error e) => (ws.map (sz, ·), .error e)
            | (ws, .ok (m, none)) => (ws.map (sz, ·), .ok (m, d, none))
            | (ws, .ok (m, some (sp, at_))) =>
                let argc := at_.length
                let ustack := [0xffffffff, argc, subWrap sp ((argc + 1) * 4)] ++ at_ ++ [0]
                let sp := subWrap sp ((3 + argc + 1) * 4)
                let bs := ustack.flatMap wordBytes
                match copyoutTraced d bs.length m sp bs with
                | (ws', .error e) => ((ws ++ ws').map (sz, ·), .error e)
                | (ws', .ok (m, false)) => ((ws ++ ws').map (sz, ·), .ok (m, d, none))
                | (ws', .ok (m, true)) => ((ws ++ ws').map (sz, ·),
                    .ok (m, d, some ⟨d, sz, entry, sp, (lastName path).take 15⟩))

/-- `exec` with the ranges it writes. -/
def execTraced (k : Kernel) (m : Phys) (ip : Option Reader) (path : List UInt8)
    (argv : List (List UInt8)) :
    List (Nat × Nat × Nat) × Except Stop (Option Image × Phys) :=
  match ip with
  | none => ([], .ok (none, m))
  | some rd =>
      match readAll rd 0 elfhdrSize with
      | none => ([], .ok (none, m))
      | some bs =>
          let elf := Elfhdr.ofBytes bs
          if elf.magic ≠ ELF_MAGIC then ([], .ok (none, m))
          else
            match setupkvm k m with
            | .error e => ([], .error e)
            | .ok (none, m) => ([], .ok (none, m))
            | .ok (some d, m) =>
                match loadSegments k rd elf.phnum elf.phoff m d 0 with
                | .error e => ([], .error e)
                | .ok (m, d, none) => ([], execBad k m d)
                | .ok (m, d, some sz) =>
                    match pushStackTraced k path argv elf.entry m d sz with
                    | (ws, .error e) => (ws, .error e)
                    | (ws, .ok (m, d, none)) => (ws, execBad k m d)
                    | (ws, .ok (m, _, some image)) => (ws, .ok (some image, m))

theorem copyoutTraced_run (n : Nat) : ∀ (m : Phys) (va : Nat) (buf : List UInt8),
    (copyoutTraced d n m va buf).2 = copyoutLoop d n m va buf := by
  induction n with
  | zero => exact fun _ _ _ => rfl
  | succ n ih =>
      intro m va buf
      rw [copyoutTraced, copyoutLoop]
      split
      · dsimp only
        cases uva2ka d (PGROUNDDOWN va) with
        | error e => rfl
        | ok r =>
            cases r with
            | none => rfl
            | some pa => exact ih _ _ _
      · rfl

theorem pushArgsTraced_run (argv : List (List UInt8)) :
    ∀ (argc : Nat) (m : Phys) (sp : Nat) (ps : List Nat),
      (pushArgsTraced d argv argc m sp ps).2 = pushArgs d argv argc m sp ps := by
  induction argv with
  | nil => exact fun _ _ _ _ => rfl
  | cons s argv ih =>
      intro argc m sp ps
      rw [pushArgsTraced, pushArgs]
      split
      · rfl
      · dsimp only
        rw [copyout, ← copyoutTraced_run]
        generalize copyoutTraced d (s ++ [0]).length m (subWrap sp (s.length + 1) / 4 * 4)
          (s ++ [0]) = x
        obtain ⟨ws, e | ⟨m₁, _ | _⟩⟩ := x
        · rfl
        · rfl
        · exact ih _ _ _ _

theorem pushStackTraced_run (path : List UInt8) (argv : List (List UInt8)) (entry : Nat) (m : Phys)
    (d : Pgdir) (sz : Nat) :
    (pushStackTraced k path argv entry m d sz).2 = pushStack k path argv entry m d sz := by
  unfold pushStackTraced pushStack
  dsimp only
  generalize allocuvm k m d (PGROUNDUP sz) (PGROUNDUP sz + 2 * PGSIZE) = x
  obtain e | ⟨m₁, d₁, sz₁⟩ := x
  · rfl
  simp only [ok_bind]
  split
  · rfl
  generalize clearpteu d₁ (sz₁ - 2 * PGSIZE) = x
  obtain e | d₂ := x
  · rfl
  simp only [ok_bind]
  rw [← pushArgsTraced_run]
  generalize pushArgsTraced d₂ argv 0 m₁ sz₁ [] = x
  obtain ⟨ws, e | ⟨m₂, _ | ⟨sp, ps⟩⟩⟩ := x
  · rfl
  · rfl
  dsimp only
  simp only [ok_bind]
  generalize ([0xffffffff, ps.length, subWrap sp ((ps.length + 1) * 4)] ++ ps ++ [0]).flatMap
    wordBytes = bs
  generalize subWrap sp ((3 + ps.length + 1) * 4) = esp
  rw [copyout, ← copyoutTraced_run]
  generalize copyoutTraced d₂ bs.length m₂ esp bs = x
  obtain ⟨ws', e | ⟨m₃, _ | _⟩⟩ := x
  · rfl
  · rfl
  · rfl

/-- Leaving the record out gives `exec`. -/
theorem execTraced_run (m : Phys) (ip : Option Reader) (path : List UInt8)
    (argv : List (List UInt8)) :
    (execTraced k m ip path argv).2 = exec k m ip path argv := by
  unfold execTraced Vm.exec
  cases ip with
  | none => rfl
  | some rd =>
      dsimp only
      cases readAll rd 0 elfhdrSize with
      | none => rfl
      | some bs =>
          dsimp only
          split
          · rfl
          generalize setupkvm k m = x
          obtain e | ⟨_ | d, m₁⟩ := x
          · rfl
          · rfl
          simp only [ok_bind]
          generalize loadSegments k rd _ _ m₁ d 0 = x
          obtain e | ⟨m₂, d₂, _ | sz⟩ := x
          · rfl
          · rfl
          simp only [ok_bind]
          rw [← pushStackTraced_run]
          generalize pushStackTraced k path argv _ m₂ d₂ sz = x
          obtain ⟨ws, e | ⟨m₃, d₃, _ | image⟩⟩ := x
          · rfl
          · rfl
          · rfl

/-! ## They stay below the size of the image -/

theorem copyoutTraced_le (n : Nat) : ∀ {m : Phys} {va : Nat} {buf : List UInt8},
    va + buf.length ≤ KERNBASE → ∀ w ∈ (copyoutTraced d n m va buf).1,
      w.1 + w.2 ≤ va + buf.length := by
  induction n with
  | zero => exact fun _ w hw => absurd hw List.not_mem_nil
  | succ n ih =>
      intro m va buf hle w hw
      have hle' : va + buf.length ≤ 0x80000000 := hle
      rw [copyoutTraced] at hw
      split at hw
      · next hpos =>
          dsimp only at hw
          have hnext : (PGROUNDDOWN va + PGSIZE) % 2 ^ 32 = PGROUNDDOWN va + PGSIZE := by
            show (va / 4096 * 4096 + 4096) % 2 ^ 32 = va / 4096 * 4096 + 4096
            omega
          have hoff : PGSIZE - (va - PGROUNDDOWN va) = PGROUNDDOWN va + PGSIZE - va := by
            show 4096 - (va - va / 4096 * 4096) = va / 4096 * 4096 + 4096 - va
            omega
          have hpage : va < PGROUNDDOWN va + PGSIZE := by
            show va < va / 4096 * 4096 + 4096
            omega
          split at hw
          · cases hw
          · cases hw
          · rw [hnext, hoff] at hw
            generalize PGROUNDDOWN va + PGSIZE = next at hpage hw
            rcases List.mem_cons.mp hw with rfl | hw
            · show va + min (next - va) buf.length ≤ va + buf.length
              omega
            · rcases Nat.lt_or_ge (next - va) buf.length with hmore | hdone
              · have hdrop : next + (buf.drop (min (next - va) buf.length)).length =
                    va + buf.length := by
                  rw [List.length_drop]
                  omega
                rw [← hdrop]
                exact ih (hdrop ▸ hle) w hw
              · rw [List.drop_of_length_le (by omega)] at hw
                cases n with
                | zero => cases hw
                | succ n =>
                    rw [copyoutTraced, if_neg (by simp)] at hw
                    cases hw
      · cases hw

/-- An address of the kernel is not the user's. -/
theorem uva2ka_kernel (h : Built k perm img m₀ top m d) (hlo : KERNBASE ≤ va) (hhi : va < 2 ^ 32) :
    uva2ka d va = .error .nullPte ∨ uva2ka d va = .ok none := by
  rw [uva2ka]
  split
  · exact Or.inl rfl
  · refine Or.inr ?_
    rw [h.kernel va hlo hhi]
    cases he : kernelPte k va with
    | none => rfl
    | some e => exact if_pos (kernelPte_perm he)

theorem copyoutTraced_kernel {n : Nat} {buf : List UInt8} (h : Built k perm img m₀ top m d)
    (hlo : KERNBASE ≤ va) (hhi : va < 2 ^ 32) (hbuf : buf ≠ []) (hn : n ≠ 0) :
    (copyoutTraced d n m va buf).1 = [] ∧
      ∀ m', (copyoutTraced d n m va buf).2 ≠ .ok (m', true) := by
  obtain ⟨n, rfl⟩ := Nat.exists_eq_succ_of_ne_zero hn
  have hlo' : 0x80000000 ≤ va := hlo
  have hdown : KERNBASE ≤ PGROUNDDOWN va := by
    show 0x80000000 ≤ va / 4096 * 4096
    omega
  rw [copyoutTraced, if_pos (List.length_pos_iff.mpr hbuf)]
  dsimp only
  rcases uva2ka_kernel h hdown (Nat.lt_of_le_of_lt (PGROUNDDOWN_le va) hhi) with hu | hu
  · rw [hu]
    exact ⟨rfl, nofun⟩
  · rw [hu]
    exact ⟨rfl, nofun⟩

theorem subWrap_wraps {sp n : Nat} (hn : sp < n) (hle : n ≤ KERNBASE) :
    subWrap sp n = 2 ^ 32 + sp - n := by
  have hle : n ≤ 0x80000000 := hle
  show (sp + 2 ^ 32 - n % 2 ^ 32) % 2 ^ 32 = 2 ^ 32 + sp - n
  omega

/-- A copy to below the stack pointer, where `dst` may be rounded down: it stays below the
pointer or does not succeed. -/
theorem copyoutTraced_pushed {sp dst : Nat} {buf : List UInt8} (htop : top % PGSIZE = 0)
    (h : Built k perm img m₀ top m d) (hsp : sp ≤ top) (hlen : buf.length ≤ KERNBASE)
    (hbuf : buf ≠ [])
    (hdst : dst = subWrap sp buf.length ∨ dst = subWrap sp buf.length / 4 * 4) :
    (∀ w ∈ (copyoutTraced d buf.length m dst buf).1, w.1 + w.2 ≤ top) ∧
      ∀ m', (copyoutTraced d buf.length m dst buf).2 = .ok (m', true) →
        dst ≤ sp ∧ ∃ img', Built k perm img' m₀ top m' d := by
  have hk : top ≤ 0x80000000 := h.space.le
  have hlen' : buf.length ≤ 0x80000000 := hlen
  rcases Nat.lt_or_ge sp buf.length with hwrap | hfit
  · rw [subWrap_wraps hwrap hlen] at hdst
    obtain ⟨hws, hfail⟩ := copyoutTraced_kernel h (by show 0x80000000 ≤ dst; omega) (by omega) hbuf
      (List.length_eq_zero_iff.not.mpr hbuf)
    rw [hws]
    exact ⟨nofun, fun m' hm => absurd hm (hfail m')⟩
  · rw [subWrap_le hfit (Nat.le_trans hsp h.space.le)] at hdst
    have hend : dst + buf.length ≤ sp := by omega
    have htop' := Nat.le_trans hend hsp
    refine ⟨fun w hw => Nat.le_trans (copyoutTraced_le _ (Nat.le_trans htop' h.space.le) w hw) htop',
      fun m' hm => ⟨by omega, ?_⟩⟩
    obtain ⟨m₁, b, hc, -, hb⟩ := copyout_built htop h htop'
    rw [copyoutTraced_run] at hm
    rw [copyout, hm] at hc
    cases hc
    exact ⟨_, (hb rfl).1⟩

theorem pushArgsTraced_le (htop : top % PGSIZE = 0) (argv : List (List UInt8)) :
    ∀ (argc : Nat) (ps : List Nat) {sp : Nat} {m : Phys} {img : Nat → UInt8},
      Built k perm img m₀ top m d → sp ≤ top → (∀ s ∈ argv, s.length + 1 ≤ KERNBASE) →
      (∀ w ∈ (pushArgsTraced d argv argc m sp ps).1, w.1 + w.2 ≤ top) ∧
        ∀ m' sp' ps', (pushArgsTraced d argv argc m sp ps).2 = .ok (m', some (sp', ps')) →
          sp' ≤ top ∧ (ps.length = argc → argc ≤ MAXARG → ps'.length ≤ MAXARG) ∧
          ∃ img', Built k perm img' m₀ top m' d := by
  induction argv with
  | nil =>
      intro argc ps sp m img h hsp _
      refine ⟨nofun, ?_⟩
      rintro _ _ _ ⟨⟩
      exact ⟨hsp, fun h1 h2 => h1 ▸ h2, img, h⟩
  | cons s argv ih =>
      intro argc ps sp m img h hsp hlen
      have hbuf : (s ++ [0]).length = s.length + 1 := by simp
      have hs : (s ++ [0]).length ≤ KERNBASE := hbuf ▸ hlen s List.mem_cons_self
      rw [pushArgsTraced]
      by_cases hargc : argc ≥ MAXARG
      · rw [if_pos hargc]
        exact ⟨nofun, nofun⟩
      rw [if_neg hargc, ← hbuf]
      dsimp only
      generalize hdst : subWrap sp (s ++ [0]).length / 4 * 4 = dst
      obtain ⟨hw, hcopy⟩ := copyoutTraced_pushed htop h hsp hs (by simp) (Or.inr hdst.symm)
      generalize copyoutTraced d (s ++ [0]).length m dst (s ++ [0]) = x at hw hcopy
      obtain ⟨ws, e | ⟨m₁, _ | _⟩⟩ := x
      · exact ⟨hw, nofun⟩
      · exact ⟨hw, nofun⟩
      · obtain ⟨hle, img₁, hb₁⟩ := hcopy m₁ rfl
        obtain ⟨hws, hres⟩ := ih (argc + 1) (ps ++ [dst]) hb₁ (Nat.le_trans hle hsp)
          fun x hx => hlen x (List.mem_cons_of_mem _ hx)
        refine ⟨fun w hin => (List.mem_append.mp hin).elim (hw w) (hws w), fun m' sp' ps' hr => ?_⟩
        obtain ⟨h1, h2, h3⟩ := hres m' sp' ps' hr
        refine ⟨h1, fun hps _ => h2 (by rw [List.length_append, hps]; rfl) ?_, h3⟩
        exact Nat.not_le.mp hargc

theorem pushStackTraced_le (path : List UInt8) {argv : List (List UInt8)} (entry : Nat) {sz : Nat}
    (hpool : Pool k m₀) (h : Built k allPerm img m₀ (PGROUNDUP sz) m d)
    (hlen : ∀ s ∈ argv, s.length + 1 ≤ KERNBASE) :
    ∀ w ∈ (pushStackTraced k path argv entry m d sz).1, w.2.1 + w.2.2 ≤ w.1 := by
  have hmod := PGROUNDUP_mod sz
  have hup := PGROUNDUP_aligned hmod
  unfold pushStackTraced
  dsimp only
  generalize PGROUNDUP sz = bot at *
  have htop : (bot + 2 * PGSIZE) % PGSIZE = 0 := stack_mod hmod
  rcases Nat.lt_or_ge (bot + 2 * PGSIZE) KERNBASE with hlt | hge
  · rw [← hup] at h
    obtain ⟨m₁, d₁, r₁, ha, hr₁⟩ := h.alloc hpool (Nat.le_add_right _ _) hlt
    rw [ha]
    dsimp only
    rcases hr₁ with ⟨rfl, hb₁⟩ | ⟨rfl, ht⟩
    · have hpos : bot + 2 * PGSIZE ≠ 0 := by
        show bot + 2 * 4096 ≠ 0
        omega
      rw [if_neg hpos]
      rw [upTo_allPerm, PGROUNDUP_aligned htop, hup] at hb₁
      obtain ⟨d₂, hc, hb₂⟩ := clearpteu_built hb₁ htop (Nat.le_add_left _ _)
      rw [hc]
      dsimp only
      obtain ⟨hws, hres⟩ := pushArgsTraced_le htop argv 0 [] hb₂ (Nat.le_refl _) hlen
      generalize pushArgsTraced d₂ argv 0 m₁ (bot + 2 * PGSIZE) [] = x at hws hres
      have hmap : ∀ ws : List (Nat × Nat), (∀ w ∈ ws, w.1 + w.2 ≤ bot + 2 * PGSIZE) →
          ∀ w ∈ ws.map (bot + 2 * PGSIZE, ·), w.2.1 + w.2.2 ≤ w.1 := by
        intro ws h w hw
        obtain ⟨x, hx, rfl⟩ := List.mem_map.mp hw
        exact h x hx
      obtain ⟨ws, e | ⟨m₂, _ | ⟨sp, ps⟩⟩⟩ := x
      · exact hmap ws hws
      · exact hmap ws hws
      obtain ⟨hsp, hps, img₂, hb₃⟩ := hres m₂ sp ps rfl
      have hps : ps.length ≤ 32 := hps rfl (by decide)
      dsimp only
      generalize hbs : ([0xffffffff, ps.length, subWrap sp ((ps.length + 1) * 4)] ++ ps ++
        [0]).flatMap wordBytes = bs
      have hbslen : bs.length = (3 + ps.length + 1) * 4 := by
        rw [← hbs, words_length]
        simp
        omega
      rw [← hbslen]
      obtain ⟨hws', -⟩ := copyoutTraced_pushed htop hb₃ hsp (by
        rw [hbslen]
        show (3 + ps.length + 1) * 4 ≤ 0x80000000
        omega) (by
        rintro rfl
        rw [List.length_nil] at hbslen
        omega) (Or.inl rfl)
      generalize copyoutTraced d₂ bs.length m₂ (subWrap sp bs.length) bs = x at hws'
      have hboth : ∀ w ∈ ws ++ x.1, w.1 + w.2 ≤ bot + 2 * PGSIZE := fun w hin =>
        (List.mem_append.mp hin).elim (hws w) (hws' w)
      obtain ⟨ws', e | ⟨m₃, _ | _⟩⟩ := x
      · exact hmap _ hboth
      · exact hmap _ hboth
      · exact hmap _ hboth
    · rw [if_pos rfl]
      nofun
  · rw [allocuvm, if_pos hge]
    dsimp only
    rw [if_pos rfl]
    nofun

theorem execTraced_le {ip : Option Reader} {path : List UInt8} {argv : List (List UInt8)}
    (hpool : Pool k m) (hlen : ∀ s ∈ argv, s.length + 1 ≤ KERNBASE) :
    ∀ w ∈ (execTraced k m ip path argv).1, w.2.1 + w.2.2 ≤ w.1 := by
  unfold execTraced
  cases ip with
  | none => nofun
  | some rd =>
      dsimp only
      cases readAll rd 0 elfhdrSize with
      | none => nofun
      | some bs =>
          dsimp only
          split
          · nofun
          obtain ⟨⟨r₁, m₁⟩, hs⟩ := setupkvm_total hpool.usable
          rw [hs]
          cases r₁ with
          | none => nofun
          | some d₁ =>
              have hb₁ : Built k allPerm (fun _ => 0) m (PGROUNDUP 0) m₁ d₁ := setupkvm_built hs
              obtain ⟨m₂, d₂, r₂, hl, -, hload⟩ := loadSegments_built rd hpool
                (Elfhdr.ofBytes bs).phnum (Elfhdr.ofBytes bs).phoff hb₁ (by decide)
              dsimp only
              rw [hl]
              cases r₂ with
              | none => nofun
              | some sz =>
                  obtain ⟨-, phs, -, -, -, hb₂⟩ := hload sz rfl
                  have hws := pushStackTraced_le path (Elfhdr.ofBytes bs).entry hpool hb₂ hlen
                  dsimp only
                  generalize pushStackTraced k path argv (Elfhdr.ofBytes bs).entry m₂ d₂ sz = x at hws
                  obtain ⟨ws, e | ⟨m₃, d₃, _ | image⟩⟩ := x
                  · exact hws
                  · exact hws
                  · exact hws

/-- There are no tables between physical memory and the devices. -/
def Pgdir.Hole (d : Pgdir) : Prop :=
  ∀ i : Fin NPDENTRIES, 568 ≤ i.val → i.val < 1016 → d.tab i = none

theorem walkpgdir_length {alloc : Bool} (h : walkpgdir m d va alloc = some (m', d')) :
    m.freelist.length ≤ m'.freelist.length + 1 := by
  rw [walkpgdir] at h
  split at h
  · cases h
    exact Nat.le_succ _
  · split at h
    · cases h
    · split at h
      · cases h
      · next pg m₁ hk =>
          cases h
          exact Nat.le_of_eq (kalloc_length hk)

/-- Tables are made for the addresses of the range only. -/
theorem mappagesLoop_tab {p : Perm} {i : Fin NPDENTRIES} (n : Nat) :
    ∀ {m m' : Phys} {d d' : Pgdir} {a pa : Nat} {b : Bool},
      a + n * PGSIZE < 2 ^ 32 → (∀ j, j ≤ n → i ≠ PDX (a + j * PGSIZE)) → d.tab i = none →
      mappagesLoop (a + n * PGSIZE) p (n + 1) m d a pa = .ok (m', d', b) → d'.tab i = none := by
  induction n with
  | zero =>
      intro m m' d d' a pa b _ hi hd h
      have hi := hi 0 (Nat.le_refl _)
      rw [Nat.zero_mul, Nat.add_zero] at h hi
      rw [mappagesLoop_last] at h
      split at h
      · cases h
        exact hd
      · next m₁ d₁ hw =>
          split at h
          · cases h
          · cases h
            rw [tab_setPte (walkpgdir_some hw).2.1, (walkpgdir_some hw).2.2 i hi, hd]
  | succ n ih =>
      intro m m' d d' a pa b hend hi hd h
      rw [mappagesLoop_next n hend] at h
      split at h
      · cases h
        exact hd
      · next m₁ d₁ hw =>
          split at h
          · cases h
          · have hfirst := hi 0 (Nat.zero_le _)
            rw [Nat.zero_mul, Nat.add_zero] at hfirst
            refine ih ?_ (fun j hj => ?_) ?_ h
            · have hend : a + (n + 1) * 4096 < 2 ^ 32 := hend
              show a + 4096 + n * 4096 < 2 ^ 32
              omega
            · have hj' := hi (j + 1) (Nat.succ_le_succ hj)
              have he : a + (j + 1) * PGSIZE = a + PGSIZE + j * PGSIZE := by
                show a + (j + 1) * 4096 = a + 4096 + j * 4096
                omega
              rwa [he] at hj'
            · rw [tab_setPte (walkpgdir_some hw).2.1, (walkpgdir_some hw).2.2 i hfirst, hd]

theorem mappages_hole {p : Perm} {pa size : Nat} {b : Bool} (hd : d.Hole) (hpos : 0 < size)
    (hend : va + size ≤ 2 ^ 32) (hout : va + size ≤ P2V PHYSTOP ∨ DEVSPACE ≤ va)
    (h : mappages m d va size pa p = .ok (m', d', b)) : d'.Hole := by
  intro i h1 h2
  obtain ⟨n, hlast, he⟩ := mappages_eq m d pa p hpos hend
  rw [he] at h
  have hlast : (va + size - 1) / 4096 * 4096 = va / 4096 * 4096 + n * 4096 := hlast
  have hout : va + size ≤ 0x8E000000 ∨ 0xFE000000 ≤ va := hout
  refine mappagesLoop_tab n ?_ (fun j hj hc => ?_) (hd i h1 h2) h
  · show va / 4096 * 4096 + n * 4096 < 2 ^ 32
    omega
  · have hc : i.val = (va / 4096 * 4096 + j * 4096) / 2 ^ 22 % 1024 := congrArg Fin.val hc
    omega

theorem setupkvmLoop_hole {es : List Kmap} {lo : Nat} (hes : Ascending lo es)
    (hout : ∀ e ∈ es, e.virt + e.size ≤ P2V PHYSTOP ∨ DEVSPACE ≤ e.virt) (hd : d.Hole)
    (h : setupkvmLoop k es m d = .ok (some d', m')) : d'.Hole := by
  induction es generalizing m d lo with
  | nil =>
      cases h
      exact hd
  | cons e es ih =>
      obtain ⟨⟨m₁, d₁, b⟩, hm, h⟩ := bind_eq_ok.mp h
      obtain ⟨n, he, -, hes⟩ := hes
      have hsize : e.size = n := he.size
      have hout₁ := hout e List.mem_cons_self
      rw [hsize] at hout₁
      rw [he.size] at hm
      have hd₁ := mappages_hole hd he.pos he.hi hout₁ hm
      cases b with
      | false =>
          obtain ⟨m₂, hf, h⟩ := bind_eq_ok.mp h
          cases h
      | true => exact ih hes (fun e' he' => hout e' (List.mem_cons_of_mem _ he')) hd₁ h

theorem setupkvm_hole (h : setupkvm k m = .ok (some d, m')) : d.Hole := by
  rw [setupkvm] at h
  split at h
  · cases h
  · next pg m₁ hk =>
      rw [if_neg (by decide)] at h
      refine setupkvmLoop_hole (kmap_ascending k) ?_ (fun _ _ _ => rfl) h
      have hlo : 0x80100000 < k.data := k.text
      have hhi : k.data < 0x8E000000 := k.top
      intro e he
      simp only [kmap, List.mem_cons, List.not_mem_nil, or_false] at he
      rcases he with rfl | rfl | rfl | rfl
      · exact Or.inl (by decide)
      · refine Or.inl ?_
        show 0x80100000 + (k.data - 0x80000000 + 2 ^ 32 - (0x80100000 - 0x80000000)) % 2 ^ 32 ≤
          0x8E000000
        omega
      · refine Or.inl ?_
        show k.data + (0xE000000 + 2 ^ 32 - (k.data - 0x80000000)) % 2 ^ 32 ≤ 0x8E000000
        omega
      · exact Or.inr (Nat.le_refl _)

/-- A page and a table for each page that is needed are enough. -/
theorem allocuvmLoop_enough (oldsz : Nat) {newsz : Nat} (hsz : newsz < KERNBASE) (n : Nat) :
    ∀ {m : Phys} {d : Pgdir} {a : Nat}, a % PGSIZE = 0 →
      (∀ x, a ≤ x → x < KERNBASE → d.pte x = none) → d.Hole → 2 * n ≤ m.freelist.length →
      ∃ m' d', allocuvmLoop k oldsz newsz n m d a = .ok (m', d', newsz) ∧ d'.Hole := by
  induction n with
  | zero => exact fun _ _ hd _ => ⟨_, _, rfl, hd⟩
  | succ n ih =>
      intro m d a hal hnone hd hlen
      rw [allocuvmLoop]
      split
      · next hlt =>
          have hal' : a % 4096 = 0 := hal
          have ha : a < KERNBASE := Nat.lt_trans hlt hsz
          have ha' : a < 0x80000000 := ha
          cases hk : kalloc m with
          | none =>
              rw [kalloc_none hk, List.length_nil] at hlen
              omega
          | some x =>
              obtain ⟨pg, m₁⟩ := x
              have hlen₁ := kalloc_length hk
              dsimp only
              rw [mappages_one hal ha]
              cases hw : walkpgdir (m₁.setPage pg fun _ => 0) d a true with
              | none =>
                  have hnil : (m₁.setPage pg fun _ => 0).freelist = [] := walkpgdir_none hw
                  rw [show m₁.freelist = [] from hnil, List.length_nil] at hlen₁
                  omega
              | some y =>
                  obtain ⟨m₂, d₂⟩ := y
                  obtain ⟨hg, ht, htab⟩ := walkpgdir_some hw
                  have hlen₂ : (m₁.setPage pg fun _ => 0).freelist.length ≤
                    m₂.freelist.length + 1 := walkpgdir_length hw
                  have hlen₂ : m₁.freelist.length ≤ m₂.freelist.length + 1 := hlen₂
                  have hfree : d₂.pte a = none := by
                    rw [hg.pte]
                    exact hnone a (Nat.le_refl _) ha
                  simp only [hfree, ok_bind, if_true]
                  refine ih (by rw [Nat.add_mod_right]; exact hal) (fun x h1 h2 => ?_)
                    (fun i h1 h2 => ?_) (by omega)
                  · rw [pte_unmapped hal (lt_of_user ha) ht _ hg (lt_of_user h2) (Or.inr h1)]
                    exact hnone x (Nat.le_trans (Nat.le_add_right _ _) h1) h2
                  · rw [tab_setPte ht, htab, hd i h1 h2]
                    intro hc
                    have hc : i.val = a / 2 ^ 22 % 1024 := congrArg Fin.val hc
                    omega
      · exact ⟨_, _, rfl, hd⟩

/-- An executable without segments. -/
def emptyElf : List UInt8 :=
  [0x7f, 0x45, 0x4c, 0x46] ++ List.replicate 48 0

theorem clearpteu_hole (h : clearpteu d va = .ok d') (hd : d.Hole) : d'.Hole := by
  rw [clearpteu] at h
  split at h
  · cases h
  · next ht =>
      split at h
      · cases h
        exact hd
      · cases h
        intro i h1 h2
        rw [tab_setPte (by rw [ht]; rintro ⟨⟩), hd i h1 h2]

/-- A copy into the hole. -/
theorem copyout_hole {buf : List UInt8} (hd : d.Hole) (hlo : P2V PHYSTOP ≤ va)
    (hhi : va < DEVSPACE) (hbuf : buf ≠ []) : copyout m d va buf = .error .nullPte := by
  have hlo : 0x8E000000 ≤ va := hlo
  have hhi : va < 0xFE000000 := hhi
  have htab : d.tab (PDX (PGROUNDDOWN va)) = none := by
    refine hd _ ?_ ?_
    · show 568 ≤ va / 4096 * 4096 / 2 ^ 22 % 1024
      omega
    · show va / 4096 * 4096 / 2 ^ 22 % 1024 < 1016
      omega
  obtain ⟨n, hn⟩ := Nat.exists_eq_succ_of_ne_zero (List.length_eq_zero_iff.not.mpr hbuf)
  rw [copyout, hn, copyoutLoop, if_pos (List.length_pos_iff.mpr hbuf)]
  simp only [uva2ka, htab, error_bind]

theorem pushArgs_hole {s : List UInt8} {argv : List (List UInt8)} {sp : Nat} (hd : d.Hole)
    (hsp : sp ≤ KERNBASE) (h1 : sp + 2 ^ 25 < s.length + 1) (h2 : s.length + 1 ≤ sp + 0x72000000) :
    pushArgs d (s :: argv) 0 m sp [] = .error .nullPte := by
  have hsp : sp ≤ 0x80000000 := hsp
  have hto : subWrap sp (s.length + 1) / 4 * 4 = (2 ^ 32 + sp - (s.length + 1)) / 4 * 4 := by
    show (sp + 2 ^ 32 - (s.length + 1) % 2 ^ 32) % 2 ^ 32 / 4 * 4 = _
    omega
  have hhole : copyout m d ((2 ^ 32 + sp - (s.length + 1)) / 4 * 4) (s ++ [0]) =
      .error .nullPte := by
    refine copyout_hole hd ?_ ?_ (by simp)
    · show 0x8E000000 ≤ (2 ^ 32 + sp - (s.length + 1)) / 4 * 4
      omega
    · show (2 ^ 32 + sp - (s.length + 1)) / 4 * 4 < 0xFE000000
      omega
  rw [pushArgs, if_neg (by decide), hto]
  simp only [hhole, error_bind]

theorem emptyElf_null (hpool : Pool k m) (hpages : 600 ≤ m.freelist.length) {path s : List UInt8}
    (h1 : 2 ^ 25 + 8192 < s.length + 1) (h2 : s.length + 1 ≤ 8192 + 0x72000000) :
    exec k m (some (fileReader emptyElf)) path [s] = .error .nullPte := by
  obtain ⟨d₁, m₁, hs⟩ := setupkvm_ok (k := k) (m := m) (by omega)
  obtain ⟨hfree, hbare⟩ := setupkvm_free hs
  have hleft : 6 ≤ m₁.freelist.length := by
    have hcard := congrArg Multiset.card hfree
    rw [Multiset.card_add, card_free, card_free] at hcard
    have := (hbare d₁ rfl).2.card_le
    rw [dirPages] at hcard
    omega
  have hb₁ : Built k allPerm (fun _ => 0) m (PGROUNDUP 0) m₁ d₁ := setupkvm_built hs
  obtain ⟨m₂, d₂, ha, hhole⟩ := allocuvmLoop_enough (k := k) 0
    (show 8192 < KERNBASE by decide) 3 (show 0 % PGSIZE = 0 from rfl) hb₁.space.unmapped
    (setupkvm_hole hs) hleft
  have ha : allocuvm k m₁ d₁ 0 8192 = .ok (m₂, d₂, 8192) := by
    rw [allocuvm, if_neg (by decide), if_neg (by decide)]
    exact ha
  obtain ⟨m', d', r, ha', hr⟩ := hb₁.alloc hpool (show 0 ≤ 8192 by decide) (by decide)
  rw [ha] at ha'
  cases ha'
  rcases hr with ⟨-, hb₂⟩ | ⟨hz, -⟩
  · rw [upTo_allPerm] at hb₂
    obtain ⟨d₃, hc, -⟩ := clearpteu_built hb₂ rfl (by decide)
    have hpush : pushArgs d₃ [s] 0 m₂ 8192 [] = .error .nullPte :=
      pushArgs_hole (clearpteu_hole hc hhole) (by decide) (by omega) h2
    have hstack : pushStack k path [s] 0 m₁ d₁ 0 = .error .nullPte := by
      have ha : allocuvm k m₁ d₁ (PGROUNDUP 0) (PGROUNDUP 0 + 2 * PGSIZE) = .ok (m₂, d₂, 8192) := ha
      have hc : clearpteu d₂ (8192 - 2 * PGSIZE) = .ok d₃ := hc
      unfold pushStack
      simp only [ha, ok_bind, OfNat.ofNat_ne_zero, if_false, hc, hpush, error_bind]
    have hread : readAll (fileReader emptyElf) 0 elfhdrSize = some emptyElf := by decide
    unfold Vm.exec
    simp only [hread]
    rw [if_neg (by decide), hs, ok_bind]
    have hload : loadSegments k (fileReader emptyElf) (Elfhdr.ofBytes emptyElf).phnum
        (Elfhdr.ofBytes emptyElf).phoff m₁ d₁ 0 = .ok (m₁, d₁, some 0) := rfl
    have hentry : (Elfhdr.ofBytes emptyElf).entry = 0 := by decide
    simp only [hload, ok_bind, hentry, hstack, error_bind]
  · cases hz

end Xv6.Ref.Vm
