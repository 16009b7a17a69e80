import Xv6.Ref.Exec
import Xv6.Lib.Sum
import Xv6.Lib.Except

/-!
# Pages are conserved by `vm.c` and `exec.c`

Ownership of pages is counted with multiplicity: a directory holds its own page,
the pages of its tables and, in the half below `KERNBASE`, the pages its entries
point to. The kernel's half maps all of memory and holds nothing.

Then every function of `vm.c` obeys a conservation law. What is on the free list
and what the directory holds is, counted together, the same before and after,
whether the function succeeds or unwinds; a page that is leaked or freed twice
would upset the balance. No law needs to know which pages are mapped where. That
the balance is a partition follows once, from the pages the kernel started with.
-/

namespace Xv6.Ref.Vm

open Xv6.Lib

variable {k : Kernel} {m m' : Phys} {d d' : Pgdir} {pg va : Nat} {v : Option Pte}
  {i : Fin NPDENTRIES}

/-! ## Counting -/

def Phys.free (m : Phys) : Multiset Nat := m.freelist

def ptePages : Option Pte → Multiset Nat
  | none => 0
  | some e => {e.pa}

def tabPages (i : Fin NPDENTRIES) : Option Pgtab → Multiset Nat
  | none => 0
  | some t => {t.page} + if i.val < 512 then ∑ j, ptePages (t.pte j) else 0

def Pgdir.pages (d : Pgdir) : Multiset Nat := {d.page} + ∑ i, tabPages i (d.tab i)

/-- The kernel's half of a directory is closed to the user. -/
def Pgdir.Guarded (d : Pgdir) : Prop :=
  ∀ va, 512 ≤ (PDX va).val → ∀ e, d.pte va = some e → e.perm.u = false

/-- No table for the user's half. -/
def Pgdir.Bare (d : Pgdir) : Prop := ∀ i : Fin NPDENTRIES, i.val < 512 → d.tab i = none

theorem kalloc_free (h : kalloc m = some (pg, m')) : m.free = m'.free + {pg} := by
  simp only [kalloc] at h
  split at h
  · cases h
  · next r next hl =>
      cases h
      rw [Phys.free, hl, Phys.free, ← Multiset.cons_coe, ← Multiset.singleton_add, add_comm]

theorem card_free (m : Phys) : m.free.card = m.freelist.length := Multiset.coe_card _

theorem kalloc_length (h : kalloc m = some (pg, m')) :
    m.freelist.length = m'.freelist.length + 1 := by
  have := congrArg Multiset.card (kalloc_free h)
  simpa only [Multiset.card_add, Multiset.card_singleton, card_free] using this

theorem kalloc_none (h : kalloc m = none) : m.freelist = [] := by
  simp only [kalloc] at h
  split at h
  · assumption
  · cases h

theorem kfree_free (h : kfree k m pg = .ok m') : m'.free = m.free + {pg} := by
  simp only [kfree] at h
  split at h
  · cases h
  · cases h
    rw [Phys.free, ← Multiset.cons_coe, ← Multiset.singleton_add, add_comm]
    rfl

@[simp] theorem free_setPage (m : Phys) (pg : Nat) (b : Nat → UInt8) :
    (m.setPage pg b).free = m.free := rfl

/-! ## Entries -/

theorem PDX_lt_iff (hva : va < 2 ^ 32) : (PDX va).val < 512 ↔ va < KERNBASE := by
  show va / 2 ^ 22 % 1024 < 512 ↔ va < 0x80000000
  omega

/-- Two addresses share an entry if they are on one page. -/
theorem samePage_iff {a : Nat} (ha : a < 2 ^ 32) (hva : va < 2 ^ 32) :
    (PDX va = PDX a ∧ PTX va = PTX a) ↔ va / PGSIZE = a / PGSIZE := by
  simp only [PDX, PTX, Fin.mk.injEq]
  show _ ↔ va / 4096 = a / 4096
  omega

theorem setTab_pages (d : Pgdir) (i : Fin NPDENTRIES) (t : Pgtab) :
    (d.setTab i t).pages + tabPages i (d.tab i) = d.pages + tabPages i (some t) := by
  have h := sum_change (i := i) (f := fun j => tabPages j ((d.setTab i t).tab j))
    (g := fun j => tabPages j (d.tab j)) fun j hj => by simp only [Pgdir.setTab, if_neg hj]
  simp only [Pgdir.setTab, if_true] at h
  rw [Pgdir.pages, Pgdir.pages, add_assoc, add_assoc]
  exact congrArg _ h

theorem setPte_some {t : Pgtab} (ht : d.tab (PDX va) = some t) (v : Option Pte) :
    d.setPte va v =
      d.setTab (PDX va) { t with pte := fun j => if j = PTX va then v else t.pte j } := by
  simp only [Pgdir.setPte, ht]

theorem pte_some {t : Pgtab} (ht : d.tab (PDX va) = some t) : d.pte va = t.pte (PTX va) := by
  simp only [Pgdir.pte, ht]

theorem tabPages_set (i : Fin NPDENTRIES) (t : Pgtab) (j : Fin NPTENTRIES) (v : Option Pte) :
    tabPages i (some { t with pte := fun l => if l = j then v else t.pte l }) +
        (if i.val < 512 then ptePages (t.pte j) else 0) =
      tabPages i (some t) + if i.val < 512 then ptePages v else 0 := by
  simp only [tabPages]
  split
  · have h := sum_change (i := j) (f := fun l => ptePages (if l = j then v else t.pte l))
      (g := fun l => ptePages (t.pte l)) fun l hl => by rw [if_neg hl]
    rw [if_pos rfl] at h
    rw [add_assoc, add_assoc, h]
  · rfl

/-- An entry below `KERNBASE` holds its page, one above holds nothing. -/
theorem setPte_pages (ht : d.tab (PDX va) ≠ none) (v : Option Pte) :
    (d.setPte va v).pages + (if (PDX va).val < 512 then ptePages (d.pte va) else 0) =
      d.pages + if (PDX va).val < 512 then ptePages v else 0 := by
  obtain ⟨t, ht⟩ := Option.ne_none_iff_exists'.mp ht
  rw [setPte_some ht, pte_some ht]
  have h1 := setTab_pages d (PDX va) { t with pte := fun j => if j = PTX va then v else t.pte j }
  have h2 := tabPages_set (PDX va) t (PTX va) v
  rw [ht] at h1
  refine add_right_cancel (b := tabPages (PDX va) (some t)) ?_
  rw [add_right_comm, h1, add_assoc, h2, ← add_assoc, add_right_comm]

theorem pte_setPte (ht : d.tab (PDX va) ≠ none) (v : Option Pte) (x : Nat) :
    (d.setPte va v).pte x = if PDX x = PDX va ∧ PTX x = PTX va then v else d.pte x := by
  obtain ⟨t, ht⟩ := Option.ne_none_iff_exists'.mp ht
  rw [setPte_some ht]
  simp only [Pgdir.pte, Pgdir.setTab]
  by_cases hd : PDX x = PDX va
  · simp only [hd, if_true, true_and, ht]
  · simp only [hd, if_false, false_and]

theorem tab_setPte (ht : d.tab (PDX va) ≠ none) (v : Option Pte) (i : Fin NPDENTRIES) :
    (d.setPte va v).tab i = none ↔ d.tab i = none := by
  obtain ⟨t, ht⟩ := Option.ne_none_iff_exists'.mp ht
  rw [setPte_some ht]
  simp only [Pgdir.setTab]
  split
  · next h => rw [h, ht]; simp
  · exact Iff.rfl

theorem Pgdir.Guarded.setPte (h : d.Guarded) (ht : d.tab (PDX va) ≠ none)
    (hv : 512 ≤ (PDX va).val → ∀ e, v = some e → e.perm.u = false) :
    (d.setPte va v).Guarded := by
  intro x hx e he
  rw [pte_setPte ht] at he
  split at he
  · next hp => exact hv (hp.1 ▸ hx) e he
  · exact h x hx e he

/-! ## `walkpgdir` and `mappages` -/

/-- A directory and the free list before and after. -/
structure Grown (m : Phys) (d : Pgdir) (m' : Phys) (d' : Pgdir) : Prop where
  pages : m'.free + d'.pages = m.free + d.pages
  pte : d'.pte = d.pte
  tab : ∀ i, d.tab i ≠ none → d'.tab i ≠ none

theorem walkpgdir_some {alloc : Bool} (h : walkpgdir m d va alloc = some (m', d')) :
    Grown m d m' d' ∧ d'.tab (PDX va) ≠ none ∧
      ∀ i, i ≠ PDX va → d'.tab i = d.tab i := by
  simp only [walkpgdir] at h
  split at h
  · next t ht =>
      cases h
      exact ⟨⟨rfl, rfl, fun _ h => h⟩, by rw [ht]; rintro ⟨⟩, fun _ _ => rfl⟩
  · next ht =>
      split at h
      · cases h
      · split at h
        · cases h
        · next pg m₁ hk =>
            cases h
            have hp := setTab_pages d (PDX va) ⟨pg, fun _ => none⟩
            have hnew : tabPages (PDX va) (some ⟨pg, fun _ => none⟩) = {pg} := by
              simp only [tabPages, ptePages, Finset.sum_const_zero, ite_self, add_zero]
            rw [ht, hnew, tabPages, add_zero] at hp
            refine ⟨⟨?_, funext fun x => ?_, fun i hi => ?_⟩, ?_, fun i hi => ?_⟩
            · rw [hp, kalloc_free hk]
              abel
            · simp only [Pgdir.pte, Pgdir.setTab]
              split
              · next hx =>
                  split at hx
                  · next he => rw [he, ht]
                  · rw [hx]
              · next t hx =>
                  split at hx
                  · next he =>
                      cases hx
                      rw [he, ht]
                  · rw [hx]
            · simp only [Pgdir.setTab]
              split
              · rintro ⟨⟩
              · exact hi
            · simp [Pgdir.setTab]
            · simp only [Pgdir.setTab, if_neg hi]

theorem walkpgdir_none (h : walkpgdir m d va true = none) : m.freelist = [] := by
  simp only [walkpgdir] at h
  split at h
  · cases h
  · split at h
    · next hf => cases hf
    · split at h
      · next hk => exact kalloc_none hk
      · cases h

theorem walkpgdir_false {x : Phys × Pgdir} (h : walkpgdir m d va false = some x) :
    d.tab (PDX va) ≠ none := by
  simp only [walkpgdir] at h
  split at h
  · next ht => rw [ht]; nofun
  · cases h

/-- The page of the result is counted by the directory, if it is in the user's half. -/
theorem map_pages {e : Pte} (hg : Grown m d m' d') (ht : d'.tab (PDX va) ≠ none)
    (hfree : d'.pte va = none) :
    m'.free + (d'.setPte va (some e)).pages =
      m.free + d.pages + if (PDX va).val < 512 then {e.pa} else 0 := by
  have h := setPte_pages ht (some e)
  rw [hfree, ptePages, ite_self, add_zero, ptePages] at h
  rw [h, ← add_assoc, hg.pages]

theorem Pgdir.Guarded.map {e : Pte} (h : d.Guarded) (hg : Grown m d m' d')
    (ht : d'.tab (PDX va) ≠ none) (hv : 512 ≤ (PDX va).val → e.perm.u = false) :
    (d'.setPte va (some e)).Guarded := by
  refine Pgdir.Guarded.setPte (fun x hx e he => ?_) ht fun hd e' he => ?_
  · rw [hg.pte] at he
    exact h x hx e he
  · cases he
    exact hv hd

/-- What `mappages` does to the kernel's half. -/
structure KernelMapped (lo hi : Nat) (m : Phys) (d : Pgdir) (m' : Phys) (d' : Pgdir)
    (mapped : Bool) : Prop where
  pages : m'.free + d'.pages = m.free + d.pages
  guarded : d.Guarded → d'.Guarded
  bare : d.Bare → d'.Bare
  only : ∀ va, va < 2 ^ 32 → (va < lo ∨ hi ≤ va) → d'.pte va = d.pte va
  full : mapped = false → m'.freelist = []

theorem mappagesLoop_kernel {perm : Perm} (hu : perm.u = false) :
    ∀ (n : Nat) {m m' : Phys} {d d' : Pgdir} {a pa : Nat} {b : Bool}, KERNBASE ≤ a →
      a % PGSIZE = 0 → a + n * PGSIZE < 2 ^ 32 →
      mappagesLoop (a + n * PGSIZE) perm (n + 1) m d a pa = .ok (m', d', b) →
      KernelMapped a (a + n * PGSIZE + PGSIZE) m d m' d' b
  | n, m, m', d, d', a, pa, b, hlo, hal, hhi, h => by
      have ha32 : a < 2 ^ 32 := by omega
      have hhalf : ¬ (PDX a).val < 512 := fun hc => absurd ((PDX_lt_iff ha32).mp hc) (by omega)
      rw [mappagesLoop] at h
      split at h
      · next hw =>
          cases h
          exact ⟨rfl, id, id, fun _ _ _ => rfl, fun _ => walkpgdir_none hw⟩
      · next m₁ d₁ hw =>
          obtain ⟨hg, ht, hother⟩ := walkpgdir_some hw
          split at h
          · cases h
          · next hfree =>
              have hpages := map_pages (e := ⟨pa, perm⟩) hg ht hfree
              rw [if_neg hhalf, add_zero] at hpages
              have hbare : d.Bare → (d₁.setPte a (some ⟨pa, perm⟩)).Bare := by
                intro hn i hi
                rw [tab_setPte ht, hother i fun he => hhalf (he ▸ hi)]
                exact hn i hi
              have honly : ∀ va, va < 2 ^ 32 → (va < a ∨ a + PGSIZE ≤ va) →
                  (d₁.setPte a (some ⟨pa, perm⟩)).pte va = d.pte va := by
                intro va hva hout
                rw [pte_setPte ht, if_neg, hg.pte]
                rw [samePage_iff ha32 hva]
                have hal : a % 4096 = 0 := hal
                have hout : va < a ∨ a + 4096 ≤ va := hout
                show ¬ va / 4096 = a / 4096
                omega
              dsimp only at h
              split at h
              · cases h
                exact ⟨hpages, fun hd => hd.map hg ht fun _ => hu, hbare,
                  fun va hva hout => honly va hva (by omega), nofun⟩
              · next hne =>
                  obtain ⟨n, rfl⟩ : ∃ n', n = n' + 1 :=
                    ⟨n - 1, by
                      have : n ≠ 0 := by rintro rfl; simp at hne
                      omega⟩
                  have hn : (n + 1) * PGSIZE = PGSIZE + n * PGSIZE := by
                    rw [Nat.succ_mul, Nat.add_comm]
                  rw [hn, ← Nat.add_assoc] at h hhi ⊢
                  have hstep : (a + PGSIZE) % 2 ^ 32 = a + PGSIZE :=
                    Nat.mod_eq_of_lt (by omega)
                  rw [hstep] at h
                  have hr := mappagesLoop_kernel hu n (Nat.le_add_right_of_le hlo)
                    (by rw [Nat.add_mod_right]; exact hal) hhi h
                  exact ⟨hr.pages.trans hpages,
                    fun hd => hr.guarded (hd.map hg ht fun _ => hu),
                    fun hd => hr.bare (hbare hd),
                    fun va hva hout => (hr.only va hva (by omega)).trans
                      (honly va hva (by omega)), hr.full⟩

/-- `mappages` does not find a page mapped that was not. -/
theorem mappagesLoop_ok {perm : Perm} :
    ∀ (n : Nat) {m : Phys} {d : Pgdir} {a pa : Nat}, a % PGSIZE = 0 →
      a + n * PGSIZE < 2 ^ 32 →
      (∀ va, a ≤ va → va < a + n * PGSIZE + PGSIZE → d.pte va = none) →
      ∃ r, mappagesLoop (a + n * PGSIZE) perm (n + 1) m d a pa = .ok r
  | n, m, d, a, pa, hal, hhi, hnone => by
      rw [mappagesLoop]
      split
      · exact ⟨_, rfl⟩
      · next m₁ d₁ hw =>
          obtain ⟨hg, ht, -⟩ := walkpgdir_some hw
          have hfree : d₁.pte a = none := by
            rw [hg.pte]
            refine hnone a (Nat.le_refl _) ?_
            show a < a + n * 4096 + 4096
            omega
          simp only [hfree]
          split
          · exact ⟨_, rfl⟩
          · next hne =>
              obtain ⟨n, rfl⟩ : ∃ n', n = n' + 1 :=
                ⟨n - 1, by
                  have : n ≠ 0 := by rintro rfl; simp at hne
                  omega⟩
              have hn : (n + 1) * PGSIZE = PGSIZE + n * PGSIZE := by
                rw [Nat.succ_mul, Nat.add_comm]
              rw [hn, ← Nat.add_assoc] at hhi hnone ⊢
              rw [Nat.mod_eq_of_lt (by omega : a + PGSIZE < 2 ^ 32)]
              refine mappagesLoop_ok n (by rw [Nat.add_mod_right]; exact hal) hhi
                fun va hlo hlt => ?_
              have hal : a % 4096 = 0 := hal
              have hlo' : a + 4096 ≤ va := hlo
              rw [pte_setPte ht, if_neg, hg.pte]
              · exact hnone va (by omega) hlt
              · intro hs
                have hd : a / 2 ^ 22 % 1024 = va / 2 ^ 22 % 1024 := congrArg Fin.val hs.1.symm
                have ht : a / 2 ^ 12 % 1024 = va / 2 ^ 12 % 1024 := congrArg Fin.val hs.2.symm
                have hlt : va < a + 4096 + n * 4096 + 4096 := hlt
                have hhi : a + 4096 + n * 4096 < 2 ^ 32 := hhi
                omega

theorem mappages_aligned {size pa : Nat} {perm : Perm} (m : Phys) (d : Pgdir)
    (hva : va % PGSIZE = 0) (hpos : 0 < size) (hsize : size % PGSIZE = 0)
    (hend : va + size ≤ 2 ^ 32) :
    mappages m d va size pa perm =
      mappagesLoop (va + (size / PGSIZE - 1) * PGSIZE) perm (size / PGSIZE - 1 + 1) m d va pa := by
  have hva : va % 4096 = 0 := hva
  have hsize : size % 4096 = 0 := hsize
  have hlast : PGROUNDDOWN ((va + size + 2 ^ 32 - 1) % 2 ^ 32) =
      va + (size / PGSIZE - 1) * PGSIZE := by
    show (va + size + 2 ^ 32 - 1) % 2 ^ 32 / 4096 * 4096 = va + (size / 4096 - 1) * 4096
    omega
  have hcount : (va + (size / PGSIZE - 1) * PGSIZE + 2 ^ 32 - va) % 2 ^ 32 / PGSIZE =
      size / PGSIZE - 1 := by
    show (va + (size / 4096 - 1) * 4096 + 2 ^ 32 - va) % 2 ^ 32 / 4096 = size / 4096 - 1
    omega
  have hdown : PGROUNDDOWN va = va := by
    show va / 4096 * 4096 = va
    omega
  simp only [mappages, hdown, hlast, hcount]

theorem mappages_kernel {size pa : Nat} {perm : Perm} {b : Bool} (hu : perm.u = false)
    (hlo : KERNBASE ≤ va) (hva : va % PGSIZE = 0) (hpos : 0 < size) (hsize : size % PGSIZE = 0)
    (hend : va + size ≤ 2 ^ 32) (h : mappages m d va size pa perm = .ok (m', d', b)) :
    KernelMapped va (va + size) m d m' d' b := by
  rw [mappages_aligned m d hva hpos hsize hend] at h
  have hsz : va + (size / PGSIZE - 1) * PGSIZE + PGSIZE = va + size := by
    have hsize : size % 4096 = 0 := hsize
    show va + (size / 4096 - 1) * 4096 + 4096 = va + size
    omega
  have hin : va + (size / PGSIZE - 1) * PGSIZE < 2 ^ 32 :=
    Nat.lt_of_lt_of_le (Nat.lt_add_of_pos_right (by decide)) (hsz ▸ hend)
  have hr := mappagesLoop_kernel hu _ hlo hva hin h
  rwa [hsz] at hr

/-- Mapping one user page. -/
theorem mappages_page {perm : Perm} {b : Bool} (hva : va % PGSIZE = 0) (hlt : va < KERNBASE)
    (h : mappages m d va PGSIZE pg perm = .ok (m', d', b)) :
    m'.free + d'.pages = m.free + d.pages + (if b = true then {pg} else 0) ∧
      (d.Guarded → d'.Guarded) ∧ (b = false → m.freelist = []) := by
  have hva32 : va + PGSIZE ≤ 2 ^ 32 := by
    have hlt : va < 0x80000000 := hlt
    show va + 4096 ≤ 2 ^ 32
    omega
  have hhalf : (PDX va).val < 512 :=
    (PDX_lt_iff (Nat.lt_of_lt_of_le (Nat.lt_add_of_pos_right (by decide)) hva32)).mpr hlt
  rw [mappages_aligned m d hva (by decide) (by decide) hva32,
    show PGSIZE / PGSIZE - 1 = 0 from rfl, Nat.zero_mul, Nat.add_zero, mappagesLoop] at h
  split at h
  · next hw =>
      cases h
      exact ⟨by rw [if_neg nofun, add_zero], id, fun _ => walkpgdir_none hw⟩
  · next m₁ d₁ hw =>
      obtain ⟨hg, ht, -⟩ := walkpgdir_some hw
      split at h
      · cases h
      · next hfree =>
          have hpages := map_pages (e := ⟨pg, perm⟩) hg ht hfree
          rw [if_pos hhalf] at hpages
          rw [if_pos rfl] at h
          cases h
          exact ⟨hpages, fun hd => hd.map hg ht fun hc => absurd hhalf (by omega), nofun⟩

/-! ## Freeing -/

theorem setPte_none_pages {e : Pte} (ht : d.tab (PDX va) ≠ none) (hlt : (PDX va).val < 512)
    (he : d.pte va = some e) : (d.setPte va none).pages + {e.pa} = d.pages := by
  have h := setPte_pages ht none
  rw [if_pos hlt, if_pos hlt, he, ptePages, ptePages, add_zero] at h
  exact h

/-- What `deallocuvm` does from address `a` on. -/
structure Shrunk (m : Phys) (d : Pgdir) (m' : Phys) (d' : Pgdir) : Prop where
  pages : m'.free + d'.pages = m.free + d.pages
  page : d'.page = d.page
  guarded : d.Guarded → d'.Guarded
  none : ∀ va, d.pte va = none → d'.pte va = none

theorem Shrunk.refl (m : Phys) (d : Pgdir) : Shrunk m d m d :=
  ⟨rfl, rfl, id, fun _ h => h⟩

theorem Shrunk.trans {m₁ : Phys} {d₁ : Pgdir} (h : Shrunk m d m₁ d₁) (h' : Shrunk m₁ d₁ m' d') :
    Shrunk m d m' d' :=
  ⟨h'.pages.trans h.pages, h'.page.trans h.page, fun hd => h'.guarded (h.guarded hd),
    fun va hv => h'.none va (h.none va hv)⟩

theorem shrunk_kfree {e : Pte} (ht : d.tab (PDX va) ≠ none) (hlt : (PDX va).val < 512)
    (he : d.pte va = some e) (hf : kfree k m e.pa = .ok m') :
    Shrunk m d m' (d.setPte va none) where
  pages := by
    rw [kfree_free hf, ← setPte_none_pages ht hlt he]
    abel
  page := by
    obtain ⟨t, ht⟩ := Option.ne_none_iff_exists'.mp ht
    rw [setPte_some ht]
    rfl
  guarded := fun hd => hd.setPte ht fun _ _ h => nomatch h
  none := by
    intro x hx
    rw [pte_setPte ht]
    split
    · rfl
    · exact hx

/-- The first address of the next table. -/
theorem PGADDR_next (a : Nat) :
    PGADDR ((PDX a).val + 1) 0 0 = (a / 2 ^ 22 % 1024 + 1) * 2 ^ 22 := by
  simp only [PGADDR, PDX, Nat.zero_mul, Nat.add_zero]

theorem deallocuvmLoop_spec {oldsz : Nat} (hsz : oldsz ≤ KERNBASE) :
    ∀ (n : Nat) {m m' : Phys} {d d' : Pgdir} {a : Nat}, a % PGSIZE = 0 →
      deallocuvmLoop k oldsz n m d a = .ok (m', d') →
      Shrunk m d m' d' ∧ (oldsz ≤ a + n * PGSIZE →
        ∀ va, a ≤ va → va / PGSIZE * PGSIZE < oldsz → d'.pte va = none)
  | 0, m, m', d, d', a, hal, h => by
      cases h
      refine ⟨Shrunk.refl _ _, fun hle va hva hlt => ?_⟩
      have hal : a % 4096 = 0 := hal
      have hlt : va / 4096 * 4096 < oldsz := hlt
      omega
  | n + 1, m, m', d, d', a, hal, h => by
      have hal' : a % 4096 = 0 := hal
      have hle' : oldsz ≤ 0x80000000 := hsz
      rw [deallocuvmLoop] at h
      split at h
      · next hlt =>
          have hhalf : (PDX a).val < 512 :=
            (PDX_lt_iff (by omega)).mpr (Nat.lt_of_lt_of_le hlt hsz)
          have hnext : (a + PGSIZE) % PGSIZE = 0 := by rw [Nat.add_mod_right]; exact hal
          have hcount : a + (n + 1) * PGSIZE = a + PGSIZE + n * PGSIZE := by
            rw [Nat.succ_mul, Nat.add_assoc, Nat.add_comm (n * PGSIZE)]
          -- a page is behind us once it is before the next address
          have hlast : ∀ {va : Nat}, a ≤ va → ¬ a + PGSIZE ≤ va → PDX va = PDX a ∧ PTX va = PTX a := by
            intro va hge hnl
            have hnl : ¬ a + 4096 ≤ va := hnl
            refine (samePage_iff (by omega) (by omega)).mpr ?_
            show va / 4096 = a / 4096
            omega
          split at h
          · next hw =>
              -- there is no table, so nothing is mapped up to the next one
              have htab : d.tab (PDX a) = none := by
                simp only [walkpgdir, if_true] at hw
                split at hw
                · cases hw
                · assumption
              rw [PGADDR_next] at h
              have hadv : a + PGSIZE ≤ (a / 2 ^ 22 % 1024 + 1) * 2 ^ 22 := by
                show a + 4096 ≤ _
                omega
              have hmod : (a / 2 ^ 22 % 1024 + 1) * 2 ^ 22 % PGSIZE = 0 := by
                show _ % 4096 = 0
                omega
              obtain ⟨hs, hclear⟩ := deallocuvmLoop_spec hsz n hmod h
              refine ⟨hs, fun hle va hva hva' => ?_⟩
              by_cases hb : (a / 2 ^ 22 % 1024 + 1) * 2 ^ 22 ≤ va
              · exact hclear (by omega) va hb hva'
              · refine hs.none va ?_
                have hd : PDX va = PDX a := by
                  simp only [PDX, Fin.mk.injEq]
                  omega
                simp only [Pgdir.pte, hd, htab]
          · next hw =>
              have ht := walkpgdir_false hw
              split at h
              · next hp =>
                  obtain ⟨hs, hclear⟩ := deallocuvmLoop_spec hsz n hnext h
                  refine ⟨hs, fun hle va hva hva' => ?_⟩
                  by_cases hb : a + PGSIZE ≤ va
                  · exact hclear (by omega) va hb hva'
                  · refine hs.none va ?_
                    obtain ⟨h1, h2⟩ := hlast hva hb
                    rw [← hp]
                    simp only [Pgdir.pte, h1, h2]
              · next e hp =>
                  split at h
                  · cases h
                  · obtain ⟨m₁, hf, h⟩ := bind_eq_ok.mp h
                    have hs₁ := shrunk_kfree ht hhalf hp hf
                    obtain ⟨hs, hclear⟩ := deallocuvmLoop_spec hsz n hnext h
                    refine ⟨hs₁.trans hs, fun hle va hva hva' => ?_⟩
                    by_cases hb : a + PGSIZE ≤ va
                    · exact hclear (by omega) va hb hva'
                    · refine hs.none va ?_
                      rw [pte_setPte ht, if_pos (hlast hva hb)]
      · next hge =>
          cases h
          refine ⟨Shrunk.refl _ _, fun _ va hva hlt => ?_⟩
          have hlt : va / 4096 * 4096 < oldsz := hlt
          omega

theorem PGROUNDUP_mod (n : Nat) : PGROUNDUP n % PGSIZE = 0 := Nat.mul_mod_left _ _

theorem deallocuvm_spec {oldsz newsz sz : Nat} (hsz : oldsz ≤ KERNBASE)
    (h : deallocuvm k m d oldsz newsz = .ok (m', d', sz)) :
    Shrunk m d m' d' ∧ (sz = oldsz ∨ sz = newsz ∧ newsz < oldsz) := by
  rw [deallocuvm] at h
  split at h
  · cases h
    exact ⟨Shrunk.refl _ _, Or.inl rfl⟩
  · next hlt =>
      obtain ⟨⟨m₁, d₁⟩, hl, h⟩ := bind_eq_ok.mp h
      cases h
      exact ⟨(deallocuvmLoop_spec hsz _ (PGROUNDUP_mod _) hl).1, Or.inr ⟨rfl, by omega⟩⟩

theorem freeTables_free {is : List (Fin NPDENTRIES)} (h : freeTables k d m is = .ok m') :
    m'.free = m.free + (is.map fun i => match d.tab i with
      | none => 0
      | some t => {t.page}).sum := by
  induction is generalizing m with
  | nil =>
      cases h
      simp
  | cons i is ih =>
      simp only [freeTables] at h
      split at h
      · next ht =>
          rw [ih h, List.map_cons, List.sum_cons, ht, zero_add]
      · next t ht =>
          obtain ⟨m₁, hf, h⟩ := bind_eq_ok.mp h
          rw [ih h, kfree_free hf, List.map_cons, List.sum_cons, ht, add_assoc]

/-- Without user pages a directory is its own page and its tables'. -/
theorem pages_of_empty (h : ∀ va, va < KERNBASE → d.pte va = none) :
    d.pages = {d.page} + ((List.finRange NPDENTRIES).map fun i => match d.tab i with
      | none => 0
      | some t => {t.page}).sum := by
  rw [Pgdir.pages, Fin.sum_univ_def]
  congr 3
  funext i
  cases ht : d.tab i with
  | none => rfl
  | some t =>
      show _ = ({t.page} : Multiset Nat)
      rw [tabPages]
      split
      · next hi =>
          rw [Finset.sum_eq_zero, add_zero]
          intro j _
          have hj' : j.val < 1024 := j.isLt
          have hva := h (i.val * 2 ^ 22 + j.val * 2 ^ 12) (by
            show i.val * 2 ^ 22 + j.val * 2 ^ 12 < 0x80000000
            omega)
          have hd : PDX (i.val * 2 ^ 22 + j.val * 2 ^ 12) = i := by
            refine Fin.ext ?_
            show (i.val * 2 ^ 22 + j.val * 2 ^ 12) / 2 ^ 22 % 1024 = i.val
            omega
          have hj : PTX (i.val * 2 ^ 22 + j.val * 2 ^ 12) = j := by
            refine Fin.ext ?_
            show (i.val * 2 ^ 22 + j.val * 2 ^ 12) / 2 ^ 12 % 1024 = j.val
            omega
          rw [pte_some (hd ▸ ht), hj] at hva
          rw [hva, ptePages]
      · rw [add_zero]

/-- All a directory holds goes to the free list. -/
theorem freevm_free (h : freevm k m d = .ok m') : m'.free = m.free + d.pages := by
  obtain ⟨⟨m₁, d₁, sz⟩, hd, h⟩ := bind_eq_ok.mp h
  obtain ⟨m₂, ht, hk⟩ := bind_eq_ok.mp h
  rw [deallocuvm, if_neg (by decide)] at hd
  obtain ⟨⟨m₃, d₃⟩, hl, hd⟩ := bind_eq_ok.mp hd
  cases hd
  obtain ⟨hs, hclear⟩ := deallocuvmLoop_spec (Nat.le_refl _) _ (PGROUNDUP_mod 0) hl
  have hempty : ∀ va, va < KERNBASE → d₁.pte va = none := fun va hva =>
    hclear (by decide) va (Nat.zero_le _)
      (Nat.lt_of_le_of_lt (Nat.div_mul_le_self va PGSIZE) hva)
  rw [kfree_free hk, freeTables_free ht, ← hs.pages, pages_of_empty hempty]
  abel

/-! ## Building -/

/-- The pages of a directory that may have been given up. -/
def dirPages : Option Pgdir → Multiset Nat
  | none => 0
  | some d => d.pages

/-- An entry of `kmap` that covers whole pages of the kernel's half. -/
structure Kmap.Whole (e : Kmap) (n : Nat) : Prop where
  size : (e.physEnd + 2 ^ 32 - e.physStart) % 2 ^ 32 = n
  pos : 0 < n
  whole : n % PGSIZE = 0
  lo : KERNBASE ≤ e.virt
  aligned : e.virt % PGSIZE = 0
  hi : e.virt + n ≤ 2 ^ 32
  perm : e.perm.u = false

/-- The entries cover whole pages and lie one behind the other, from `lo` on. -/
def Ascending : Nat → List Kmap → Prop
  | _, [] => True
  | lo, e :: es => ∃ n, e.Whole n ∧ lo ≤ e.virt ∧ Ascending (e.virt + n) es

theorem kmap_ascending (k : Kernel) : Ascending KERNBASE (kmap k) := by
  have hlo : 0x80100000 < k.data := k.text
  have hhi : k.data < 0x8E000000 := k.top
  have hal : k.data % 4096 = 0 := k.aligned
  refine ⟨EXTMEM, ?_, Nat.le_refl _, k.data - KERNLINK, ?_, Nat.le_refl _,
    P2V PHYSTOP - k.data, ?_, ?_, 0x2000000, ?_, ?_, trivial⟩
  · exact ⟨rfl, by decide, rfl, by decide, rfl, by decide, rfl⟩
  · refine ⟨?_, Nat.sub_pos_of_lt k.text, ?_, Nat.le_add_right _ _,
      show KERNLINK % PGSIZE = 0 by decide, ?_, rfl⟩
    · show (k.data - 0x80000000 + 2 ^ 32 - (0x80100000 - 0x80000000)) % 2 ^ 32 =
        k.data - 0x80100000
      omega
    · show (k.data - 0x80100000) % 4096 = 0
      omega
    · show 0x80100000 + (k.data - 0x80100000) ≤ 2 ^ 32
      omega
  · refine ⟨?_, Nat.sub_pos_of_lt k.top, ?_, ?_, hal, ?_, rfl⟩
    · show (0xE000000 + 2 ^ 32 - (k.data - 0x80000000)) % 2 ^ 32 = 0x8E000000 - k.data
      omega
    · show (0x8E000000 - k.data) % 4096 = 0
      omega
    · show 0x80000000 ≤ k.data
      omega
    · show k.data + (0x8E000000 - k.data) ≤ 2 ^ 32
      omega
  · show 0x80100000 + (k.data - 0x80100000) ≤ k.data
    omega
  · exact ⟨rfl, by decide, rfl, by decide, rfl, by decide, rfl⟩
  · show k.data + (0x8E000000 - k.data) ≤ 0xFE000000
    omega

theorem setupkvmLoop_free {r : Option Pgdir} {lo : Nat} {es : List Kmap} (hes : Ascending lo es)
    (h : setupkvmLoop k es m d = .ok (r, m')) (hd : d.Guarded) (hb : d.Bare) :
    m'.free + dirPages r = m.free + d.pages ∧ ∀ d', r = some d' → d'.Guarded ∧ d'.Bare := by
  induction es generalizing m d lo with
  | nil =>
      cases h
      exact ⟨rfl, by rintro d' ⟨⟩; exact ⟨hd, hb⟩⟩
  | cons e es ih =>
      obtain ⟨⟨m₁, d₁, b⟩, hm, h⟩ := bind_eq_ok.mp h
      obtain ⟨n, he, -, hes⟩ := hes
      rw [he.size] at hm
      have hr := mappages_kernel he.perm he.lo he.aligned he.pos he.whole he.hi hm
      cases b with
      | true =>
          obtain ⟨h1, h2⟩ := ih hes h (hr.guarded hd) (hr.bare hb)
          exact ⟨h1.trans hr.pages, h2⟩
      | false =>
          obtain ⟨m₂, hf, h⟩ := bind_eq_ok.mp h
          cases h
          exact ⟨by rw [dirPages, add_zero, freevm_free hf, hr.pages], nofun⟩

theorem empty_pages (pg : Nat) : (Pgdir.empty pg).pages = {pg} := by
  simp only [Pgdir.pages, Pgdir.empty, tabPages, Finset.sum_const_zero, add_zero]

theorem empty_guarded (pg : Nat) : (Pgdir.empty pg).Guarded := nofun

theorem setupkvm_free {r : Option Pgdir} (h : setupkvm k m = .ok (r, m')) :
    m'.free + dirPages r = m.free ∧ ∀ d, r = some d → d.Guarded ∧ d.Bare := by
  rw [setupkvm] at h
  split at h
  · cases h
    exact ⟨add_zero _, nofun⟩
  · next pg m₁ hk =>
      rw [if_neg (by decide)] at h
      obtain ⟨h1, h2⟩ := setupkvmLoop_free (kmap_ascending k) h (empty_guarded pg)
        fun _ _ => rfl
      rw [empty_pages] at h1
      exact ⟨h1.trans (kalloc_free hk).symm, h2⟩

/-- A directory without user tables is at most 513 pages. -/
theorem Pgdir.Bare.card_le (h : d.Bare) : d.pages.card ≤ 513 := by
  have hle : ∀ i : Fin NPDENTRIES, (tabPages i (d.tab i)).card ≤ if i.val < 512 then 0 else 1 := by
    intro i
    split
    · next hi =>
        rw [h i hi]
        exact Nat.le_refl _
    · next hi =>
        cases d.tab i with
        | none => exact Nat.zero_le _
        | some t =>
            rw [tabPages, if_neg hi]
            exact Nat.le_refl _
  have hsum : ∑ i : Fin NPDENTRIES, (if i.val < 512 then 0 else 1) = 512 := by decide +kernel
  have hall := Finset.sum_le_sum fun i (_ : i ∈ Finset.univ) => hle i
  rw [hsum] at hall
  rw [Pgdir.pages, Multiset.card_add, Multiset.card_singleton, Multiset.card_sum]
  omega

/-- With pages enough the kernel's half is set up. -/
theorem setupkvmLoop_ok {lo : Nat} {es : List Kmap} (hes : Ascending lo es) (hb : d.Bare)
    (hd : ∀ va, lo ≤ va → va < 2 ^ 32 → d.pte va = none)
    (hcard : 513 < m.freelist.length + d.pages.card) :
    ∃ d' m', setupkvmLoop k es m d = .ok (some d', m') := by
  induction es generalizing m d lo with
  | nil => exact ⟨d, m, rfl⟩
  | cons e es ih =>
      obtain ⟨n, he, hlo, hes⟩ := hes
      have hpos := he.pos
      have hhi := he.hi
      have hwhole : n % 4096 = 0 := he.whole
      obtain ⟨⟨m₁, d₁, b⟩, hm⟩ : ∃ r, mappages m d e.virt n e.physStart e.perm = .ok r := by
        rw [mappages_aligned m d he.aligned he.pos he.whole he.hi]
        have hend : (n / PGSIZE - 1) * PGSIZE + PGSIZE = n := by
          show (n / 4096 - 1) * 4096 + 4096 = n
          omega
        have hpg : 0 < PGSIZE := by decide
        refine mappagesLoop_ok _ he.aligned (by omega) fun va h1 h2 => ?_
        exact hd va (by omega) (by omega)
      have hr := mappages_kernel he.perm he.lo he.aligned he.pos he.whole he.hi hm
      have hcard₁ : m₁.freelist.length + d₁.pages.card = m.freelist.length + d.pages.card := by
        have := congrArg Multiset.card hr.pages
        simpa only [Multiset.card_add, card_free] using this
      cases b with
      | true =>
          obtain ⟨d', m', h'⟩ := ih (m := m₁) (d := d₁) hes (hr.bare hb)
            (fun va h1 h2 => (hr.only va h2 (Or.inr h1)).trans (hd va (by omega) h2))
            (by omega)
          refine ⟨d', m', ?_⟩
          simp only [setupkvmLoop, he.size, hm, ok_bind, if_true]
          exact h'
      | false =>
          have hnil := hr.full rfl
          have hle := (hr.bare hb).card_le
          rw [hnil, List.length_nil] at hcard₁
          omega

theorem setupkvm_ok (h : 513 < m.freelist.length) :
    ∃ d m', setupkvm k m = .ok (some d, m') := by
  cases hk : kalloc m with
  | none =>
      rw [kalloc_none hk] at h
      cases h
  | some x =>
      obtain ⟨pg, m₁⟩ := x
      have hlen := kalloc_length hk
      obtain ⟨d, m', h'⟩ := setupkvmLoop_ok (k := k) (kmap_ascending k) (d := Pgdir.empty pg)
        (m := m₁) (fun _ _ => rfl) (fun _ _ _ => rfl)
        (by rw [empty_pages, Multiset.card_singleton]; omega)
      refine ⟨d, m', ?_⟩
      rw [setupkvm, hk]
      exact (if_neg (by decide)).trans h'

/-- An image before and after. -/
structure Loaded (m : Phys) (d : Pgdir) (m' : Phys) (d' : Pgdir) : Prop where
  pages : m'.free + d'.pages = m.free + d.pages
  guarded : d.Guarded → d'.Guarded

theorem Loaded.refl (m : Phys) (d : Pgdir) : Loaded m d m d := ⟨rfl, id⟩

theorem Loaded.trans {m₁ : Phys} {d₁ : Pgdir} (h : Loaded m d m₁ d₁) (h' : Loaded m₁ d₁ m' d') :
    Loaded m d m' d' :=
  ⟨h'.pages.trans h.pages, fun hd => h'.guarded (h.guarded hd)⟩

theorem Loaded.write {m₁ : Phys} (h : Loaded m d m₁ d') (hm : m'.free = m₁.free) :
    Loaded m d m' d' := ⟨by rw [hm]; exact h.pages, h.guarded⟩

theorem allocuvmLoop_spec {oldsz newsz sz : Nat} (hsz : newsz < KERNBASE) :
    ∀ (n : Nat) {m m' : Phys} {d d' : Pgdir} {a : Nat}, a % PGSIZE = 0 →
      allocuvmLoop k oldsz newsz n m d a = .ok (m', d', sz) →
      Loaded m d m' d' ∧ (sz = newsz ∨ sz = 0)
  | 0, m, m', d, d', a, _, h => by
      cases h
      exact ⟨Loaded.refl _ _, Or.inl rfl⟩
  | n + 1, m, m', d, d', a, hal, h => by
      rw [allocuvmLoop] at h
      split at h
      · next hlt =>
          split at h
          · obtain ⟨⟨m₁, d₁, sz₁⟩, hd, h⟩ := bind_eq_ok.mp h
            cases h
            obtain ⟨hs, -⟩ := deallocuvm_spec (Nat.le_of_lt hsz) hd
            exact ⟨⟨hs.pages, hs.guarded⟩, Or.inr rfl⟩
          · next pg m₁ hk =>
              obtain ⟨⟨m₂, d₂, b⟩, hm, h⟩ := bind_eq_ok.mp h
              obtain ⟨hp, hg, -⟩ := mappages_page hal (Nat.lt_trans hlt hsz) hm
              rw [free_setPage] at hp
              cases b with
              | true =>
                  obtain ⟨hl, hr⟩ := allocuvmLoop_spec hsz n
                    (by rw [Nat.add_mod_right]; exact hal) h
                  refine ⟨⟨?_, fun hd => hl.guarded (hg hd)⟩, hr⟩
                  rw [hl.pages, hp, kalloc_free hk, if_pos rfl]
                  abel
              | false =>
                  obtain ⟨⟨m₃, d₃, sz₃⟩, hd, h⟩ := bind_eq_ok.mp h
                  obtain ⟨m₄, hf, h⟩ := bind_eq_ok.mp h
                  cases h
                  obtain ⟨hs, -⟩ := deallocuvm_spec (Nat.le_of_lt hsz) hd
                  refine ⟨⟨?_, fun hd => hs.guarded (hg hd)⟩, Or.inr rfl⟩
                  rw [if_neg nofun, add_zero] at hp
                  rw [kfree_free hf, add_right_comm, hs.pages, hp, kalloc_free hk,
                    add_right_comm]
      · cases h
        exact ⟨Loaded.refl _ _, Or.inl rfl⟩

theorem allocuvm_spec {oldsz newsz sz : Nat}
    (h : allocuvm k m d oldsz newsz = .ok (m', d', sz)) :
    Loaded m d m' d' ∧ (oldsz < KERNBASE → sz < KERNBASE) := by
  rw [allocuvm] at h
  split at h
  · cases h
    exact ⟨Loaded.refl _ _, fun _ => by decide⟩
  · next hlt =>
      split at h
      · cases h
        exact ⟨Loaded.refl _ _, id⟩
      · have hlt := Nat.not_le.mp hlt
        obtain ⟨hl, hr⟩ := allocuvmLoop_spec hlt _ (PGROUNDUP_mod _) h
        exact ⟨hl, fun _ => hr.elim (fun he => he ▸ hlt) fun he => he ▸ by decide⟩

theorem copyuvmLoop_spec {sz : Nat} {r : Option Pgdir} (hsz : sz < KERNBASE) :
    ∀ (n : Nat) {m m' : Phys} {new : Pgdir} {i : Nat}, i % PGSIZE = 0 → new.Guarded →
      copyuvmLoop k d sz n m new i = .ok (r, m') →
      m'.free + dirPages r = m.free + new.pages ∧ ∀ d', r = some d' → d'.Guarded
  | 0, m, m', new, i, _, hnew, h => by
      cases h
      exact ⟨rfl, by rintro d' ⟨⟩; exact hnew⟩
  | n + 1, m, m', new, i, hal, hnew, h => by
      rw [copyuvmLoop] at h
      split at h
      · next hlt =>
          split at h
          · cases h
          · split at h
            · cases h
            · split at h
              · obtain ⟨m₁, hf, h⟩ := bind_eq_ok.mp h
                cases h
                exact ⟨by rw [dirPages, add_zero, freevm_free hf], nofun⟩
              · next pg m₁ hk =>
                  obtain ⟨⟨m₂, new₂, b⟩, hm, h⟩ := bind_eq_ok.mp h
                  obtain ⟨hp, hg, -⟩ := mappages_page hal (Nat.lt_trans hlt hsz) hm
                  rw [free_setPage] at hp
                  cases b with
                  | true =>
                      obtain ⟨h1, h2⟩ := copyuvmLoop_spec hsz n
                        (by rw [Nat.add_mod_right]; exact hal) (hg hnew) h
                      refine ⟨?_, h2⟩
                      rw [h1, hp, kalloc_free hk, if_pos rfl]
                      abel
                  | false =>
                      obtain ⟨m₃, hf₁, h⟩ := bind_eq_ok.mp h
                      obtain ⟨m₄, hf₂, h⟩ := bind_eq_ok.mp h
                      cases h
                      refine ⟨?_, nofun⟩
                      rw [if_neg nofun, add_zero] at hp
                      rw [dirPages, add_zero, freevm_free hf₂, kfree_free hf₁, add_right_comm,
                        hp, kalloc_free hk, add_right_comm]
      · cases h
        exact ⟨rfl, by rintro d' ⟨⟩; exact hnew⟩

theorem copyuvm_spec {sz : Nat} {r : Option Pgdir} (hsz : sz < KERNBASE)
    (h : copyuvm k m d sz = .ok (r, m')) :
    m'.free + dirPages r = m.free ∧ ∀ d', r = some d' → d'.Guarded := by
  obtain ⟨⟨r₁, m₁⟩, hs, h⟩ := bind_eq_ok.mp h
  obtain ⟨h1, h2⟩ := setupkvm_free hs
  cases r₁ with
  | none =>
      cases h
      exact ⟨h1, nofun⟩
  | some new =>
      obtain ⟨h3, h4⟩ := copyuvmLoop_spec hsz _ (Nat.zero_mod _) (h2 new rfl).1 h
      exact ⟨h3.trans h1, h4⟩

theorem mem_pages {e : Pte} (he : d.pte va = some e) (hlt : (PDX va).val < 512) :
    e.pa ∈ d.pages := by
  cases ht : d.tab (PDX va) with
  | none =>
      rw [Pgdir.pte, ht] at he
      cases he
  | some t =>
      rw [pte_some ht] at he
      rw [Pgdir.pages, Multiset.mem_add, Multiset.mem_sum]
      refine Or.inr ⟨PDX va, Finset.mem_univ _, ?_⟩
      rw [ht, tabPages, if_pos hlt, Multiset.mem_add, Multiset.mem_sum]
      refine Or.inr ⟨PTX va, Finset.mem_univ _, ?_⟩
      rw [he, ptePages]
      exact Multiset.mem_singleton_self _

-- from here on a directory's pages are only added up
attribute [irreducible] Pgdir.pages

end Xv6.Ref.Vm
