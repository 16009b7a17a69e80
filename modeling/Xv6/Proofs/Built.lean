import Xv6.Proofs.UserSpace

/-!
# Building an address space

`copyuvm` and `exec` build a directory from nothing, with pages from the free list, and
give it up when something fails. `Built` is the picture of such a directory while it grows;
`freevm` finds in it exactly what was taken.

Bytes are kept in two directions. While pages are only taken, those of a page that was not
free are untouched; while pages are only given back, those of a page that is still not free
(`Given`).
-/

namespace Xv6.Ref.Vm

open Xv6.Lib

variable {k : Kernel} {m m' m₀ : Phys} {d d' : Pgdir} {a pg top va : Nat}
  {perm : Nat → Perm} {img : Nat → UInt8}

/-! ## Giving pages back -/

/-- Pages have been given back, and the others hold what they held. -/
structure Given (m m' : Phys) : Prop where
  sub : m.freelist ⊆ m'.freelist
  mem : ∀ pg, pg ∉ m'.freelist → m'.mem pg = m.mem pg

theorem Given.refl (m : Phys) : Given m m := ⟨fun _ h => h, fun _ _ => rfl⟩

theorem Given.trans {m₁ : Phys} (h : Given m m₁) (h' : Given m₁ m') : Given m m' :=
  ⟨fun _ hpg => h'.sub (h.sub hpg), fun pg hpg => by
    rw [h'.mem pg hpg, h.mem pg fun hin => hpg (h'.sub hin)]⟩

theorem kfree_given (h : kfree k m pg = .ok m') : Given m m' := by
  obtain rfl := kfree_eq h
  refine ⟨fun q hq => List.mem_cons_of_mem _ hq, fun q hq => if_neg ?_⟩
  rintro rfl
  exact hq List.mem_cons_self

theorem freePages_given {as : List Nat} (h : freePages k as m d = .ok (m', d')) : Given m m' := by
  induction as generalizing m d with
  | nil =>
      cases h
      exact Given.refl _
  | cons a as ih =>
      rw [freePages] at h
      split at h
      · exact ih h
      · split at h
        · cases h
        · obtain ⟨m₁, hf, h⟩ := bind_eq_ok.mp h
          exact (kfree_given hf).trans (ih h)

theorem freeTables_given {is : List (Fin NPDENTRIES)} (h : freeTables k d m is = .ok m') :
    Given m m' := by
  induction is generalizing m with
  | nil =>
      cases h
      exact Given.refl _
  | cons i is ih =>
      rw [freeTables] at h
      split at h
      · exact ih h
      · obtain ⟨m₁, hf, h⟩ := bind_eq_ok.mp h
        exact (kfree_given hf).trans (ih h)

theorem freevm_given (h : freevm k m d = .ok m') : Given m m' := by
  obtain ⟨⟨m₁, d₁, sz⟩, hd, h⟩ := bind_eq_ok.mp h
  rw [deallocuvm_plain (by decide) (Nat.le_refl _)] at hd
  obtain ⟨⟨m₁', d₁'⟩, hf, he⟩ := map_eq_ok.mp hd
  cases he
  obtain ⟨m₂, ht, h⟩ := bind_eq_ok.mp h
  exact (freePages_given hf).trans ((freeTables_given ht).trans (kfree_given h))

/-- All that was taken is given back. -/
structure Returned (m m' : Phys) : Prop where
  free : m'.free = m.free
  mem : ∀ pg, pg ∉ m.freelist → m'.mem pg = m.mem pg

theorem Returned.perm_free (h : Returned m m') : m'.freelist.Perm m.freelist :=
  Multiset.coe_eq_coe.mp h.free

theorem Given.returned {m₁ : Phys} (h : Given m₁ m') (hfree : m'.free = m.free)
    (hmem : ∀ pg, pg ∉ m.freelist → m₁.mem pg = m.mem pg) : Returned m m' := by
  have hperm : m'.freelist.Perm m.freelist := Multiset.coe_eq_coe.mp hfree
  refine ⟨hfree, fun pg hpg => ?_⟩
  rw [h.mem pg fun hin => hpg (hperm.mem_iff.mp hin), hmem pg hpg]

/-! ## `setupkvm` -/

theorem setupkvmLoop_mem {r : Option Pgdir} {lo : Nat} {es : List Kmap} (hes : Ascending lo es)
    (hphys : ∀ e ∈ es, e.physStart < 2 ^ 32) (h : setupkvmLoop k es m d = .ok (r, m')) :
    (r ≠ none → m'.mem = m.mem ∧ m'.freelist <:+ m.freelist) ∧
      (r = none → ∃ m₁, m₁.mem = m.mem ∧ Given m₁ m') := by
  induction es generalizing m d lo with
  | nil =>
      cases h
      exact ⟨fun _ => ⟨rfl, List.suffix_refl _⟩, nofun⟩
  | cons e es ih =>
      obtain ⟨⟨m₁, d₁, b⟩, hm, h⟩ := bind_eq_ok.mp h
      obtain ⟨n, he, -, hes⟩ := hes
      rw [he.size] at hm
      have hw := (mappages_mapped he.pos he.hi (hphys e List.mem_cons_self) hm).walked
      cases b with
      | true =>
          obtain ⟨h1, h2⟩ := ih hes (fun e' he' => hphys e' (List.mem_cons_of_mem _ he')) h
          refine ⟨fun hr => ?_, fun hr => ?_⟩
          · obtain ⟨hmem, hsuf⟩ := h1 hr
            exact ⟨hmem.trans hw.mem, hsuf.trans hw.suffix⟩
          · obtain ⟨m₂, hmem, hg⟩ := h2 hr
            exact ⟨m₂, hmem.trans hw.mem, hg⟩
      | false =>
          obtain ⟨m₂, hf, h⟩ := bind_eq_ok.mp h
          cases h
          exact ⟨fun hr => absurd rfl hr, fun _ => ⟨m₁, hw.mem, freevm_given hf⟩⟩

theorem setupkvm_some (h : setupkvm k m = .ok (some d, m')) :
    m'.mem = m.mem ∧ m'.freelist <:+ m.freelist := by
  rw [setupkvm] at h
  split at h
  · cases h
  · next pg m₁ hk =>
      rw [if_neg (by decide)] at h
      obtain ⟨hcons, hmem⟩ := kalloc_cons hk
      obtain ⟨h1, h2⟩ := (setupkvmLoop_mem (kmap_ascending k) (kmap_physStart k) h).1 (by rintro ⟨⟩)
      exact ⟨h1.trans hmem, h2.trans (hcons ▸ List.suffix_cons _ _)⟩

theorem setupkvm_none (h : setupkvm k m = .ok (none, m')) : Returned m m' := by
  have hfree := (setupkvm_free h).1
  rw [dirPages, add_zero] at hfree
  rw [setupkvm] at h
  split at h
  · cases h
    exact ⟨rfl, fun _ _ => rfl⟩
  · next pg m₁ hk =>
      rw [if_neg (by decide)] at h
      obtain ⟨m₂, hmem, hg⟩ := (setupkvmLoop_mem (kmap_ascending k) (kmap_physStart k) h).2 rfl
      refine hg.returned hfree fun q _ => ?_
      rw [hmem, (kalloc_cons hk).2]

theorem kernelPte_user (h : va < KERNBASE) : kernelPte k va = none := by
  rw [kernelPte, if_neg fun hc => absurd hc.1 (Nat.not_le.mpr h),
    if_neg (Nat.not_le.mpr (Nat.lt_trans h (by decide)))]

/-- Nothing of the kernel is the user's. -/
theorem kernelPte_perm {e : Pte} (h : kernelPte k va = some e) : e.perm.u = false := by
  rw [kernelPte] at h
  split at h
  · rw [← Option.some.inj h]
  · split at h
    · rw [← Option.some.inj h]
    · cases h

/-- A new directory is an empty picture. -/
theorem setupkvm_space (h : setupkvm k m = .ok (some d, m')) (perm : Nat → Perm)
    (img : Nat → UInt8) : Space k m' d 0 perm img :=
  ⟨Nat.zero_le _, fun _ hva => absurd hva (Nat.not_lt_zero _), fun va _ hva => by
    rw [setupkvm_pte h (lt_of_user hva), kernelPte_user hva],
    fun _ _ _ _ hva => absurd hva (Nat.not_lt_zero _)⟩

/-! ## A new picture -/

/-- One more page of a picture. -/
theorem Space.page {pr : Perm} {b : Nat → UInt8} (h : Space k m d a perm img) (hpool : Pool k m)
    (hal : a % PGSIZE = 0) (ha : a < KERNBASE) (hp : PageAdded a pg pr b m d m' d')
    (hperm : ∀ va, a ≤ va → va < a + PGSIZE → perm va = pr)
    (himg : ∀ va, a ≤ va → va < a + PGSIZE → img va = b (va % PGSIZE)) :
    Space k m' d' (a + PGSIZE) perm img := by
  have hal' : a % 4096 = 0 := hal
  have hle : a + PGSIZE ≤ KERNBASE := by
    have ha : a < 0x80000000 := ha
    show a + 4096 ≤ 0x80000000
    omega
  have hbelow : ∀ va, va < a → d'.pte va = d.pte va := fun va hva =>
    hp.outside va (lt_of_user (Nat.lt_trans hva ha)) (Or.inl hva)
  have hapart : ∀ va va' e e', va < a → a ≤ va' → va' < a + PGSIZE → d'.pte va = some e →
      d'.pte va' = some e' → e.pa ≠ e'.pa := by
    intro va va' e e' h1 h2 h3 he he' hpa
    obtain ⟨q, hq, -, hf, -⟩ := h.mapped va h1
    rw [hbelow va h1, hq] at he
    rw [hp.inside va' h2 h3] at he'
    cases he
    cases he'
    obtain rfl : q = pg := hpa
    exact hf hp.taken
  refine ⟨hle, fun va hva => ?_, fun va h1 h2 => ?_, fun va va' e e' h1 h2 he he' hpa => ?_⟩
  · rcases Nat.lt_or_ge va a with hlo | hlo
    · obtain ⟨q, hq, hu, hf, hb⟩ := h.mapped va hlo
      obtain ⟨hf', hmem⟩ := hp.kept hf
      exact ⟨q, by rw [hbelow va hlo, hq], hu, hf', by rw [hmem, hb]⟩
    · refine ⟨pg, ?_, hpool.usable pg hp.taken, hp.gone, ?_⟩
      · rw [hp.inside va hlo hva, hperm va hlo hva]
      · rw [hp.mem pg, if_pos rfl, himg va hlo hva]
  · rw [hp.outside va (lt_of_user h2) (Or.inr h1),
      h.unmapped va (Nat.le_trans (Nat.le_add_right _ _) h1) h2]
  · rcases Nat.lt_or_ge va a with hlo | hlo <;> rcases Nat.lt_or_ge va' a with hlo' | hlo'
    · rw [hbelow va hlo] at he
      rw [hbelow va' hlo'] at he'
      exact h.inj va va' e e' hlo hlo' he he' hpa
    · exact absurd hpa (hapart va va' e e' hlo hlo' h2 he he')
    · exact absurd hpa.symm (hapart va' va e' e hlo' hlo h1 he' he)
    · have h1 : va < a + 4096 := h1
      have h2 : va' < a + 4096 := h2
      show va / 4096 = va' / 4096
      omega

/-- A picture below `a` made of pages that were free in `m₀`. -/
structure Built (k : Kernel) (perm : Nat → Perm) (img : Nat → UInt8) (m₀ : Phys) (a : Nat)
    (m : Phys) (d : Pgdir) : Prop where
  space : Space k m d a perm img
  suffix : m.freelist <:+ m₀.freelist
  fresh : ∀ va e, va < a → d.pte va = some e → e.pa ∈ m₀.freelist
  mem : ∀ pg, pg ∉ m₀.freelist → m.mem pg = m₀.mem pg
  kernel : ∀ va, KERNBASE ≤ va → va < 2 ^ 32 → d.pte va = kernelPte k va
  pages : m.free + d.pages = m₀.free

theorem Built.page {m₁ m₂ : Phys} {d₂ : Pgdir} {pr : Perm} {b : Nat → UInt8}
    (h : Built k perm img m₀ a m d) (hpool : Pool k m₀) (hal : a % PGSIZE = 0)
    (ha : a < KERNBASE) (hk : kalloc m = some (pg, m₁))
    (hm : mappages (m₁.setPage pg b) d a PGSIZE pg pr = .ok (m₂, d₂, true))
    (hperm : ∀ va, a ≤ va → va < a + PGSIZE → perm va = pr)
    (himg : ∀ va, a ≤ va → va < a + PGSIZE → img va = b (va % PGSIZE)) :
    Built k perm img m₀ (a + PGSIZE) m₂ d₂ := by
  have hpool' := hpool.suffix h.suffix
  have hp := page_added hpool' hal ha hk hm
  have hspace := h.space.page hpool' hal ha hp hperm himg
  refine ⟨hspace, hp.suffix.trans h.suffix, fun va e hva he => ?_, fun q hq => ?_,
    fun va h1 h2 => ?_, ?_⟩
  · rcases Nat.lt_or_ge va a with hlo | hlo
    · rw [hp.outside va (lt_of_user (Nat.lt_trans hlo ha)) (Or.inl hlo)] at he
      exact h.fresh va e hlo he
    · rw [hp.inside va hlo hva] at he
      cases he
      exact h.suffix.subset hp.taken
  · rw [(hp.kept fun hin => hq (h.suffix.subset hin)).2, h.mem q hq]
  · rw [hp.outside va h2 (Or.inr (Nat.le_trans hspace.le h1)), h.kernel va h1 h2]
  · have hfree := (mappages_page hal ha hm).1
    rw [if_pos rfl, free_setPage] at hfree
    rw [hfree, ← h.pages, kalloc_free hk]
    abel

/-- Giving up a directory whose pages came from the free list. -/
theorem freevm_returned (hpool : Pool k m₀) (hpages : m.free + d.pages = m₀.free)
    (hmem : ∀ pg, pg ∉ m₀.freelist → m.mem pg = m₀.mem pg) :
    ∃ m', freevm k m d = .ok m' ∧ Returned m₀ m' := by
  obtain ⟨m', hf⟩ := freevm_ok (k := k) (m := m) (d := d) fun pg hpg => by
    refine hpool.usable pg (Multiset.mem_coe.mp ?_)
    have hin : pg ∈ m.free + d.pages := Multiset.mem_add.mpr (Or.inr hpg)
    rw [hpages] at hin
    exact hin
  exact ⟨m', hf, (freevm_given hf).returned (by rw [freevm_free hf, hpages]) hmem⟩

theorem setupkvm_built (h : setupkvm k m = .ok (some d, m')) : Built k perm img m 0 m' d := by
  obtain ⟨hmem, hsuf⟩ := setupkvm_some h
  exact ⟨setupkvm_space h perm img, hsuf, fun va _ hva => absurd hva (Nat.not_lt_zero va),
    fun pg _ => by rw [hmem], fun va _ hva => setupkvm_pte h hva, (setupkvm_free h).1⟩

end Xv6.Ref.Vm
