import Xv6.Proofs.VmMap

/-!
# Growing and shrinking user memory

`allocuvm` takes the pages it maps from the free list, so they are different and in no
one's use; that and what the entries are is carried round its loop by `Extended`. When
it runs out of pages the same invariant says that `deallocuvm` finds exactly the pages
that were added, and the directory translates as it did before.
-/

namespace Xv6.Ref.Vm

open Xv6.Lib

variable {k : Kernel} {m m' m₀ : Phys} {d d' d₀ : Pgdir} {pg va a lo : Nat} {perm : Perm}

/-- The free list of a running kernel. -/
structure Pool (k : Kernel) (m : Phys) : Prop where
  nodup : m.freelist.Nodup
  usable : ∀ pg ∈ m.freelist, usable k pg

theorem kalloc_cons (h : kalloc m = some (pg, m')) :
    m.freelist = pg :: m'.freelist ∧ m'.mem = m.mem := by
  rw [kalloc] at h
  split at h
  · cases h
  · next hl =>
      cases h
      exact ⟨hl, rfl⟩

/-- One page, which a missing table can keep from being mapped. -/
theorem mappages_one (hva : va % PGSIZE = 0) (hlt : va < KERNBASE) :
    mappages m d va PGSIZE pg perm =
      match walkpgdir m d va true with
      | none => .ok (m, d, false)
      | some (m, d) =>
          match d.pte va with
          | some _ => .error .remap
          | none => .ok (m, d.setPte va (some ⟨pg, perm⟩), true) := by
  have hend : va + PGSIZE ≤ 2 ^ 32 := by
    have hlt : va < 0x80000000 := hlt
    show va + 4096 ≤ 2 ^ 32
    omega
  rw [mappages_aligned m d hva (by decide) (by decide) hend, show PGSIZE / PGSIZE - 1 = 0 from rfl,
    Nat.zero_mul, Nat.add_zero]
  exact mappagesLoop_last _

theorem mappages_fails (hva : va % PGSIZE = 0) (hlt : va < KERNBASE)
    (h : mappages m d va PGSIZE pg perm = .ok (m', d', false)) : m' = m ∧ d' = d := by
  rw [mappages_one hva hlt] at h
  split at h
  · cases h
    exact ⟨rfl, rfl⟩
  · split at h
    · cases h
    · cases h

theorem Pool.suffix (h : Pool k m) (hs : m'.freelist <:+ m.freelist) : Pool k m' :=
  ⟨h.nodup.sublist hs.sublist, fun pg hpg => h.usable pg (hs.subset hpg)⟩

/-- A page from the free list, with the bytes `b`, is mapped at `a`. -/
structure PageAdded (a pg : Nat) (perm : Perm) (b : Nat → UInt8) (m : Phys) (d : Pgdir) (m' : Phys)
    (d' : Pgdir) : Prop where
  taken : pg ∈ m.freelist
  gone : pg ∉ m'.freelist
  suffix : m'.freelist <:+ m.freelist
  mem : ∀ q, m'.mem q = if q = pg then b else m.mem q
  inside : ∀ va, a ≤ va → va < a + PGSIZE → d'.pte va = some ⟨pg, perm⟩
  outside : ∀ va, va < 2 ^ 32 → va < a ∨ a + PGSIZE ≤ va → d'.pte va = d.pte va

theorem PageAdded.kept {b : Nat → UInt8} (h : PageAdded a pg perm b m d m' d') {q : Nat}
    (hq : q ∉ m.freelist) : q ∉ m'.freelist ∧ m'.mem q = m.mem q := by
  refine ⟨fun hin => hq (h.suffix.subset hin), ?_⟩
  rw [h.mem q, if_neg]
  rintro rfl
  exact hq h.taken

theorem page_added {m₁ m₂ : Phys} {d₂ : Pgdir} {b : Nat → UInt8} (hpool : Pool k m)
    (hal : a % PGSIZE = 0) (hlt : a < KERNBASE) (hk : kalloc m = some (pg, m₁))
    (hm : mappages (m₁.setPage pg b) d a PGSIZE pg perm = .ok (m₂, d₂, true)) :
    PageAdded a pg perm b m d m₂ d₂ := by
  obtain ⟨hcons, hmem₁⟩ := kalloc_cons hk
  have hpg : pg ∈ m.freelist := hcons ▸ List.mem_cons_self
  have hpg₁ : pg ∉ m₁.freelist := by
    have hnd := hpool.nodup
    rw [hcons] at hnd
    exact (List.nodup_cons.mp hnd).1
  have hlt' : a < 0x80000000 := hlt
  have hpg32 : pg < 2 ^ 32 := by
    have : pg < 0xE000000 := (hpool.usable pg hpg).2.2
    omega
  have hr := mappages_mapped (by decide) (by show a + 4096 ≤ 2 ^ 32; omega) hpg32 hm
  have hlast : PGROUNDDOWN (a + PGSIZE - 1) + PGSIZE = a + PGSIZE := by
    have hal : a % 4096 = 0 := hal
    show (a + 4096 - 1) / 4096 * 4096 + 4096 = a + 4096
    omega
  rw [aligned_down hal, hlast] at hr
  have hsub₂ : m₂.freelist <:+ m₁.freelist := hr.walked.suffix
  refine ⟨hpg, fun hin => hpg₁ (hsub₂.subset hin), hsub₂.trans (hcons ▸ List.suffix_cons _ _),
    fun q => ?_, fun va h1 h2 => ?_, hr.outside⟩
  · rw [hr.walked.mem]
    show (if q = pg then b else m₁.mem q) = _
    rw [hmem₁]
  · rw [hr.inside rfl va h1 h2, first_page hal h1 h2 hpg32]

/-- The addresses from `lo` to `a` have got pages from the free list of `m₀`. -/
structure Extended (lo a : Nat) (m₀ : Phys) (d₀ : Pgdir) (m : Phys) (d : Pgdir) : Prop where
  suffix : m.freelist <:+ m₀.freelist
  outside : ∀ va, va < 2 ^ 32 → va < lo ∨ a ≤ va → d.pte va = d₀.pte va
  inside : ∀ va, lo ≤ va → va < a → ∃ pg, d.pte va = some ⟨pg, ⟨true, true⟩⟩ ∧
    pg ∈ m₀.freelist ∧ pg ∉ m.freelist ∧ ∀ o, m.mem pg o = 0
  inj : ∀ va va' e e', lo ≤ va → va < a → lo ≤ va' → va' < a → d.pte va = some e →
    d.pte va' = some e' → e.pa = e'.pa → va / PGSIZE = va' / PGSIZE
  mem : ∀ pg, pg ∉ m₀.freelist → m.mem pg = m₀.mem pg

theorem Extended.refl (lo : Nat) (m : Phys) (d : Pgdir) : Extended lo lo m d m d :=
  ⟨List.suffix_refl _, fun _ _ _ => rfl, fun va h1 h2 => by omega,
    fun va _ _ _ h1 h2 => by omega, fun _ _ => rfl⟩

/-- One more page. -/
theorem Extended.page {m₂ : Phys} {d₂ : Pgdir} (h : Extended lo a m₀ d₀ m d) (hle : lo ≤ a)
    (hal : a % PGSIZE = 0) (hlt : a < KERNBASE)
    (hp : PageAdded a pg ⟨true, true⟩ (fun _ => 0) m d m₂ d₂) :
    Extended lo (a + PGSIZE) m₀ d₀ m₂ d₂ := by
  have hlt' : a < 0x80000000 := hlt
  have hpg₀ : pg ∈ m₀.freelist := h.suffix.subset hp.taken
  -- a page mapped before is not the one on the free list
  have hother : ∀ va, lo ≤ va → va < a → ∃ q, d₂.pte va = some ⟨q, ⟨true, true⟩⟩ ∧ q ≠ pg ∧
      q ∈ m₀.freelist ∧ q ∉ m₂.freelist ∧ ∀ o, m₂.mem q o = 0 := by
    intro va h1 h2
    obtain ⟨q, hq, hq₀, hqm, hzero⟩ := h.inside va h1 h2
    obtain ⟨hqm₂, hmem⟩ := hp.kept hqm
    have hne : q ≠ pg := by
      rintro rfl
      exact hqm hp.taken
    refine ⟨q, ?_, hne, hq₀, hqm₂, fun o => ?_⟩
    · rw [hp.outside va (by omega) (Or.inl h2), hq]
    · rw [hmem]
      exact hzero o
  refine ⟨hp.suffix.trans h.suffix, fun va hva hout => ?_, fun va h1 h2 => ?_,
    fun va va' e e' h1 h2 h1' h2' he he' hpa => ?_, fun q hq => ?_⟩
  · rcases hout with hout | hout
    · rw [hp.outside va hva (Or.inl (by omega)), h.outside va hva (Or.inl hout)]
    · have hge : a ≤ va := Nat.le_trans (Nat.le_add_right _ _) hout
      rw [hp.outside va hva (Or.inr hout), h.outside va hva (Or.inr hge)]
  · rcases Nat.lt_or_ge va a with hlt | hge
    · obtain ⟨q, hq, -, hrest⟩ := hother va h1 hlt
      exact ⟨q, hq, hrest⟩
    · refine ⟨pg, hp.inside va hge h2, hpg₀, hp.gone, fun o => ?_⟩
      rw [hp.mem, if_pos rfl]
  · have hal : a % 4096 = 0 := hal
    have h2 : va < a + 4096 := h2
    have h2' : va' < a + 4096 := h2'
    rcases Nat.lt_or_ge va a with hlt | hge <;> rcases Nat.lt_or_ge va' a with hlt' | hge'
    · rw [hp.outside va (by omega) (Or.inl hlt)] at he
      rw [hp.outside va' (by omega) (Or.inl hlt')] at he'
      exact h.inj va va' e e' h1 hlt h1' hlt' he he' hpa
    · obtain ⟨q, hq, hne, -⟩ := hother va h1 hlt
      rw [hq] at he
      rw [hp.inside va' hge' h2'] at he'
      cases he
      cases he'
      exact absurd hpa hne
    · obtain ⟨q, hq, hne, -⟩ := hother va' h1' hlt'
      rw [hq] at he'
      rw [hp.inside va hge h2] at he
      cases he
      cases he'
      exact absurd hpa.symm hne
    · show va / 4096 = va' / 4096
      omega
  · have hqm : q ∉ m.freelist := fun hin => hq (h.suffix.subset hin)
    rw [(hp.kept hqm).2]
    exact h.mem q hq

/-- A page is taken that is not mapped after all. -/
theorem Extended.took {m₁ : Phys} {b : Nat → UInt8} (h : Extended lo a m₀ d₀ m d)
    (hk : kalloc m = some (pg, m₁)) :
    pg ∈ m₀.freelist ∧ Extended lo a m₀ d₀ (m₁.setPage pg b) d := by
  obtain ⟨hcons, hmem₁⟩ := kalloc_cons hk
  have hpg : pg ∈ m.freelist := hcons ▸ List.mem_cons_self
  have hpg₀ : pg ∈ m₀.freelist := h.suffix.subset hpg
  have hsub₁ : m₁.freelist <:+ m.freelist := hcons ▸ List.suffix_cons _ _
  have hset : ∀ q, q ≠ pg → (m₁.setPage pg b).mem q = m.mem q := by
    intro q hne
    show (if q = pg then b else m₁.mem q) = m.mem q
    rw [if_neg hne, hmem₁]
  refine ⟨hpg₀, hsub₁.trans h.suffix, h.outside, fun va h1 h2 => ?_, h.inj, fun q hq => ?_⟩
  · obtain ⟨q, hq, hq₀, hqm, hzero⟩ := h.inside va h1 h2
    refine ⟨q, hq, hq₀, fun hin => hqm (hsub₁.subset hin), fun o => ?_⟩
    rw [hset q fun he => hqm (he ▸ hpg)]
    exact hzero o
  · rw [hset q fun he => hq (he ▸ hpg₀)]
    exact h.mem q hq

/-- `deallocuvm` takes back what was added. -/
theorem Extended.undo {oldsz newsz : Nat} (h : Extended (PGROUNDUP oldsz) a m₀ d₀ m d)
    (hpool : Pool k m₀) (hlt : oldsz < newsz) (hsz : newsz < KERNBASE) (hle : a ≤ PGROUNDUP newsz)
    (hnone : ∀ va, PGROUNDUP oldsz ≤ va → va < KERNBASE → d₀.pte va = none) :
    ∃ m' d', deallocuvm k m d newsz oldsz = .ok (m', d', oldsz) ∧
      (∀ va, va < 2 ^ 32 → d'.pte va = d₀.pte va) ∧
      (∀ pg, pg ∉ m₀.freelist → m'.mem pg = m₀.mem pg) ∧ m'.freelist ⊆ m₀.freelist := by
  have hsz' : newsz < 0x80000000 := hsz
  have hpages := pagesTo_pages (PGROUNDUP_mod oldsz) (Nat.le_of_lt hsz)
  have hfound : ∀ x ∈ pagesTo newsz (PGROUNDUP oldsz), ∀ e, d.pte x = some e →
      e.pa ∈ m₀.freelist := by
    intro x hx e he
    obtain ⟨i, hi, hltx⟩ := mem_pagesTo.mp hx
    have hlo : PGROUNDUP oldsz ≤ x := hi ▸ Nat.le_add_right _ _
    rcases Nat.lt_or_ge x a with hxa | hxa
    · obtain ⟨pg, hpg, hin, -⟩ := h.inside x hlo hxa
      rw [hpg] at he
      cases he
      exact hin
    · rw [h.outside x (by omega) (Or.inr hxa), hnone x hlo (Nat.lt_trans hltx hsz)] at he
      cases he
  have hpresent : ∀ pg ∈ present d (pagesTo newsz (PGROUNDUP oldsz)), pg ∈ m₀.freelist := by
    intro pg hin
    obtain ⟨x, hx, hmap⟩ := List.mem_filterMap.mp hin
    obtain ⟨e, he, rfl⟩ := Option.map_eq_some_iff.mp hmap
    exact hfound x hx e he
  obtain ⟨⟨m', d'⟩, hf⟩ := freePages_ok (k := k) (m := m) hpages fun x hx e he =>
    hpool.usable _ (hfound x hx e he)
  have hfreed := freePages_freed hpages hf
  refine ⟨m', d', by rw [deallocuvm_plain hlt (Nat.le_of_lt hsz), hf]; rfl, fun va hva => ?_,
    fun pg hpg => ?_, fun pg hpg => ?_⟩
  · rw [hfreed.pte va hva]
    split
    · next hin =>
        obtain ⟨hlo, hdown⟩ := (down_mem_pagesTo (PGROUNDUP_mod oldsz)).mp hin
        refine (hnone va hlo ?_).symm
        have hdown : va / 4096 * 4096 < newsz := hdown
        show va < 0x80000000
        omega
    · next hin =>
        refine h.outside va hva ?_
        rcases Nat.lt_or_ge va (PGROUNDUP oldsz) with hlo | hlo
        · exact Or.inl hlo
        · refine Or.inr (Nat.le_trans hle ?_)
          have hdown : newsz ≤ va / 4096 * 4096 := Nat.not_lt.mp fun hc =>
            hin ((down_mem_pagesTo (PGROUNDUP_mod oldsz)).mpr ⟨hlo, hc⟩)
          show (newsz + 4096 - 1) / 4096 * 4096 ≤ va
          omega
  · rw [hfreed.mem pg, if_neg fun hin => hpg (hpresent pg hin), h.mem pg hpg]
  · rw [hfreed.freelist, List.mem_append, List.mem_reverse] at hpg
    exact hpg.elim (hpresent pg) fun hin => h.suffix.subset hin

theorem allocuvmLoop_exact {oldsz newsz : Nat} (hpool : Pool k m₀) (hsz : newsz < KERNBASE)
    (hnone : ∀ va, PGROUNDUP oldsz ≤ va → va < KERNBASE → d₀.pte va = none) (n : Nat) :
    ∀ {m : Phys} {d : Pgdir} {a : Nat}, Extended (PGROUNDUP oldsz) a m₀ d₀ m d →
      PGROUNDUP oldsz ≤ a → a ≤ PGROUNDUP newsz → a % PGSIZE = 0 → newsz ≤ a + n * PGSIZE →
      ∃ m' d' r, allocuvmLoop k oldsz newsz n m d a = .ok (m', d', r) ∧
        (r = newsz ∧ Extended (PGROUNDUP oldsz) (PGROUNDUP newsz) m₀ d₀ m' d' ∨
          r = 0 ∧ (∀ va, va < 2 ^ 32 → d'.pte va = d₀.pte va) ∧
            (∀ pg, pg ∉ m₀.freelist → m'.mem pg = m₀.mem pg) ∧ m'.freelist ⊆ m₀.freelist) := by
  -- at the end of the loop the last page begins below `newsz`
  have hdone : ∀ {a : Nat}, a % PGSIZE = 0 → a ≤ PGROUNDUP newsz → newsz ≤ a →
      a = PGROUNDUP newsz := by
    intro a hal hle hge
    have hal : a % 4096 = 0 := hal
    have hle : a ≤ (newsz + 4096 - 1) / 4096 * 4096 := hle
    show a = (newsz + 4096 - 1) / 4096 * 4096
    omega
  induction n with
  | zero =>
      intro m d a h _ hle hal hge
      rw [Nat.zero_mul, Nat.add_zero] at hge
      obtain rfl := hdone hal hle hge
      exact ⟨m, d, newsz, rfl, Or.inl ⟨rfl, h⟩⟩
  | succ n ih =>
      intro m d a h hlo hle hal hfuel
      rw [allocuvmLoop]
      split
      · next hlt =>
          have hgrow : oldsz < newsz := by
            have hlo : (oldsz + 4096 - 1) / 4096 * 4096 ≤ a := hlo
            omega
          have hlt' := Nat.lt_trans hlt hsz
          cases hk : kalloc m with
          | none =>
              obtain ⟨m', d', hd, hundo⟩ := h.undo hpool hgrow hsz hle hnone
              refine ⟨m', d', 0, ?_, Or.inr ⟨rfl, hundo⟩⟩
              simp only [hd, ok_bind]
          | some x =>
              obtain ⟨pg, m₁⟩ := x
              obtain ⟨⟨m₂, d₂, b⟩, hm⟩ : ∃ r, mappages (m₁.setPage pg fun _ => 0) d a PGSIZE pg
                  ⟨true, true⟩ = .ok r := by
                have hlt32 : a < 0x80000000 := hlt'
                have hal' : a % 4096 = 0 := hal
                refine mappages_ok (by decide) (by show a + 4096 ≤ 2 ^ 32; omega) fun x h1 h2 => ?_
                rw [aligned_down hal] at h1
                have h2 : x < (a + 4096 - 1) / 4096 * 4096 + 4096 := h2
                rw [h.outside x (by omega) (Or.inr h1)]
                refine hnone x (Nat.le_trans hlo h1) ?_
                show x < 0x80000000
                omega
              simp only [hm, ok_bind]
              cases b with
              | true =>
                  refine ih (h.page hlo hal hlt' (page_added (hpool.suffix h.suffix) hal hlt' hk hm))
                    (Nat.le_trans hlo (Nat.le_add_right _ _)) ?_ ?_ ?_
                  · have hal : a % 4096 = 0 := hal
                    show a + 4096 ≤ (newsz + 4096 - 1) / 4096 * 4096
                    omega
                  · rw [Nat.add_mod_right]
                    exact hal
                  · have hfuel : newsz ≤ a + (n + 1) * 4096 := hfuel
                    show newsz ≤ a + 4096 + n * 4096
                    omega
              | false =>
                  obtain ⟨rfl, rfl⟩ := mappages_fails hal hlt' hm
                  obtain ⟨hin, htook⟩ := h.took (b := fun _ => 0) hk
                  obtain ⟨m', d', hd, hpte, hmem, hsub⟩ := htook.undo hpool hgrow hsz hle hnone
                  refine ⟨{ m'.setPage pg (fun _ => 1) with freelist := pg :: m'.freelist }, d', 0,
                    ?_, Or.inr ⟨rfl, hpte, fun q hq => ?_, List.cons_subset.mpr ⟨hin, hsub⟩⟩⟩
                  · simp [hd, kfree_ok (hpool.usable pg hin)]
                  · have hne : q ≠ pg := by
                      rintro rfl
                      exact hq hin
                    show (if q = pg then _ else m'.mem q) = m₀.mem q
                    rw [if_neg hne, hmem q hq]
      · next hge =>
          obtain rfl := hdone hal hle (Nat.not_lt.mp hge)
          exact ⟨m, d, newsz, rfl, Or.inl ⟨rfl, h⟩⟩

/-- Everything is as before, but for tables that were added. -/
structure Undone (m₀ : Phys) (d₀ : Pgdir) (m : Phys) (d : Pgdir) : Prop where
  pte : ∀ va, va < 2 ^ 32 → d.pte va = d₀.pte va
  mem : ∀ pg, pg ∉ m₀.freelist → m.mem pg = m₀.mem pg
  sub : m.freelist ⊆ m₀.freelist
  tables : m.free + d.tables = m₀.free + d₀.tables

theorem undone_of_pte (hpte : ∀ va, va < 2 ^ 32 → d.pte va = d₀.pte va)
    (hmem : ∀ pg, pg ∉ m₀.freelist → m.mem pg = m₀.mem pg) (hsub : m.freelist ⊆ m₀.freelist)
    (hpages : m.free + d.pages = m₀.free + d₀.pages) : Undone m₀ d₀ m d := by
  refine ⟨hpte, hmem, hsub, ?_⟩
  have huser : d.user = d₀.user := user_congr fun va hva => hpte va (by
    have hva : va < 0x80000000 := hva
    omega)
  rw [pages_eq, pages_eq, huser, ← add_assoc, ← add_assoc] at hpages
  exact add_right_cancel hpages

theorem allocuvm_exact {oldsz newsz : Nat} (hpool : Pool k m) (hle : oldsz ≤ newsz)
    (hsz : newsz < KERNBASE)
    (hnone : ∀ va, PGROUNDUP oldsz ≤ va → va < KERNBASE → d.pte va = none) :
    ∃ m' d' r, allocuvm k m d oldsz newsz = .ok (m', d', r) ∧
      (r = newsz ∧ Extended (PGROUNDUP oldsz) (PGROUNDUP newsz) m d m' d' ∨
        r = 0 ∧ Undone m d m' d') := by
  have hup : PGROUNDUP oldsz ≤ PGROUNDUP newsz := by
    show (oldsz + 4096 - 1) / 4096 * 4096 ≤ (newsz + 4096 - 1) / 4096 * 4096
    omega
  have hfuel : newsz ≤ PGROUNDUP oldsz + (newsz / PGSIZE + 1) * PGSIZE := by
    have : newsz ≤ (newsz / PGSIZE + 1) * PGSIZE := by
      show newsz ≤ (newsz / 4096 + 1) * 4096
      omega
    exact Nat.le_trans this (Nat.le_add_left _ _)
  obtain ⟨m', d', r, hl, hr⟩ := allocuvmLoop_exact hpool hsz hnone (newsz / PGSIZE + 1)
    (Extended.refl _ m d) (Nat.le_refl _) hup (PGROUNDUP_mod _) hfuel
  have ha : allocuvm k m d oldsz newsz = .ok (m', d', r) := by
    rw [allocuvm, if_neg (Nat.not_le.mpr hsz), if_neg (Nat.not_lt.mpr hle), hl]
  refine ⟨m', d', r, ha, hr.imp id ?_⟩
  rintro ⟨hz, hpte, hmem, hsub⟩
  exact ⟨hz, undone_of_pte hpte hmem hsub (allocuvm_spec ha).1.pages⟩

/-- `allocuvm` maps exactly the new pages or takes everything back; `deallocuvm`, for every
directory, is the plain loop over the pages, and frees each page of it once. -/
theorem user_memory_exact :
    (∀ (k : Kernel) (m : Phys) (d : Pgdir) (oldsz newsz : Nat), Pool k m →
      (∀ va, PGROUNDUP oldsz ≤ va → va < KERNBASE → d.pte va = none) →
      oldsz ≤ newsz → newsz < KERNBASE →
      ∃ m' d' r, allocuvm k m d oldsz newsz = .ok (m', d', r) ∧
        (r = newsz ∧ Extended (PGROUNDUP oldsz) (PGROUNDUP newsz) m d m' d' ∨
          r = 0 ∧ Undone m d m' d')) ∧
    ∀ (k : Kernel) (m : Phys) (d : Pgdir) (oldsz newsz : Nat), newsz < oldsz → oldsz ≤ KERNBASE →
      deallocuvm k m d oldsz newsz =
        (freePages k (pagesTo oldsz (PGROUNDUP newsz)) m d).map (fun r => (r.1, r.2, newsz)) ∧
      (∀ m' d' r, deallocuvm k m d oldsz newsz = .ok (m', d', r) →
        r = newsz ∧ Freed (pagesTo oldsz (PGROUNDUP newsz)) m d m' d') ∧
      ((∀ a ∈ pagesTo oldsz (PGROUNDUP newsz), ∀ e, d.pte a = some e → usable k e.pa) →
        ∃ x, deallocuvm k m d oldsz newsz = .ok x) := by
  refine ⟨fun k m d oldsz newsz hpool hnone hle hsz => allocuvm_exact hpool hle hsz hnone,
    fun k m d oldsz newsz hlt hsz => ?_⟩
  have hplain := deallocuvm_plain (k := k) (m := m) (d := d) hlt hsz
  have hpages := pagesTo_pages (PGROUNDUP_mod newsz) hsz
  refine ⟨hplain, fun m' d' r hd => ?_, fun hus => ?_⟩
  · rw [hplain] at hd
    obtain ⟨⟨m₁, d₁⟩, hf, he⟩ := map_eq_ok.mp hd
    cases he
    exact ⟨rfl, freePages_freed hpages hf⟩
  · obtain ⟨r, hf⟩ := freePages_ok (k := k) (m := m) hpages hus
    rw [hplain, hf]
    exact ⟨_, rfl⟩

theorem tinyKernel_pool {l : List Nat} (hnd : l.Nodup)
    (hus : ∀ pg ∈ l, pg % PGSIZE = 0 ∧ tinyKernel.endAddr ≤ P2V pg ∧ pg < PHYSTOP) :
    Pool tinyKernel ⟨l, fun _ _ => 7⟩ := ⟨hnd, hus⟩

/-- Two pages and a table are enough for 5000 bytes; with one page less the page that was
mapped is taken back. -/
theorem user_memory_exact_small :
    (∃ m' d', allocuvm tinyKernel ⟨[0x400000, 0x401000, 0x402000], fun _ _ => 7⟩ (Pgdir.empty 0)
        0 5000 = .ok (m', d', 5000) ∧
      Extended 0 8192 ⟨[0x400000, 0x401000, 0x402000], fun _ _ => 7⟩ (Pgdir.empty 0) m' d' ∧
      ∃ x, deallocuvm tinyKernel m' d' 5000 0 = .ok x) ∧
    ∃ m' d', allocuvm tinyKernel ⟨[0x400000, 0x401000], fun _ _ => 7⟩ (Pgdir.empty 0) 0 5000 =
        .ok (m', d', 0) ∧
      Undone ⟨[0x400000, 0x401000], fun _ _ => 7⟩ (Pgdir.empty 0) m' d' := by
  obtain ⟨halloc, hdealloc⟩ := user_memory_exact
  constructor
  · have hpool := tinyKernel_pool (l := [0x400000, 0x401000, 0x402000]) (by decide) (by decide)
    obtain ⟨m', d', r, ha, hr⟩ := halloc tinyKernel _ (Pgdir.empty 0) 0 5000 hpool
      (fun _ _ _ => rfl) (by decide) (by decide)
    have hrun : (allocuvm tinyKernel ⟨[0x400000, 0x401000, 0x402000], fun _ _ => 7⟩
        (Pgdir.empty 0) 0 5000).toOption.map (fun x => x.2.2) = some 5000 := by decide +kernel
    rw [ha] at hrun
    obtain rfl : r = 5000 := Option.some.inj hrun
    rcases hr with ⟨-, hext⟩ | ⟨hz, -⟩
    · refine ⟨m', d', ha, hext, (hdealloc tinyKernel m' d' 5000 0 (by decide) (by decide)).2.2
        fun a hmem e he => ?_⟩
      obtain ⟨-, -, hlt⟩ := mem_pagesTo.mp hmem
      obtain ⟨pg, hpg, hin, -⟩ := hext.inside a (Nat.zero_le _)
        (Nat.lt_trans hlt (by decide))
      rw [hpg] at he
      cases he
      exact hpool.usable pg hin
    · cases hz
  · have hpool := tinyKernel_pool (l := [0x400000, 0x401000]) (by decide) (by decide)
    obtain ⟨m', d', r, ha, hr⟩ := halloc tinyKernel _ (Pgdir.empty 0) 0 5000 hpool
      (fun _ _ _ => rfl) (by decide) (by decide)
    have hrun : (allocuvm tinyKernel ⟨[0x400000, 0x401000], fun _ _ => 7⟩
        (Pgdir.empty 0) 0 5000).toOption.map (fun x => x.2.2) = some 0 := by decide +kernel
    rw [ha] at hrun
    obtain rfl : r = 0 := Option.some.inj hrun
    rcases hr with ⟨hz, -⟩ | ⟨-, hund⟩
    · cases hz
    · exact ⟨m', d', ha, hund⟩

/-- Memory of a small kernel, with `n` pages free. -/
def tinyPhys (n : Nat) : Phys := ⟨(List.range n).map fun i => 0x500000 + i * 4096, fun _ _ => 7⟩

theorem tinyPhys_pool {n : Nat} (hn : n ≤ 1000) : Pool tinyKernel (tinyPhys n) := by
  refine tinyKernel_pool (List.Nodup.map (fun i j he => ?_) List.nodup_range) fun pg hpg => ?_
  · have he : 0x500000 + i * 4096 = 0x500000 + j * 4096 := he
    omega
  · obtain ⟨i, hi, rfl⟩ := List.mem_map.mp hpg
    have hi := List.mem_range.mp hi
    refine ⟨?_, ?_, ?_⟩
    · show (0x500000 + i * 4096) % 4096 = 0
      omega
    · show 0x80110000 ≤ 0x500000 + i * 4096 + 0x80000000
      omega
    · show 0x500000 + i * 4096 < 0xE000000
      omega

end Xv6.Ref.Vm
