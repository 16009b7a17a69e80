import Xv6.Proofs.VmPages

/-!
# Page tables are built exactly

What `mappages` does to a directory, page by page, and from it the directory that
`setupkvm` returns: which address is translated to what, and that nothing else is. A
directory's translation is `Pgdir.pte`; the pages its tables are in are counted apart
from those its entries point to, so that tables that stay behind when a call is undone
can be told from pages of the user.
-/

namespace Xv6.Ref.Vm

open Xv6.Lib

variable {k : Kernel} {m m' : Phys} {d d' : Pgdir} {pg va a pa : Nat} {v : Option Pte}
  {perm : Perm}

/-! ## The pages of the tables -/

def tabPage : Option Pgtab → Multiset Nat
  | none => 0
  | some t => {t.page}

/-- The directory's own page and those of its tables. -/
def Pgdir.tables (d : Pgdir) : Multiset Nat := {d.page} + ∑ i, tabPage (d.tab i)

/-- The pages the entries of the user's half point to. -/
def Pgdir.user (d : Pgdir) : Multiset Nat :=
  ∑ i : Fin NPDENTRIES, if i.val < 512 then
    ∑ j : Fin NPTENTRIES, ptePages (d.pte (i.val * 2 ^ 22 + j.val * 2 ^ 12)) else 0

theorem PDX_pair (i : Fin NPDENTRIES) (j : Fin NPTENTRIES) :
    PDX (i.val * 2 ^ 22 + j.val * 2 ^ 12) = i := by
  have hi : i.val < 1024 := i.isLt
  have hj : j.val < 1024 := j.isLt
  refine Fin.ext ?_
  show (i.val * 2 ^ 22 + j.val * 2 ^ 12) / 2 ^ 22 % 1024 = i.val
  omega

theorem PTX_pair (i : Fin NPDENTRIES) (j : Fin NPTENTRIES) :
    PTX (i.val * 2 ^ 22 + j.val * 2 ^ 12) = j := by
  have hj : j.val < 1024 := j.isLt
  refine Fin.ext ?_
  show (i.val * 2 ^ 22 + j.val * 2 ^ 12) / 2 ^ 12 % 1024 = j.val
  omega

theorem pages_eq (d : Pgdir) : d.pages = d.tables + d.user := by
  have htab : ∀ i, tabPages i (d.tab i) = tabPage (d.tab i) + if i.val < 512 then
      ∑ j : Fin NPTENTRIES, ptePages (d.pte (i.val * 2 ^ 22 + j.val * 2 ^ 12)) else 0 := by
    intro i
    have hpte : ∀ j, d.pte (i.val * 2 ^ 22 + j.val * 2 ^ 12) =
        (d.tab i).bind fun t => t.pte j := by
      intro j
      rw [Pgdir.pte, PDX_pair, PTX_pair]
      cases d.tab i <;> rfl
    simp only [hpte]
    cases d.tab i with
    | none => simp [tabPages, tabPage, ptePages]
    | some t => rfl
  rw [Pgdir.pages, Pgdir.tables, Pgdir.user, Finset.sum_congr rfl fun i _ => htab i,
    Finset.sum_add_distrib, add_assoc]

theorem user_congr (h : ∀ va, va < KERNBASE → d'.pte va = d.pte va) : d'.user = d.user := by
  rw [Pgdir.user, Pgdir.user]
  refine Finset.sum_congr rfl fun i _ => ?_
  split
  · next hi =>
      refine Finset.sum_congr rfl fun j _ => ?_
      have hj : j.val < 1024 := j.isLt
      rw [h]
      show i.val * 2 ^ 22 + j.val * 2 ^ 12 < 0x80000000
      omega
  · rfl

theorem tables_setPte (ht : d.tab (PDX va) ≠ none) (v : Option Pte) :
    (d.setPte va v).tables = d.tables := by
  obtain ⟨t, ht⟩ := Option.ne_none_iff_exists'.mp ht
  rw [setPte_some ht, Pgdir.tables, Pgdir.tables]
  refine congrArg _ (Finset.sum_congr rfl fun i _ => ?_)
  simp only [Pgdir.setTab]
  split
  · next he => rw [he, ht]; rfl
  · rfl

theorem page_mem_tables (d : Pgdir) : d.page ∈ d.tables := by
  rw [Pgdir.tables, Multiset.mem_add]
  exact Or.inl (Multiset.mem_singleton_self _)

theorem mem_tables {t : Pgtab} {i : Fin NPDENTRIES} (h : d.tab i = some t) : t.page ∈ d.tables := by
  rw [Pgdir.tables, Multiset.mem_add, Multiset.mem_sum]
  refine Or.inr ⟨i, Finset.mem_univ i, ?_⟩
  rw [h]
  exact Multiset.mem_singleton_self _

/-! ## Walking -/

/-- A table was taken from the free list, or there was one. -/
structure Walked (m : Phys) (d : Pgdir) (m' : Phys) (d' : Pgdir) : Prop where
  mem : m'.mem = m.mem
  suffix : m'.freelist <:+ m.freelist
  tables : m'.free + d'.tables = m.free + d.tables

theorem walkpgdir_walked {alloc : Bool} (h : walkpgdir m d va alloc = some (m', d')) :
    Walked m d m' d' := by
  simp only [walkpgdir] at h
  split at h
  · cases h
    exact ⟨rfl, List.suffix_refl _, rfl⟩
  · next ht =>
      split at h
      · cases h
      · split at h
        · cases h
        · next pg m₁ hk =>
            cases h
            have htab : (d.setTab (PDX va) ⟨pg, fun _ => none⟩).tables = d.tables + {pg} := by
              have hsum := sum_change (i := PDX va)
                (f := fun j => tabPage ((d.setTab (PDX va) ⟨pg, fun _ => none⟩).tab j))
                (g := fun j => tabPage (d.tab j)) fun j hj => by
                  simp only [Pgdir.setTab, if_neg hj]
              simp only [Pgdir.setTab, if_true, ht, tabPage, add_zero] at hsum
              rw [Pgdir.tables, Pgdir.tables, add_assoc]
              exact congrArg _ hsum
            refine ⟨?_, ?_, ?_⟩
            · simp only [kalloc] at hk
              split at hk
              · cases hk
              · cases hk
                rfl
            · simp only [kalloc] at hk
              split at hk
              · cases hk
              · next r next hl =>
                  cases hk
                  rw [hl]
                  exact List.suffix_cons _ _
            · rw [htab, kalloc_free hk]
              abel

-- the pages are only added up from here on
attribute [irreducible] Pgdir.tables Pgdir.user

theorem Walked.refl (m : Phys) (d : Pgdir) : Walked m d m d := ⟨rfl, List.suffix_refl _, rfl⟩

theorem Walked.trans {m₁ : Phys} {d₁ : Pgdir} (h : Walked m d m₁ d₁) (h' : Walked m₁ d₁ m' d') :
    Walked m d m' d' :=
  ⟨h'.mem.trans h.mem, h'.suffix.trans h.suffix, h'.tables.trans h.tables⟩

theorem Walked.setPte {va : Nat} (h : Walked m d m' d') (ht : d'.tab (PDX va) ≠ none)
    (v : Option Pte) : Walked m d m' (d'.setPte va v) :=
  ⟨h.mem, h.suffix, by rw [tables_setPte ht]; exact h.tables⟩

/-! ## `mappages` -/

/-- The round in which `a == last`. -/
theorem mappagesLoop_last (n : Nat) :
    mappagesLoop a perm (n + 1) m d a pa =
      match walkpgdir m d a true with
      | none => .ok (m, d, false)
      | some (m, d) =>
          match d.pte a with
          | some _ => .error .remap
          | none => .ok (m, d.setPte a (some ⟨pa, perm⟩), true) := by
  rw [mappagesLoop]
  cases walkpgdir m d a true with
  | none => rfl
  | some x =>
      obtain ⟨m₁, d₁⟩ := x
      cases hp : d₁.pte a with
      | some e => simp only [hp]
      | none => simp only [hp, if_true]

/-- A round before it. -/
theorem mappagesLoop_next (n : Nat) (hend : a + (n + 1) * PGSIZE < 2 ^ 32) :
    mappagesLoop (a + (n + 1) * PGSIZE) perm (n + 1 + 1) m d a pa =
      match walkpgdir m d a true with
      | none => .ok (m, d, false)
      | some (m, d) =>
          match d.pte a with
          | some _ => .error .remap
          | none =>
              mappagesLoop (a + PGSIZE + n * PGSIZE) perm (n + 1) m
                (d.setPte a (some ⟨pa, perm⟩)) (a + PGSIZE) ((pa + PGSIZE) % 2 ^ 32) := by
  have hn : a + (n + 1) * PGSIZE = a + PGSIZE + n * PGSIZE := by
    rw [Nat.succ_mul, Nat.add_assoc, Nat.add_comm (n * PGSIZE)]
  have hne : a ≠ a + PGSIZE + n * PGSIZE := by
    show a ≠ a + 4096 + n * 4096
    omega
  have hmod : (a + PGSIZE) % 2 ^ 32 = a + PGSIZE := by
    rw [hn] at hend
    exact Nat.mod_eq_of_lt (Nat.lt_of_le_of_lt (Nat.le_add_right _ _) hend)
  rw [hn, mappagesLoop]
  cases walkpgdir m d a true with
  | none => rfl
  | some x =>
      obtain ⟨m₁, d₁⟩ := x
      cases hp : d₁.pte a with
      | some e => simp only [hp]
      | none => simp only [hp, if_neg hne, hmod]

/-- What `mappages` has done to the addresses from `lo` to `hi`. -/
structure Mapped (lo hi pa : Nat) (perm : Perm) (m : Phys) (d : Pgdir) (m' : Phys) (d' : Pgdir)
    (b : Bool) : Prop where
  walked : Walked m d m' d'
  outside : ∀ va, va < 2 ^ 32 → va < lo ∨ hi ≤ va → d'.pte va = d.pte va
  inside : b = true → ∀ va, lo ≤ va → va < hi →
    d'.pte va = some ⟨(pa + (va / PGSIZE * PGSIZE - lo)) % 2 ^ 32, perm⟩
  full : b = false → m'.freelist = []

section

variable {m₁ : Phys} {d₁ : Pgdir} (hal : a % PGSIZE = 0) (ha : a < 2 ^ 32)
  (ht : d₁.tab (PDX a) ≠ none) (v : Option Pte)

include hal ha ht

/-- One page is mapped. -/
theorem pte_mapped (hlo : a ≤ va) (hhi : va < a + PGSIZE) : (d₁.setPte a v).pte va = v := by
  have hal : a % 4096 = 0 := hal
  have hhi : va < a + 4096 := hhi
  rw [pte_setPte ht, if_pos]
  refine (samePage_iff ha (by omega)).mpr ?_
  show va / 4096 = a / 4096
  omega

theorem pte_unmapped (hg : Grown m d m₁ d₁) (hva : va < 2 ^ 32) (hout : va < a ∨ a + PGSIZE ≤ va) :
    (d₁.setPte a v).pte va = d.pte va := by
  have hal : a % 4096 = 0 := hal
  have hout : va < a ∨ a + 4096 ≤ va := hout
  rw [pte_setPte ht, if_neg, hg.pte]
  rw [samePage_iff ha hva]
  show ¬ va / 4096 = a / 4096
  omega

end

/-- The physical address of the first page is the one given. -/
theorem first_page (hal : a % PGSIZE = 0) (hlo : a ≤ va) (hhi : va < a + PGSIZE)
    (hpa : pa < 2 ^ 32) : (pa + (va / PGSIZE * PGSIZE - a)) % 2 ^ 32 = pa := by
  have hal : a % 4096 = 0 := hal
  have hhi : va < a + 4096 := hhi
  show (pa + (va / 4096 * 4096 - a)) % 2 ^ 32 = pa
  omega

theorem next_page (hal : a % PGSIZE = 0) (hlo : a + PGSIZE ≤ va) :
    ((pa + PGSIZE) % 2 ^ 32 + (va / PGSIZE * PGSIZE - (a + PGSIZE))) % 2 ^ 32 =
      (pa + (va / PGSIZE * PGSIZE - a)) % 2 ^ 32 := by
  have hal : a % 4096 = 0 := hal
  have hlo : a + 4096 ≤ va := hlo
  have hsub : va / 4096 * 4096 - (a + 4096) + 4096 = va / 4096 * 4096 - a := by omega
  show ((pa + 4096) % 2 ^ 32 + (va / 4096 * 4096 - (a + 4096))) % 2 ^ 32 =
    (pa + (va / 4096 * 4096 - a)) % 2 ^ 32
  rw [Nat.mod_add_mod, ← hsub, Nat.add_assoc, Nat.add_comm 4096]

theorem mappagesLoop_exact (n : Nat) : ∀ {m m' : Phys} {d d' : Pgdir} {a pa : Nat} {b : Bool},
    a % PGSIZE = 0 → a + n * PGSIZE < 2 ^ 32 → pa < 2 ^ 32 →
    mappagesLoop (a + n * PGSIZE) perm (n + 1) m d a pa = .ok (m', d', b) →
    Mapped a (a + n * PGSIZE + PGSIZE) pa perm m d m' d' b := by
  induction n with
  | zero =>
      intro m m' d d' a pa b hal hend hpa h
      rw [Nat.zero_mul, Nat.add_zero] at h hend ⊢
      rw [mappagesLoop_last] at h
      split at h
      · next hw =>
          cases h
          exact ⟨Walked.refl _ _, fun _ _ _ => rfl, nofun, fun _ => walkpgdir_none hw⟩
      · next m₁ d₁ hw =>
          obtain ⟨hg, ht, -⟩ := walkpgdir_some hw
          split at h
          · cases h
          · cases h
            refine ⟨(walkpgdir_walked hw).setPte ht _, fun va hva hout => ?_,
              fun _ va hlo hhi => ?_, nofun⟩
            · exact pte_unmapped hal hend ht _ hg hva hout
            · rw [pte_mapped hal hend ht _ hlo hhi, first_page hal hlo hhi hpa]
  | succ n ih =>
      intro m m' d d' a pa b hal hend hpa h
      rw [mappagesLoop_next n hend] at h
      have hend' : a + (n + 1) * 4096 < 2 ^ 32 := hend
      have ha : a < 2 ^ 32 := by omega
      split at h
      · next hw =>
          cases h
          exact ⟨Walked.refl _ _, fun _ _ _ => rfl, nofun, fun _ => walkpgdir_none hw⟩
      · next m₁ d₁ hw =>
          obtain ⟨hg, ht, -⟩ := walkpgdir_some hw
          split at h
          · cases h
          · have hr := ih (by rw [Nat.add_mod_right]; exact hal)
              (by show a + 4096 + n * 4096 < 2 ^ 32; omega) (Nat.mod_lt _ (by decide)) h
            refine ⟨((walkpgdir_walked hw).setPte ht _).trans hr.walked, fun va hva hout => ?_,
              fun hb va hlo hhi => ?_, hr.full⟩
            · have hout : va < a ∨ a + (n + 1) * 4096 + 4096 ≤ va := hout
              rw [hr.outside va hva (by
                show va < a + 4096 ∨ a + 4096 + n * 4096 + 4096 ≤ va; omega)]
              refine pte_unmapped hal ha ht _ hg hva ?_
              show va < a ∨ a + 4096 ≤ va
              omega
            · by_cases hfirst : va < a + PGSIZE
              · have hva : va < 2 ^ 32 := by
                  have hfirst : va < a + 4096 := hfirst
                  omega
                rw [hr.outside va hva (Or.inl hfirst), pte_mapped hal ha ht _ hlo hfirst,
                  first_page hal hlo hfirst hpa]
              · have hlo' := Nat.not_lt.mp hfirst
                have hhi : va < a + (n + 1) * 4096 + 4096 := hhi
                rw [hr.inside hb va hlo' (by
                  show va < a + 4096 + n * 4096 + 4096; omega), next_page hal hlo']

/-- The number of pages after the first. -/
theorem mappages_eq (m : Phys) (d : Pgdir) (pa : Nat) (perm : Perm) {size : Nat}
    (hpos : 0 < size) (hend : va + size ≤ 2 ^ 32) :
    ∃ n, PGROUNDDOWN (va + size - 1) = PGROUNDDOWN va + n * PGSIZE ∧
      mappages m d va size pa perm =
        mappagesLoop (PGROUNDDOWN va + n * PGSIZE) perm (n + 1) m d (PGROUNDDOWN va) pa := by
  have hmod : (va + size + 2 ^ 32 - 1) % 2 ^ 32 = va + size - 1 := by omega
  have hlast : PGROUNDDOWN (va + size - 1) =
      PGROUNDDOWN va + ((va + size - 1) / PGSIZE - va / PGSIZE) * PGSIZE := by
    show (va + size - 1) / 4096 * 4096 =
      va / 4096 * 4096 + ((va + size - 1) / 4096 - va / 4096) * 4096
    omega
  refine ⟨(va + size - 1) / PGSIZE - va / PGSIZE, hlast, ?_⟩
  have hcount : (PGROUNDDOWN va + ((va + size - 1) / PGSIZE - va / PGSIZE) * PGSIZE + 2 ^ 32 -
      PGROUNDDOWN va) % 2 ^ 32 / PGSIZE = (va + size - 1) / PGSIZE - va / PGSIZE := by
    show (va / 4096 * 4096 + ((va + size - 1) / 4096 - va / 4096) * 4096 + 2 ^ 32 -
      va / 4096 * 4096) % 2 ^ 32 / 4096 = (va + size - 1) / 4096 - va / 4096
    omega
  simp only [mappages, hmod, hlast, hcount]

theorem PGROUNDDOWN_mod (n : Nat) : PGROUNDDOWN n % PGSIZE = 0 := Nat.mul_mod_left _ _

theorem PGROUNDDOWN_le (n : Nat) : PGROUNDDOWN n ≤ n := Nat.div_mul_le_self n PGSIZE

/-- An address is above a page's first if its page is. -/
theorem PGROUNDDOWN_le_iff (a x : Nat) : PGROUNDDOWN a ≤ x ↔ PGROUNDDOWN a ≤ PGROUNDDOWN x := by
  show a / 4096 * 4096 ≤ x ↔ a / 4096 * 4096 ≤ x / 4096 * 4096
  omega

theorem PGROUNDDOWN_lt_iff (x a : Nat) :
    x < PGROUNDDOWN a + PGSIZE ↔ PGROUNDDOWN x ≤ PGROUNDDOWN a := by
  show x < a / 4096 * 4096 + 4096 ↔ x / 4096 * 4096 ≤ a / 4096 * 4096
  omega

theorem mappages_mapped {size : Nat} {b : Bool} (hpos : 0 < size) (hend : va + size ≤ 2 ^ 32)
    (hpa : pa < 2 ^ 32) (h : mappages m d va size pa perm = .ok (m', d', b)) :
    Mapped (PGROUNDDOWN va) (PGROUNDDOWN (va + size - 1) + PGSIZE) pa perm m d m' d' b := by
  obtain ⟨n, hlast, he⟩ := mappages_eq m d pa perm hpos hend
  rw [he] at h
  have hin : PGROUNDDOWN va + n * PGSIZE < 2 ^ 32 := by
    rw [← hlast]
    exact Nat.lt_of_le_of_lt (PGROUNDDOWN_le _) (by omega)
  rw [hlast]
  exact mappagesLoop_exact n (PGROUNDDOWN_mod _) hin hpa h

/-- If no page of the range is present, there is nothing to panic about. -/
theorem mappages_ok {size : Nat} (hpos : 0 < size) (hend : va + size ≤ 2 ^ 32)
    (hnone : ∀ x, PGROUNDDOWN va ≤ x → x < PGROUNDDOWN (va + size - 1) + PGSIZE →
      d.pte x = none) : ∃ r, mappages m d va size pa perm = .ok r := by
  obtain ⟨n, hlast, he⟩ := mappages_eq m d pa perm hpos hend
  rw [he]
  have hin : PGROUNDDOWN va + n * PGSIZE < 2 ^ 32 := by
    rw [← hlast]
    exact Nat.lt_of_le_of_lt (PGROUNDDOWN_le _) (by omega)
  rw [hlast] at hnone
  exact mappagesLoop_ok n (PGROUNDDOWN_mod _) hin hnone

/-! ## Freeing page by page -/

/-- A page that `kfree` takes. -/
def usable (k : Kernel) (pg : Nat) : Prop :=
  pg % PGSIZE = 0 ∧ k.endAddr ≤ P2V pg ∧ pg < PHYSTOP

theorem usable_ne_zero (h : usable k pg) : pg ≠ 0 := by
  rintro rfl
  have h1 : k.endAddr ≤ 0 + 0x80000000 := h.2.1
  have h2 : 0x80100000 < k.data := k.text
  have h3 := k.bss
  omega

theorem kfree_ok (h : usable k pg) :
    kfree k m pg = .ok { m.setPage pg (fun _ => 1) with freelist := pg :: m.freelist } := by
  obtain ⟨h1, h2, h3⟩ := h
  rw [kfree, if_neg (by omega)]
  rfl

/-- What the loop of `deallocuvm` would be without its jump: the pages at the addresses of
a list are freed one by one. -/
def freePages (k : Kernel) : List Nat → Phys → Pgdir → Except Stop (Phys × Pgdir)
  | [], m, d => .ok (m, d)
  | a :: as, m, d =>
      match d.pte a with
      | none => freePages k as m d
      | some pte =>
          if pte.pa = 0 then .error .kfree
          else do
            let m ← kfree k m pte.pa
            freePages k as m (d.setPte a none)

/-- The pages from `a` on that begin below `top`. -/
def pagesTo (top a : Nat) : List Nat :=
  (List.range ((top - a + PGSIZE - 1) / PGSIZE)).map fun i => a + i * PGSIZE

theorem pagesTo_nil (h : a ≥ va) : pagesTo va a = [] := by
  have hz : (va - a + PGSIZE - 1) / PGSIZE = 0 := by
    show (va - a + 4096 - 1) / 4096 = 0
    omega
  rw [pagesTo, hz]
  rfl

theorem pagesTo_cons (h : a < va) : pagesTo va a = a :: pagesTo va (a + PGSIZE) := by
  have hn : (va - a + PGSIZE - 1) / PGSIZE = (va - (a + PGSIZE) + PGSIZE - 1) / PGSIZE + 1 := by
    show (va - a + 4096 - 1) / 4096 = (va - (a + 4096) + 4096 - 1) / 4096 + 1
    omega
  rw [pagesTo, hn, List.range_succ_eq_map, List.map_cons, List.map_map, Nat.zero_mul, Nat.add_zero,
    pagesTo]
  refine congrArg _ (List.map_congr_left fun i _ => ?_)
  show a + (i + 1) * 4096 = a + 4096 + i * 4096
  omega

/-- Pages that are not present are passed over. -/
theorem freePages_skip {as : List Nat} (h : ∀ a ∈ as, d.pte a = none) (bs : List Nat) :
    freePages k (as ++ bs) m d = freePages k bs m d := by
  induction as with
  | nil => rfl
  | cons a as ih =>
      rw [List.cons_append, freePages, h a List.mem_cons_self]
      exact ih fun x hx => h x (List.mem_cons_of_mem _ hx)

theorem mem_pagesTo {x top : Nat} : x ∈ pagesTo top a ↔ ∃ i, x = a + i * PGSIZE ∧ x < top := by
  rw [pagesTo, List.mem_map]
  constructor
  · rintro ⟨i, hi, rfl⟩
    refine ⟨i, rfl, ?_⟩
    rw [List.mem_range] at hi
    have hi : i < (top - a + 4096 - 1) / 4096 := hi
    show a + i * 4096 < top
    omega
  · rintro ⟨i, rfl, hlt⟩
    refine ⟨i, ?_, rfl⟩
    rw [List.mem_range]
    have hlt : a + i * 4096 < top := hlt
    show i < (top - a + 4096 - 1) / 4096
    omega

/-- The list breaks at every page. -/
theorem pagesTo_split (top n : Nat) : ∀ a, ∃ as, pagesTo top a = as ++ pagesTo top (a + n * PGSIZE) ∧
    ∀ x ∈ as, a ≤ x ∧ x < a + n * PGSIZE := by
  induction n with
  | zero =>
      intro a
      exact ⟨[], by rw [Nat.zero_mul]; rfl, nofun⟩
  | succ n ih =>
      intro a
      have hn : a + (n + 1) * PGSIZE = a + PGSIZE + n * PGSIZE := by
        rw [Nat.succ_mul, Nat.add_assoc, Nat.add_comm (n * PGSIZE)]
      rw [hn]
      by_cases hlt : a < top
      · obtain ⟨as, he, hin⟩ := ih (a + PGSIZE)
        refine ⟨a :: as, by rw [pagesTo_cons hlt, he]; rfl, fun x hx => ?_⟩
        rcases List.mem_cons.mp hx with rfl | hx
        · show x ≤ x ∧ x < x + 4096 + n * 4096
          omega
        · have h1 : a + 4096 ≤ x := (hin x hx).1
          exact ⟨by omega, (hin x hx).2⟩
      · have hge : a + PGSIZE + n * PGSIZE ≥ top := by
          show a + 4096 + n * 4096 ≥ top
          omega
        exact ⟨[], by rw [pagesTo_nil (by omega), pagesTo_nil hge]; rfl, nofun⟩

/-- The jump of `deallocuvm` ends at the next table, `j` pages behind the next page. -/
theorem next_table (hal : a % PGSIZE = 0) (ha : a < KERNBASE) :
    ∃ j, PGADDR ((PDX a).val + 1) 0 0 = a + PGSIZE + j * PGSIZE ∧
      ∀ x, a ≤ x → x < a + PGSIZE + j * PGSIZE → PDX x = PDX a := by
  have hal : a % 4096 = 0 := hal
  have ha : a < 0x80000000 := ha
  have hsmall : a / 2 ^ 22 % 1024 = a / 2 ^ 22 := Nat.mod_eq_of_lt (by omega)
  have hlo : a / 2 ^ 22 * 2 ^ 22 ≤ a := Nat.div_mul_le_self _ _
  have hhi : a < (a / 2 ^ 22 + 1) * 2 ^ 22 := by omega
  refine ⟨((a / 2 ^ 22 + 1) * 2 ^ 22 - a) / 4096 - 1, ?_, fun x h1 h2 => Fin.ext ?_⟩
  · rw [PGADDR_next, hsmall]
    show (a / 2 ^ 22 + 1) * 2 ^ 22 = a + 4096 + (((a / 2 ^ 22 + 1) * 2 ^ 22 - a) / 4096 - 1) * 4096
    generalize a / 2 ^ 22 = q at hlo hhi
    omega
  · have h2 : x < a + 4096 + (((a / 2 ^ 22 + 1) * 2 ^ 22 - a) / 4096 - 1) * 4096 := h2
    have hx : x / 2 ^ 22 = a / 2 ^ 22 := by
      generalize a / 2 ^ 22 = q at hlo hhi h2 ⊢
      exact Nat.div_eq_of_lt_le (by omega) (by omega)
    show x / 2 ^ 22 % 1024 = a / 2 ^ 22 % 1024
    rw [hx]

/-- `deallocuvm` agrees with the plain loop: where it jumps there is no table, so nothing
is present. -/
theorem deallocuvmLoop_plain {oldsz : Nat} (hsz : oldsz ≤ KERNBASE) (n : Nat) :
    ∀ {m : Phys} {d : Pgdir} {a : Nat}, a % PGSIZE = 0 → oldsz ≤ a + n * PGSIZE →
      deallocuvmLoop k oldsz n m d a = freePages k (pagesTo oldsz a) m d := by
  induction n with
  | zero =>
      intro m d a _ hle
      rw [Nat.zero_mul, Nat.add_zero] at hle
      rw [deallocuvmLoop, pagesTo_nil hle]
      rfl
  | succ n ih =>
      intro m d a hal hle
      have hal' : a % 4096 = 0 := hal
      have hle' : oldsz ≤ a + (n + 1) * 4096 := hle
      have hsz' : oldsz ≤ 0x80000000 := hsz
      have hnext : (a + PGSIZE) % PGSIZE = 0 := by rw [Nat.add_mod_right]; exact hal
      have hrest : oldsz ≤ a + PGSIZE + n * PGSIZE := by
        show oldsz ≤ a + 4096 + n * 4096
        omega
      rw [deallocuvmLoop]
      split
      · next hlt =>
          rw [pagesTo_cons hlt, freePages]
          cases ht : d.tab (PDX a) with
          | none =>
              simp only [walkpgdir, ht, if_true]
              obtain ⟨j, hj, hsame⟩ := next_table hal (Nat.lt_of_lt_of_le hlt hsz)
              have hnone : ∀ x, a ≤ x → x < a + PGSIZE + j * PGSIZE → d.pte x = none := by
                intro x h1 h2
                rw [Pgdir.pte, hsame x h1 h2, ht]
              obtain ⟨as, hsplit, hin⟩ := pagesTo_split oldsz j (a + PGSIZE)
              rw [hj, hnone a (Nat.le_refl a) (by show a < a + 4096 + j * 4096; omega), hsplit,
                freePages_skip fun x hx => hnone x
                  (Nat.le_trans (Nat.le_add_right _ _) (hin x hx).1) (hin x hx).2]
              refine ih ?_ ?_
              · show (a + 4096 + j * 4096) % 4096 = 0
                omega
              · show oldsz ≤ a + 4096 + j * 4096 + n * 4096
                omega
          | some t =>
              simp only [walkpgdir, ht]
              cases hp : d.pte a with
              | none => exact ih hnext hrest
              | some pte =>
                  dsimp only
                  split
                  · rfl
                  · refine congrArg _ (funext fun m₁ => ?_)
                    exact ih hnext hrest
      · next hge =>
          rw [pagesTo_nil (by omega)]
          rfl

/-- The pages behind the entries for some addresses, as far as they are present. -/
def present (d : Pgdir) (as : List Nat) : List Nat := as.filterMap fun a => (d.pte a).map (·.pa)

/-- The pages of a list of addresses have been freed. -/
structure Freed (as : List Nat) (m : Phys) (d : Pgdir) (m' : Phys) (d' : Pgdir) : Prop where
  freelist : m'.freelist = (present d as).reverse ++ m.freelist
  mem : ∀ pg, m'.mem pg = if pg ∈ present d as then fun _ => 1 else m.mem pg
  pte : ∀ va, va < 2 ^ 32 → d'.pte va = if PGROUNDDOWN va ∈ as then none else d.pte va
  tables : d'.tables = d.tables
  tab : ∀ i, d'.tab i = none ↔ d.tab i = none

/-- Different pages below `2 ^ 32`. -/
structure PageList (as : List Nat) : Prop where
  nodup : as.Nodup
  aligned : ∀ a ∈ as, a % PGSIZE = 0
  lt : ∀ a ∈ as, a < 2 ^ 32

theorem PageList.tail {as : List Nat} (h : PageList (a :: as)) : PageList as :=
  ⟨h.nodup.of_cons, fun x hx => h.aligned x (List.mem_cons_of_mem _ hx),
    fun x hx => h.lt x (List.mem_cons_of_mem _ hx)⟩

theorem tab_of_pte {e : Pte} (h : d.pte va = some e) : d.tab (PDX va) ≠ none := by
  intro ht
  rw [Pgdir.pte, ht] at h
  cases h

/-- Clearing one entry, seen from any address. -/
theorem pte_clear {e : Pte} (hp : d.pte a = some e) (hal : a % PGSIZE = 0) (ha : a < 2 ^ 32)
    (hva : va < 2 ^ 32) :
    (d.setPte a none).pte va = if PGROUNDDOWN va = a then none else d.pte va := by
  have hal : a % 4096 = 0 := hal
  rw [pte_setPte (tab_of_pte hp)]
  refine if_congr ((samePage_iff ha hva).trans ?_) rfl rfl
  show va / 4096 = a / 4096 ↔ va / 4096 * 4096 = a
  omega

/-- A translation is that of the page. -/
theorem pte_down (d : Pgdir) (va : Nat) : d.pte (PGROUNDDOWN va) = d.pte va := by
  have hd : PDX (PGROUNDDOWN va) = PDX va := by
    refine Fin.ext ?_
    show va / 4096 * 4096 / 2 ^ 22 % 1024 = va / 2 ^ 22 % 1024
    omega
  have ht : PTX (PGROUNDDOWN va) = PTX va := by
    refine Fin.ext ?_
    show va / 4096 * 4096 / 2 ^ 12 % 1024 = va / 2 ^ 12 % 1024
    omega
  rw [Pgdir.pte, Pgdir.pte, hd, ht]

theorem kfree_eq (h : kfree k m pg = .ok m') :
    m' = { m.setPage pg (fun _ => 1) with freelist := pg :: m.freelist } := by
  rw [kfree] at h
  split at h
  · cases h
  · cases h
    rfl

theorem aligned_down (h : a % PGSIZE = 0) : PGROUNDDOWN a = a := by
  have h : a % 4096 = 0 := h
  show a / 4096 * 4096 = a
  omega

/-- The other entries of the list are as they were. -/
theorem present_clear {e : Pte} {as : List Nat} (hp : d.pte a = some e)
    (has : PageList (a :: as)) : present (d.setPte a none) as = present d as := by
  refine List.filterMap_congr fun x hx => ?_
  have hx' := List.mem_cons_of_mem a hx
  rw [pte_clear hp (has.aligned a List.mem_cons_self) (has.lt a List.mem_cons_self) (has.lt x hx'),
    if_neg]
  rw [aligned_down (has.aligned x hx')]
  rintro rfl
  exact (List.nodup_cons.mp has.nodup).1 hx

theorem freePages_freed {as : List Nat} (has : PageList as)
    (h : freePages k as m d = .ok (m', d')) : Freed as m d m' d' := by
  induction as generalizing m d with
  | nil =>
      cases h
      exact ⟨rfl, fun _ => rfl, fun _ _ => rfl, rfl, fun _ => Iff.rfl⟩
  | cons a as ih =>
      rw [freePages] at h
      cases hp : d.pte a with
      | none =>
          rw [hp] at h
          have hr := ih has.tail h
          have hpres : present d (a :: as) = present d as := by
            rw [present, List.filterMap_cons, hp]
            rfl
          refine ⟨by rw [hpres]; exact hr.freelist, fun pg => by rw [hpres]; exact hr.mem pg,
            fun va hva => ?_, hr.tables, hr.tab⟩
          rw [hr.pte va hva]
          by_cases hin : PGROUNDDOWN va ∈ as
          · rw [if_pos hin, if_pos (List.mem_cons_of_mem _ hin)]
          · rw [if_neg hin]
            by_cases he : PGROUNDDOWN va = a
            · rw [if_pos (he ▸ List.mem_cons_self)]
              rw [← pte_down, he, hp]
            · rw [if_neg (by simp [he, hin])]
      | some e =>
          rw [hp] at h
          dsimp only at h
          split at h
          · cases h
          · obtain ⟨m₁, hf, h⟩ := bind_eq_ok.mp h
            obtain rfl := kfree_eq hf
            have hr := ih has.tail h
            have hpres : present d (a :: as) = e.pa :: present d as := by
              rw [present, List.filterMap_cons, hp]
              rfl
            have hclear := present_clear hp has
            have ht := tab_of_pte hp
            refine ⟨?_, fun pg => ?_, fun va hva => ?_, ?_, fun i => ?_⟩
            · rw [hr.freelist, hclear, hpres, List.reverse_cons, List.append_assoc]
              rfl
            · rw [hr.mem pg, hclear, hpres]
              by_cases hin : pg ∈ present d as
              · rw [if_pos hin, if_pos (List.mem_cons_of_mem _ hin)]
              · rw [if_neg hin]
                by_cases he : pg = e.pa
                · rw [if_pos (he ▸ List.mem_cons_self)]
                  exact if_pos he
                · rw [if_neg (by simp [he, hin])]
                  exact if_neg he
            · rw [hr.pte va hva, pte_clear hp (has.aligned a List.mem_cons_self)
                (has.lt a List.mem_cons_self) hva]
              by_cases hin : PGROUNDDOWN va ∈ as
              · rw [if_pos hin, if_pos (List.mem_cons_of_mem _ hin)]
              · rw [if_neg hin]
                by_cases he : PGROUNDDOWN va = a
                · rw [if_pos he, if_pos (he ▸ List.mem_cons_self)]
                · rw [if_neg he, if_neg (by simp [he, hin])]
            · rw [hr.tables, tables_setPte ht]
            · rw [hr.tab, tab_setPte ht]

theorem freePages_ok {as : List Nat} (has : PageList as)
    (hus : ∀ a ∈ as, ∀ e, d.pte a = some e → usable k e.pa) :
    ∃ r, freePages k as m d = .ok r := by
  induction as generalizing m d with
  | nil => exact ⟨_, rfl⟩
  | cons a as ih =>
      rw [freePages]
      cases hp : d.pte a with
      | none => exact ih has.tail fun x hx => hus x (List.mem_cons_of_mem _ hx)
      | some e =>
          have hu := hus a List.mem_cons_self e hp
          simp only [if_neg (usable_ne_zero hu), kfree_ok hu, ok_bind]
          refine ih has.tail fun x hx e' he => hus x (List.mem_cons_of_mem _ hx) e' ?_
          have hx' := List.mem_cons_of_mem a hx
          rw [pte_clear hp (has.aligned a List.mem_cons_self) (has.lt a List.mem_cons_self)
            (has.lt x hx')] at he
          split at he
          · cases he
          · exact he

theorem pagesTo_pages {top : Nat} (hal : a % PGSIZE = 0) (htop : top ≤ KERNBASE) :
    PageList (pagesTo top a) := by
  refine ⟨?_, fun x hx => ?_, fun x hx => ?_⟩
  · refine List.Nodup.map (fun i j he => ?_) List.nodup_range
    have he : a + i * 4096 = a + j * 4096 := he
    omega
  · obtain ⟨i, rfl, -⟩ := mem_pagesTo.mp hx
    have hal : a % 4096 = 0 := hal
    show (a + i * 4096) % 4096 = 0
    omega
  · obtain ⟨i, -, hlt⟩ := mem_pagesTo.mp hx
    have htop : top ≤ 0x80000000 := htop
    omega

/-- Which addresses lie on a page of the list. -/
theorem down_mem_pagesTo {top : Nat} (hal : a % PGSIZE = 0) :
    PGROUNDDOWN va ∈ pagesTo top a ↔ a ≤ va ∧ PGROUNDDOWN va < top := by
  have hal : a % 4096 = 0 := hal
  rw [mem_pagesTo]
  constructor
  · rintro ⟨i, hi, hlt⟩
    have hi : va / 4096 * 4096 = a + i * 4096 := hi
    exact ⟨by omega, hlt⟩
  · rintro ⟨hle, hlt⟩
    refine ⟨(va - a) / 4096, ?_, hlt⟩
    show va / 4096 * 4096 = a + (va - a) / 4096 * 4096
    omega

theorem deallocuvm_plain {oldsz newsz : Nat} (hlt : newsz < oldsz) (hsz : oldsz ≤ KERNBASE) :
    deallocuvm k m d oldsz newsz =
      (freePages k (pagesTo oldsz (PGROUNDUP newsz)) m d).map fun r => (r.1, r.2, newsz) := by
  have hfuel : oldsz ≤ PGROUNDUP newsz + (oldsz / PGSIZE + 1) * PGSIZE := by
    have : oldsz ≤ (oldsz / PGSIZE + 1) * PGSIZE := by
      show oldsz ≤ (oldsz / 4096 + 1) * 4096
      omega
    exact Nat.le_trans this (Nat.le_add_left _ _)
  rw [deallocuvm, if_neg (by omega), deallocuvmLoop_plain hsz _ (PGROUNDUP_mod _) hfuel]
  cases freePages k (pagesTo oldsz (PGROUNDUP newsz)) m d <;> rfl

/-! ## Giving a directory up -/

theorem tables_le (d : Pgdir) : d.tables ≤ d.pages := by
  rw [pages_eq]
  exact Multiset.le_add_right _ _

theorem freeTables_ok {is : List (Fin NPDENTRIES)} (h : ∀ pg ∈ d.tables, usable k pg) :
    ∃ m', freeTables k d m is = .ok m' := by
  induction is generalizing m with
  | nil => exact ⟨m, rfl⟩
  | cons i is ih =>
      rw [freeTables]
      cases ht : d.tab i with
      | none => exact ih
      | some t =>
          simp only [kfree_ok (h t.page (mem_tables ht)), ok_bind]
          exact ih

theorem freevm_ok (h : ∀ pg ∈ d.pages, usable k pg) : ∃ m', freevm k m d = .ok m' := by
  have hpages : PageList (pagesTo KERNBASE (PGROUNDUP 0)) :=
    pagesTo_pages (PGROUNDUP_mod 0) (Nat.le_refl _)
  obtain ⟨⟨m₁, d₁⟩, hf⟩ := freePages_ok (k := k) (m := m) (d := d) hpages fun a ha e he => by
    obtain ⟨-, -, hlt⟩ := mem_pagesTo.mp ha
    refine h _ (mem_pages he ((PDX_lt_iff ?_).mpr hlt))
    have hlt : a < 0x80000000 := hlt
    omega
  have hfreed := freePages_freed hpages hf
  have htab : ∀ pg ∈ d₁.tables, usable k pg := by
    intro pg hpg
    rw [hfreed.tables] at hpg
    exact h pg (Multiset.mem_of_le (tables_le d) hpg)
  obtain ⟨m₂, ht⟩ : ∃ m₂, freeTables k d₁ m₁ (List.finRange NPDENTRIES) = .ok m₂ :=
    freeTables_ok htab
  rw [freevm, deallocuvm_plain (by decide) (Nat.le_refl _), hf]
  simp only [Except.map, ok_bind, ht]
  exact ⟨_, kfree_ok (htab _ (page_mem_tables d₁))⟩

/-! ## `setupkvm` -/

/-- The bytes an entry of `kmap` covers. -/
def Kmap.size (e : Kmap) : Nat := (e.physEnd + 2 ^ 32 - e.physStart) % 2 ^ 32

theorem Ascending.le {lo : Nat} {es : List Kmap} (h : Ascending lo es) :
    ∀ e ∈ es, lo ≤ e.virt := by
  induction es generalizing lo with
  | nil => exact nofun
  | cons e es ih =>
      obtain ⟨n, -, hle, hes⟩ := h
      intro e' he'
      rcases List.mem_cons.mp he' with rfl | he'
      · exact hle
      · exact Nat.le_trans (Nat.le_trans hle (Nat.le_add_right _ _)) (ih hes e' he')

theorem setupkvmLoop_pte {r : Pgdir} {lo : Nat} {es : List Kmap} (hes : Ascending lo es)
    (hphys : ∀ e ∈ es, e.physStart < 2 ^ 32) (h : setupkvmLoop k es m d = .ok (some r, m')) :
    (∀ va, va < 2 ^ 32 → (∀ e ∈ es, va < e.virt ∨ e.virt + e.size ≤ va) → r.pte va = d.pte va) ∧
    ∀ e ∈ es, ∀ va, e.virt ≤ va → va < e.virt + e.size →
      r.pte va = some ⟨(e.physStart + (PGROUNDDOWN va - e.virt)) % 2 ^ 32, e.perm⟩ := by
  induction es generalizing m d lo with
  | nil =>
      cases h
      exact ⟨fun _ _ _ => rfl, nofun⟩
  | cons e es ih =>
      obtain ⟨⟨m₁, d₁, b⟩, hm, h⟩ := bind_eq_ok.mp h
      obtain ⟨n, he, -, hes⟩ := hes
      have hsize : e.size = n := he.size
      rw [he.size] at hm
      have hr := mappages_mapped he.pos he.hi (hphys e List.mem_cons_self) hm
      have hlast : PGROUNDDOWN (e.virt + n - 1) + PGSIZE = e.virt + n := by
        have h1 : e.virt % 4096 = 0 := he.aligned
        have h2 : n % 4096 = 0 := he.whole
        have h3 := he.pos
        show (e.virt + n - 1) / 4096 * 4096 + 4096 = e.virt + n
        omega
      rw [aligned_down he.aligned, hlast] at hr
      cases b with
      | false =>
          obtain ⟨m₂, hf, h⟩ := bind_eq_ok.mp h
          cases h
      | true =>
          obtain ⟨hout, hin⟩ := ih hes (fun e' he' => hphys e' (List.mem_cons_of_mem _ he')) h
          refine ⟨fun va hva hno => ?_, fun e' he' va h1 h2 => ?_⟩
          · rw [hout va hva fun e' he' => hno e' (List.mem_cons_of_mem _ he')]
            refine hr.outside va hva ?_
            rw [← hsize]
            exact hno e List.mem_cons_self
          · rcases List.mem_cons.mp he' with rfl | he'
            · rw [hsize] at h2
              have hva : va < 2 ^ 32 := Nat.lt_of_lt_of_le h2 he.hi
              rw [hout va hva fun e'' he'' => Or.inl ?_]
              · exact hr.inside rfl va h1 h2
              · exact Nat.lt_of_lt_of_le h2 (hes.le e'' he'')
            · exact hin e' he' va h1 h2

/-- The kernel's part of an address space: physical memory from `KERNBASE` on, the devices
at the top, and nothing else; the text is read-only, and nothing is for the user. -/
def kernelPte (k : Kernel) (va : Nat) : Option Pte :=
  if KERNBASE ≤ va ∧ va < P2V PHYSTOP then
    some ⟨PGROUNDDOWN va - KERNBASE, ⟨!decide (KERNLINK ≤ va ∧ va < k.data), false⟩⟩
  else if DEVSPACE ≤ va then some ⟨PGROUNDDOWN va, ⟨true, false⟩⟩
  else none

theorem kmap_physStart (k : Kernel) : ∀ e ∈ kmap k, e.physStart < 2 ^ 32 := by
  have hhi : k.data < 0x8E000000 := k.top
  intro e he
  simp only [kmap, List.mem_cons, List.not_mem_nil, or_false] at he
  rcases he with rfl | rfl | rfl | rfl
  · exact Nat.two_pow_pos 32
  · show 0x80100000 - 0x80000000 < 2 ^ 32
    omega
  · show k.data - 0x80000000 < 2 ^ 32
    omega
  · show 0xFE000000 < 2 ^ 32
    omega

theorem setupkvm_pte (h : setupkvm k m = .ok (some d, m')) (hva : va < 2 ^ 32) :
    d.pte va = kernelPte k va := by
  have hlo : 0x80100000 < k.data := k.text
  have hhi : k.data < 0x8E000000 := k.top
  have hal : k.data % 4096 = 0 := k.aligned
  rw [setupkvm] at h
  split at h
  · cases h
  · next pg m₁ hk =>
      rw [if_neg (by decide)] at h
      obtain ⟨hout, hin⟩ := setupkvmLoop_pte (kmap_ascending k) (kmap_physStart k) h
      have hend2 : KERNLINK + Kmap.size ⟨KERNLINK, V2P KERNLINK, V2P k.data, ⟨false, false⟩⟩ =
          k.data := by
        show 0x80100000 + (k.data - 0x80000000 + 2 ^ 32 - (0x80100000 - 0x80000000)) % 2 ^ 32 = _
        omega
      have hend3 : k.data + Kmap.size ⟨k.data, V2P k.data, PHYSTOP, ⟨true, false⟩⟩ =
          P2V PHYSTOP := by
        show k.data + (0xE000000 + 2 ^ 32 - (k.data - 0x80000000)) % 2 ^ 32 = 0x8E000000
        omega
      have hio := hin ⟨KERNBASE, 0, EXTMEM, ⟨true, false⟩⟩ (by simp [kmap]) va
      have htext := hin ⟨KERNLINK, V2P KERNLINK, V2P k.data, ⟨false, false⟩⟩ (by simp [kmap]) va
      have hdata := hin ⟨k.data, V2P k.data, PHYSTOP, ⟨true, false⟩⟩ (by simp [kmap]) va
      have hdev := hin ⟨DEVSPACE, DEVSPACE, 0, ⟨true, false⟩⟩ (by simp [kmap]) va
      by_cases hram : KERNBASE ≤ va ∧ va < P2V PHYSTOP
      · have hlow : 0x80000000 ≤ va := hram.1
        have hhigh : va < 0x8E000000 := hram.2
        rw [kernelPte, if_pos hram]
        by_cases h1 : va < KERNLINK
        · have hpa : (0 + (PGROUNDDOWN va - KERNBASE)) % 2 ^ 32 = PGROUNDDOWN va - KERNBASE := by
            show (0 + (va / 4096 * 4096 - 0x80000000)) % 2 ^ 32 = va / 4096 * 4096 - 0x80000000
            omega
          rw [hio hram.1 h1, hpa, decide_eq_false fun hc => absurd hc.1 (Nat.not_le.mpr h1)]
          rfl
        · have hge : 0x80100000 ≤ va := Nat.not_lt.mp h1
          by_cases h2 : va < k.data
          · have hpa : (V2P KERNLINK + (PGROUNDDOWN va - KERNLINK)) % 2 ^ 32 =
                PGROUNDDOWN va - KERNBASE := by
              show (0x80100000 - 0x80000000 + (va / 4096 * 4096 - 0x80100000)) % 2 ^ 32 =
                va / 4096 * 4096 - 0x80000000
              omega
            rw [htext hge (Nat.lt_of_lt_of_eq h2 hend2.symm), hpa, decide_eq_true ⟨hge, h2⟩]
            rfl
          · have hpa : (V2P k.data + (PGROUNDDOWN va - k.data)) % 2 ^ 32 =
                PGROUNDDOWN va - KERNBASE := by
              show (k.data - 0x80000000 + (va / 4096 * 4096 - k.data)) % 2 ^ 32 =
                va / 4096 * 4096 - 0x80000000
              omega
            rw [hdata (Nat.not_lt.mp h2) (Nat.lt_of_lt_of_eq hram.2 hend3.symm), hpa,
              decide_eq_false fun hc => h2 hc.2]
            rfl
      · rw [kernelPte, if_neg hram]
        have hout' : va < 0x80000000 ∨ 0x8E000000 ≤ va := by
          rcases Nat.lt_or_ge va KERNBASE with hlt | hge
          · exact Or.inl hlt
          · exact Or.inr (Nat.not_lt.mp fun hc => hram ⟨hge, hc⟩)
        by_cases htop : DEVSPACE ≤ va
        · have hpa : (DEVSPACE + (PGROUNDDOWN va - DEVSPACE)) % 2 ^ 32 = PGROUNDDOWN va := by
            have htop : 0xFE000000 ≤ va := htop
            show (0xFE000000 + (va / 4096 * 4096 - 0xFE000000)) % 2 ^ 32 = va / 4096 * 4096
            omega
          rw [if_pos htop, hdev htop hva, hpa]
        · rw [if_neg htop, hout va hva]
          · rfl
          · intro e he
            simp only [kmap, List.mem_cons, List.not_mem_nil, or_false] at he
            rcases he with rfl | rfl | rfl | rfl
            · show va < 0x80000000 ∨ 0x80100000 ≤ va
              omega
            · refine hout'.imp (fun h => ?_) fun h => ?_
              · show va < 0x80100000
                omega
              · exact Nat.le_trans (Nat.le_of_eq hend2) (Nat.le_trans (Nat.le_of_lt hhi) h)
            · exact hout'.imp (fun h => by show va < k.data; omega) fun h =>
                Nat.le_trans (Nat.le_of_eq hend3) h
            · exact Or.inl (Nat.not_le.mp htop)

/-- Nothing is there to stop `setupkvm`. -/
theorem setupkvmLoop_total {lo : Nat} {es : List Kmap} (hes : Ascending lo es)
    (hd : ∀ va, lo ≤ va → va < 2 ^ 32 → d.pte va = none)
    (hus : ∀ pg ∈ m.free + d.pages, usable k pg) : ∃ r, setupkvmLoop k es m d = .ok r := by
  induction es generalizing m d lo with
  | nil => exact ⟨_, rfl⟩
  | cons e es ih =>
      obtain ⟨n, he, hlo, hes⟩ := hes
      have hwhole : n % 4096 = 0 := he.whole
      have haligned : e.virt % 4096 = 0 := he.aligned
      have hlast : PGROUNDDOWN (e.virt + n - 1) + PGSIZE = e.virt + n := by
        have hpos := he.pos
        show (e.virt + n - 1) / 4096 * 4096 + 4096 = e.virt + n
        omega
      obtain ⟨⟨m₁, d₁, b⟩, hm⟩ : ∃ r, mappages m d e.virt n e.physStart e.perm = .ok r := by
        refine mappages_ok he.pos he.hi fun x h1 h2 => ?_
        rw [aligned_down he.aligned] at h1
        rw [hlast] at h2
        exact hd x (Nat.le_trans hlo h1) (Nat.lt_of_lt_of_le h2 he.hi)
      have hr := mappages_kernel he.perm he.lo he.aligned he.pos he.whole he.hi hm
      have hus₁ : ∀ pg ∈ m₁.free + d₁.pages, usable k pg := hr.pages ▸ hus
      rw [setupkvmLoop, he.size, hm, ok_bind]
      cases b with
      | true =>
          exact ih hes (fun va h1 h2 => (hr.only va h2 (Or.inr h1)).trans (hd va (by omega) h2)) hus₁
      | false =>
          obtain ⟨m₂, hf⟩ := freevm_ok (k := k) (m := m₁) (d := d₁) fun pg hpg =>
            hus₁ pg (Multiset.mem_add.mpr (Or.inr hpg))
          exact ⟨(none, m₂), by simp [hf]⟩

theorem setupkvm_total (hus : ∀ pg ∈ m.freelist, usable k pg) : ∃ r, setupkvm k m = .ok r := by
  cases hk : kalloc m with
  | none =>
      rw [setupkvm, hk]
      exact ⟨_, rfl⟩
  | some x =>
      obtain ⟨pg, m₁⟩ := x
      obtain ⟨r, hr⟩ := setupkvmLoop_total (k := k) (m := m₁) (d := Pgdir.empty pg)
        (kmap_ascending k) (fun _ _ _ => rfl) (by
          rw [empty_pages, ← kalloc_free hk]
          exact hus)
      refine ⟨r, ?_⟩
      rw [setupkvm, hk]
      exact (if_neg (by decide)).trans hr

/-- `mappages` maps exactly the pages of its range, for every address, and `setupkvm` makes
exactly the kernel's part of an address space or gives back what it took. -/
theorem page_tables_exact :
    (∀ (m : Phys) (d : Pgdir) (va size pa : Nat) (perm : Perm), 1 ≤ size → va + size ≤ 2 ^ 32 →
      pa < 2 ^ 32 → pa % PGSIZE = 0 →
      (∀ x, PGROUNDDOWN va ≤ PGROUNDDOWN x → PGROUNDDOWN x ≤ PGROUNDDOWN (va + size - 1) →
        d.pte x = none) →
      ∃ m' d' b, mappages m d va size pa perm = .ok (m', d', b) ∧ (b = true →
        ∀ x, x < 2 ^ 32 → d'.pte x =
          if PGROUNDDOWN va ≤ PGROUNDDOWN x ∧ PGROUNDDOWN x ≤ PGROUNDDOWN (va + size - 1) then
            some ⟨(pa + (PGROUNDDOWN x - PGROUNDDOWN va)) % 2 ^ 32, perm⟩
          else d.pte x)) ∧
    ∀ (k : Kernel) (m : Phys), (∀ pg ∈ m.freelist, usable k pg) →
      (∃ m', setupkvm k m = .ok (none, m') ∧ m'.freelist.Perm m.freelist) ∨
      ∃ d m', setupkvm k m = .ok (some d, m') ∧ ∀ va, va < 2 ^ 32 → d.pte va = kernelPte k va := by
  refine ⟨fun m d va size pa perm hpos hend hpa _ hnone => ?_, fun k m hus => ?_⟩
  · have hrange : ∀ x, PGROUNDDOWN va ≤ x ∧ x < PGROUNDDOWN (va + size - 1) + PGSIZE ↔
        PGROUNDDOWN va ≤ PGROUNDDOWN x ∧ PGROUNDDOWN x ≤ PGROUNDDOWN (va + size - 1) :=
      fun x => and_congr (PGROUNDDOWN_le_iff va x) (PGROUNDDOWN_lt_iff x (va + size - 1))
    obtain ⟨⟨m', d', b⟩, hm⟩ : ∃ r, mappages m d va size pa perm = .ok r :=
      mappages_ok hpos hend fun x h1 h2 => by
        obtain ⟨h1, h2⟩ := (hrange x).mp ⟨h1, h2⟩
        exact hnone x h1 h2
    have hr := mappages_mapped hpos hend hpa hm
    refine ⟨m', d', b, hm, fun hb x hx => ?_⟩
    split
    · next hin =>
        obtain ⟨h1, h2⟩ := (hrange x).mpr hin
        exact hr.inside hb x h1 h2
    · next hin =>
        refine hr.outside x hx ?_
        rcases Nat.lt_or_ge x (PGROUNDDOWN va) with hlt | hge
        · exact Or.inl hlt
        · exact Or.inr (Nat.not_lt.mp fun hc => hin ((hrange x).mp ⟨hge, hc⟩))
  · obtain ⟨⟨r, m'⟩, hs⟩ := setupkvm_total hus
    cases r with
    | none =>
        refine Or.inl ⟨m', hs, Multiset.coe_eq_coe.mp ?_⟩
        have hfree := (setupkvm_free hs).1
        rw [dirPages, add_zero] at hfree
        exact hfree
    | some d => exact Or.inr ⟨d, m', hs, fun va hva => setupkvm_pte hs hva⟩

/-- A small kernel. -/
def tinyKernel : Kernel where
  endAddr := 0x80110000
  data := 0x80108000
  text := by decide
  bss := by decide
  top := by decide
  aligned := by decide

/-- One byte is mapped in an empty directory, and a kernel finds its first page of text. -/
theorem page_tables_exact_text :
    (∃ m' d', mappages ⟨[0x400000], fun _ _ => 0⟩ (Pgdir.empty 0) 5 1 0x1000 ⟨true, true⟩ =
      .ok (m', d', true) ∧ d'.pte 7 = some ⟨0x1000, ⟨true, true⟩⟩) ∧
    ∃ (m : Phys) (d : Pgdir) (m' : Phys), setupkvm tinyKernel m = .ok (some d, m') ∧
      d.pte KERNLINK = some ⟨EXTMEM, ⟨false, false⟩⟩ := by
  obtain ⟨hmap, hset⟩ := page_tables_exact
  constructor
  · obtain ⟨m', d', b, hm, hpte⟩ := hmap ⟨[0x400000], fun _ _ => 0⟩ (Pgdir.empty 0) 5 1 0x1000
      ⟨true, true⟩ (by decide) (by decide) (by decide) (by decide) fun _ _ _ => rfl
    have hb : b = true := by
      have hrun : (mappages ⟨[0x400000], fun _ _ => 0⟩ (Pgdir.empty 0) 5 1 0x1000
          ⟨true, true⟩).toOption.any (fun r => r.2.2) = true := by decide +kernel
      rw [hm] at hrun
      exact hrun
    subst hb
    refine ⟨m', d', hm, ?_⟩
    rw [hpte rfl 7 (by decide)]
    rfl
  · let m : Phys := ⟨List.replicate 600 0x400000, fun _ _ => 0⟩
    have hpage : usable tinyKernel 0x400000 := ⟨by decide, by decide, by decide⟩
    have hlen : 513 < m.freelist.length := by
      rw [List.length_replicate]
      decide
    obtain ⟨d, m', hs⟩ := setupkvm_ok (k := tinyKernel) hlen
    rcases hset tinyKernel m (fun pg hpg => List.eq_of_mem_replicate hpg ▸ hpage) with
      ⟨m₁, hnone, -⟩ | ⟨d₁, m₁, hsome, hpte⟩
    · rw [hs] at hnone
      cases hnone
    · refine ⟨m, d₁, m₁, hsome, ?_⟩
      rw [hpte KERNLINK (by decide)]
      rfl

end Xv6.Ref.Vm
