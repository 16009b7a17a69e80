import Xv6.Proofs.ExecLoad

/-!
# The stack of a new program

Behind the segments `exec` puts two pages, and makes the lower one inaccessible. The
argument strings go down from the top, each rounded to a word, and below them the block
that `main` is called with. A copy that reaches down into the lower page stops there, so
what was copied is on the upper page. The pointer is an unsigned number and is not tested:
a string longer than all that lies below it makes it wrap round to the kernel's addresses,
where the copy stops if there is a table, and reads through a null pointer if there is none.
-/

namespace Xv6.Ref.Vm

open Xv6.Lib

variable {k : Kernel} {m m' m₀ : Phys} {d d' : Pgdir} {a pg top va : Nat}
  {perm : Nat → Perm} {img : Nat → UInt8}

/-! ## The guard page -/

/-- The permissions of an image whose stack ends at `top`. -/
def stackPerm (top va : Nat) : Perm :=
  if top - 2 * PGSIZE ≤ va ∧ va < top - PGSIZE then ⟨true, false⟩ else ⟨true, true⟩

theorem stackPerm_guard (h1 : top - 2 * PGSIZE ≤ va) (h2 : va < top - PGSIZE) :
    (stackPerm top va).u = false := by
  rw [stackPerm, if_pos ⟨h1, h2⟩]

/-- The last word of the guard page. -/
theorem stackPerm_word (hle : 2 * PGSIZE ≤ top) :
    ∃ x, x + 4 = top - 4096 ∧ (stackPerm top x).u = false := by
  have hle : 2 * 4096 ≤ top := hle
  refine ⟨top - 4100, by omega, stackPerm_guard ?_ ?_⟩
  · show top - 2 * 4096 ≤ top - 4100
    omega
  · show top - 4100 < top - 4096
    omega

theorem clearpteu_built (h : Built k allPerm img m₀ top m d) (htop : top % PGSIZE = 0)
    (hle : 2 * PGSIZE ≤ top) : ∃ d', clearpteu d (top - 2 * PGSIZE) = .ok d' ∧
      Built k (stackPerm top) img m₀ top m d' := by
  have htop' : top % 4096 = 0 := htop
  have hle' : 2 * 4096 ≤ top := hle
  have hk : top ≤ 0x80000000 := h.space.le
  have hlt : top - 2 * PGSIZE < top := by
    show top - 2 * 4096 < top
    omega
  obtain ⟨pg, hp, -⟩ := h.space.mapped _ hlt
  have ht := tab_of_pte hp
  obtain ⟨t, ht'⟩ := Option.ne_none_iff_exists'.mp ht
  have hc : clearpteu d (top - 2 * PGSIZE) =
      .ok (d.setPte (top - 2 * PGSIZE) (some ⟨pg, ⟨true, false⟩⟩)) := by
    simp only [clearpteu, ht', hp]
    rfl
  -- the entry is that of the guard page
  have hpte : ∀ x, x < 2 ^ 32 →
      (d.setPte (top - 2 * PGSIZE) (some ⟨pg, ⟨true, false⟩⟩)).pte x =
        if top - 2 * PGSIZE ≤ x ∧ x < top - PGSIZE then some ⟨pg, ⟨true, false⟩⟩ else d.pte x := by
    intro x hx
    have hiff : (PDX x = PDX (top - 2 * PGSIZE) ∧ PTX x = PTX (top - 2 * PGSIZE)) ↔
        (top - 2 * PGSIZE ≤ x ∧ x < top - PGSIZE) := by
      rw [samePage_iff (by show top - 2 * 4096 < 2 ^ 32; omega) hx]
      show x / 4096 = (top - 2 * 4096) / 4096 ↔ (top - 2 * 4096 ≤ x ∧ x < top - 4096)
      omega
    rw [pte_setPte ht]
    exact if_congr hiff rfl rfl
  have hpa : ∀ x, x < top → ∀ e,
      (d.setPte (top - 2 * PGSIZE) (some ⟨pg, ⟨true, false⟩⟩)).pte x = some e →
      ∃ e', d.pte x = some e' ∧ e'.pa = e.pa := by
    intro x hx e he
    rw [hpte x (by omega)] at he
    split at he
    · next hin =>
        cases he
        refine ⟨_, (pte_samePage d ?_).trans hp, rfl⟩
        have hin : top - 2 * 4096 ≤ x ∧ x < top - 4096 := hin
        show x / 4096 = (top - 2 * 4096) / 4096
        omega
    · exact ⟨e, he, rfl⟩
  refine ⟨_, hc, ⟨h.space.le, fun x hx => ?_, fun x h1 h2 => ?_,
    fun x x' e e' hx hx' he he' heq => ?_⟩, h.suffix, fun x e hx he => ?_, h.mem,
    fun x h1 h2 => ?_, ?_⟩
  · obtain ⟨q, hq, hu, hf, hb⟩ := h.space.mapped x hx
    refine ⟨q, ?_, hu, hf, hb⟩
    rw [hpte x (by omega)]
    split
    · next hin =>
        have hin' : top - 2 * 4096 ≤ x ∧ x < top - 4096 := hin
        rw [pte_samePage d (show x / PGSIZE = (top - 2 * PGSIZE) / PGSIZE by
          show x / 4096 = (top - 2 * 4096) / 4096
          omega), hp] at hq
        rw [stackPerm, if_pos hin, (Pte.mk.inj (Option.some.inj hq)).1]
    · next hin =>
        rw [hq, stackPerm, if_neg hin]
        rfl
  · rw [hpte x (lt_of_user h2), if_neg fun hin => ?_]
    · exact h.space.unmapped x h1 h2
    · have hin : x < top - 4096 := hin.2
      omega
  · obtain ⟨e₁, he₁, hpa₁⟩ := hpa x hx e he
    obtain ⟨e₂, he₂, hpa₂⟩ := hpa x' hx' e' he'
    exact h.space.inj x x' e₁ e₂ hx hx' he₁ he₂ (by rw [hpa₁, hpa₂, heq])
  · obtain ⟨e₁, he₁, hpa₁⟩ := hpa x hx e he
    rw [← hpa₁]
    exact h.fresh x e₁ hx he₁
  · rw [hpte x h2, if_neg fun hin => ?_]
    · exact h.kernel x h1 h2
    · have hin : x < top - 4096 := hin.2
      have h1 : 0x80000000 ≤ x := h1
      omega
  · exact (clearpteu_loaded (m := m) hc).pages.trans h.pages

/-! ## Pushing strings -/

/-- The stack pointer when `n` bytes are pushed. -/
def pushed (sp n : Nat) : Nat := subWrap sp n / 4 * 4

theorem pushed_le {sp n : Nat} (hn : n ≤ sp) (hsp : sp ≤ KERNBASE) :
    pushed sp n = (sp - n) / 4 * 4 := by
  have hsp : sp ≤ 0x80000000 := hsp
  show (sp + 2 ^ 32 - n % 2 ^ 32) % 2 ^ 32 / 4 * 4 = (sp - n) / 4 * 4
  omega

theorem pushed_wraps {sp n : Nat} (hn : sp < n) (hlen : n ≤ KERNBASE) :
    pushed sp n = (2 ^ 32 + sp - n) / 4 * 4 := by
  have hlen : n ≤ 0x80000000 := hlen
  show (sp + 2 ^ 32 - n % 2 ^ 32) % 2 ^ 32 / 4 * 4 = (2 ^ 32 + sp - n) / 4 * 4
  omega

/-- Nowhere on its way down does the pointer fall into the part of the address space for
which the kernel has no page tables: the `n` bytes of a string end above it, or begin below
it. The strings are looked at as far as they fit above `base`. -/
def NoHole (base : Nat) : Nat → List (List UInt8) → Prop
  | _, [] => True
  | sp, s :: argv =>
      (s.length + 1 ≤ sp + 2 ^ 25 ∨ sp + 0x72000000 < s.length + 1) ∧
        (base + (s.length + 1) ≤ sp → NoHole base ((sp - (s.length + 1)) / 4 * 4) argv)

/-- The strings lie one below the other, from `hi` down to `lo`. -/
def Placed (img : Nat → UInt8) (lo : Nat) : Nat → List (List UInt8) → List Nat → Prop
  | hi, [], [] => lo = hi
  | hi, s :: argv, p :: ps =>
      lo ≤ p ∧ p + (s.length + 1) ≤ hi ∧
        (∀ i, i < s.length + 1 → img (p + i) = (s ++ [0]).getD i 0) ∧ Placed img lo p argv ps
  | _, _, _ => False

theorem Placed.congr {img' : Nat → UInt8} {lo : Nat} {argv : List (List UInt8)} :
    ∀ {hi : Nat} {ps : List Nat}, Placed img lo hi argv ps →
      (∀ va, lo ≤ va → va < hi → img' va = img va) → Placed img' lo hi argv ps := by
  induction argv with
  | nil =>
      intro hi ps h _
      cases ps with
      | nil => exact h
      | cons p ps => exact h
  | cons s argv ih =>
      intro hi ps h himg
      cases ps with
      | nil => exact h
      | cons p ps =>
          obtain ⟨h1, h2, h3, h4⟩ := h
          exact ⟨h1, h2, fun i hi => by rw [himg _ (by omega) (by omega), h3 i hi],
            ih h4 fun va hlo hhi => himg va hlo (by omega)⟩

theorem Placed.length {lo : Nat} {argv : List (List UInt8)} :
    ∀ {hi : Nat} {ps : List Nat}, Placed img lo hi argv ps → ps.length = argv.length := by
  induction argv with
  | nil =>
      intro hi ps h
      cases ps with
      | nil => rfl
      | cons p ps => exact h.elim
  | cons s argv ih =>
      intro hi ps h
      cases ps with
      | nil => exact h.elim
      | cons p ps => rw [List.length_cons, List.length_cons, ih h.2.2.2]

/-- A copy to an address of the kernel that has a table stops at once. -/
theorem copyout_kernel {buf : List UInt8} (h : Built k perm img m₀ top m d) (hlo : KERNBASE ≤ va)
    (hhi : va < 2 ^ 32) (hmap : va < P2V PHYSTOP ∨ DEVSPACE ≤ va) (hbuf : buf ≠ []) :
    copyout m d va buf = .ok (m, false) := by
  have hlo' : 0x80000000 ≤ va := hlo
  have hdown : KERNBASE ≤ PGROUNDDOWN va ∧ PGROUNDDOWN va < 2 ^ 32 := by
    show 0x80000000 ≤ va / 4096 * 4096 ∧ va / 4096 * 4096 < 2 ^ 32
    omega
  obtain ⟨e, he, hu⟩ : ∃ e, d.pte (PGROUNDDOWN va) = some e ∧ e.perm.u = false := by
    rw [h.kernel _ hdown.1 hdown.2, kernelPte]
    split
    · exact ⟨_, rfl, rfl⟩
    · next hram =>
        rw [if_pos]
        · exact ⟨_, rfl, rfl⟩
        · rcases hmap with hlt | hge
          · refine absurd ⟨hdown.1, ?_⟩ hram
            exact Nat.lt_of_le_of_lt (PGROUNDDOWN_le va) hlt
          · have hge : 0xFE000000 ≤ va := hge
            show 0xFE000000 ≤ va / 4096 * 4096
            omega
  obtain ⟨t, ht⟩ := Option.ne_none_iff_exists'.mp (tab_of_pte he)
  obtain ⟨n, hn⟩ := Nat.exists_eq_succ_of_ne_zero (List.length_eq_zero_iff.not.mpr hbuf)
  rw [copyout, hn, copyoutLoop, if_pos (by omega)]
  simp only [uva2ka, ht, he, hu, if_true, ok_bind]

theorem pushArgs_built (htop : top % PGSIZE = 0) (hle : 2 * PGSIZE ≤ top)
    (argv : List (List UInt8)) :
    ∀ (argc : Nat) (ps : List Nat) {sp : Nat} {m : Phys} {img : Nat → UInt8},
      Built k (stackPerm top) img m₀ top m d → top - PGSIZE ≤ sp → sp ≤ top → sp % 4 = 0 →
      NoHole (top - PGSIZE) sp argv → (∀ s ∈ argv, s.length + 1 ≤ KERNBASE) →
      ∃ m' r, pushArgs d argv argc m sp ps = .ok (m', r) ∧ Taken m₀ m' d ∧
        ∀ sp' ps', r = some (sp', ps') → ∃ img' qs, ps' = ps ++ qs ∧
          Built k (stackPerm top) img' m₀ top m' d ∧ top - PGSIZE ≤ sp' ∧ sp' ≤ sp ∧ sp' % 4 = 0 ∧
          argc + argv.length ≤ max argc MAXARG ∧ Placed img' sp' sp argv qs ∧
          ∀ va, va < sp' ∨ sp ≤ va → img' va = img va := by
  have htop' : top % 4096 = 0 := htop
  have hle' : 2 * 4096 ≤ top := hle
  induction argv with
  | nil =>
      intro argc ps sp m img h hlo hhi hal _ _
      refine ⟨m, some (sp, ps), rfl, h.taken, ?_⟩
      rintro _ _ ⟨⟩
      exact ⟨img, [], (List.append_nil _).symm, h, hlo, Nat.le_refl _, hal, by simp, rfl,
        fun _ _ => rfl⟩
  | cons s argv ih =>
      intro argc ps sp m img h hlo hhi hal hhole hlen
      have hlo' : top - 4096 ≤ sp := hlo
      have hk : top ≤ 0x80000000 := h.space.le
      obtain ⟨hhole, hrest⟩ := hhole
      have hs : s.length + 1 ≤ 0x80000000 := hlen s List.mem_cons_self
      rw [pushArgs]
      by_cases hargc : argc ≥ MAXARG
      · rw [if_pos hargc]
        exact ⟨m, none, rfl, h.taken, by rintro _ _ ⟨⟩⟩
      rw [if_neg hargc]
      rw [show subWrap sp (s.length + 1) / 4 * 4 = pushed sp (s.length + 1) from rfl]
      have hbuf : (s ++ [0]).length = s.length + 1 := by simp
      rcases Nat.lt_or_ge sp (s.length + 1) with hwrap | hfit
      · -- the pointer wraps round into the kernel
        have hkernel : copyout m d (pushed sp (s.length + 1)) (s ++ [0]) = .ok (m, false) := by
          rw [pushed_wraps hwrap hs]
          refine copyout_kernel h ?_ ?_ ?_ (by simp)
          · show 0x80000000 ≤ (2 ^ 32 + sp - (s.length + 1)) / 4 * 4
            omega
          · omega
          · show (2 ^ 32 + sp - (s.length + 1)) / 4 * 4 < 0x8E000000 ∨
              0xFE000000 ≤ (2 ^ 32 + sp - (s.length + 1)) / 4 * 4
            omega
        simp only [hkernel, ok_bind]
        exact ⟨m, none, rfl, h.taken, by rintro _ _ ⟨⟩⟩
      · rw [pushed_le hfit (Nat.le_trans hhi h.space.le)]
        generalize hsp : (sp - (s.length + 1)) / 4 * 4 = sp₁ at hrest ⊢
        have hend : sp₁ + (s ++ [0]).length ≤ top := by
          rw [hbuf]
          omega
        obtain ⟨m₁, b, hc, ht, hb⟩ := copyout_built htop h hend
        simp only [hc, ok_bind]
        cases b with
        | false => exact ⟨m₁, none, rfl, ht, by rintro _ _ ⟨⟩⟩
        | true =>
            obtain ⟨hb, huser⟩ := hb rfl
            -- otherwise the word below the upper page was written
            have hlo₁ : top - PGSIZE ≤ sp₁ := by
              show top - 4096 ≤ sp₁
              by_contra hlt
              obtain ⟨x, hx, hguard⟩ := stackPerm_word hle
              rw [huser x (by omega) (by rw [hbuf]; omega)] at hguard
              cases hguard
            have hlo₁' : top - 4096 ≤ sp₁ := hlo₁
            obtain ⟨m', r, hp, ht', hres⟩ := ih (argc + 1) (ps ++ [sp₁]) hb hlo₁ (by omega) (by omega)
              (hrest (by show top - 4096 + (s.length + 1) ≤ sp; omega))
              fun x hx => hlen x (List.mem_cons_of_mem _ hx)
            refine ⟨m', r, hp, ht', fun sp' ps' hr => ?_⟩
            obtain ⟨img', qs, hps, hb', h1, h2, h3, h4, hpl, hout⟩ := hres sp' ps' hr
            refine ⟨img', sp₁ :: qs, by rw [hps, List.append_assoc]; rfl, hb', h1, by omega, h3,
              ?_, ⟨h2, by omega, fun i hi => ?_, hpl⟩, fun va hva => ?_⟩
            · rw [List.length_cons]
              omega
            · rw [hout _ (by omega), overlay_in (by omega) (by omega), Nat.add_sub_cancel_left]
            · rw [hout va (by omega), overlay_out (by omega)]

/-! ## The block below the strings -/

/-- The `uint` at an address. -/
def wordAt (img : Nat → UInt8) (a : Nat) : Nat :=
  (img a).toNat + (img (a + 1)).toNat * 2 ^ 8 + (img (a + 2)).toNat * 2 ^ 16 +
    (img (a + 3)).toNat * 2 ^ 24

theorem wordBytes_eq (n : Nat) : wordBytes n = [UInt8.ofNat (n / 2 ^ 0), UInt8.ofNat (n / 2 ^ 8),
    UInt8.ofNat (n / 2 ^ 16), UInt8.ofNat (n / 2 ^ 24)] := rfl

theorem words_length (ws : List Nat) : (ws.flatMap wordBytes).length = ws.length * 4 := by
  induction ws with
  | nil => rfl
  | cons w ws ih =>
      rw [List.flatMap_cons, List.length_append, ih, List.length_cons, Nat.succ_mul]
      exact Nat.add_comm _ _

theorem words_getD {ws : List Nat} {i j : Nat} (hi : i < ws.length) (hj : j < 4) :
    (ws.flatMap wordBytes).getD (i * 4 + j) 0 = UInt8.ofNat (ws.getD i 0 / 2 ^ (8 * j)) := by
  induction ws generalizing i with
  | nil => exact absurd hi (Nat.not_lt_zero _)
  | cons w ws ih =>
      have hlen : (wordBytes w).length = 4 := rfl
      rw [List.flatMap_cons]
      cases i with
      | zero =>
          rw [Nat.zero_mul, Nat.zero_add, List.getD_append _ _ _ _ (by omega), wordBytes_eq]
          match j, hj with
          | 0, _ => rfl
          | 1, _ => rfl
          | 2, _ => rfl
          | 3, _ => rfl
      | succ i =>
          rw [List.getD_append_right _ _ _ _ (by omega), hlen,
            show (i + 1) * 4 + j - 4 = i * 4 + j by omega,
            ih (Nat.lt_of_succ_lt_succ hi), List.getD_cons_succ]

theorem wordAt_overlay {ws : List Nat} {i : Nat} (hi : i < ws.length)
    (hw : ws.getD i 0 < 2 ^ 32) :
    wordAt (overlay img a (ws.flatMap wordBytes)) (a + i * 4) = ws.getD i 0 := by
  have hlen := words_length ws
  have hbyte : ∀ j, j < 4 → overlay img a (ws.flatMap wordBytes) (a + i * 4 + j) =
      UInt8.ofNat (ws.getD i 0 / 2 ^ (8 * j)) := by
    intro j hj
    rw [overlay_in (by omega) (by omega), show a + i * 4 + j - a = i * 4 + j by omega,
      words_getD hi hj]
  rw [wordAt, ← Nat.add_zero (a + i * 4), hbyte 0 (by decide)]
  simp only [Nat.add_zero]
  rw [hbyte 1 (by decide), hbyte 2 (by decide), hbyte 3 (by decide)]
  simp only [UInt8.toNat_ofNat']
  generalize ws.getD i 0 = w at hw
  show w / 1 % 2 ^ 8 + w / 2 ^ 8 % 2 ^ 8 * 2 ^ 8 + w / 2 ^ 16 % 2 ^ 8 * 2 ^ 16 +
    w / 2 ^ 24 % 2 ^ 8 * 2 ^ 24 = w
  omega

/-- What `main` finds on its stack: a return address, `argc`, and a pointer to the pointers
to its arguments; above this block lie the strings, and the stack ends at `top`. -/
structure Arguments (img : Nat → UInt8) (top esp : Nat) (argv : List (List UInt8))
    (ps : List Nat) : Prop where
  page : top - PGSIZE ≤ esp
  strings : Placed img (esp + (3 + argv.length + 1) * 4) top argv ps
  ret : wordAt img esp = 0xffffffff
  argc : wordAt img (esp + 4) = argv.length
  block : wordAt img (esp + 8) = esp + 12
  pointers : ∀ i, i < argv.length → wordAt img (esp + 12 + i * 4) = ps.getD i 0
  null : wordAt img (esp + 12 + argv.length * 4) = 0

theorem Placed.lt {lo : Nat} {argv : List (List UInt8)} :
    ∀ {hi : Nat} {ps : List Nat}, Placed img lo hi argv ps → ∀ p ∈ ps, p < hi := by
  induction argv with
  | nil =>
      intro hi ps h p hp
      cases ps with
      | nil => cases hp
      | cons q ps => exact h.elim
  | cons s argv ih =>
      intro hi ps h p hp
      cases ps with
      | nil => cases hp
      | cons q ps =>
          obtain ⟨-, h2, -, h4⟩ := h
          rcases List.mem_cons.mp hp with rfl | hp
          · omega
          · exact Nat.lt_of_lt_of_le (ih h4 p hp) (by omega)

theorem Placed.le {lo : Nat} {argv : List (List UInt8)} :
    ∀ {hi : Nat} {ps : List Nat}, Placed img lo hi argv ps → lo ≤ hi := by
  induction argv with
  | nil =>
      intro hi ps h
      cases ps with
      | nil => exact Nat.le_of_eq h
      | cons p ps => exact h.elim
  | cons s argv ih =>
      intro hi ps h
      cases ps with
      | nil => exact h.elim
      | cons p ps => exact Nat.le_trans (ih h.2.2.2) (Nat.le_trans (Nat.le_add_right _ _) h.2.1)

theorem arguments_of_overlay {sp esp : Nat} {argv : List (List UInt8)} {ps : List Nat}
    (hpl : Placed img sp top argv ps) (htop : top ≤ KERNBASE) (hesp : top - PGSIZE ≤ esp)
    (hsp : esp + (3 + argv.length + 1) * 4 = sp) :
    Arguments (overlay img esp (([0xffffffff, argv.length, esp + 12] ++ ps ++ [0]).flatMap
      wordBytes)) top esp argv ps := by
  have htop' : top ≤ 0x80000000 := htop
  have hlen := hpl.length
  have hle := hpl.le
  generalize hws : [0xffffffff, argv.length, esp + 12] ++ ps ++ [0] = ws
  have hwlen : ws.length = 3 + argv.length + 1 := by
    rw [← hws]
    simp [hlen]
    omega
  have h0 : ws.getD 0 0 = 0xffffffff := by rw [← hws]; rfl
  have h1 : ws.getD 1 0 = argv.length := by rw [← hws]; rfl
  have h2 : ws.getD 2 0 = esp + 12 := by rw [← hws]; rfl
  have hptr : ∀ i, i < argv.length → ws.getD (3 + i) 0 = ps.getD i 0 := by
    intro i hi
    rw [← hws, List.append_assoc, List.getD_append_right _ _ _ _ (by simp), List.getD_append _ _ _ _
      (by simp; omega)]
    simp
  have hnull : ws.getD (3 + argv.length) 0 = 0 := by
    rw [← hws, List.getD_append_right _ _ _ _ (by simp; omega)]
    simp [hlen, Nat.add_comm]
  have hword : ∀ i v, i < ws.length → ws.getD i 0 = v → v < 2 ^ 32 →
      wordAt (overlay img esp (ws.flatMap wordBytes)) (esp + i * 4) = v := by
    intro i v hi hv hlt
    rw [wordAt_overlay hi (by rw [hv]; exact hlt), hv]
  refine ⟨hesp, ?_, ?_, ?_, ?_, fun i hi => ?_, ?_⟩
  · rw [hsp]
    refine hpl.congr fun va h1 h2 => overlay_out (Or.inr ?_)
    rw [words_length, hwlen]
    omega
  · exact hword 0 _ (by omega) h0 (by omega)
  · exact hword 1 _ (by omega) h1 (by omega)
  · exact hword 2 _ (by omega) h2 (by omega)
  · have hp : ps.getD i 0 < top := by
      rw [List.getD_eq_getElem _ _ (by omega)]
      exact hpl.lt _ (List.getElem_mem _)
    have := hword (3 + i) _ (by omega) (hptr i hi) (by omega)
    rwa [show esp + (3 + i) * 4 = esp + 12 + i * 4 by omega] at this
  · have := hword (3 + argv.length) 0 (by omega) hnull (by omega)
    rwa [show esp + (3 + argv.length) * 4 = esp + 12 + argv.length * 4 by omega] at this

theorem subWrap_le {sp n : Nat} (hn : n ≤ sp) (hsp : sp ≤ KERNBASE) : subWrap sp n = sp - n := by
  have hsp : sp ≤ 0x80000000 := hsp
  show (sp + 2 ^ 32 - n % 2 ^ 32) % 2 ^ 32 = sp - n
  omega

theorem pushBlock_built {sp : Nat} {argv : List (List UInt8)} {ps : List Nat}
    (htop : top % PGSIZE = 0) (hle : 2 * PGSIZE ≤ top)
    (h : Built k (stackPerm top) img m₀ top m d) (hlo : top - PGSIZE ≤ sp) (hal : sp % 4 = 0)
    (hargc : argv.length ≤ MAXARG) (hpl : Placed img sp top argv ps) :
    ∃ m' b, copyout m d (subWrap sp ((3 + ps.length + 1) * 4))
        (([0xffffffff, ps.length, subWrap sp ((ps.length + 1) * 4)] ++ ps ++ [0]).flatMap wordBytes) =
          .ok (m', b) ∧ Taken m₀ m' d ∧
      (b = true → ∃ img', Built k (stackPerm top) img' m₀ top m' d ∧
        (∀ va, va < top - PGSIZE → img' va = img va) ∧
        Arguments img' top (subWrap sp ((3 + ps.length + 1) * 4)) argv ps) := by
  have htop' : top % 4096 = 0 := htop
  have hle' : 2 * 4096 ≤ top := hle
  have hlo' : top - 4096 ≤ sp := hlo
  have hargc' : argv.length ≤ 32 := hargc
  have hhi := hpl.le
  have hk := Nat.le_trans hhi h.space.le
  rw [hpl.length, subWrap_le (by omega) hk, subWrap_le (by omega) hk,
    show sp - (argv.length + 1) * 4 = sp - (3 + argv.length + 1) * 4 + 12 by omega]
  generalize hesp : sp - (3 + argv.length + 1) * 4 = esp
  have hblock : ((([0xffffffff, argv.length, esp + 12] ++ ps ++ [0]).flatMap wordBytes)).length =
      (3 + argv.length + 1) * 4 := by
    rw [words_length]
    simp [hpl.length]
    omega
  have hend : esp + ((([0xffffffff, argv.length, esp + 12] ++ ps ++ [0]).flatMap
      wordBytes)).length ≤ top := by
    rw [hblock]
    omega
  obtain ⟨m', b, hc, ht, hb⟩ := copyout_built htop h hend
  refine ⟨m', b, hc, ht, fun htrue => ?_⟩
  obtain ⟨hb, huser⟩ := hb htrue
  have hesp' : top - PGSIZE ≤ esp := by
    show top - 4096 ≤ esp
    by_contra hlt
    obtain ⟨x, hx, hguard⟩ := stackPerm_word hle
    rw [huser x (by omega) (by rw [hblock]; omega)] at hguard
    cases hguard
  refine ⟨_, hb, fun va hva => overlay_out (Or.inl (Nat.lt_of_lt_of_le hva hesp')), ?_⟩
  exact arguments_of_overlay hpl h.space.le hesp' (by omega)

/-! ## `exec` -/

theorem PGROUNDUP_aligned {n : Nat} (h : n % PGSIZE = 0) : PGROUNDUP n = n := by
  have h : n % 4096 = 0 := h
  show (n + 4096 - 1) / 4096 * 4096 = n
  omega

/-- Two pages more. -/
theorem stack_mod {n : Nat} (h : n % PGSIZE = 0) : (n + 2 * PGSIZE) % PGSIZE = 0 := by
  have h : n % 4096 = 0 := h
  show (n + 2 * 4096) % 4096 = 0
  omega

theorem pushStack_built (path : List UInt8) {argv : List (List UInt8)} (entry : Nat) {sz : Nat}
    (hpool : Pool k m₀) (h : Built k allPerm img m₀ (PGROUNDUP sz) m d)
    (hhole : NoHole (PGROUNDUP sz + PGSIZE) (PGROUNDUP sz + 2 * PGSIZE) argv)
    (hlen : ∀ s ∈ argv, s.length + 1 ≤ KERNBASE) :
    ∃ m' d' r, pushStack k path argv entry m d sz = .ok (m', d', r) ∧ Taken m₀ m' d' ∧
      ∀ image, r = some image → image.pgdir = d' ∧ image.sz = PGROUNDUP sz + 2 * PGSIZE ∧
        image.eip = entry ∧ image.name = (lastName path).take 15 ∧
        ∃ img' ps, Built k (stackPerm image.sz) img' m₀ image.sz m' d' ∧
          (∀ va, va < PGROUNDUP sz → img' va = img va) ∧
          Arguments img' image.sz image.esp argv ps := by
  rw [pushStack]
  generalize hbot : PGROUNDUP sz = bot at *
  have hmod : bot % PGSIZE = 0 := hbot ▸ PGROUNDUP_mod sz
  have hup : PGROUNDUP bot = bot := PGROUNDUP_aligned hmod
  have htop : (bot + 2 * PGSIZE) % PGSIZE = 0 := stack_mod hmod
  rcases Nat.lt_or_ge (bot + 2 * PGSIZE) KERNBASE with hlt | hge
  · rw [← hup] at h
    obtain ⟨m₁, d₁, r₁, ha, hr₁⟩ := h.alloc hpool (Nat.le_add_right _ _) hlt
    simp only [ha, ok_bind]
    rcases hr₁ with ⟨rfl, hb₁⟩ | ⟨rfl, ht⟩
    · have hpos : bot + 2 * PGSIZE ≠ 0 := by
        show bot + 2 * 4096 ≠ 0
        omega
      rw [if_neg hpos]
      rw [upTo_allPerm, PGROUNDUP_aligned htop, hup] at hb₁
      obtain ⟨d₂, hc, hb₂⟩ := clearpteu_built hb₁ htop (Nat.le_add_left _ _)
      simp only [hc, ok_bind]
      have hbase : bot + 2 * PGSIZE - PGSIZE = bot + PGSIZE := by
        show bot + 2 * 4096 - 4096 = bot + 4096
        omega
      obtain ⟨m₃, r₃, hp, ht₃, hres⟩ := pushArgs_built htop (Nat.le_add_left _ _) argv 0 [] hb₂
        (Nat.sub_le _ _) (Nat.le_refl _) (by
          have hmod : bot % 4096 = 0 := hmod
          show (bot + 2 * 4096) % 4 = 0
          omega) (hbase ▸ hhole) hlen
      simp only [hp, ok_bind]
      cases r₃ with
      | none => exact ⟨m₃, d₂, none, rfl, ht₃, nofun⟩
      | some x =>
          obtain ⟨sp, ps⟩ := x
          obtain ⟨img', qs, hps, hb₃, hlo, hhi, hal, hargc, hpl, hout⟩ := hres sp ps rfl
          obtain rfl : ps = qs := hps
          have hargc : argv.length ≤ MAXARG := by
            have hargc : 0 + argv.length ≤ max 0 32 := hargc
            show argv.length ≤ 32
            omega
          obtain ⟨m₄, b, hcopy, ht₄, hblock⟩ := pushBlock_built htop (Nat.le_add_left _ _) hb₃ hlo hal
            hargc hpl
          simp only [hcopy, ok_bind]
          cases b with
          | false => exact ⟨m₄, d₂, none, rfl, ht₄, nofun⟩
          | true =>
              obtain ⟨img₄, hb₄, hout₄, hargs⟩ := hblock rfl
              refine ⟨m₄, d₂, _, rfl, ht₄, ?_⟩
              rintro _ ⟨⟩
              refine ⟨rfl, rfl, rfl, rfl, img₄, ps, hb₄, fun va hva => ?_, hargs⟩
              have hva' : va < bot + 2 * PGSIZE - PGSIZE :=
                hbase ▸ Nat.lt_of_lt_of_le hva (Nat.le_add_right _ _)
              rw [hout₄ va hva', hout va (Or.inl (Nat.lt_of_lt_of_le hva' hlo)), upTo_lt hva]
    · exact ⟨m₁, d₁, none, rfl, ht, nofun⟩
  · rw [allocuvm, if_pos hge]
    exact ⟨m, d, none, rfl, h.taken, nofun⟩

/-- Where the segments end. -/
def imageEnd (phs : List Proghdr) : Nat :=
  (segments phs).foldl (fun sz ph => max sz (ph.vaddr + ph.memsz)) 0

/-- The bytes of the segments. -/
def imageBytes (rd : Reader) (phs : List Proghdr) : Nat → UInt8 :=
  ((segments phs).foldl (place rd) (0, fun _ => 0)).2

theorem place_end (rd : Reader) (phs : List Proghdr) (x : Nat × (Nat → UInt8)) :
    (phs.foldl (place rd) x).1 = phs.foldl (fun sz ph => max sz (ph.vaddr + ph.memsz)) x.1 := by
  induction phs generalizing x with
  | nil => rfl
  | cons ph phs ih => exact ih (place rd x ph)

/-- The image `exec` switches to. -/
structure Imaged (k : Kernel) (rd : Reader) (path : List UInt8) (argv : List (List UInt8))
    (m m' : Phys) (image : Image) (elf : Elfhdr) (phs : List Proghdr) (img : Nat → UInt8)
    (ps : List Nat) : Prop where
  headers : headers rd elf.phnum elf.phoff = some phs
  checked : ∀ ph ∈ segments phs, ph.Checked rd
  sz : image.sz = PGROUNDUP (imageEnd phs) + 2 * PGSIZE
  eip : image.eip = elf.entry
  name : image.name = (lastName path).take 15
  built : Built k (stackPerm image.sz) img m image.sz m' image.pgdir
  bytes : ∀ va, va < PGROUNDUP (imageEnd phs) → img va = imageBytes rd phs va
  args : Arguments img image.sz image.esp argv ps

/-- The argument strings of a file's `exec` stay out of the hole. -/
def ArgsFit (ip : Option Reader) (argv : List (List UInt8)) : Prop :=
  ∀ rd bs phs, ip = some rd → readAll rd 0 elfhdrSize = some bs →
    headers rd (Elfhdr.ofBytes bs).phnum (Elfhdr.ofBytes bs).phoff = some phs →
    NoHole (PGROUNDUP (imageEnd phs) + PGSIZE) (PGROUNDUP (imageEnd phs) + 2 * PGSIZE) argv

theorem exec_built {ip : Option Reader} (path : List UInt8) {argv : List (List UInt8)}
    (hpool : Pool k m) (hfit : ArgsFit ip argv) (hlen : ∀ s ∈ argv, s.length + 1 ≤ KERNBASE) :
    ∃ r m', exec k m ip path argv = .ok (r, m') ∧ (r = none → Returned m m') ∧
      ∀ image, r = some image → ∃ rd bs phs img ps, ip = some rd ∧
        readAll rd 0 elfhdrSize = some bs ∧
        Imaged k rd path argv m m' image (Elfhdr.ofBytes bs) phs img ps := by
  have hself : Returned m m := ⟨rfl, fun _ _ => rfl⟩
  unfold Vm.exec
  cases ip with
  | none => exact ⟨none, m, rfl, fun _ => hself, nofun⟩
  | some rd =>
      dsimp only
      cases hbs : readAll rd 0 elfhdrSize with
      | none => exact ⟨none, m, rfl, fun _ => hself, nofun⟩
      | some bs =>
          dsimp only
          split
          · exact ⟨none, m, rfl, fun _ => hself, nofun⟩
          obtain ⟨⟨r₁, m₁⟩, hs⟩ := setupkvm_total hpool.usable
          simp only [hs, ok_bind]
          cases r₁ with
          | none => exact ⟨none, m₁, rfl, fun _ => setupkvm_none hs, nofun⟩
          | some d₁ =>
              have hb₁ : Built k allPerm (fun _ => 0) m (PGROUNDUP 0) m₁ d₁ := setupkvm_built hs
              obtain ⟨m₂, d₂, r₂, hl, ht₂, hload⟩ := loadSegments_built rd hpool
                (Elfhdr.ofBytes bs).phnum (Elfhdr.ofBytes bs).phoff hb₁ (by decide)
              simp only [hl, ok_bind]
              cases r₂ with
              | none =>
                  obtain ⟨m', hbad, hret⟩ := execBad_returned hpool ht₂
                  exact ⟨none, m', hbad, fun _ => hret, nofun⟩
              | some sz =>
                  obtain ⟨hsz, phs, hphs, hchk, hend, hb₂⟩ := hload sz rfl
                  rw [place_end] at hend
                  obtain rfl : sz = imageEnd phs := hend
                  obtain ⟨m₃, d₃, r₃, hp, ht₃, himage⟩ := pushStack_built path
                    (Elfhdr.ofBytes bs).entry hpool hb₂ (hfit rd bs phs rfl hbs hphs) hlen
                  simp only [hp, ok_bind]
                  cases r₃ with
                  | none =>
                      obtain ⟨m', hbad, hret⟩ := execBad_returned hpool ht₃
                      exact ⟨none, m', hbad, fun _ => hret, nofun⟩
                  | some image =>
                      obtain ⟨rfl, hsz, heip, hname, img', ps, hb₃, hbytes, hargs⟩ := himage image rfl
                      refine ⟨some image, m₃, rfl, nofun, ?_⟩
                      rintro _ ⟨⟩
                      exact ⟨rd, bs, phs, img', ps, rfl, hbs, hphs, hchk, hsz, heip, hname, hb₃,
                        hbytes, hargs⟩

end Xv6.Ref.Vm
