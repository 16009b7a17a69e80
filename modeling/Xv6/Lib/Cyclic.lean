import Mathlib

/-!
# Rings in increasing order

A singly linked ring whose nodes lie in increasing order, with one step back from the
largest to the smallest: `next` is the cyclic successor on a finite set. A walk along it
meets every node. A new node goes between two neighbours, or between the largest and the
smallest if it is larger or smaller than all; a node is taken out by the one before it.
-/

namespace Xv6.Lib

variable {α : Type} [LinearOrder α] {F : Finset α} {next next' : α → α} {p q t b : α}

/-- `q` comes after `p` in the ring of `F`. -/
structure IsNext (F : Finset α) (p q : α) : Prop where
  mem : q ∈ F
  after : (p < q ∧ ∀ x ∈ F, x ≤ p ∨ q ≤ x) ∨ ((∀ x ∈ F, q ≤ x) ∧ ∀ x ∈ F, x ≤ p)

def Cyclic (F : Finset α) (next : α → α) : Prop := ∀ p ∈ F, IsNext F p (next p)

theorem Cyclic.congr (h : Cyclic F next) (he : ∀ p ∈ F, next' p = next p) : Cyclic F next' := by
  intro p hp
  rw [he p hp]
  exact h p hp

theorem Cyclic.iterate_mem (h : Cyclic F next) (hp : p ∈ F) (n : Nat) : next^[n] p ∈ F := by
  induction n generalizing p with
  | zero => exact hp
  | succ n ih => exact ih (h p hp).mem

/-! ## Walks -/

/-- Upwards the walk meets every node. -/
theorem Cyclic.climb (h : Cyclic F next) (n : Nat) : ∀ {p t : α}, p ∈ F → t ∈ F → p ≤ t →
    (F.filter fun x => p < x ∧ x ≤ t).card ≤ n → ∃ k ≤ n, next^[k] p = t := by
  induction n with
  | zero =>
      intro p t hp ht hle hcard
      refine ⟨0, Nat.le_refl _, ?_⟩
      by_contra hne
      have hmem : t ∈ F.filter fun x => p < x ∧ x ≤ t :=
        Finset.mem_filter.mpr ⟨ht, lt_of_le_of_ne hle hne, le_refl t⟩
      rw [Finset.card_eq_zero.mp (Nat.le_zero.mp hcard)] at hmem
      exact absurd hmem (Finset.notMem_empty t)
  | succ n ih =>
      intro p t hp ht hle hcard
      rcases eq_or_lt_of_le hle with rfl | hlt
      · exact ⟨0, Nat.zero_le _, rfl⟩
      · obtain ⟨hmem, ⟨hup, hnone⟩ | ⟨-, hall⟩⟩ := h p hp
        · have hle' : next p ≤ t := (hnone t ht).resolve_left (not_le.mpr hlt)
          have hsub : (F.filter fun x => next p < x ∧ x ≤ t) ⊂
              F.filter fun x => p < x ∧ x ≤ t := by
            refine Finset.ssubset_iff_subset_ne.mpr ⟨fun x hx => ?_, fun he => ?_⟩
            · obtain ⟨hxF, hx1, hx2⟩ := Finset.mem_filter.mp hx
              exact Finset.mem_filter.mpr ⟨hxF, lt_trans hup hx1, hx2⟩
            · have : next p ∈ F.filter fun x => next p < x ∧ x ≤ t := by
                rw [he]
                exact Finset.mem_filter.mpr ⟨hmem, hup, hle'⟩
              exact lt_irrefl _ (Finset.mem_filter.mp this).2.1
          have hlt := Finset.card_lt_card hsub
          obtain ⟨k, hk, hend⟩ := ih hmem ht hle' (by omega)
          exact ⟨k + 1, by omega, hend⟩
        · exact absurd (hall t ht) (not_le.mpr hlt)

/-- A walk meets every node. -/
theorem Cyclic.reaches (h : Cyclic F next) (hp : p ∈ F) (ht : t ∈ F) :
    ∃ k ≤ 2 * F.card, next^[k] p = t := by
  have hcard : ∀ {a b : α}, a ∈ F → (F.filter fun x => a < x ∧ x ≤ b).card + 1 ≤ F.card := by
    intro a b ha
    refine Finset.card_lt_card (Finset.ssubset_iff_subset_ne.mpr ⟨Finset.filter_subset _ _, ?_⟩)
    intro he
    rw [← he] at ha
    exact lt_irrefl a (Finset.mem_filter.mp ha).2.1
  by_cases hle : p ≤ t
  · obtain ⟨k, hk, hend⟩ := h.climb _ hp ht hle (Nat.le_refl _)
    have := hcard (b := t) hp
    exact ⟨k, by omega, hend⟩
  · -- up to the largest, to the smallest, and up again
    have hne : F.Nonempty := ⟨p, hp⟩
    obtain ⟨k₁, hk₁, hend₁⟩ := h.climb _ hp (F.max'_mem hne) (F.le_max' p hp) (Nat.le_refl _)
    obtain ⟨hmem, hafter⟩ := h _ (F.max'_mem hne)
    have hmin : ∀ x ∈ F, next (F.max' hne) ≤ x := by
      rcases hafter with ⟨hlt, -⟩ | ⟨hmin, -⟩
      · exact absurd (F.le_max' _ hmem) (not_le.mpr hlt)
      · exact hmin
    obtain ⟨k₂, hk₂, hend₂⟩ := h.climb _ hmem ht (hmin t ht) (Nat.le_refl _)
    have h1 := hcard (b := F.max' hne) hp
    have h2 := hcard (b := t) hmem
    refine ⟨k₂ + 1 + k₁, by omega, ?_⟩
    rw [Function.iterate_add_apply, hend₁, Function.iterate_succ_apply, hend₂]

/-- The first time a walk from `p` meets `t`, it has not been at `p` again. -/
theorem Cyclic.first (h : Cyclic F next) (hp : p ∈ F) (ht : t ∈ F) :
    ∃ k ≤ 2 * F.card, next^[k] p = t ∧ ∀ i, 0 < i → i < k → next^[i] p ≠ p := by
  classical
  have hex : ∃ k, next^[k] p = t := by
    obtain ⟨k, -, hk⟩ := h.reaches hp ht
    exact ⟨k, hk⟩
  obtain ⟨k, hk, hend⟩ := h.reaches hp ht
  refine ⟨Nat.find hex, Nat.le_trans (Nat.find_min' hex hend) hk, Nat.find_spec hex, ?_⟩
  intro i hi hlt hback
  refine Nat.find_min hex (m := Nat.find hex - i) (by omega) ?_
  have hspec := Nat.find_spec hex
  rw [← Nat.sub_add_cancel (Nat.le_of_lt hlt), Function.iterate_add_apply, hback] at hspec
  exact hspec

/-! ## Putting in and taking out -/

/-- A new node belongs between `t` and the node after it. -/
def InGap (next : α → α) (t b : α) : Prop :=
  (t < b ∧ b < next t) ∨ (next t ≤ t ∧ (t < b ∨ b < next t))

theorem Cyclic.exists_inGap (h : Cyclic F next) (hne : F.Nonempty) (hb : b ∉ F) :
    ∃ t ∈ F, InGap next t b := by
  by_cases hlow : ∃ x ∈ F, x < b
  · -- the largest node below
    have hne' : (F.filter fun x => x < b).Nonempty := by
      obtain ⟨x, hx, hlt⟩ := hlow
      exact ⟨x, Finset.mem_filter.mpr ⟨hx, hlt⟩⟩
    obtain ⟨htF, htb⟩ := Finset.mem_filter.mp ((F.filter fun x => x < b).max'_mem hne')
    refine ⟨_, htF, ?_⟩
    have hbest : ∀ x ∈ F, x < b → x ≤ (F.filter fun x => x < b).max' hne' :=
      fun x hx hlt => Finset.le_max' _ x (Finset.mem_filter.mpr ⟨hx, hlt⟩)
    generalize (F.filter fun x => x < b).max' hne' = t at htF htb hbest
    obtain ⟨hmem, ⟨hup, -⟩ | ⟨hmin, -⟩⟩ := h t htF
    · refine Or.inl ⟨htb, lt_of_le_of_ne (not_lt.mp fun hlt => ?_) fun he => hb (he ▸ hmem)⟩
      exact absurd (hbest _ hmem hlt) (not_le.mpr hup)
    · exact Or.inr ⟨hmin t htF, Or.inl htb⟩
  · -- below all nodes
    refine ⟨F.max' hne, F.max'_mem hne, Or.inr ?_⟩
    obtain ⟨hmem, hafter⟩ := h _ (F.max'_mem hne)
    refine ⟨F.le_max' _ hmem, Or.inr (lt_of_le_of_ne (not_lt.mp fun hlt => hlow ⟨_, hmem, hlt⟩) ?_)⟩
    exact fun he => hb (he ▸ hmem)

/-- There is one place for a new node. -/
theorem Cyclic.not_inGap {x : α} (h : Cyclic F next) (hx : x ∈ F) (ht : t ∈ F) (hne : x ≠ t)
    (hfit : InGap next t b) : ¬ InGap next x b := by
  have hup : ∀ {y : α}, y ∈ F → y < next y → ∀ z ∈ F, z ≤ y ∨ next y ≤ z := by
    intro y hy hlt z hz
    rcases (h y hy).after with ⟨-, hnone⟩ | ⟨hmin, -⟩
    · exact hnone z hz
    · exact absurd hlt (not_lt.mpr (hmin y hy))
  have hwrap : ∀ {y : α}, y ∈ F → next y ≤ y → ∀ z ∈ F, next y ≤ z ∧ z ≤ y := by
    intro y hy hle z hz
    rcases (h y hy).after with ⟨hlt, -⟩ | ⟨hmin, hmax⟩
    · exact absurd hlt (not_lt.mpr hle)
    · exact ⟨hmin z hz, hmax z hz⟩
  rintro (⟨hx1, hx2⟩ | ⟨hxle, hxb⟩)
  · have hnx := hup hx (lt_trans hx1 hx2)
    rcases hfit with ⟨ht1, ht2⟩ | ⟨htle, htb⟩
    · have hnt := hup ht (lt_trans ht1 ht2)
      rcases hnx t ht with hle | hle
      · rcases hnt x hx with hle' | hle'
        · exact hne (le_antisymm hle' hle)
        · exact absurd (lt_trans hx1 ht2) (not_lt.mpr hle')
      · exact absurd (lt_trans ht1 hx2) (not_lt.mpr hle)
    · obtain ⟨hlo, hhi⟩ := hwrap ht htle x hx
      obtain ⟨-, hhi'⟩ := hwrap ht htle (next x) (h x hx).mem
      rcases htb with hlt | hlt
      · exact absurd (lt_trans hlt hx2) (not_lt.mpr hhi')
      · exact absurd (lt_trans hx1 hlt) (not_lt.mpr hlo)
  · have hnx := hwrap hx hxle
    rcases hfit with ⟨ht1, ht2⟩ | ⟨htle, -⟩
    · have htn := hnx (next t) (h t ht).mem
      rcases hxb with hlt | hlt
      · exact absurd (lt_trans hlt ht2) (not_lt.mpr htn.2)
      · exact absurd (lt_trans ht1 hlt) (not_lt.mpr (hnx t ht).1)
    · exact hne (le_antisymm (hwrap ht htle x hx).2 (hnx t ht).2)

theorem Cyclic.insert (h : Cyclic F next) (ht : t ∈ F) (hb : b ∉ F) (hfit : InGap next t b)
    (hnt : next' t = b) (hnb : next' b = next t)
    (hrest : ∀ x ∈ F, x ≠ t → next' x = next x) : Cyclic (insert b F) next' := by
  have hmem : ∀ x ∈ F, x ∈ (Insert.insert b F : Finset α) := fun x hx => Finset.mem_insert_of_mem hx
  have hbne : ∀ x ∈ F, x ≠ b := fun x hx he => hb (he ▸ hx)
  intro x hx
  rcases Finset.mem_insert.mp hx with rfl | hxF
  · -- the new node
    rw [hnb]
    obtain ⟨hm, hafter⟩ := h t ht
    refine ⟨hmem _ hm, ?_⟩
    rcases hafter with ⟨hup, hnone⟩ | ⟨hmin, hmax⟩
    · rcases hfit with ⟨h1, h2⟩ | ⟨hle, -⟩
      · refine Or.inl ⟨h2, fun y hy => ?_⟩
        rcases Finset.mem_insert.mp hy with rfl | hyF
        · exact Or.inl (le_refl _)
        · exact (hnone y hyF).imp_left fun hyt => le_of_lt (lt_of_le_of_lt hyt h1)
      · exact absurd hup (not_lt.mpr hle)
    · rcases hfit with ⟨h1, h2⟩ | ⟨-, hlt | hlt⟩
      · exact absurd (lt_trans h1 h2) (not_lt.mpr (hmin t ht))
      · refine Or.inr ⟨fun y hy => ?_, fun y hy => ?_⟩
        · rcases Finset.mem_insert.mp hy with rfl | hyF
          · exact le_of_lt (lt_of_le_of_lt (hmin t ht) hlt)
          · exact hmin y hyF
        · rcases Finset.mem_insert.mp hy with rfl | hyF
          · exact le_refl _
          · exact le_of_lt (lt_of_le_of_lt (hmax y hyF) hlt)
      · refine Or.inl ⟨hlt, fun y hy => ?_⟩
        rcases Finset.mem_insert.mp hy with rfl | hyF
        · exact Or.inl (le_refl _)
        · exact Or.inr (hmin y hyF)
  · by_cases hxt : x = t
    · -- the node before it
      subst hxt
      rw [hnt]
      obtain ⟨hm, hafter⟩ := h x hxF
      refine ⟨Finset.mem_insert_self _ _, ?_⟩
      rcases hfit with ⟨h1, h2⟩ | ⟨hle, hlt | hlt⟩
      · refine Or.inl ⟨h1, fun y hy => ?_⟩
        rcases Finset.mem_insert.mp hy with rfl | hyF
        · exact Or.inr (le_refl _)
        · rcases hafter with ⟨-, hnone⟩ | ⟨hmin, -⟩
          · exact (hnone y hyF).imp_right fun hy' => le_of_lt (lt_of_lt_of_le h2 hy')
          · exact absurd (lt_trans h1 h2) (not_lt.mpr (hmin x hxF))
      · refine Or.inl ⟨hlt, fun y hy => ?_⟩
        rcases Finset.mem_insert.mp hy with rfl | hyF
        · exact Or.inr (le_refl _)
        · rcases hafter with ⟨hup, -⟩ | ⟨-, hmax⟩
          · exact absurd hup (not_lt.mpr hle)
          · exact Or.inl (hmax y hyF)
      · rcases hafter with ⟨hup, -⟩ | ⟨hmin, hmax⟩
        · exact absurd hup (not_lt.mpr hle)
        · refine Or.inr ⟨fun y hy => ?_, fun y hy => ?_⟩
          · rcases Finset.mem_insert.mp hy with rfl | hyF
            · exact le_refl _
            · exact le_of_lt (lt_of_lt_of_le hlt (hmin y hyF))
          · rcases Finset.mem_insert.mp hy with rfl | hyF
            · exact le_of_lt (lt_of_lt_of_le hlt hle)
            · exact hmax y hyF
    · -- the others
      rw [hrest x hxF hxt]
      obtain ⟨hm, hafter⟩ := h x hxF
      refine ⟨hmem _ hm, ?_⟩
      rcases hafter with ⟨hup, hnone⟩ | ⟨hmin, hmax⟩
      · refine Or.inl ⟨hup, fun y hy => ?_⟩
        rcases Finset.mem_insert.mp hy with rfl | hyF
        · by_contra hnot
          rw [not_or, not_le, not_le] at hnot
          exact h.not_inGap hxF ht hxt hfit (Or.inl hnot)
        · exact hnone y hyF
      · have hin : ¬ (x < b ∨ b < next x) := fun hor =>
          h.not_inGap hxF ht hxt hfit (Or.inr ⟨hmin x hxF, hor⟩)
        rw [not_or, not_lt, not_lt] at hin
        refine Or.inr ⟨fun y hy => ?_, fun y hy => ?_⟩
        · rcases Finset.mem_insert.mp hy with rfl | hyF
          · exact hin.2
          · exact hmin y hyF
        · rcases Finset.mem_insert.mp hy with rfl | hyF
          · exact hin.1
          · exact hmax y hyF

theorem Cyclic.injOn {x y : α} (h : Cyclic F next) (hx : x ∈ F) (hy : y ∈ F)
    (he : next x = next y) : x = y := by
  have hx' := (h x hx).after
  have hy' := (h y hy).after
  rw [he] at hx'
  rcases hx' with ⟨hlt, hnone⟩ | ⟨hmin, hmax⟩
  · rcases hy' with ⟨hlt', hnone'⟩ | ⟨hmin', -⟩
    · exact le_antisymm ((hnone' x hx).resolve_right (not_le.mpr hlt))
        ((hnone y hy).resolve_right (not_le.mpr hlt'))
    · exact absurd hlt (not_lt.mpr (hmin' x hx))
  · rcases hy' with ⟨hlt', -⟩ | ⟨-, hmax'⟩
    · exact absurd hlt' (not_lt.mpr (hmin y hy))
    · exact le_antisymm (hmax' x hx) (hmax y hy)

theorem Cyclic.erase (h : Cyclic F next) (hp : p ∈ F) (hne : next p ≠ p)
    (hnp : next' p = next (next p)) (hrest : ∀ x ∈ F, x ≠ p → x ≠ next p → next' x = next x) :
    Cyclic (F.erase (next p)) next' := by
  obtain ⟨hq, hafter⟩ := h p hp
  obtain ⟨hr, hafter'⟩ := h (next p) hq
  intro x hx
  obtain ⟨hxq, hxF⟩ := Finset.mem_erase.mp hx
  by_cases hxp : x = p
  · subst hxp
    rw [hnp]
    have hrq : next (next x) ≠ next x := fun he => hne (h.injOn hq hxF he)
    refine ⟨Finset.mem_erase.mpr ⟨hrq, hr⟩, ?_⟩
    have hin : ∀ y ∈ F.erase (next x), y ≠ next x ∧ y ∈ F := fun y hy => Finset.mem_erase.mp hy
    rcases hafter with ⟨hup, hnone⟩ | ⟨hmin, hmax⟩
    · rcases hafter' with ⟨hup', hnone'⟩ | ⟨hmin', hmax'⟩
      · refine Or.inl ⟨lt_trans hup hup', fun y hy => ?_⟩
        obtain ⟨hyq, hyF⟩ := hin y hy
        refine (hnone y hyF).imp_right fun hle => ?_
        exact (hnone' y hyF).resolve_left fun hle' => hyq (le_antisymm hle' hle)
      · refine Or.inr ⟨fun y hy => hmin' y (hin y hy).2, fun y hy => ?_⟩
        obtain ⟨hyq, hyF⟩ := hin y hy
        exact (hnone y hyF).resolve_right fun hle => hyq (le_antisymm (hmax' y hyF) hle)
    · rcases hafter' with ⟨hup', hnone'⟩ | ⟨-, hmax'⟩
      · refine Or.inr ⟨fun y hy => ?_, fun y hy => hmax y (hin y hy).2⟩
        obtain ⟨hyq, hyF⟩ := hin y hy
        exact (hnone' y hyF).resolve_left fun hle => hyq (le_antisymm hle (hmin y hyF))
      · exact absurd (le_antisymm (hmin x hxF) (hmax' x hxF)) hne
  · rw [hrest x hxF hxp hxq]
    obtain ⟨hm, ha⟩ := h x hxF
    refine ⟨Finset.mem_erase.mpr ⟨fun he => hxp (h.injOn hxF hp he), hm⟩, ?_⟩
    exact ha.imp (fun ⟨h1, h2⟩ => ⟨h1, fun y hy => h2 y (Finset.mem_of_mem_erase hy)⟩)
      fun ⟨h1, h2⟩ => ⟨fun y hy => h1 y (Finset.mem_of_mem_erase hy),
        fun y hy => h2 y (Finset.mem_of_mem_erase hy)⟩

end Xv6.Lib
