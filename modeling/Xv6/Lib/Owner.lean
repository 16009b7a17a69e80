import Mathlib

/-!
# One owner each

A stock of resources — blocks, pages, descriptors — and places that each hold at
most one. `Owned own free all` says that the stock is partitioned: whatever
belongs to it is free or held by exactly one place. Allocation moves a resource
from the free part into an empty place and release moves it back; both keep the
partition, and that is all the allocators here ever do.
-/

namespace Xv6.Lib

variable {L R : Type}

structure Owned (own : L → Option R) (free all : R → Prop) : Prop where
  one : ∀ l l' r, own l = some r → own l' = some r → l = l'
  held : ∀ l r, own l = some r → all r ∧ ¬ free r
  stock : ∀ r, free r → all r
  cover : ∀ r, all r → ¬ free r → ∃ l, own l = some r

variable {own own' : L → Option R} {free free' all : R → Prop} {l : L} {r : R}

/-- A free resource goes into an empty place. -/
theorem Owned.take (h : Owned own free all) (hr : free r) (hl : own l = none)
    (hself : own' l = some r) (hother : ∀ l', l' ≠ l → own' l' = own l')
    (hfree : ∀ r', free' r' ↔ free r' ∧ r' ≠ r) : Owned own' free' all where
  one := by
    have hnew : ∀ l', own' l' = some r → l' = l := by
      intro l' h'
      by_contra hne
      rw [hother l' hne] at h'
      exact (h.held l' r h').2 hr
    intro l₁ l₂ r' h₁ h₂
    by_cases he : r' = r
    · subst he
      rw [hnew l₁ h₁, hnew l₂ h₂]
    · have hne : ∀ l', own' l' = some r' → l' ≠ l := by
        rintro l' h' rfl
        rw [hself] at h'
        exact he (Option.some.inj h').symm
      rw [hother l₁ (hne l₁ h₁)] at h₁
      rw [hother l₂ (hne l₂ h₂)] at h₂
      exact h.one l₁ l₂ r' h₁ h₂
  held := by
    intro l' r' h'
    rw [hfree]
    by_cases he : l' = l
    · subst he
      rw [hself] at h'
      cases h'
      exact ⟨h.stock r hr, fun hf => hf.2 rfl⟩
    · rw [hother l' he] at h'
      obtain ⟨ha, hn⟩ := h.held l' r' h'
      exact ⟨ha, fun hf => hn hf.1⟩
  stock := fun r' hf => h.stock r' ((hfree r').mp hf).1
  cover := by
    intro r' ha hn
    rw [hfree] at hn
    by_cases he : r' = r
    · subst he; exact ⟨l, hself⟩
    · obtain ⟨l', h'⟩ := h.cover r' ha fun hf => hn ⟨hf, he⟩
      refine ⟨l', ?_⟩
      rw [hother l']
      · exact h'
      · rintro rfl
        rw [hl] at h'
        cases h'

/-- The places `P` give back all they hold. -/
theorem Owned.release {P : L → Prop} (h : Owned own free all) (hdrop : ∀ l, P l → own' l = none)
    (hkeep : ∀ l, ¬ P l → own' l = own l)
    (hfree : ∀ r, free' r ↔ free r ∨ ∃ l, P l ∧ own l = some r) : Owned own' free' all where
  one := by
    have hold : ∀ {l r}, own' l = some r → own l = some r := by
      intro l r hl
      rw [← hkeep l]
      · exact hl
      · intro hp
        rw [hdrop l hp] at hl
        cases hl
    exact fun l l' r h₁ h₂ => h.one l l' r (hold h₁) (hold h₂)
  held := by
    intro l r hl
    have hp : ¬ P l := by
      intro hp
      rw [hdrop l hp] at hl
      cases hl
    rw [hkeep l hp] at hl
    obtain ⟨ha, hn⟩ := h.held l r hl
    refine ⟨ha, fun hf => ?_⟩
    rcases (hfree r).mp hf with hf | ⟨l', hp', hl'⟩
    · exact hn hf
    · rw [h.one l l' r hl hl'] at hp
      exact hp hp'
  stock := by
    intro r hf
    rcases (hfree r).mp hf with hf | ⟨l, -, hl⟩
    · exact h.stock r hf
    · exact (h.held l r hl).1
  cover := by
    intro r ha hn
    rw [hfree, not_or] at hn
    obtain ⟨l, hl⟩ := h.cover r ha hn.1
    refine ⟨l, ?_⟩
    rw [hkeep l fun hp => hn.2 ⟨l, hp, hl⟩]
    exact hl

theorem Owned.congr (h : Owned own free all) (ho : ∀ l, own' l = own l)
    (hf : ∀ r, free' r ↔ free r) : Owned own' free' all where
  one := fun l l' r h₁ h₂ => h.one l l' r (ho l ▸ h₁) (ho l' ▸ h₂)
  held := fun l r h₁ => by rw [hf]; exact h.held l r (ho l ▸ h₁)
  stock := fun r hr => h.stock r ((hf r).mp hr)
  cover := fun r ha hn => by
    obtain ⟨l, hl⟩ := h.cover r ha fun hr => hn ((hf r).mpr hr)
    exact ⟨l, (ho l).trans hl⟩

end Xv6.Lib
