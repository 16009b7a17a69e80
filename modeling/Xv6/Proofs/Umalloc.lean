import Xv6.Lib.Trans
import Xv6.Proofs.HeapRing

/-!
# `malloc` and the runs of a program that uses the heap

A search of `malloc` starts behind `freep` and ends at a block that is large enough or back
at `freep`. In the second case it has seen every free block. Then `morecore` puts the new
memory in the ring, by `free`, and the second search has a block to find.
-/

namespace Xv6.Ref.Umalloc

open Xv6.Lib

variable {σ : Type} {base top n prevp rounds : Nat} {h : Heap σ} {F L : Finset Nat}

/-- The heap between calls: `F` are the free blocks, `L` those in use. -/
structure Ready (base top : Nat) (h : Heap σ) (F L : Finset Nat) : Prop where
  blocks : Blocks base (ptr h.mem) (size h.mem) F L top
  gap : Gap (fun _ => False) (ptr h.mem) (size h.mem) F
  freep : h.freep ∈ F
  units : units (size h.mem) F + units (size h.mem) L = h.got

theorem Ready.notMem {a : Nat} (r : Ready base top h F L) (ha : a ∈ F) : a ∉ L :=
  Finset.disjoint_left.mp r.blocks.other ha

/-- What a program sees of a block it was given. -/
structure Given (base top : Nat) (h h' : Heap σ) (F' L : Finset Nat) (n a : Nat) : Prop where
  ready : Ready base top h' F' (insert a L)
  fresh : a ∉ L
  size : size h'.mem a = n
  live : ∀ b ∈ L, Umalloc.size h'.mem b = Umalloc.size h.mem b

/-! ## Taking a block -/

theorem takeUnits_exact (r : Ready base top h F L) (hp : prevp ∈ F) (hpos : 0 < n)
    (hn : size h.mem (ptr h.mem prevp) = n) :
    Given base top h
      { h with mem := setPtr h.mem prevp (ptr h.mem (ptr h.mem prevp)), freep := prevp }
      (F.erase (ptr h.mem prevp)) L n (ptr h.mem prevp) := by
  have hq := r.blocks.nxt_mem hp
  have hqpos : 0 < size h.mem (ptr h.mem prevp) := by omega
  have hreads : Reads (setPtr h.mem prevp (ptr h.mem (ptr h.mem prevp))) (F ∪ L)
      (Function.update (ptr h.mem) prevp (ptr h.mem (ptr h.mem prevp))) (size h.mem) :=
    Reads.setPtr (fun _ _ => ⟨rfl, rfl⟩) r.blocks.headers (Finset.mem_union_left _ hp)
      (load32_lt _ _)
  generalize setPtr h.mem prevp (ptr h.mem (ptr h.mem prevp)) = m' at hreads
  have hsize : ∀ a ∈ F ∪ L, size m' a = size h.mem a := fun a ha => (hreads a ha).2
  have hnp : ptr m' prevp = ptr h.mem (ptr h.mem prevp) := by
    rw [(hreads prevp (Finset.mem_union_left _ hp)).1, Function.update_self]
  have hn' : ∀ a ∈ F, a ≠ prevp → ptr m' a = ptr h.mem a := fun a ha hne => by
    rw [(hreads a (Finset.mem_union_left _ ha)).1, Function.update_of_ne hne]
  have hin : F.erase (ptr h.mem prevp) ∪ insert (ptr h.mem prevp) L ⊆ F ∪ L := by
    intro a ha
    rw [Finset.union_insert, ← Finset.insert_union, Finset.insert_erase hq] at ha
    exact ha
  have hsizeF : ∀ a ∈ F.erase (ptr h.mem prevp), size m' a = size h.mem a :=
    fun a ha => hsize a (Finset.mem_union_left _ (Finset.mem_of_mem_erase ha))
  refine ⟨⟨?_, ?_, ?_, ?_⟩, r.notMem hq, ?_, fun b hb => hsize b (Finset.mem_union_right _ hb)⟩
  · exact (r.blocks.take hp hqpos hnp hn').congr (fun a _ => rfl) fun a ha => hsize a (hin ha)
  · intro a ha hX hup
    rw [show size m' a = size h.mem a from hsizeF a ha]
    exact r.blocks.take_gap r.gap hp hqpos hnp hn' a ha hX hup
  · exact Finset.mem_erase.mpr ⟨Ne.symm (r.blocks.prev_ne hp hqpos), hp⟩
  · have hL : Umalloc.units (size m') (insert (ptr h.mem prevp) L) =
        size h.mem (ptr h.mem prevp) + Umalloc.units (size h.mem) L := by
      rw [Umalloc.units, Finset.sum_insert (r.notMem hq),
        hsize _ (Finset.mem_union_left _ hq)]
      exact congrArg _ (units_congr fun a ha => hsize a (Finset.mem_union_right _ ha))
    have hF := Finset.add_sum_erase F (size h.mem) hq
    have hu := r.units
    show Umalloc.units (size m') (F.erase (ptr h.mem prevp)) +
      Umalloc.units (size m') (insert (ptr h.mem prevp) L) = h.got
    rw [units_congr hsizeF, hL, ← hu]
    unfold Umalloc.units
    rw [← hF]
    omega
  · exact (hsize _ (Finset.mem_union_left _ hq)).trans hn

theorem takeUnits_split {p : Nat} (r : Ready base top h F L) (hp : prevp ∈ F) (hpF : p ∈ F)
    (hpos : 0 < n) (hlt : n < size h.mem p) :
    Given base top h
      { h with
        mem := setSize (setSize h.mem p (size h.mem p - n)) (p + 8 * (size h.mem p - n)) n
        freep := prevp }
      F L n (p + 8 * (size h.mem p - n)) := by
  have hpU : p ∈ F ∪ L := Finset.mem_union_left _ hpF
  have hnot := r.blocks.tail_notMem hpF hpos hlt
  have hsz : size h.mem p < 2 ^ 32 := load32_lt _ _
  have hS : Headers (insert (p + 8 * (size h.mem p - n)) (F ∪ L)) := by
    intro a ha b hb
    rcases Finset.mem_insert.mp ha with rfl | ha
    · rcases Finset.mem_insert.mp hb with rfl | hb
      · exact Or.inl rfl
      · have := r.blocks.tail_clear hpF hlt hb
        unfold Clear
        omega
    · rcases Finset.mem_insert.mp hb with rfl | hb
      · have := r.blocks.tail_clear hpF hlt ha
        unfold Clear
        omega
      · exact r.blocks.headers a ha b hb
  have hreads : Reads
      (setSize (setSize h.mem p (size h.mem p - n)) (p + 8 * (size h.mem p - n)) n)
      (insert (p + 8 * (size h.mem p - n)) (F ∪ L)) (ptr h.mem)
      (Function.update (Function.update (size h.mem) p (size h.mem p - n))
        (p + 8 * (size h.mem p - n)) n) :=
    Reads.setSize (Reads.setSize (fun _ _ => ⟨rfl, rfl⟩) hS (Finset.mem_insert_of_mem hpU)
      (by omega)) hS (Finset.mem_insert_self _ _) (by omega)
  generalize setSize (setSize h.mem p (size h.mem p - n)) (p + 8 * (size h.mem p - n)) n = m'
    at hreads
  have hsa : size m' (p + 8 * (size h.mem p - n)) = n := by
    rw [(hreads _ (Finset.mem_insert_self _ _)).2, Function.update_self]
  have hold : ∀ b ∈ F ∪ L, ptr m' b = ptr h.mem b ∧
      size m' b = if b = p then size h.mem p - n else size h.mem b := by
    intro b hb
    obtain ⟨h1, h2⟩ := hreads b (Finset.mem_insert_of_mem hb)
    have hne : b ≠ p + 8 * (size h.mem p - n) := fun he => hnot (he ▸ hb)
    rw [Function.update_of_ne hne, Function.update_apply] at h2
    exact ⟨h1, h2⟩
  have hsp : size m' p = size h.mem p - n := by rw [(hold p hpU).2, if_pos rfl]
  have hs : ∀ b ∈ F ∪ L, b ≠ p → size m' b = size h.mem b := fun b hb hne => by
    rw [(hold b hb).2, if_neg hne]
  have hnF : ∀ a ∈ F, ptr m' a = ptr h.mem a := fun a ha => (hold a (Finset.mem_union_left _ ha)).1
  have hpL := r.notMem hpF
  have hsL : ∀ b ∈ L, size m' b = size h.mem b :=
    fun b hb => hs b (Finset.mem_union_right _ hb) fun he => hpL (he ▸ hb)
  refine ⟨⟨?_, ?_, hp, ?_⟩, fun ha => hnot (Finset.mem_union_right _ ha), hsa, hsL⟩
  · exact (r.blocks.split hpF hpos hlt hsp hsa hs).congr hnF fun _ _ => rfl
  · intro a ha hX hup
    have hup' : a < ptr h.mem a := hnF a ha ▸ hup
    rw [show ptr m' a = ptr h.mem a from hnF a ha]
    by_cases hap : a = p
    · have hap := r.blocks.apart a (Finset.mem_union_left _ ha) _
        (Finset.mem_union_left _ (r.blocks.nxt_mem ha)) hup'
      have : size m' a = size h.mem a - n := by subst a; exact hsp
      subst a
      show p + 8 * size m' p ≠ _
      omega
    · rw [show size m' a = size h.mem a from hs a (Finset.mem_union_left _ ha) hap]
      exact r.gap a ha hX hup'
  · have haL : p + 8 * (size h.mem p - n) ∉ L := fun ha => hnot (Finset.mem_union_right _ ha)
    have hu := r.units
    have hF := Finset.add_sum_erase F (size h.mem) hpF
    have hF' := Finset.add_sum_erase F (size m') hpF
    have hrest : ∑ a ∈ F.erase p, size m' a = ∑ a ∈ F.erase p, size h.mem a :=
      Finset.sum_congr rfl fun a ha => by
        obtain ⟨hne, haF⟩ := Finset.mem_erase.mp ha
        exact hs a (Finset.mem_union_left _ haF) hne
    show Umalloc.units (size m') F +
      Umalloc.units (size m') (insert (p + 8 * (size h.mem p - n)) L) = h.got
    have hsum : ∑ a ∈ L, size m' a = ∑ a ∈ L, size h.mem a := Finset.sum_congr rfl hsL
    rw [← hu]
    unfold Umalloc.units
    rw [Finset.sum_insert haL, hsa, hsum, ← hF, ← hF', hrest, hsp]
    omega

/-- The heap and the header when the search ends behind `prevp`. -/
def taken (h : Heap σ) (prevp n : Nat) : Heap σ × Nat :=
  ({ h with mem := (takeUnits h.mem prevp (ptr h.mem prevp) n).1, freep := prevp },
    hdr (takeUnits h.mem prevp (ptr h.mem prevp) n).2 1)

theorem taken_spec (r : Ready base top h F L) (hp : prevp ∈ F) (hpos : 0 < n)
    (hle : n ≤ size h.mem (ptr h.mem prevp)) :
    ∃ h' F' a, taken h prevp n = (h', a + 8) ∧ h'.os = h.os ∧ Given base top h h' F' L n a := by
  have hq := r.blocks.nxt_mem hp
  have htop := r.blocks.top_lt
  have hend : ∀ {h' : Heap σ} {F' : Finset Nat} {a : Nat}, Given base top h h' F' L n a →
      hdr a 1 = a + 8 := by
    intro h' F' a g
    have := g.ready.blocks.header_top (Finset.mem_union_right _ (Finset.mem_insert_self _ _))
    exact hdr_eq (n := 1) (by omega)
  by_cases he : size h.mem (ptr h.mem prevp) = n
  · have g := takeUnits_exact r hp hpos he
    refine ⟨⟨_, prevp, h.os, h.got⟩, _, _, ?_, rfl, g⟩
    simp only [taken, takeUnits, if_pos he, hend g]
  · have g := takeUnits_split r hp hq hpos (by omega)
    have hhigh := r.blocks.high _ (Finset.mem_union_left _ hq)
    have hsz : size h.mem (ptr h.mem prevp) < 2 ^ 32 := load32_lt _ _
    have hsize : size (setSize h.mem (ptr h.mem prevp) (size h.mem (ptr h.mem prevp) - n))
        (ptr h.mem prevp) = size h.mem (ptr h.mem prevp) - n := by
      rw [size_setSize (by omega) (Or.inl rfl), if_pos rfl]
    have hat : hdr (ptr h.mem prevp) (size h.mem (ptr h.mem prevp) - n) =
        ptr h.mem prevp + 8 * (size h.mem (ptr h.mem prevp) - n) := hdr_eq (by omega)
    refine ⟨⟨_, prevp, h.os, h.got⟩, _, _, ?_, rfl, g⟩
    simp only [taken, takeUnits, if_neg he, hsize, hat, hend g]

/-! ## The search -/

section

variable (rounds : Nat) (sbrk : Nat → σ → Option Nat × σ)

/-- What the search does when it is back at `freep`. -/
def grow (n fuel : Nat) (h : Heap σ) : Option (Heap σ × Nat) :=
  match morecore rounds sbrk h n with
  | none => none
  | some (h, none) => some (h, 0)
  | some (h, some p) => mallocLoop rounds sbrk n fuel h p (ptr h.mem p)

theorem mallocLoop_walk (r : Ready base top h F L) (k : Nat) : ∀ (fuel : Nat) {prevp : Nat}, prevp ∈ F →
    (ptr h.mem)^[k] (ptr h.mem prevp) = h.freep → k < fuel →
    (∃ q ∈ F, n ≤ size h.mem (ptr h.mem q) ∧
      mallocLoop rounds sbrk n fuel h prevp (ptr h.mem prevp) = some (taken h q n)) ∨
    ∃ fuel' i, fuel ≤ fuel' + k + 1 ∧
      mallocLoop rounds sbrk n fuel h prevp (ptr h.mem prevp) = grow rounds sbrk n fuel' h ∧
      (ptr h.mem)^[i] (ptr h.mem prevp) = h.freep ∧
      ∀ j ≤ i, size h.mem ((ptr h.mem)^[j] (ptr h.mem prevp)) < n := by
  induction k with
  | zero =>
      intro fuel prevp hp hk hf
      have hback : ptr h.mem prevp = h.freep := hk
      obtain ⟨fuel, rfl⟩ : ∃ f, fuel = f + 1 := ⟨fuel - 1, by omega⟩
      rw [mallocLoop]
      by_cases hle : size h.mem (ptr h.mem prevp) ≥ n
      · rw [if_pos hle]
        exact Or.inl ⟨prevp, hp, hle, rfl⟩
      · rw [if_neg hle, if_pos hback]
        refine Or.inr ⟨fuel, 0, by omega, rfl, hk, fun j hj => ?_⟩
        rw [Nat.le_zero.mp hj]
        exact Nat.not_le.mp hle
  | succ k ih =>
      intro fuel prevp hp hk hf
      obtain ⟨fuel, rfl⟩ : ∃ f, fuel = f + 1 := ⟨fuel - 1, by omega⟩
      rw [mallocLoop]
      by_cases hle : size h.mem (ptr h.mem prevp) ≥ n
      · rw [if_pos hle]
        exact Or.inl ⟨prevp, hp, hle, rfl⟩
      · rw [if_neg hle]
        by_cases hback : ptr h.mem prevp = h.freep
        · rw [if_pos hback]
          refine Or.inr ⟨fuel, 0, by omega, rfl, hback, fun j hj => ?_⟩
          rw [Nat.le_zero.mp hj]
          exact Nat.not_le.mp hle
        · rw [if_neg hback]
          rcases ih fuel (r.blocks.nxt_mem hp) hk (by omega) with
            hfound | ⟨fuel', i, hfuel, heq, hend, hsmall⟩
          · exact Or.inl hfound
          · refine Or.inr ⟨fuel', i + 1, by omega, heq, hend, fun j hj => ?_⟩
            cases j with
            | zero => exact Nat.not_le.mp hle
            | succ j => exact hsmall j (by omega)

/-- The search finds a block, or sees that no block is large enough. -/
theorem Ready.search (r : Ready base top h F L) (fuel : Nat) (hf : 2 ^ 30 < fuel) :
    (∃ q ∈ F, n ≤ size h.mem (ptr h.mem q) ∧
      mallocLoop rounds sbrk n fuel h h.freep (ptr h.mem h.freep) = some (taken h q n)) ∨
    ∃ fuel', fuel ≤ fuel' + 2 ^ 30 + 1 ∧
      mallocLoop rounds sbrk n fuel h h.freep (ptr h.mem h.freep) = grow rounds sbrk n fuel' h ∧
      ∀ b ∈ F, size h.mem b < n := by
  have hcard := r.blocks.card_le
  obtain ⟨k, hk, hend⟩ := r.blocks.ring.reaches (r.blocks.nxt_mem r.freep) r.freep
  rcases mallocLoop_walk (n := n) rounds sbrk r k fuel r.freep hend (by omega) with
    hfound | ⟨fuel', i, hfuel, heq, hback, hsmall⟩
  · exact Or.inl hfound
  · refine Or.inr ⟨fuel', by omega, heq, fun b hb => ?_⟩
    obtain ⟨j, -, hj, hfirst⟩ := r.blocks.ring.first r.freep hb
    cases j with
    | zero =>
        have hb' : h.freep = b := hj
        rw [← hb', ← hback]
        exact hsmall i (Nat.le_refl _)
    | succ j =>
        have hji : j ≤ i := by
          by_contra hlt
          exact hfirst (i + 1) (by omega) (by omega) hback
        rw [← hj]
        exact hsmall j hji

end

/-! ## More memory -/

/-- `sbrk` gives new memory above all it gave before, below the top of the memory, or
fails. `top` is a bound on what it has given. -/
structure Sbrk (sbrk : Nat → σ → Option Nat × σ) (top : σ → Nat) : Prop where
  gives : ∀ {n a : Nat} {os os' : σ}, 0 < n → n < 2 ^ 31 → sbrk n os = (some a, os') →
    top os ≤ a ∧ a + n ≤ top os' ∧ top os' < 2 ^ 32
  fails : ∀ {n : Nat} {os os' : σ}, 0 < n → n < 2 ^ 31 → sbrk n os = (none, os') →
    top os ≤ top os' ∧ top os' < 2 ^ 32

variable {sbrk : Nat → σ → Option Nat × σ} {lim : σ → Nat}

theorem Blocks.raise {nxt siz : Nat → Nat} {top' : Nat} (b : Blocks base nxt siz F L top)
    (hle : top ≤ top') (hlt : top' < 2 ^ 32) : Blocks base nxt siz F L top' :=
  ⟨b.ring, b.base_mem, b.base_size, b.base_pos, Nat.le_trans b.base_top hle, hlt, b.other, b.low,
    b.pos, fun a ha => Nat.le_trans (b.high a ha) hle, b.apart⟩

/-- The memory that `morecore` asks for. -/
def coreUnits (n : Nat) : Nat := if n < 4096 then 4096 else n

theorem morecore_fails (rounds : Nat) (hs : Sbrk sbrk lim) (r : Ready base (lim h.os) h F L)
    (hn : 8 * n < 2 ^ 31) {os : σ} (hsb : sbrk (8 * coreUnits n) h.os = (none, os)) :
    morecore rounds sbrk h n = some ({ h with os := os }, none) ∧
      Ready base (lim os) { h with os := os } F L := by
  have hc : 8 * coreUnits n < 2 ^ 31 ∧ 0 < coreUnits n := by
    unfold coreUnits
    split <;> omega
  have hlim := hs.fails (by omega) hc.1 hsb
  refine ⟨?_, r.blocks.raise hlim.1 hlim.2, r.gap, r.freep, r.units⟩
  have heq : coreUnits n * HDR % 2 ^ 32 = 8 * coreUnits n := by
    rw [show HDR = 8 from rfl]
    omega
  simp only [morecore]
  rw [show (if n < 4096 then 4096 else n) = coreUnits n from rfl, heq, hsb]

/-- The new memory is in the ring, in one block with what it touches. -/
structure Grown (base : Nat) (lim : σ → Nat) (h h' : Heap σ) (F' L : Finset Nat) (n : Nat) :
    Prop where
  ready : Ready base (lim h'.os) h' F' L
  live : ∀ b ∈ L, size h'.mem b = size h.mem b
  big : ∃ b ∈ F', n ≤ size h'.mem b

theorem morecore_grows (hr : 2 ^ 32 ≤ rounds) (hs : Sbrk sbrk lim)
    (r : Ready base (lim h.os) h F L) (hn : 8 * n < 2 ^ 31) {os : σ} {hp : Nat}
    (hsb : sbrk (8 * coreUnits n) h.os = (some hp, os)) :
    ∃ h' F', morecore rounds sbrk h n = some (h', some h'.freep) ∧ h'.os = os ∧
      Grown base lim h h' F' L n := by
  have hc : 8 * coreUnits n < 2 ^ 31 ∧ 0 < coreUnits n ∧ n ≤ coreUnits n := by
    unfold coreUnits
    split <;> omega
  obtain ⟨hlow, hend, hlt⟩ := hs.gives (by omega) hc.1 hsb
  have heq : coreUnits n * HDR % 2 ^ 32 = 8 * coreUnits n := by
    rw [show HDR = 8 from rfl]
    omega
  have hfar : ∀ b ∈ F ∪ L, b + 8 ≤ hp := fun b hb =>
    Nat.le_trans (r.blocks.header_top hb) hlow
  -- the header of the new block
  have hsame : ∀ b ∈ F ∪ L, ptr (setSize h.mem hp (coreUnits n)) b = ptr h.mem b ∧
      size (setSize h.mem hp (coreUnits n)) b = size h.mem b := by
    intro b hb
    have hb8 := hfar b hb
    have hcl : Clear hp b := Or.inr (Or.inr hb8)
    rw [ptr_setSize _ hcl, size_setSize (by omega) hcl, if_neg (by omega)]
    exact ⟨rfl, rfl⟩
  have hsp : size (setSize h.mem hp (coreUnits n)) hp = coreUnits n := by
    rw [size_setSize (by omega) (Or.inl rfl), if_pos rfl]
  have hmore : ∀ {m' t}, free rounds (setSize h.mem hp (coreUnits n)) h.freep (hdr hp 1) =
      some (m', t) →
      morecore rounds sbrk h n = some (⟨m', t, os, h.got + coreUnits n⟩, some t) := by
    intro m' t hfree
    simp only [morecore]
    rw [show (if n < 4096 then 4096 else n) = coreUnits n from rfl, heq, hsb]
    simp only [hfree]
  generalize setSize h.mem hp (coreUnits n) = m at hsame hsp hmore
  have hhpL : hp ∉ L := fun hb => by
    have := hfar hp (Finset.mem_union_right _ hb)
    omega
  have hb : Blocks base (ptr m) (size m) F (insert hp L) (lim os) :=
    (r.blocks.grow hlow hend hlt hc.2.1 hsp fun b hb => (hsame b hb).2).congr
      (fun a ha => (hsame a (Finset.mem_union_left _ ha)).1) fun _ _ => rfl
  have hg : Gap (fun _ => False) (ptr m) (size m) F := by
    intro a ha hX hup
    obtain ⟨h1, h2⟩ := hsame a (Finset.mem_union_left _ ha)
    rw [h1] at hup ⊢
    rw [h2]
    exact r.gap a ha hX hup
  obtain ⟨m', t, F', hfree, hfreed⟩ := free_spec hr hb hg (Finset.mem_insert_self hp L) r.freep
  have hL : (insert hp L).erase hp = L := Finset.erase_insert hhpL
  have hlive : ∀ b ∈ L, size m' b = size h.mem b := fun b hb => by
    rw [hfreed.live b (by rw [hL]; exact hb), (hsame b (Finset.mem_union_right _ hb)).2]
  refine ⟨⟨m', t, os, h.got + coreUnits n⟩, F', ?_, rfl, ⟨?_, hfreed.gap, hfreed.freep, ?_⟩, hlive,
    ?_⟩
  · refine hmore ?_
    rw [hdr_eq (n := 1) (by omega), Nat.mul_one, hfree]
  · have hblocks := hfreed.blocks
    rw [hL] at hblocks
    exact hblocks
  · have hu := r.units
    have huF : Umalloc.units (size m) F = Umalloc.units (size h.mem) F :=
      units_congr fun a ha => (hsame a (Finset.mem_union_left _ ha)).2
    show Umalloc.units (size m') F' + Umalloc.units (size m') L = h.got + coreUnits n
    rw [hfreed.units, units_congr hlive, huF, hsp, ← hu]
    omega
  · obtain ⟨b, hb, hbig⟩ := hfreed.big
    rw [hsp] at hbig
    exact ⟨b, hb, Nat.le_trans hc.2.2 hbig⟩

/-! ## `malloc` -/

/-- How `malloc` ends: with a block, or with 0 and nothing changed but the system. -/
inductive Ends (base : Nat) (lim : σ → Nat) (sbrk : Nat → σ → Option Nat × σ) (h : Heap σ)
    (L : Finset Nat) (n : Nat) : Heap σ × Nat → Prop
  | given {h' : Heap σ} {F' : Finset Nat} {a : Nat} (g : Given base (lim h'.os) h h' F' L n a) :
      Ends base lim sbrk h L n (h', a + 8)
  | failed {os : σ} {F : Finset Nat} (hsb : sbrk (8 * coreUnits n) h.os = (none, os))
      (r : Ready base (lim os) { h with os := os } F L) :
      Ends base lim sbrk h L n ({ h with os := os }, 0)

theorem mallocLoop_ends (hr : 2 ^ 32 ≤ rounds) (hs : Sbrk sbrk lim)
    (r : Ready base (lim h.os) h F L) (hpos : 0 < n) (hn : 8 * n < 2 ^ 31) :
    ∃ res, mallocLoop rounds sbrk n rounds h h.freep (ptr h.mem h.freep) = some res ∧
      Ends base lim sbrk h L n res := by
  rcases r.search (n := n) rounds sbrk rounds (by omega) with
    ⟨q, hq, hle, heq⟩ | ⟨fuel, hfuel, heq, hsmall⟩
  · obtain ⟨h', F', a, htaken, hos, g⟩ := taken_spec r hq hpos hle
    refine ⟨_, heq, ?_⟩
    rw [htaken]
    rw [← hos] at g
    exact .given g
  · rw [heq, grow]
    rcases hsb : sbrk (8 * coreUnits n) h.os with ⟨_ | hp, os⟩
    · obtain ⟨hmore, r'⟩ := morecore_fails rounds hs r hn hsb
      rw [hmore]
      exact ⟨_, rfl, .failed hsb r'⟩
    · obtain ⟨h₁, F₁, hmore, -, gr⟩ := morecore_grows hr hs r hn hsb
      rw [hmore]
      -- the second search finds a block
      rcases gr.ready.search (n := n) rounds sbrk fuel (by omega) with
        ⟨q, hq, hle, heq'⟩ | ⟨_, _, _, hsmall'⟩
      · obtain ⟨h', F', a, htaken, hos, g⟩ := taken_spec gr.ready hq hpos hle
        refine ⟨_, heq', ?_⟩
        rw [htaken]
        rw [← hos] at g
        exact .given ⟨g.ready, g.fresh, g.size, fun b hb => (g.live b hb).trans (gr.live b hb)⟩
      · obtain ⟨b, hb, hbig⟩ := gr.big
        have := hsmall' b hb
        omega

/-- `base` alone. -/
theorem initBase_ready (hpos : 0 < base) (hbt : base + 8 ≤ top) (htop : top < 2 ^ 32)
    (hgot : h.got = 0) : Ready base top (initBase base h) {base} ∅ := by
  have hptr : ptr (initBase base h).mem base = base := by
    rw [initBase, ptr_setSize _ (Or.inl rfl), ptr_setPtr (by omega) (Or.inl rfl), if_pos rfl]
  have hsize : size (initBase base h).mem base = 0 := by
    rw [initBase, size_setSize (by omega) (Or.inl rfl), if_pos rfl]
  have hone : ∀ a ∈ ({base} ∪ ∅ : Finset Nat), a = base := by
    intro a ha
    rw [Finset.union_empty] at ha
    exact Finset.mem_singleton.mp ha
  refine ⟨⟨fun p hp => ?_, Finset.mem_singleton_self _, hsize, hpos, hbt, htop,
    Finset.disjoint_empty_right _, fun a ha hne => absurd (hone a ha) hne,
    fun a ha hne => absurd (hone a ha) hne, fun a ha => ?_, fun a ha b hb hab => ?_⟩,
    fun a ha _ hup => ?_, Finset.mem_singleton_self _, ?_⟩
  · rw [Finset.mem_singleton.mp hp, hptr]
    refine ⟨Finset.mem_singleton_self _, Or.inr ⟨fun x hx => ?_, fun x hx => ?_⟩⟩ <;>
      rw [Finset.mem_singleton.mp hx]
  · rw [hone a ha, hsize]
    omega
  · rw [hone a ha, hone b hb] at hab
    omega
  · rw [Finset.mem_singleton.mp ha, hptr] at hup
    omega
  · rw [Umalloc.units, Umalloc.units, Finset.sum_singleton, hsize, Finset.sum_empty]
    exact hgot.symm

theorem nunits_bounds {nbytes : Nat} (h : nbytes ≤ 2 ^ 31 - 16) :
    0 < nunits nbytes ∧ 8 * nunits nbytes < 2 ^ 31 ∧ nbytes + 8 ≤ 8 * nunits nbytes := by
  rw [nunits, show HDR = 8 from rfl]
  omega

/-! ## The free list and the bytes of the program -/

/-- The blocks of the free list. There is none before the first `malloc`. -/
def freeList (h : Heap σ) : Set Nat :=
  {p | h.freep ≠ 0 ∧ ∃ n, (ptr h.mem)^[n] h.freep = p}

/-- The addresses of the free units. -/
def freeUnits (h : Heap σ) : Set Nat :=
  {x | ∃ p ∈ freeList h, p ≤ x ∧ x < p + 8 * size h.mem p}

/-- What a program may write: anything but `base`, the free units and the headers of its
blocks. -/
def UserByte (base : Nat) (s : Client σ) (x : Nat) : Prop :=
  ¬ (base ≤ x ∧ x < base + 8) ∧ x ∉ freeUnits s.heap ∧ ∀ a ∈ s.live, ¬ (a ≤ x ∧ x < a + 8)

/-- A program that asks for less than `below` bytes, frees what it has and writes where it
may. -/
def HeapUse (base below : Nat) (s : Client σ) : HeapAct → Prop
  | .malloc nbytes => nbytes < below
  | .free a => a ∈ s.live
  | .store x _ => UserByte base s x

theorem Ready.freep_ne (r : Ready base top h F L) : h.freep ≠ 0 := by
  have := r.blocks.le_base (Finset.mem_union_left _ r.freep)
  have := r.blocks.base_pos
  omega

theorem Ready.freeList_eq (r : Ready base top h F L) : freeList h = F := by
  ext p
  refine ⟨fun ⟨_, n, hn⟩ => ?_, fun hp => ⟨r.freep_ne, ?_⟩⟩
  · rw [← hn]
    exact r.blocks.ring.iterate_mem r.freep n
  · obtain ⟨k, -, hk⟩ := r.blocks.ring.reaches r.freep hp
    exact ⟨k, hk⟩

theorem Ready.freeUnits_eq (r : Ready base top h F L) :
    freeUnits h = {x | ∃ p ∈ F, p ≤ x ∧ x < p + 8 * size h.mem p} := by
  rw [freeUnits, r.freeList_eq]
  rfl

theorem freeUnits_zero (hz : h.freep = 0) : freeUnits h = ∅ := by
  refine Set.eq_empty_of_forall_notMem fun x hx => ?_
  obtain ⟨p, hp, -⟩ := hx
  exact hp.1 hz

/-! ## Runs -/

/-- The heap that `malloc` searches. -/
def opened (base : Nat) (h : Heap σ) : Heap σ := if h.freep = 0 then initBase base h else h

/-- What holds between the calls of a program. -/
structure HeapInv (base : Nat) (lim : σ → Nat) (s : Client σ) : Prop where
  room : ∀ a ∈ s.live, s.asked a + 8 ≤ 8 * size s.heap.mem a
  heap : (s.heap.freep = 0 ∧ s.live = ∅ ∧ s.heap.got = 0 ∧ 0 < base ∧ base + 8 ≤ lim s.heap.os ∧
    lim s.heap.os < 2 ^ 32) ∨ ∃ F, Ready base (lim s.heap.os) s.heap F s.live

variable {s s' : Client σ}

theorem HeapInv.ready (i : HeapInv base lim s) :
    ∃ F, Ready base (lim s.heap.os) (opened base s.heap) F s.live ∧
      (∀ b ∈ s.live, ∀ x, b ≤ x → x < b + 8 * size s.heap.mem b →
        (opened base s.heap).mem x = s.heap.mem x) ∧
      (∀ b ∈ s.live, size (opened base s.heap).mem b = size s.heap.mem b) ∧
      freeUnits (opened base s.heap) = freeUnits s.heap := by
  rcases i.heap with ⟨hz, hlive, hgot, hpos, hbt, htop⟩ | ⟨F, r⟩
  · have r := initBase_ready hpos hbt htop hgot
    rw [opened, if_pos hz, hlive]
    refine ⟨_, r, fun b hb => absurd hb (Finset.notMem_empty b),
      fun b hb => absurd hb (Finset.notMem_empty b), ?_⟩
    rw [freeUnits_zero hz, r.freeUnits_eq]
    refine Set.eq_empty_of_forall_notMem fun x ⟨p, hp, hle, hlt⟩ => ?_
    rw [Finset.mem_singleton.mp hp] at hle hlt
    have := r.blocks.base_size
    omega
  · rw [opened, if_neg r.freep_ne]
    exact ⟨F, r, fun _ _ _ _ _ => rfl, fun _ _ => rfl, rfl⟩

theorem opened_os (base : Nat) (h : Heap σ) : (opened base h).os = h.os := by
  unfold opened
  split <;> rfl

section

variable (hr : 2 ^ 32 ≤ rounds) (hs : Sbrk sbrk lim)

include hr hs

theorem malloc_ends {nbytes : Nat} (i : HeapInv base lim s) (hn : nbytes ≤ 2 ^ 31 - 16) :
    ∃ res, malloc rounds sbrk base s.heap nbytes = some res ∧
      Ends base lim sbrk (opened base s.heap) s.live (nunits nbytes) res := by
  obtain ⟨F, r, -⟩ := i.ready
  obtain ⟨hpos, hlt, -⟩ := nunits_bounds hn
  rw [← opened_os base s.heap] at r
  exact mallocLoop_ends hr hs r hpos hlt

theorem HeapInv.malloc {nbytes : Nat} (i : HeapInv base lim s) (hn : nbytes ≤ 2 ^ 31 - 16) :
    ∃ s', heapStep rounds sbrk base s (.malloc nbytes) = some s' ∧ HeapInv base lim s' := by
  obtain ⟨res, hres, hends⟩ := malloc_ends hr hs i hn
  obtain ⟨F, r, -, hsize, -⟩ := i.ready
  obtain ⟨-, -, hroom⟩ := nunits_bounds hn
  rw [heapStep]
  cases hends with
  | @given h' F' a g =>
      rw [hres]
      refine ⟨_, rfl, fun b hb => ?_, Or.inr ⟨F', ?_⟩⟩
      · show (if b = a then nbytes else s.asked b) + 8 ≤ 8 * Umalloc.size h'.mem b
        split
        · next he =>
            rw [he, g.size]
            exact hroom
        · next he =>
            have hb' : b ∈ s.live := Finset.mem_of_mem_insert_of_ne hb he
            rw [g.live b hb', hsize b hb']
            exact i.room b hb'
      · exact g.ready
  | failed hsb r' =>
      rw [hres]
      refine ⟨_, rfl, fun b hb => ?_, Or.inr ⟨_, r'⟩⟩
      show s.asked b + 8 ≤ 8 * Umalloc.size (opened base s.heap).mem b
      rw [hsize b hb]
      exact i.room b hb

end

theorem HeapInv.free {a : Nat} (sbrk : Nat → σ → Option Nat × σ) (hr : 2 ^ 32 ≤ rounds)
    (i : HeapInv base lim s) (ha : a ∈ s.live) :
    ∃ s', heapStep rounds sbrk base s (.free a) = some s' ∧ HeapInv base lim s' := by
  rcases i.heap with ⟨-, hlive, -⟩ | ⟨F, r⟩
  · rw [hlive] at ha
    exact absurd ha (Finset.notMem_empty a)
  · obtain ⟨m', t, F', hfree, hfreed⟩ := free_spec hr r.blocks r.gap ha r.freep
    have hhigh := r.blocks.header_top (Finset.mem_union_right F ha)
    have htop := r.blocks.top_lt
    rw [heapStep, hdr_eq (n := 1) (by omega), Nat.mul_one, hfree]
    refine ⟨_, rfl, fun b hb => ?_, Or.inr ⟨F', hfreed.blocks, hfreed.gap, hfreed.freep, ?_⟩⟩
    · show s.asked b + 8 ≤ 8 * size m' b
      rw [hfreed.live b hb]
      exact i.room b (Finset.mem_of_mem_erase hb)
    · have hu := r.units
      have hL := Finset.add_sum_erase s.live (size s.heap.mem) ha
      show units (size m') F' + units (size m') (s.live.erase a) = s.heap.got
      rw [hfreed.units, units_congr hfreed.live, ← hu]
      unfold units
      rw [← hL]
      omega

/-- A byte of the program is in no header. -/
theorem Ready.header_clear {x a : Nat} (r : Ready base (lim s.heap.os) s.heap F s.live)
    (hx : UserByte base s x) (ha : a ∈ F ∪ s.live) : x < a ∨ a + 8 ≤ x := by
  obtain ⟨hbase, hfree, hlive⟩ := hx
  by_contra hin
  rw [not_or, Nat.not_lt, Nat.not_le] at hin
  rcases Finset.mem_union.mp ha with ha' | ha'
  · by_cases hab : a = base
    · subst hab
      exact hbase hin
    · have hpos := r.blocks.pos a ha hab
      rw [r.freeUnits_eq] at hfree
      exact hfree ⟨a, ha', hin.1, by omega⟩
  · exact hlive a ha' hin

theorem HeapInv.store {x : Nat} {v : UInt8} (i : HeapInv base lim s) (hx : UserByte base s x) :
    HeapInv base lim { s with heap := { s.heap with mem := store8 s.heap.mem x v } } := by
  rcases i.heap with hz | ⟨F, r⟩
  · refine ⟨fun a ha => ?_, Or.inl hz⟩
    rw [hz.2.1] at ha
    exact absurd ha (Finset.notMem_empty a)
  · have hptr : ∀ a ∈ F ∪ s.live, ptr (store8 s.heap.mem x v) a = ptr s.heap.mem a := by
      intro a ha
      have := r.header_clear hx ha
      exact load32_store8_apart _ (by omega)
    have hsize : ∀ a ∈ F ∪ s.live, size (store8 s.heap.mem x v) a = size s.heap.mem a := by
      intro a ha
      have := r.header_clear hx ha
      exact load32_store8_apart _ (by omega)
    have hptrF : ∀ a ∈ F, _ := fun a ha => hptr a (Finset.mem_union_left _ ha)
    have hsizeF : ∀ a ∈ F, _ := fun a ha => hsize a (Finset.mem_union_left _ ha)
    have hsizeL : ∀ a ∈ s.live, _ := fun a ha => hsize a (Finset.mem_union_right _ ha)
    refine ⟨fun a ha => ?_, Or.inr ⟨F, r.blocks.congr hptrF hsize, fun a ha hX hup => ?_, r.freep,
      ?_⟩⟩
    · show s.asked a + 8 ≤ 8 * size (store8 s.heap.mem x v) a
      rw [hsizeL a ha]
      exact i.room a ha
    · have hup' : a < ptr s.heap.mem a := hptrF a ha ▸ hup
      show a + 8 * size (store8 s.heap.mem x v) a ≠ ptr (store8 s.heap.mem x v) a
      rw [hptrF a ha, hsizeF a ha]
      exact r.gap a ha hX hup'
    · show units (size (store8 s.heap.mem x v)) F + units (size (store8 s.heap.mem x v)) s.live = _
      rw [units_congr hsizeF, units_congr hsizeL]
      exact r.units

/-- A program that has not used the heap. -/
def Client.start (mem : Mem) (os : σ) : Client σ := ⟨⟨mem, 0, os, 0⟩, ∅, fun _ => 0⟩

theorem HeapInv.of_reach {mem : Mem} {os : σ} (hr : 2 ^ 32 ≤ rounds) (hs : Sbrk sbrk lim)
    (hpos : 0 < base) (hb : base + 8 ≤ lim os) (hl : lim os < 2 ^ 32)
    (h : Reach (heapStep rounds sbrk base) (HeapUse base (2 ^ 31 - 15)) (.start mem os) s) :
    HeapInv base lim s := by
  refine h.invariant (I := HeapInv base lim) ⟨fun a ha => absurd ha (Finset.notMem_empty a),
    Or.inl ⟨rfl, rfl, rfl, hpos, hb, hl⟩⟩ fun s s' act i hok hstep => ?_
  cases act with
  | malloc nbytes =>
      have hok : nbytes < 2 ^ 31 - 15 := hok
      have hle : nbytes ≤ 2 ^ 31 - 16 := by omega
      obtain ⟨s₁, hs₁, i₁⟩ := i.malloc hr hs hle
      rw [hstep] at hs₁
      exact Option.some.inj hs₁ ▸ i₁
  | free a =>
      obtain ⟨s₁, hs₁, i₁⟩ := i.free sbrk hr hok
      rw [hstep] at hs₁
      exact Option.some.inj hs₁ ▸ i₁
  | store x v =>
      obtain rfl := Option.some.inj hstep
      exact i.store hok

/-! ## The heap is sound -/

/-- The free list `F` is the ring in increasing order of addresses with `base` in it; no two
free blocks overlap or touch; the blocks in use lie apart from each other and from the free
ones and have the room asked for; no unit is lost. -/
structure Sound (base : Nat) (s : Client σ) (F : Finset Nat) : Prop where
  list : freeList s.heap = F
  circular : Cyclic F (ptr s.heap.mem)
  base_mem : base ∈ F
  free_apart : ∀ a ∈ F, ∀ b ∈ F, a < b → a + 8 * size s.heap.mem a < b
  live_apart : ∀ a ∈ s.live, ∀ b ∈ s.live, a < b → a + 8 * size s.heap.mem a ≤ b
  live_free : ∀ a ∈ s.live, ∀ b ∈ F,
    a + 8 * size s.heap.mem a ≤ b ∨ (b + 8 ≤ a ∧ b + 8 * size s.heap.mem b ≤ a)
  room : ∀ a ∈ s.live, s.asked a + 8 ≤ 8 * size s.heap.mem a
  units : units (size s.heap.mem) F + units (size s.heap.mem) s.live = s.heap.got

theorem HeapInv.sound (i : HeapInv base lim s) (r : Ready base (lim s.heap.os) s.heap F s.live) :
    Sound base s F := by
  refine ⟨r.freeList_eq, r.blocks.ring, r.blocks.base_mem,
    fun a ha b hb hab => r.blocks.gap_all r.gap ha hb hab,
    fun a ha b hb hab => r.blocks.apart a (Finset.mem_union_right _ ha) b
      (Finset.mem_union_right _ hb) hab, fun a ha b hb => ?_, i.room, r.units⟩
  have haU := Finset.mem_union_right F ha
  have hbU := Finset.mem_union_left s.live hb
  rcases Nat.lt_trichotomy a b with hlt | rfl | hlt
  · exact Or.inl (r.blocks.apart a haU b hbU hlt)
  · exact absurd ha (r.notMem hb)
  · exact Or.inr ⟨r.blocks.far hbU haU hlt, r.blocks.apart b hbU a haU hlt⟩

theorem HeapInv.failed {nbytes : Nat} {h' : Heap σ} (hr : 2 ^ 32 ≤ rounds) (hs : Sbrk sbrk lim)
    (i : HeapInv base lim s) (hn : nbytes ≤ 2 ^ 31 - 16)
    (hm : Umalloc.malloc rounds sbrk base s.heap nbytes = some (h', 0)) :
    freeUnits h' = freeUnits s.heap ∧
      ∀ b ∈ s.live, ∀ x, b ≤ x → x < b + 8 * size s.heap.mem b → h'.mem x = s.heap.mem x := by
  obtain ⟨res, hres, hends⟩ := malloc_ends hr hs i hn
  obtain ⟨F, r, hbytes, -, hunits⟩ := i.ready
  rw [hm] at hres
  obtain rfl := Option.some.inj hres
  cases hends with
  | failed hsb r' => exact ⟨hunits, hbytes⟩

/-- The heap of a program: before the first `malloc` there is no list and no block; from then
on the heap is sound. Every call returns, and a `malloc` that fails changes neither the free
units nor a byte of the blocks in use. -/
theorem heap_sound {mem : Mem} {os : σ} (hr : 2 ^ 32 ≤ rounds) (hs : Sbrk sbrk lim)
    (hpos : 0 < base) (hb : base + 8 ≤ lim os) (hl : lim os < 2 ^ 32)
    (h : Reach (heapStep rounds sbrk base) (HeapUse base (2 ^ 31 - 16)) (.start mem os) s) :
    ((s.heap.freep = 0 ∧ s.live = ∅ ∧ s.heap.got = 0) ∨ ∃ F, Sound base s F) ∧
      (∀ a ∈ s.live, ∃ s', heapStep rounds sbrk base s (.free a) = some s') ∧
      ∀ nbytes < 2 ^ 31 - 16, ∃ h' ap, malloc rounds sbrk base s.heap nbytes = some (h', ap) ∧
        (ap = 0 → heapStep rounds sbrk base s (.malloc nbytes) = some { s with heap := h' } ∧
          freeUnits h' = freeUnits s.heap ∧ ∀ b ∈ s.live, ∀ x, b ≤ x →
            x < b + 8 * size s.heap.mem b → h'.mem x = s.heap.mem x) := by
  have i : HeapInv base lim s := by
    refine HeapInv.of_reach hr hs hpos hb hl (h.weaken fun s act hok => ?_)
    cases act with
    | malloc nbytes => exact Nat.lt_of_lt_of_le hok (by omega)
    | free a => exact hok
    | store x v => exact hok
  refine ⟨?_, fun a ha => ?_, fun nbytes hn => ?_⟩
  · rcases i.heap with ⟨hz, hlive, hgot, -⟩ | ⟨F, r⟩
    · exact Or.inl ⟨hz, hlive, hgot⟩
    · exact Or.inr ⟨F, i.sound r⟩
  · obtain ⟨s', hs', -⟩ := i.free sbrk hr ha
    exact ⟨s', hs'⟩
  · obtain ⟨⟨h', ap⟩, hm, -⟩ := malloc_ends hr hs i (Nat.le_of_lt hn)
    refine ⟨h', ap, hm, ?_⟩
    rintro rfl
    refine ⟨?_, i.failed hr hs (Nat.le_of_lt hn) hm⟩
    rw [heapStep, hm]

/-- The end of the memory moves up. -/
def bumpSbrk (n brk : Nat) : Option Nat × Nat :=
  if brk + n < 2 ^ 32 then (some brk, brk + n) else (none, brk)

theorem bumpSbrk_gives : Sbrk bumpSbrk fun brk => min brk (2 ^ 32 - 1) := by
  constructor
  · intro n a os os' _ _ h
    rw [bumpSbrk] at h
    split at h
    · next hlt =>
        obtain ⟨ha, rfl⟩ := Prod.mk.inj h
        obtain rfl := Option.some.inj ha
        omega
    · cases h
  · intro n os os' _ _ h
    rw [bumpSbrk] at h
    split at h
    · cases h
    · obtain ⟨-, rfl⟩ := Prod.mk.inj h
      omega

theorem heap_sound_once : ∃ s,
    Reach (heapStep (2 ^ 32) bumpSbrk 1000) (HeapUse 1000 (2 ^ 31 - 16))
      (.start (fun _ => 0) 4096) s ∧ s.live = {36840} ∧ ∃ F, Sound 1000 s F := by
  have hrun : (heapStep (2 ^ 32) bumpSbrk 1000 (.start (fun _ => 0) 4096) (.malloc 10)).any
      (fun s => decide (s.live = {36840} ∧ s.heap.freep ≠ 0)) = true := by decide +kernel
  obtain ⟨s, hs, hlive⟩ := (Option.any_eq_true _ _).mp hrun
  obtain ⟨hlive, hfreep⟩ := of_decide_eq_true hlive
  have hreach : Reach (heapStep (2 ^ 32) bumpSbrk 1000) (HeapUse 1000 (2 ^ 31 - 16))
      (.start (fun _ => 0) 4096) s :=
    .tail (a := .malloc 10) .refl (show 10 < 2 ^ 31 - 16 by omega) hs
  obtain ⟨hz | hsound, -⟩ := heap_sound (Nat.le_refl _) bumpSbrk_gives (by omega) (by omega)
    (by omega) hreach
  · exact absurd hz.1 hfreep
  · exact ⟨s, hreach, hlive, hsound⟩

end Xv6.Ref.Umalloc
