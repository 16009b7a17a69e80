import Xv6.Lib.Cyclic
import Xv6.Ref.Umalloc

/-!
# The blocks of the user heap

`Blocks` is what the headers say: the free blocks are a ring in the order of their addresses
with `base` in it, and free and live blocks lie one behind the other. It is stated for any
two functions `nxt` and `siz`, so that `free` can be taken apart: a live block is linked
into the ring, and then neighbours that touch are joined. That neighbours do not touch is
`Gap`, which fails at some blocks in between.
-/

namespace Xv6.Ref.Umalloc

open Xv6.Lib

variable {base top bp t : Nat} {nxt siz nxt' siz' : Nat → Nat} {F L : Finset Nat} {m : Mem}

/-! ## Headers in memory -/

/-- Two headers that do not overlap, or the same one. -/
def Clear (a b : Nat) : Prop := b = a ∨ a + 8 ≤ b ∨ b + 8 ≤ a

section

variable {a b v : Nat}

theorem ptr_setPtr (hv : v < 2 ^ 32) (h : Clear a b) :
    ptr (setPtr m a v) b = if b = a then v else ptr m b := by
  rw [ptr, setPtr]
  split
  · next he =>
      subst he
      exact load32_store32 hv
  · next he => exact load32_store32_apart v (by have := h.resolve_left he; omega)

theorem size_setPtr (v : Nat) (h : Clear a b) : size (setPtr m a v) b = size m b := by
  refine load32_store32_apart v ?_
  rcases h with h | h | h <;> omega

theorem ptr_setSize (v : Nat) (h : Clear a b) : ptr (setSize m a v) b = ptr m b := by
  refine load32_store32_apart v ?_
  rcases h with h | h | h <;> omega

theorem size_setSize (hv : v < 2 ^ 32) (h : Clear a b) :
    size (setSize m a v) b = if b = a then v else size m b := by
  rw [size, setSize]
  split
  · next he =>
      subst he
      exact load32_store32 hv
  · next he => exact load32_store32_apart v (by have := h.resolve_left he; omega)

end

/-- The headers at `S` read as `nxt` and `siz`. -/
def Reads (m : Mem) (S : Finset Nat) (nxt siz : Nat → Nat) : Prop :=
  ∀ a ∈ S, ptr m a = nxt a ∧ size m a = siz a

/-- No two headers at `S` overlap. -/
def Headers (S : Finset Nat) : Prop := ∀ a ∈ S, ∀ b ∈ S, Clear a b

theorem Reads.setPtr {S : Finset Nat} {a v : Nat} (h : Reads m S nxt siz) (hS : Headers S)
    (ha : a ∈ S) (hv : v < 2 ^ 32) :
    Reads (setPtr m a v) S (Function.update nxt a v) siz := by
  intro b hb
  rw [ptr_setPtr hv (hS a ha b hb), size_setPtr v (hS a ha b hb), Function.update_apply,
    (h b hb).1, (h b hb).2]
  exact ⟨rfl, rfl⟩

theorem Reads.setSize {S : Finset Nat} {a v : Nat} (h : Reads m S nxt siz) (hS : Headers S)
    (ha : a ∈ S) (hv : v < 2 ^ 32) :
    Reads (setSize m a v) S nxt (Function.update siz a v) := by
  intro b hb
  rw [ptr_setSize v (hS a ha b hb), size_setSize hv (hS a ha b hb), Function.update_apply,
    (h b hb).1, (h b hb).2]
  exact ⟨rfl, rfl⟩

/-! ## The layout -/

/-- The free blocks `F`, with `base`, and the live blocks `L`, all below `top`. -/
structure Blocks (base : Nat) (nxt siz : Nat → Nat) (F L : Finset Nat) (top : Nat) : Prop where
  ring : Cyclic F nxt
  base_mem : base ∈ F
  base_size : siz base = 0
  base_pos : 0 < base
  base_top : base + 8 ≤ top
  top_lt : top < 2 ^ 32
  other : Disjoint F L
  low : ∀ a ∈ F ∪ L, a ≠ base → base + 8 ≤ a
  pos : ∀ a ∈ F ∪ L, a ≠ base → 0 < siz a
  high : ∀ a ∈ F ∪ L, a + 8 * siz a ≤ top
  apart : ∀ a ∈ F ∪ L, ∀ b ∈ F ∪ L, a < b → a + 8 * siz a ≤ b

/-- Neighbours in the ring do not touch, except behind the blocks `X`. -/
def Gap (X : Nat → Prop) (nxt siz : Nat → Nat) (F : Finset Nat) : Prop :=
  ∀ a ∈ F, ¬ X a → a < nxt a → a + 8 * siz a ≠ nxt a

def units (siz : Nat → Nat) (S : Finset Nat) : Nat := ∑ a ∈ S, siz a

theorem units_congr {S : Finset Nat} (h : ∀ a ∈ S, siz' a = siz a) : units siz' S = units siz S :=
  Finset.sum_congr rfl h

section

variable (h : Blocks base nxt siz F L top)

include h

theorem Blocks.le_base {a : Nat} (ha : a ∈ F ∪ L) : base ≤ a := by
  by_cases he : a = base
  · rw [he]
  · have := h.low a ha he
    omega

/-- Blocks are at least a header apart. -/
theorem Blocks.far {a b : Nat} (ha : a ∈ F ∪ L) (hb : b ∈ F ∪ L) (hlt : a < b) : a + 8 ≤ b := by
  have hap := h.apart a ha b hb hlt
  by_cases he : a = base
  · have := h.low b hb (by omega)
    omega
  · have := h.pos a ha he
    omega

theorem Blocks.headers : Headers (F ∪ L) := by
  intro a ha b hb
  rcases Nat.lt_trichotomy a b with hlt | he | hlt
  · exact Or.inr (Or.inl (h.far ha hb hlt))
  · exact Or.inl he.symm
  · exact Or.inr (Or.inr (h.far hb ha hlt))

theorem Blocks.header_top {a : Nat} (ha : a ∈ F ∪ L) : a + 8 ≤ top := by
  by_cases he : a = base
  · rw [he]
    exact h.base_top
  · have := h.high a ha
    have := h.pos a ha he
    omega

theorem Blocks.nxt_mem {a : Nat} (ha : a ∈ F) : nxt a ∈ F := (h.ring a ha).mem

/-- Only the headers count. -/
theorem Blocks.congr (hn : ∀ a ∈ F, nxt' a = nxt a) (hs : ∀ a ∈ F ∪ L, siz' a = siz a) :
    Blocks base nxt' siz' F L top where
  ring := h.ring.congr hn
  base_mem := h.base_mem
  base_size := by rw [hs base (Finset.mem_union_left _ h.base_mem), h.base_size]
  base_pos := h.base_pos
  base_top := h.base_top
  top_lt := h.top_lt
  other := h.other
  low := h.low
  pos := fun a ha hne => by rw [hs a ha]; exact h.pos a ha hne
  high := fun a ha => by rw [hs a ha]; exact h.high a ha
  apart := fun a ha b hb hlt => by rw [hs a ha]; exact h.apart a ha b hb hlt

/-- The ring has fewer blocks than there are units of memory. -/
theorem Blocks.card_le : F.card ≤ 2 ^ 29 := by
  have hinj : Set.InjOn (· / 8) (F : Set Nat) := by
    intro a ha b hb he
    have ha : a ∈ F ∪ L := Finset.mem_union_left _ ha
    have hb : b ∈ F ∪ L := Finset.mem_union_left _ hb
    have he : a / 8 = b / 8 := he
    rcases Nat.lt_trichotomy a b with hlt | rfl | hlt
    · have := h.far ha hb hlt
      omega
    · rfl
    · have := h.far hb ha hlt
      omega
  have hsub : F.image (· / 8) ⊆ Finset.range (2 ^ 29) := by
    intro x hx
    obtain ⟨a, ha, rfl⟩ := Finset.mem_image.mp hx
    have := h.header_top (Finset.mem_union_left _ ha)
    have := h.top_lt
    rw [Finset.mem_range]
    omega
  rw [← Finset.card_image_of_injOn hinj, ← Finset.card_range (2 ^ 29)]
  exact Finset.card_le_card hsub

/-! ## Linking and joining -/

/-- A live block goes into the ring. -/
theorem Blocks.link (hb : bp ∈ L) (ht : t ∈ F) (hfit : InGap nxt t bp)
    (hnt : nxt' t = bp) (hnb : nxt' bp = nxt t) (hrest : ∀ x ∈ F, x ≠ t → nxt' x = nxt x) :
    Blocks base nxt' siz (insert bp F) (L.erase bp) top := by
  have hbF : bp ∉ F := Finset.disjoint_right.mp h.other hb
  have hsame : insert bp F ∪ L.erase bp = F ∪ L := by
    rw [Finset.insert_union, ← Finset.union_insert, Finset.insert_erase hb]
  refine ⟨h.ring.insert ht hbF hfit hnt hnb hrest, Finset.mem_insert_of_mem h.base_mem,
    h.base_size, h.base_pos, h.base_top, h.top_lt, ?_, ?_, ?_, ?_, ?_⟩
  · rw [Finset.disjoint_insert_left]
    exact ⟨Finset.notMem_erase _ _, Finset.disjoint_of_subset_right (Finset.erase_subset _ _) h.other⟩
  all_goals rw [hsame]
  · exact h.low
  · exact h.pos
  · exact h.high
  · exact h.apart

/-- A block swallows the one behind it. -/
theorem Blocks.join {x : Nat} (hx : x ∈ F) (hlt : x < nxt x) (htouch : x + 8 * siz x = nxt x)
    (hnx : nxt' x = nxt (nxt x)) (hn : ∀ a ∈ F, a ≠ x → nxt' a = nxt a)
    (hsx : siz' x = siz x + siz (nxt x)) (hs : ∀ a ∈ F ∪ L, a ≠ x → siz' a = siz a) :
    Blocks base nxt' siz' (F.erase (nxt x)) L top := by
  have hy := h.nxt_mem hx
  have hyU : nxt x ∈ F ∪ L := Finset.mem_union_left _ hy
  have hxU : x ∈ F ∪ L := Finset.mem_union_left _ hx
  have hxb : x ≠ base := by
    rintro rfl
    have := h.low _ hyU (by omega)
    rw [h.base_size] at htouch
    omega
  have hyb : base ≠ nxt x := by
    have := h.le_base hxU
    omega
  have hsub : ∀ a ∈ F.erase (nxt x) ∪ L, a ∈ F ∪ L ∧ a ≠ nxt x := by
    intro a ha
    rcases Finset.mem_union.mp ha with ha | ha
    · exact ⟨Finset.mem_union_left _ (Finset.mem_of_mem_erase ha), Finset.ne_of_mem_erase ha⟩
    · refine ⟨Finset.mem_union_right _ ha, ?_⟩
      rintro rfl
      exact Finset.disjoint_left.mp h.other hy ha
  refine ⟨h.ring.erase hx (by omega) hnx fun a ha hax _ => hn a ha hax,
    Finset.mem_erase.mpr ⟨hyb, h.base_mem⟩, ?_, h.base_pos, h.base_top, h.top_lt,
    Finset.disjoint_of_subset_left (Finset.erase_subset _ _) h.other,
    fun a ha => h.low a (hsub a ha).1, fun a ha hne => ?_, fun a ha => ?_, fun a ha b hb hab => ?_⟩
  · rw [hs base (Finset.mem_union_left _ h.base_mem) (Ne.symm hxb), h.base_size]
  · by_cases hax : a = x
    · rw [hax, hsx]
      have := h.pos x hxU hxb
      omega
    · rw [hs a (hsub a ha).1 hax]
      exact h.pos a (hsub a ha).1 hne
  · by_cases hax : a = x
    · have := h.high _ hyU
      rw [hax, hsx]
      omega
    · rw [hs a (hsub a ha).1 hax]
      exact h.high a (hsub a ha).1
  · obtain ⟨haU, -⟩ := hsub a ha
    obtain ⟨hbU, hby⟩ := hsub b hb
    by_cases hax : a = x
    · -- what lies behind `x` lies behind the block that is swallowed
      have h1 := h.apart x hxU b hbU (by omega)
      have h2 := h.apart _ hyU b hbU (by omega)
      rw [hax, hsx]
      omega
    · rw [hs a haU hax]
      exact h.apart a haU b hbU hab

theorem Blocks.join_units {x : Nat} (hx : x ∈ F) (hlt : x < nxt x)
    (hsx : siz' x = siz x + siz (nxt x)) (hs : ∀ a ∈ F ∪ L, a ≠ x → siz' a = siz a) :
    units siz' (F.erase (nxt x)) = units siz F := by
  have hy := h.nxt_mem hx
  have hxe : x ∈ F.erase (nxt x) := Finset.mem_erase.mpr ⟨Nat.ne_of_lt hlt, hx⟩
  rw [units, units, ← Finset.add_sum_erase F siz hy, ← Finset.add_sum_erase _ siz hxe,
    ← Finset.add_sum_erase _ siz' hxe, hsx]
  have hrest : ∑ a ∈ (F.erase (nxt x)).erase x, siz' a = ∑ a ∈ (F.erase (nxt x)).erase x, siz a := by
    refine Finset.sum_congr rfl fun a ha => ?_
    obtain ⟨hax, ha⟩ := Finset.mem_erase.mp ha
    exact hs a (Finset.mem_union_left _ (Finset.mem_of_mem_erase ha)) hax
  rw [hrest]
  omega

end

/-- If neighbours do not touch, no two free blocks do. -/
theorem Blocks.gap_all (h : Blocks base nxt siz F L top) (hg : Gap (fun _ => False) nxt siz F)
    {a b : Nat} (ha : a ∈ F) (hb : b ∈ F) (hab : a < b) : a + 8 * siz a < b := by
  have haU := Finset.mem_union_left L ha
  obtain ⟨hm, ⟨hlt, hnone⟩ | ⟨-, hmax⟩⟩ := h.ring a ha
  · have hle : nxt a ≤ b := (hnone b hb).resolve_left (Nat.not_le.mpr hab)
    have h1 := h.apart a haU _ (Finset.mem_union_left L hm) hlt
    have h2 := hg a ha not_false hlt
    omega
  · exact absurd (hmax b hb) (Nat.not_le.mpr hab)

/-! ## Taking blocks out -/

theorem Blocks.prev_ne (h : Blocks base nxt siz F L top) {p : Nat} (hp : p ∈ F)
    (hpos : 0 < siz (nxt p)) : nxt p ≠ p := by
  intro he
  obtain ⟨-, ⟨hlt, -⟩ | ⟨hmin, hmax⟩⟩ := h.ring p hp
  · omega
  · -- a ring of one block is `base`, which has no units
    have h1 := hmin base h.base_mem
    have h2 := hmax base h.base_mem
    rw [show nxt p = base by omega, h.base_size] at hpos
    omega

/-- A free block goes to the user, by the pointer of the one before it. -/
theorem Blocks.take {p : Nat} (h : Blocks base nxt siz F L top) (hp : p ∈ F)
    (hpos : 0 < siz (nxt p)) (hnp : nxt' p = nxt (nxt p)) (hn : ∀ a ∈ F, a ≠ p → nxt' a = nxt a) :
    Blocks base nxt' siz (F.erase (nxt p)) (insert (nxt p) L) top := by
  have hq := h.nxt_mem hp
  have hqb : base ≠ nxt p := by
    intro he
    rw [← he, h.base_size] at hpos
    omega
  have hsame : F.erase (nxt p) ∪ insert (nxt p) L = F ∪ L := by
    rw [Finset.union_insert, ← Finset.insert_union, Finset.insert_erase hq]
  refine ⟨h.ring.erase hp (h.prev_ne hp hpos) hnp fun a ha hap _ => hn a ha hap,
    Finset.mem_erase.mpr ⟨hqb, h.base_mem⟩, h.base_size, h.base_pos, h.base_top, h.top_lt, ?_,
    ?_, ?_, ?_, ?_⟩
  · rw [Finset.disjoint_insert_right]
    exact ⟨Finset.notMem_erase _ _,
      Finset.disjoint_of_subset_left (Finset.erase_subset _ _) h.other⟩
  all_goals rw [hsame]
  · exact h.low
  · exact h.pos
  · exact h.high
  · exact h.apart

theorem Blocks.take_gap {p : Nat} (h : Blocks base nxt siz F L top)
    (hg : Gap (fun _ => False) nxt siz F) (hp : p ∈ F) (hpos : 0 < siz (nxt p))
    (hnp : nxt' p = nxt (nxt p)) (hn : ∀ a ∈ F, a ≠ p → nxt' a = nxt a) :
    Gap (fun _ => False) nxt' siz (F.erase (nxt p)) := by
  intro a ha hX hup
  obtain ⟨-, haF⟩ := Finset.mem_erase.mp ha
  by_cases hap : a = p
  · have hq := h.nxt_mem hp
    have hqb : nxt p ≠ base := by
      intro he
      rw [he, h.base_size] at hpos
      omega
    have hlow := h.low _ (Finset.mem_union_left _ hq) hqb
    rw [hap, hnp] at hup ⊢
    obtain ⟨-, ⟨hlt, -⟩ | ⟨hmin, -⟩⟩ := h.ring p hp
    · have hap := h.apart p (Finset.mem_union_left _ hp) _ (Finset.mem_union_left _ hq) hlt
      obtain ⟨-, ⟨hlt', -⟩ | ⟨hmin', -⟩⟩ := h.ring _ hq
      · omega
      · have := hmin' p hp
        omega
    · have := hmin base h.base_mem
      omega
  · rw [hn a haF hap] at hup ⊢
    exact hg a haF hX hup

section

variable {p n : Nat} (h : Blocks base nxt siz F L top) (hp : p ∈ F)

include h hp

/-- The tail of a free block lies between its header and the next block. -/
theorem Blocks.tail_clear {b : Nat} (hlt : n < siz p) (hb : b ∈ F ∪ L) :
    b ≤ p ∧ b + 8 ≤ p + 8 * (siz p - n) ∨ p < b ∧ p + 8 * (siz p - n) + 8 * n ≤ b := by
  have hpU : p ∈ F ∪ L := Finset.mem_union_left _ hp
  rcases Nat.lt_trichotomy b p with hbp | hbp | hbp
  · have := h.far hb hpU hbp
    omega
  · omega
  · have := h.apart p hpU b hb hbp
    omega

theorem Blocks.tail_notMem (hpos : 0 < n) (hlt : n < siz p) : p + 8 * (siz p - n) ∉ F ∪ L := by
  intro hb
  have := h.tail_clear hp hlt hb
  omega

/-- The tail of a free block goes to the user. -/
theorem Blocks.split (hpos : 0 < n) (hlt : n < siz p) (hsp : siz' p = siz p - n)
    (hsa : siz' (p + 8 * (siz p - n)) = n) (hs : ∀ b ∈ F ∪ L, b ≠ p → siz' b = siz b) :
    Blocks base nxt siz' F (insert (p + 8 * (siz p - n)) L) top := by
  have hpU : p ∈ F ∪ L := Finset.mem_union_left _ hp
  have hnot := h.tail_notMem hp hpos hlt
  have hclear : ∀ b ∈ F ∪ L, _ := fun b hb => h.tail_clear hp hlt hb
  have hpb : p ≠ base := by
    rintro rfl
    rw [h.base_size] at hlt
    omega
  have hplow := h.low p hpU hpb
  have hphigh := h.high p hpU
  generalize ha : p + 8 * (siz p - n) = a at *
  have hmem : ∀ b ∈ F ∪ insert a L, b = a ∨ b ∈ F ∪ L := by
    intro b hb
    rwa [Finset.union_insert, Finset.mem_insert] at hb
  have hsize : ∀ b ∈ F ∪ L, siz' b ≤ siz b := by
    intro b hb
    by_cases hbp : b = p
    · rw [hbp, hsp]
      omega
    · rw [hs b hb hbp]
  refine ⟨h.ring, h.base_mem, ?_, h.base_pos, h.base_top, h.top_lt, ?_, fun b hb hne => ?_,
    fun b hb hne => ?_, fun b hb => ?_, fun b hb c hc hbc => ?_⟩
  · rw [hs base (Finset.mem_union_left _ h.base_mem) (Ne.symm hpb), h.base_size]
  · rw [Finset.disjoint_insert_right]
    exact ⟨fun haF => hnot (Finset.mem_union_left _ haF), h.other⟩
  · rcases hmem b hb with rfl | hb
    · omega
    · exact h.low b hb hne
  · rcases hmem b hb with rfl | hb
    · omega
    · by_cases hbp : b = p
      · rw [hbp, hsp]
        omega
      · rw [hs b hb hbp]
        exact h.pos b hb hne
  · rcases hmem b hb with rfl | hb
    · omega
    · have := hsize b hb
      have := h.high b hb
      omega
  · rcases hmem b hb with hb | hb
    · rcases hmem c hc with hc | hc
      · omega
      · have := hclear c hc
        rw [hb, hsa]
        omega
    · rcases hmem c hc with hc | hc
      · by_cases hbp : b = p
        · rw [hbp, hsp]
          omega
        · have hbp' := hclear b hb
          rw [hs b hb hbp]
          have := h.apart b hb p hpU (by omega)
          omega
      · have := hsize b hb
        have := h.apart b hb c hc hbc
        omega

end

/-- New memory above all blocks. -/
theorem Blocks.grow {hp nu top' : Nat} (h : Blocks base nxt siz F L top) (hle : top ≤ hp)
    (hend : hp + 8 * nu ≤ top') (htop : top' < 2 ^ 32) (hpos : 0 < nu) (hsp : siz' hp = nu)
    (hs : ∀ b ∈ F ∪ L, siz' b = siz b) : Blocks base nxt siz' F (insert hp L) top' := by
  have hbelow : ∀ b ∈ F ∪ L, b + 8 * siz b ≤ hp ∧ b < hp := by
    intro b hb
    have := h.high b hb
    have := h.header_top hb
    omega
  have hmem : ∀ b ∈ F ∪ insert hp L, b = hp ∨ b ∈ F ∪ L := by
    intro b hb
    rwa [Finset.union_insert, Finset.mem_insert] at hb
  have hbt := h.base_top
  refine ⟨h.ring, h.base_mem, ?_, h.base_pos, by omega, htop, ?_, fun b hb hne => ?_,
    fun b hb hne => ?_, fun b hb => ?_, fun b hb c hc hbc => ?_⟩
  · rw [hs base (Finset.mem_union_left _ h.base_mem), h.base_size]
  · rw [Finset.disjoint_insert_right]
    refine ⟨fun hF => ?_, h.other⟩
    have := hbelow hp (Finset.mem_union_left _ hF)
    omega
  · rcases hmem b hb with rfl | hb
    · omega
    · exact h.low b hb hne
  · rcases hmem b hb with rfl | hb
    · omega
    · rw [hs b hb]
      exact h.pos b hb hne
  · rcases hmem b hb with rfl | hb
    · omega
    · have := hbelow b hb
      rw [hs b hb]
      omega
  · rcases hmem b hb with hb | hb
    · rcases hmem c hc with hc | hc
      · omega
      · have := hbelow c hc
        rw [hb, hsp]
        omega
    · rw [hs b hb]
      rcases hmem c hc with hc | hc
      · exact hc ▸ (hbelow b hb).1
      · exact h.apart b hb c hc hbc

/-! ## `free` -/

/-- What a block is joined with the next one to, if they touch. -/
def settleNxt (nxt siz : Nat → Nat) (x : Nat) : Nat → Nat :=
  if x + 8 * siz x = nxt x then Function.update nxt x (nxt (nxt x)) else nxt

def settleSiz (nxt siz : Nat → Nat) (x : Nat) : Nat → Nat :=
  if x + 8 * siz x = nxt x then Function.update siz x (siz x + siz (nxt x)) else siz

def settleRing (nxt siz : Nat → Nat) (x : Nat) (F : Finset Nat) : Finset Nat :=
  if x + 8 * siz x = nxt x then F.erase (nxt x) else F

/-- Then one block less can touch its neighbour. -/
theorem Blocks.settle {x : Nat} {X : Nat → Prop} (h : Blocks base nxt siz F L top) (hx : x ∈ F)
    (hup : 0 < siz x ∨ x < nxt x) (hg : Gap (fun a => a = x ∨ X a) nxt siz F)
    (hX : x + 8 * siz x = nxt x → ¬ X (nxt x)) :
    Blocks base (settleNxt nxt siz x) (settleSiz nxt siz x) (settleRing nxt siz x F) L top ∧
      Gap X (settleNxt nxt siz x) (settleSiz nxt siz x) (settleRing nxt siz x F) ∧
      units (settleSiz nxt siz x) (settleRing nxt siz x F) = units siz F ∧
      x ∈ settleRing nxt siz x F := by
  rw [settleNxt, settleSiz, settleRing]
  by_cases htouch : x + 8 * siz x = nxt x
  · have hlt : x < nxt x := by omega
    have hnx : Function.update nxt x (nxt (nxt x)) x = nxt (nxt x) := Function.update_self _ _ _
    have hsx : Function.update siz x (siz x + siz (nxt x)) x = siz x + siz (nxt x) :=
      Function.update_self _ _ _
    have hn : ∀ a, a ≠ x → Function.update nxt x (nxt (nxt x)) a = nxt a :=
      fun a ha => Function.update_of_ne ha _ _
    have hs : ∀ a, a ≠ x → Function.update siz x (siz x + siz (nxt x)) a = siz a :=
      fun a ha => Function.update_of_ne ha _ _
    rw [if_pos htouch, if_pos htouch, if_pos htouch]
    refine ⟨h.join hx hlt htouch hnx (fun a _ => hn a) hsx fun a _ => hs a, ?_,
      h.join_units hx hlt hsx fun a _ => hs a, Finset.mem_erase.mpr ⟨Nat.ne_of_lt hlt, hx⟩⟩
    intro a ha hXa hup'
    obtain ⟨-, haF⟩ := Finset.mem_erase.mp ha
    by_cases hax : a = x
    · rw [hax, hnx] at hup'
      rw [hax, hnx, hsx]
      have hgy := hg (nxt x) (h.nxt_mem hx) (not_or.mpr ⟨Nat.ne_of_gt hlt, hX htouch⟩)
      by_cases hy : nxt x < nxt (nxt x)
      · have := hgy hy
        omega
      · -- the next one is the last
        obtain ⟨-, ⟨hy', -⟩ | ⟨hmin, -⟩⟩ := h.ring _ (h.nxt_mem hx)
        · exact absurd hy' hy
        · have := hmin x hx
          omega
    · rw [hn a hax] at hup' ⊢
      rw [hs a hax]
      exact hg a haF (not_or.mpr ⟨hax, hXa⟩) hup'
  · rw [if_neg htouch, if_neg htouch, if_neg htouch]
    refine ⟨h, fun a ha hXa hup' => ?_, rfl, hx⟩
    by_cases hax : a = x
    · rw [hax]
      exact htouch
    · exact hg a ha (not_or.mpr ⟨hax, hXa⟩) hup'

theorem settleSiz_of_ne {x a : Nat} (h : a ≠ x) : settleSiz nxt siz x a = siz a := by
  rw [settleSiz]
  split
  · exact Function.update_of_ne h _ _
  · rfl

theorem settleSiz_le (nxt siz : Nat → Nat) (x : Nat) : siz x ≤ settleSiz nxt siz x x := by
  rw [settleSiz]
  split
  · rw [Function.update_self]
    omega
  · exact Nat.le_refl _

/-- The walk ends where the block belongs. -/
theorem freeLoop_spec (bp : Nat) (h : Cyclic F (ptr m)) (fuel : Nat) : ∀ {p k : Nat}, p ∈ F →
    InGap (ptr m) ((ptr m)^[k] p) bp → k < fuel →
    ∃ t ∈ F, freeLoop m bp fuel p = some t ∧ InGap (ptr m) t bp := by
  induction fuel with
  | zero => omega
  | succ fuel ih =>
      intro p k hp hfit hk
      rw [freeLoop]
      by_cases h1 : bp > p ∧ bp < ptr m p
      · exact ⟨p, hp, if_pos h1, Or.inl h1⟩
      · rw [if_neg h1]
        by_cases h2 : p ≥ ptr m p ∧ (bp > p ∨ bp < ptr m p)
        · exact ⟨p, hp, if_pos h2, Or.inr h2⟩
        · rw [if_neg h2]
          cases k with
          | zero => exact absurd hfit (not_or.mpr ⟨h1, h2⟩)
          | succ k => exact ih (h p hp).mem hfit (by omega)

theorem hdr_eq {p n : Nat} (h : p + 8 * n < 2 ^ 32) : hdr p n = p + 8 * n := by
  rw [hdr, HDR, Nat.mul_comm n 8, Nat.mod_eq_of_lt h]

theorem headerOf_add {p : Nat} (h : p < 2 ^ 32) : headerOf (p + 8) = p := by
  rw [headerOf, show HDR = 8 from rfl]
  omega

section

variable {S : Finset Nat} {p : Nat} (h : Reads m S nxt siz) (hS : Headers S) (hp : p ∈ S)
  (hb : bp ∈ S)

include h hS hp hb

/-- The code before `bp` is linked reads the next block off its neighbour. -/
theorem joinUpper_reads (hq : nxt p ∈ S) (hend : bp + 8 * siz bp < 2 ^ 32)
    (hlt : ∀ a ∈ S, nxt a < 2 ^ 32)
    (hsum : bp + 8 * siz bp = nxt p → nxt p ≠ bp ∧ siz bp + siz (nxt p) < 2 ^ 32) :
    Reads (joinUpper m p bp) S
      (Function.update nxt bp (if bp + 8 * siz bp = nxt p then nxt (nxt p) else nxt p))
      (if bp + 8 * siz bp = nxt p then Function.update siz bp (siz bp + siz (nxt p)) else siz) := by
  rw [joinUpper, (h bp hb).2, (h p hp).1, hdr_eq hend]
  by_cases htouch : bp + 8 * siz bp = nxt p
  · obtain ⟨hqb, hs⟩ := hsum htouch
    rw [if_pos htouch, if_pos htouch, if_pos htouch]
    dsimp only
    rw [(h _ hq).2, Nat.mod_eq_of_lt hs]
    have h₁ := h.setSize hS hb hs
    rw [(h₁ p hp).1, (h₁ _ hq).1]
    exact h₁.setPtr hS hb (hlt _ hq)
  · rw [if_neg htouch, if_neg htouch, if_neg htouch]
    exact h.setPtr hS hb (hlt p hp)

theorem joinLower_reads (hend : p + 8 * siz p < 2 ^ 32) (hlt : ∀ a ∈ S, nxt a < 2 ^ 32)
    (hbp : bp < 2 ^ 32) (hsum : p + 8 * siz p = bp → siz p + siz bp < 2 ^ 32) :
    Reads (joinLower m p bp) S
      (Function.update nxt p (if p + 8 * siz p = bp then nxt bp else bp))
      (if p + 8 * siz p = bp then Function.update siz p (siz p + siz bp) else siz) := by
  rw [joinLower, (h p hp).2, hdr_eq hend]
  by_cases htouch : p + 8 * siz p = bp
  · have hs := hsum htouch
    rw [if_pos htouch, if_pos htouch, if_pos htouch]
    dsimp only
    rw [(h bp hb).2, Nat.mod_eq_of_lt hs]
    have h₁ := h.setSize hS hp hs
    rw [(h₁ bp hb).1]
    exact h₁.setPtr hS hp (hlt bp hb)
  · rw [if_neg htouch, if_neg htouch, if_neg htouch]
    exact h.setPtr hS hp hbp

end

/-- The walk of `free` from any block of the ring. -/
theorem Blocks.place {freep rounds : Nat} (hr : 2 ^ 32 ≤ rounds)
    (h : Blocks base (ptr m) (size m) F L top) (hb : bp ∈ L)
    (hf : freep ∈ F) :
    ∃ t ∈ F, freeLoop m bp rounds freep = some t ∧ InGap (ptr m) t bp ∧ t < bp := by
  have hbF : bp ∉ F := Finset.disjoint_right.mp h.other hb
  have hlow := h.low bp (Finset.mem_union_right _ hb) fun he => hbF (he ▸ h.base_mem)
  obtain ⟨t₀, ht₀, hfit₀⟩ := h.ring.exists_inGap ⟨base, h.base_mem⟩ hbF
  obtain ⟨k, hk, hwalk⟩ := h.ring.reaches hf ht₀
  have hcard := h.card_le
  obtain ⟨t, ht, hloop, hfit⟩ := freeLoop_spec bp h.ring rounds hf (hwalk ▸ hfit₀)
    (by omega)
  refine ⟨t, ht, hloop, hfit, ?_⟩
  rcases hfit with hfit | ⟨hle, hlt | hlt⟩
  · exact hfit.1
  · exact hlt
  · -- nothing lies below `base`
    obtain ⟨-, ⟨hup, -⟩ | ⟨hmin, -⟩⟩ := h.ring t ht
    · omega
    · have := hmin base h.base_mem
      omega

/-- `bp` between `t` and its neighbour. -/
def linkNxt (nxt : Nat → Nat) (t bp : Nat) : Nat → Nat :=
  Function.update (Function.update nxt t bp) bp (nxt t)

/-- The ring after `free`: linked, joined with the next block, joined with the one before. -/
def freedNxt (nxt siz : Nat → Nat) (t bp : Nat) : Nat → Nat :=
  settleNxt (settleNxt (linkNxt nxt t bp) siz bp) (settleSiz (linkNxt nxt t bp) siz bp) t

def freedSiz (nxt siz : Nat → Nat) (t bp : Nat) : Nat → Nat :=
  settleSiz (settleNxt (linkNxt nxt t bp) siz bp) (settleSiz (linkNxt nxt t bp) siz bp) t

theorem linkNxt_left (htb : t < bp) : linkNxt nxt t bp t = bp := by
  rw [linkNxt, Function.update_of_ne (Nat.ne_of_lt htb), Function.update_self]

theorem linkNxt_new (nxt : Nat → Nat) (t bp : Nat) : linkNxt nxt t bp bp = nxt t :=
  Function.update_self _ _ _

theorem linkNxt_other {x : Nat} (hxt : x ≠ t) (hxb : x ≠ bp) : linkNxt nxt t bp x = nxt x := by
  rw [linkNxt, Function.update_of_ne hxb, Function.update_of_ne hxt]

theorem settleNxt_of_ne {x a : Nat} (h : a ≠ x) : settleNxt nxt siz x a = nxt a := by
  rw [settleNxt]
  split
  · exact Function.update_of_ne h _ _
  · rfl

theorem settleRing_subset (nxt siz : Nat → Nat) (x : Nat) (F : Finset Nat) :
    settleRing nxt siz x F ⊆ F := by
  rw [settleRing]
  split
  · exact Finset.erase_subset _ _
  · exact Finset.Subset.refl _

/-- No block gets smaller, except that it may be part of another. -/
theorem settle_big {x b : Nat} (nxt siz : Nat → Nat) (hx : x ∈ F) (hlt : x < nxt x) (hb : b ∈ F) :
    ∃ b' ∈ settleRing nxt siz x F, siz b ≤ settleSiz nxt siz x b' := by
  by_cases htouch : x + 8 * siz x = nxt x
  · rw [settleRing, settleSiz, if_pos htouch, if_pos htouch]
    by_cases hby : b = nxt x
    · refine ⟨x, Finset.mem_erase.mpr ⟨Nat.ne_of_lt hlt, hx⟩, ?_⟩
      rw [Function.update_self, hby]
      exact Nat.le_add_left _ _
    · refine ⟨b, Finset.mem_erase.mpr ⟨hby, hb⟩, ?_⟩
      rw [Function.update_apply]
      split
      · next he =>
          rw [he]
          exact Nat.le_add_right _ _
      · exact Nat.le_refl _
  · rw [settleRing, settleSiz, if_neg htouch, if_neg htouch]
    exact ⟨b, hb, Nat.le_refl _⟩

/-- The block `bp` has gone into the ring, alone or joined with its neighbours. -/
structure Freed (base top : Nat) (nxt siz : Nat → Nat) (F L : Finset Nat) (bp : Nat)
    (nxt' siz' : Nat → Nat) (freep : Nat) (F' : Finset Nat) : Prop where
  blocks : Blocks base nxt' siz' F' (L.erase bp) top
  gap : Gap (fun _ => False) nxt' siz' F'
  freep : freep ∈ F'
  units : units siz' F' = units siz F + siz bp
  live : ∀ a ∈ L.erase bp, siz' a = siz a
  big : ∃ b ∈ F', siz bp ≤ siz' b
  sub : F' ⊆ insert bp F

theorem Blocks.freed (h : Blocks base nxt siz F L top) (hg : Gap (fun _ => False) nxt siz F)
    (hb : bp ∈ L) (ht : t ∈ F) (hfit : InGap nxt t bp) (htb : t < bp) :
    ∃ F', Freed base top nxt siz F L bp (freedNxt nxt siz t bp) (freedSiz nxt siz t bp) t F' := by
  have hbF : bp ∉ F := Finset.disjoint_right.mp h.other hb
  have hbpos := h.pos bp (Finset.mem_union_right _ hb) fun he => hbF (he ▸ h.base_mem)
  have h₁ := h.link hb ht hfit (linkNxt_left htb) (linkNxt_new nxt t bp) fun x hx hxt =>
    linkNxt_other hxt fun he => hbF (he ▸ hx)
  have hg₁ : Gap (fun a => a = bp ∨ a = t) (linkNxt nxt t bp) siz (insert bp F) := by
    intro a ha hX hup
    rw [not_or] at hX
    rw [linkNxt_other hX.2 hX.1] at hup ⊢
    exact hg a (Finset.mem_of_mem_insert_of_ne ha hX.1) not_false hup
  have hu₁ : Umalloc.units siz (insert bp F) = Umalloc.units siz F + siz bp := by
    rw [Umalloc.units, Finset.sum_insert hbF, Nat.add_comm, Umalloc.units]
  obtain ⟨h₂, hg₂, hu₂, hb₂⟩ := h₁.settle (x := bp) (X := (· = t)) (Finset.mem_insert_self _ _)
    (Or.inl hbpos) hg₁ (by rw [linkNxt_new]; omega)
  have ht₂ : t ∈ settleRing (linkNxt nxt t bp) siz bp (insert bp F) := by
    rw [settleRing]
    split
    · next htouch =>
        rw [linkNxt_new] at htouch ⊢
        exact Finset.mem_erase.mpr ⟨by omega, Finset.mem_insert_of_mem ht⟩
    · exact Finset.mem_insert_of_mem ht
  have hnt : settleNxt (linkNxt nxt t bp) siz bp t = bp := by
    rw [settleNxt_of_ne (Nat.ne_of_lt htb), linkNxt_left htb]
  have hbig : siz bp ≤ settleSiz (linkNxt nxt t bp) siz bp bp := settleSiz_le _ _ _
  obtain ⟨h₃, hg₃, hu₃, ht₃⟩ := h₂.settle (x := t) (X := fun _ => False) ht₂
    (Or.inr (by rw [hnt]; exact htb)) (fun a ha hX => hg₂ a ha fun he => hX (Or.inl he))
    fun _ => not_false
  refine ⟨_, h₃, hg₃, ht₃, hu₃.trans (hu₂.trans hu₁), fun a ha => ?_, ?_, ?_⟩
  · obtain ⟨hab, haL⟩ := Finset.mem_erase.mp ha
    have hat : a ≠ t := fun he => Finset.disjoint_left.mp h.other ht (he ▸ haL)
    rw [freedSiz, settleSiz_of_ne hat, settleSiz_of_ne hab]
  · obtain ⟨b, hbmem, hle⟩ := settle_big (settleNxt (linkNxt nxt t bp) siz bp)
      (settleSiz (linkNxt nxt t bp) siz bp) ht₂ (by rw [hnt]; exact htb) hb₂
    exact ⟨b, hbmem, Nat.le_trans hbig hle⟩
  · exact (settleRing_subset _ _ _ _).trans (settleRing_subset _ _ _ _)

/-- The code links `bp` to its neighbours one after the other. -/
theorem freed_eq (htb : t < bp) (hq : bp + 8 * siz bp = nxt t → nxt t ≠ t ∧ nxt t ≠ bp)
    (nxtU sizU : Nat → Nat)
    (hn : nxtU = Function.update nxt bp (if bp + 8 * siz bp = nxt t then nxt (nxt t) else nxt t))
    (hs : sizU = if bp + 8 * siz bp = nxt t then Function.update siz bp (siz bp + siz (nxt t))
      else siz) :
    freedNxt nxt siz t bp =
        Function.update nxtU t (if t + 8 * sizU t = bp then nxtU bp else bp) ∧
      freedSiz nxt siz t bp =
        if t + 8 * sizU t = bp then Function.update sizU t (sizU t + sizU bp) else sizU := by
  have hsU : settleSiz (linkNxt nxt t bp) siz bp = sizU := by
    rw [settleSiz, linkNxt_new, hs]
  have hnU : settleNxt (linkNxt nxt t bp) siz bp = Function.update nxtU t bp := by
    have hbt : bp ≠ t := Nat.ne_of_gt htb
    rw [settleNxt, linkNxt_new, hn, linkNxt, Function.update_comm hbt]
    by_cases hU : bp + 8 * siz bp = nxt t
    · rw [if_pos hU, if_pos hU, Function.update_of_ne (hq hU).2, Function.update_of_ne (hq hU).1,
        Function.update_idem]
    · rw [if_neg hU, if_neg hU]
  have hnt : Function.update nxtU t bp t = bp := Function.update_self _ _ _
  have hnb : Function.update nxtU t bp bp = nxtU bp := Function.update_of_ne (Nat.ne_of_gt htb) _ _
  constructor
  · rw [freedNxt, hnU, hsU, settleNxt, hnt, hnb]
    by_cases hL : t + 8 * sizU t = bp
    · rw [if_pos hL, if_pos hL, Function.update_idem]
    · rw [if_neg hL, if_neg hL]
  · rw [freedSiz, hnU, hsU, settleSiz, hnt]

/-- The code leads there. -/
theorem join_reads (h : Blocks base (ptr m) (size m) F L top) (hb : bp ∈ L) (ht : t ∈ F)
    (htb : t < bp) :
    Reads (joinLower (joinUpper m t bp) t bp) (F ∪ L) (freedNxt (ptr m) (size m) t bp)
      (freedSiz (ptr m) (size m) t bp) := by
  have hbF : bp ∉ F := Finset.disjoint_right.mp h.other hb
  have hbU : bp ∈ F ∪ L := Finset.mem_union_right _ hb
  have hbpos := h.pos bp hbU fun he => hbF (he ▸ h.base_mem)
  have htU : t ∈ F ∪ L := Finset.mem_union_left _ ht
  have hqU : ptr m t ∈ F ∪ L := Finset.mem_union_left _ (h.nxt_mem ht)
  have htop := h.top_lt
  have hbhigh := h.high bp hbU
  have hthigh := h.high t htU
  have hqhigh := h.high _ hqU
  have hlt : ∀ a, ptr m a < 2 ^ 32 := fun a => load32_lt m a
  have hupper : Reads (joinUpper m t bp) (F ∪ L) _ _ :=
    joinUpper_reads (fun a _ => ⟨rfl, rfl⟩) h.headers htU hbU hqU (by omega) (fun a _ => hlt a)
      (by omega)
  obtain ⟨nxtU, hn⟩ : ∃ f, f = Function.update (ptr m) bp
    (if bp + 8 * size m bp = ptr m t then ptr m (ptr m t) else ptr m t) := ⟨_, rfl⟩
  obtain ⟨sizU, hs⟩ : ∃ f, f = if bp + 8 * size m bp = ptr m t then
    Function.update (size m) bp (size m bp + size m (ptr m t)) else size m := ⟨_, rfl⟩
  rw [← hn, ← hs] at hupper
  have hst : sizU t = size m t := by
    rw [hs]
    split
    · exact Function.update_of_ne (Nat.ne_of_lt htb) _ _
    · rfl
  have hsb : bp + 8 * sizU bp ≤ top := by
    rw [hs]
    split
    · rw [Function.update_self]
      omega
    · exact hbhigh
  have hltU : ∀ a ∈ F ∪ L, nxtU a < 2 ^ 32 := by
    intro a _
    rw [hn, Function.update_apply]
    split
    · split
      · exact hlt _
      · exact hlt _
    · exact hlt a
  have hlower := joinLower_reads hupper h.headers htU hbU (by rw [hst]; omega) hltU (by omega)
    (by rw [hst]; omega)
  obtain ⟨he₁, he₂⟩ := freed_eq htb (by omega) nxtU sizU hn hs
  rw [he₁, he₂]
  exact hlower

theorem free_spec {freep rounds : Nat} (hr : 2 ^ 32 ≤ rounds)
    (h : Blocks base (ptr m) (size m) F L top)
    (hg : Gap (fun _ => False) (ptr m) (size m) F) (hb : bp ∈ L) (hf : freep ∈ F) :
    ∃ m' t F', free rounds m freep (bp + 8) = some (m', t) ∧
      Freed base top (ptr m) (size m) F L bp (ptr m') (size m') t F' := by
  obtain ⟨t, ht, hloop, hfit, htb⟩ := h.place hr hb hf
  obtain ⟨F', hfreed⟩ := h.freed hg hb ht hfit htb
  have hreads := join_reads h hb ht htb
  have hsub : F' ⊆ F ∪ L := fun a ha => by
    rcases Finset.mem_insert.mp (hfreed.sub ha) with rfl | ha
    · exact Finset.mem_union_right _ hb
    · exact Finset.mem_union_left _ ha
  have hsubL : ∀ a ∈ L.erase bp, a ∈ F ∪ L :=
    fun a ha => Finset.mem_union_right _ (Finset.mem_of_mem_erase ha)
  have hn : ∀ a ∈ F', ptr (joinLower (joinUpper m t bp) t bp) a =
      freedNxt (ptr m) (size m) t bp a := fun a ha => (hreads a (hsub ha)).1
  have hs : ∀ a ∈ F ∪ L, size (joinLower (joinUpper m t bp) t bp) a =
      freedSiz (ptr m) (size m) t bp a := fun a ha => (hreads a ha).2
  have hfree : free rounds m freep (bp + 8) = some (joinLower (joinUpper m t bp) t bp, t) := by
    have hhigh := h.header_top (Finset.mem_union_right F hb)
    have htop := h.top_lt
    rw [free, headerOf_add (by omega), hloop]
  generalize joinLower (joinUpper m t bp) t bp = m' at hn hs hfree
  refine ⟨m', t, F', hfree, hfreed.blocks.congr hn fun a ha => ?_, fun a ha hX hup => ?_,
    hfreed.freep, ?_, fun a ha => ?_, ?_, hfreed.sub⟩
  · rcases Finset.mem_union.mp ha with ha | ha
    · exact hs a (hsub ha)
    · exact hs a (hsubL a ha)
  · rw [hn a ha] at hup ⊢
    rw [hs a (hsub ha)]
    exact hfreed.gap a ha hX hup
  · rw [units_congr fun a ha => hs a (hsub ha), hfreed.units]
  · rw [hs a (hsubL a ha), hfreed.live a ha]
  · obtain ⟨b, hb', hle⟩ := hfreed.big
    exact ⟨b, hb', by rw [hs b (hsub hb')]; exact hle⟩

end Xv6.Ref.Umalloc
