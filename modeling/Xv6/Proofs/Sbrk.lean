import Xv6.Ref.Pages
import Xv6.Ref.Sbrk
import Xv6.Proofs.UserSpace
import Xv6.Proofs.Umalloc

/-!
# The heap of a process

`sbrk` with a positive argument gives memory at the end of the process, so the allocator's
blocks lie below the size of the process. A request of at most 2^31 - 16 bytes has such an
argument. A larger one wraps on its way: in the rounding, in the product with the size of a
header or in the sign of the argument.
-/

namespace Xv6.Ref.Sbrk

open Xv6.Lib Xv6.Ref.Vm Xv6.Ref.Umalloc

/-! ## The kernel's `growproc` -/

theorem allocuvmLoop_size {k : Kernel} {oldsz newsz : Nat} (n : Nat) :
    ∀ {m m' : Phys} {d d' : Pgdir} {a sz : Nat},
      allocuvmLoop k oldsz newsz n m d a = .ok (m', d', sz) → sz = newsz ∨ sz = 0 := by
  induction n with
  | zero =>
      intro m m' d d' a sz h
      cases h
      exact Or.inl rfl
  | succ n ih =>
      intro m m' d d' a sz h
      rw [allocuvmLoop] at h
      split at h
      · split at h
        · obtain ⟨x, -, h⟩ := bind_eq_ok.mp h
          cases h
          exact Or.inr rfl
        · obtain ⟨⟨m₁, d₁, mapped⟩, -, h⟩ := bind_eq_ok.mp h
          cases mapped with
          | true => exact ih h
          | false =>
              obtain ⟨x, -, h⟩ := bind_eq_ok.mp h
              obtain ⟨m₂, -, h⟩ := bind_eq_ok.mp h
              cases h
              exact Or.inr rfl
      · cases h
        exact Or.inl rfl

theorem allocuvm_size {k : Kernel} {m m' : Phys} {d d' : Pgdir} {oldsz newsz sz : Nat}
    (h : allocuvm k m d oldsz newsz = .ok (m', d', sz)) :
    ∃ found, sz = allocSize found oldsz newsz := by
  rw [allocuvm] at h
  simp only [allocSize]
  split at h
  · next hge =>
      cases h
      exact ⟨true, by rw [if_pos hge]⟩
  · next hge =>
      simp only [if_neg hge]
      split at h
      · next hlt =>
          cases h
          exact ⟨true, by rw [if_pos hlt]⟩
      · next hlt =>
          simp only [if_neg hlt]
          rcases allocuvmLoop_size _ h with rfl | rfl
          · exact ⟨true, rfl⟩
          · exact ⟨false, rfl⟩

theorem deallocuvm_size {k : Kernel} {m m' : Phys} {d d' : Pgdir} {oldsz newsz sz : Nat}
    (h : deallocuvm k m d oldsz newsz = .ok (m', d', sz)) : sz = deallocSize oldsz newsz := by
  rw [deallocuvm] at h
  rw [deallocSize]
  split at h
  · next hge =>
      cases h
      rw [if_pos hge]
  · next hge =>
      obtain ⟨x, -, h⟩ := bind_eq_ok.mp h
      cases h
      rw [if_neg hge]

/-- In any machine `growproc` returns what `growSize` says and leaves that size. -/
theorem growprocResult_size {k : Kernel} {s s' : Vm.Machine} {p : Slot} {n r : Int}
    (h : growprocResult k s p n = .ok (r, s')) :
    ∃ found, growSize found (s.proc p).sz n = (r, (s'.proc p).sz) := by
  rw [growprocResult] at h
  simp only [growSize]
  split at h
  · next hpos =>
      obtain ⟨⟨m, d, sz⟩, ha, h⟩ := bind_eq_ok.mp h
      obtain ⟨found, hsz⟩ := allocuvm_size ha
      refine ⟨found, ?_⟩
      rw [if_pos hpos, ← hsz]
      dsimp only at h
      split at h
      · next hz =>
          cases h
          rw [if_pos hz, setProc_self]
      · next hz =>
          cases h
          rw [if_neg hz, setProc_self]
  · next hpos =>
      split at h
      · next hneg =>
          obtain ⟨⟨m, d, sz⟩, hd, h⟩ := bind_eq_ok.mp h
          have hsz := deallocuvm_size hd
          refine ⟨true, ?_⟩
          rw [if_neg hpos, if_pos hneg, ← hsz]
          dsimp only at h
          split at h
          · next hz =>
              cases h
              rw [if_pos hz, setProc_self]
          · next hz =>
              cases h
              rw [if_neg hz, setProc_self]
      · next hneg =>
          cases h
          exact ⟨true, by rw [if_neg hpos, if_neg hneg]⟩

/-! ## Requests that do not wrap -/

theorem growSize_pos (found : Bool) {sz n : Nat} (hsz : sz < KERNBASE) (hpos : 0 < n)
    (hn : n < 2 ^ 31) : growSize found sz (toInt n) = (0, sz + n) ∧ sz + n < KERNBASE ∨
      growSize found sz (toInt n) = (-1, sz) := by
  have hsz : sz < 0x80000000 := hsz
  have hnew : (((sz : Int) + n) % 2 ^ 32).toNat = sz + n := by omega
  rw [toInt, if_pos hn]
  simp only [growSize, allocSize, hnew]
  rw [if_pos (by omega)]
  by_cases hge : sz + n ≥ KERNBASE
  · simp only [if_pos hge]
    exact Or.inr rfl
  · simp only [if_neg hge, if_neg (show ¬ sz + n < sz by omega)]
    cases found with
    | true =>
        rw [if_pos rfl, if_neg (by omega)]
        exact Or.inl ⟨rfl, Nat.not_le.mp hge⟩
    | false => exact Or.inr rfl

theorem sysSbrk_gives (found : Nat → Bool) : Sbrk (sysSbrk found) Brk.sz := by
  constructor
  · intro n a os os' hpos hn h
    rw [sysSbrk] at h
    obtain ⟨h1, rfl⟩ := Prod.mk.inj h
    have hb : os.sz < 0x80000000 := os.below
    rcases growSize_pos (found os.calls) hb hpos hn with ⟨hg, hlt⟩ | hg
    · have hlt : os.sz + n < 0x80000000 := hlt
      rw [hg] at h1
      obtain rfl := Option.some.inj h1
      simp only [hg]
      omega
    · rw [hg] at h1
      cases h1
  · intro n os os' hpos hn h
    rw [sysSbrk] at h
    obtain ⟨h1, rfl⟩ := Prod.mk.inj h
    have hb : os.sz < 0x80000000 := os.below
    rcases growSize_pos (found os.calls) hb hpos hn with ⟨hg, -⟩ | hg
    · rw [hg] at h1
      cases h1
    · simp only [hg]
      omega

/-- In every run in which no request is larger than 2^31 - 16 bytes, such a request is met by
a block with that many bytes in it, below the end of the process, or by 0, and then the
process has not shrunk. -/
theorem malloc_large_enough {rounds base nbytes : Nat} {found : Nat → Bool} {mem : Mem} {os : Brk}
    {s : Client Brk} (hr : 2 ^ 32 ≤ rounds) (hpos : 0 < base) (hb : base + 8 ≤ os.sz)
    (h : Reach (heapStep rounds (sysSbrk found) base) (HeapUse base (2 ^ 31 - 15)) (.start mem os) s)
    (hn : nbytes ≤ 2 ^ 31 - 16) :
    ∃ h' ap, malloc rounds (sysSbrk found) base s.heap nbytes = some (h', ap) ∧
      (ap ≠ 0 → ap + nbytes ≤ headerOf ap + 8 * size h'.mem (headerOf ap) ∧
        ap + nbytes ≤ h'.os.sz) ∧
      (ap = 0 → s.heap.os.sz ≤ h'.os.sz) := by
  have hs := sysSbrk_gives found
  have hbelow : os.sz < 0x80000000 := os.below
  have i : HeapInv base Brk.sz s := HeapInv.of_reach hr hs hpos hb (by omega) h
  obtain ⟨⟨h', ap⟩, hm, hends⟩ := malloc_ends hr hs i hn
  obtain ⟨hnpos, hnlt, hroom⟩ := nunits_bounds hn
  refine ⟨h', ap, hm, ?_⟩
  cases hends with
  | @given h' F' a g =>
      have hmem := Finset.mem_union_right F' (Finset.mem_insert_self a s.live)
      have hhigh := g.ready.blocks.high a hmem
      have htop := g.ready.blocks.top_lt
      have hsize : size h'.mem a = nunits nbytes := g.size
      refine ⟨fun _ => ?_, fun hz => ?_⟩
      · rw [headerOf_add (by omega), hsize]
        exact ⟨by omega, by rw [hsize] at hhigh; omega⟩
      · exact absurd hz (by omega)
  | @failed os' F hsb r' =>
      refine ⟨fun hne => absurd rfl hne, fun _ => ?_⟩
      have hc : 8 * coreUnits (nunits nbytes) < 2 ^ 31 ∧ 0 < coreUnits (nunits nbytes) := by
        unfold coreUnits
        split <;> omega
      have := hs.fails (by omega) hc.1 hsb
      rw [opened_os] at this
      exact this.1

/-- A process of three pages. -/
def threePages : Brk := ⟨0x3000, 0, by decide⟩

theorem malloc_large_enough_ten : ∃ h' ap,
    malloc (2 ^ 32) (sysSbrk fun _ => true) 0x1000 (Client.start (fun _ => 0) threePages).heap 10 =
      some (h', ap) ∧
    (ap ≠ 0 → ap + 10 ≤ headerOf ap + 8 * size h'.mem (headerOf ap) ∧ ap + 10 ≤ h'.os.sz) := by
  have hstart : Reach (heapStep (2 ^ 32) (sysSbrk fun _ => true) 0x1000)
      (HeapUse 0x1000 (2 ^ 31 - 15)) (.start (fun _ => 0) threePages)
      (.start (fun _ => 0) threePages) := .refl
  obtain ⟨h', ap, hm, hfit, -⟩ := malloc_large_enough (Nat.le_refl _) (by decide) (by decide)
    hstart (show 10 ≤ 2 ^ 31 - 16 by decide)
  exact ⟨h', ap, hm, hfit⟩

/-- The rounding of 2^32 - 1 bytes wraps to one unit, the header. -/
theorem malloc_rounds_to_nothing : ∃ h' ap,
    malloc (2 ^ 32) (sysSbrk fun _ => true) 0x1000 (Client.start (fun _ => 0) threePages).heap
      (2 ^ 32 - 1) = some (h', ap) ∧
    ap ≠ 0 ∧ size h'.mem (headerOf ap) = 1 ∧
    ¬ ap + (2 ^ 32 - 1) ≤ headerOf ap + 8 * size h'.mem (headerOf ap) ∧
    ¬ ap + (2 ^ 32 - 1) ≤ h'.os.sz := by
  have hrun : (malloc (2 ^ 32) (sysSbrk fun _ => true) 0x1000
      (Client.start (fun _ => 0) threePages).heap (2 ^ 32 - 1)).any (fun x =>
        decide (x.2 ≠ 0 ∧ size x.1.mem (headerOf x.2) = 1 ∧
          ¬ x.2 + (2 ^ 32 - 1) ≤ headerOf x.2 + 8 * size x.1.mem (headerOf x.2) ∧
          ¬ x.2 + (2 ^ 32 - 1) ≤ x.1.os.sz)) = true := by decide +kernel
  obtain ⟨⟨h', ap⟩, hm, hd⟩ := (Option.any_eq_true _ _).mp hrun
  exact ⟨h', ap, hm, of_decide_eq_true hd⟩

end Xv6.Ref.Sbrk
