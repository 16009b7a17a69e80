import Xv6.Proofs.FileArray

/-!
# `itrunc` gives back every block of a file

The two loops and the last `bfree` free, one after the other, the blocks that the
inode's places hold. They are held, so their bits are set, and held once, so no
block is freed twice: `bfree` never panics, and afterwards the blocks are free and
the inode holds none.
-/

namespace Xv6.Ref.Inodes

open Xv6.Lib

variable {sb : Superblock} {start i : Nat} {d : Disk} {ip : DiskInode}

/-- `bfree` on every block of a list. -/
def bfreeEach (sb : Superblock) : List Nat → Disk → Except Panic Disk
  | [], d => .ok d
  | x :: xs, d => do
      let d ← bfree sb d x
      bfreeEach sb xs d

theorem bfreeEach_append (xs ys : List Nat) (d : Disk) :
    bfreeEach sb (xs ++ ys) d = bfreeEach sb xs d >>= bfreeEach sb ys := by
  induction xs generalizing d with
  | nil => rfl
  | cons x xs ih =>
      simp only [List.cons_append, bfreeEach]
      cases bfree sb d x with
      | error e => rfl
      | ok d' => exact ih d'

/-- Distinct blocks whose bits are set can all be freed. -/
theorem bfreeEach_ok {xs : List Nat} (hnd : xs.Nodup) (hbit : ∀ x ∈ xs, d.bit sb x = true) :
    bfreeEach sb xs d = .ok (bfreeAll sb xs d) := by
  induction xs generalizing d with
  | nil => rfl
  | cons x xs ih =>
      rw [List.nodup_cons] at hnd
      rw [List.forall_mem_cons] at hbit
      rw [bfreeEach, bfree_eq hbit.1, ok_bind, ih hnd.2, bfreeAll]
      intro y hy
      have hne : x ≠ y := by
        rintro rfl
        exact hnd.1 hy
      rw [Disk.bit_clearBit, if_neg hne]
      exact hbit.2 y hy

/-! ## The loops -/

/-- The inode with the addresses of the list cleared. -/
def clearAddrs (ip : DiskInode) (is : List (Fin (NDIRECT + 1))) : DiskInode :=
  { ip with addrs := fun k => if k ∈ is then 0 else ip.addrs k }

theorem clearAddrs_addrs (ip : DiskInode) (is : List (Fin (NDIRECT + 1)))
    (k : Fin (NDIRECT + 1)) :
    (clearAddrs ip is).addrs k = if k ∈ is then 0 else ip.addrs k := rfl

/-- The non-zero ones among the values of `f`. -/
def nonzero {α : Type} (f : α → Nat) (l : List α) : List Nat := (l.map f).filter (· ≠ 0)

theorem nonzero_cons {α : Type} (f : α → Nat) (a : α) (l : List α) :
    nonzero f (a :: l) = if f a = 0 then nonzero f l else f a :: nonzero f l := by
  rw [nonzero, List.map_cons, List.filter_cons]
  by_cases h : f a = 0
  · rw [if_pos h, if_neg (by simp [h])]
    rfl
  · rw [if_neg h, if_pos (by simp [h])]
    rfl

theorem truncDirect_eq {is : List (Fin (NDIRECT + 1))} (hnd : is.Nodup) (d : Disk)
    (ip : DiskInode) :
    truncDirect sb is d ip =
      (bfreeEach sb (nonzero (fun k => (ip.addrs k).toNat) is) d).map
        fun d' => (d', clearAddrs ip is) := by
  induction is generalizing d ip with
  | nil =>
      show Except.ok (d, ip) = .ok (d, clearAddrs ip [])
      simp [clearAddrs]
  | cons k is ih =>
      rw [List.nodup_cons] at hnd
      rw [truncDirect, nonzero_cons]
      by_cases h0 : ip.addrs k = 0
      · have hclear : clearAddrs ip (k :: is) = clearAddrs ip is := by
          simp only [clearAddrs, List.mem_cons]
          congr 1
          funext l
          by_cases hl : l = k
          · subst hl
            simp [h0]
          · simp [hl]
        rw [if_pos h0, if_pos (by rw [h0]; rfl), ih hnd.2, hclear]
      · have h0' : (ip.addrs k).toNat ≠ 0 := fun h => h0 (BitVec.eq_of_toNat_eq h)
        have hclear : clearAddrs (ip.setAddr k 0) is = clearAddrs ip (k :: is) := by
          simp only [clearAddrs, DiskInode.setAddr, List.mem_cons]
          congr 1
          funext l
          by_cases hl : l = k
          · simp [hl]
          · simp [hl]
        have hsame : nonzero (fun l => ((ip.setAddr k 0).addrs l).toNat) is =
            nonzero (fun l => (ip.addrs l).toNat) is := by
          rw [nonzero, nonzero]
          congr 1
          refine List.map_congr_left fun l hl => ?_
          have : l ≠ k := by
            rintro rfl
            exact hnd.1 hl
          simp only [DiskInode.setAddr, if_neg this]
        rw [if_neg h0, if_neg h0', bfreeEach]
        cases bfree sb d (ip.addrs k).toNat with
        | error e => rfl
        | ok d' =>
            rw [ok_bind, ok_bind, ih hnd.2, hsame, hclear]

theorem truncEntries_eq (a : Block) (js : List Nat) (d : Disk) :
    truncEntries sb a js d = bfreeEach sb (nonzero a.word js) d := by
  induction js generalizing d with
  | nil => rfl
  | cons j js ih =>
      rw [truncEntries, nonzero_cons]
      split
      · exact ih d
      · rw [bfreeEach]
        cases bfree sb d (a.word j) with
        | error e => rfl
        | ok d' => exact ih d'

/-- The direct blocks. -/
abbrev directs : List (Fin (NDIRECT + 1)) := (List.finRange NDIRECT).map Fin.castSucc

theorem mem_directs (k : Fin (NDIRECT + 1)) : k ∈ directs ↔ k ≠ Fin.last NDIRECT := by
  rw [List.mem_map]
  constructor
  · rintro ⟨j, -, rfl⟩
    exact Fin.castSucc_ne_last j
  · intro h
    exact ⟨k.castPred h, List.mem_finRange _, Fin.castSucc_castPred k h⟩

theorem directs_nodup : directs.Nodup :=
  (List.nodup_finRange NDIRECT).map (Fin.castSucc_injective NDIRECT)

/-- The places of an inode, in the order `itrunc` visits them. -/
def truncOrder : List Nat :=
  List.range NDIRECT ++ ((List.range NINDIRECT).map (NDIRECT + 1 + ·) ++ [NDIRECT])

theorem truncOrder_nodup : truncOrder.Nodup := by
  have hinj : Function.Injective (NDIRECT + 1 + · : Nat → Nat) := fun a b h => by
    simpa using h
  refine List.Nodup.append List.nodup_range (List.Nodup.append
    (List.nodup_range.map hinj) (List.nodup_singleton _) ?_) ?_
  · intro k hk hk'
    rw [List.mem_map] at hk
    rw [List.mem_singleton] at hk'
    omega
  · intro k hk hk'
    rw [List.mem_range] at hk
    rw [List.mem_append, List.mem_map, List.mem_singleton] at hk'
    omega

theorem mem_truncOrder (k : Nat) : k ∈ truncOrder ↔ k < NPTR := by
  rw [truncOrder, List.mem_append, List.mem_append, List.mem_range, List.mem_map,
    List.mem_singleton]
  constructor
  · rintro (h | ⟨j, hj, rfl⟩ | rfl)
    · exact Nat.lt_of_lt_of_le h (by decide)
    · exact Nat.add_lt_add_left (List.mem_range.mp hj) _
    · decide
  · intro h
    rcases ptr_cases k with ⟨j, rfl⟩ | ⟨j, rfl⟩
    · rcases Nat.lt_or_eq_of_le (Nat.le_of_lt_succ j.isLt) with hj | hj
      · exact Or.inl hj
      · exact Or.inr (Or.inr hj)
    · exact Or.inr (Or.inl ⟨j, List.mem_range.mpr (Nat.lt_of_add_lt_add_left h), rfl⟩)

/-- The blocks an inode holds, in that order. -/
def heldBlocks (ip : DiskInode) (d : Disk) : List Nat := nonzero (ip.ptr d) truncOrder

theorem nonzero_append {α : Type} (f : α → Nat) (l l' : List α) :
    nonzero f (l ++ l') = nonzero f l ++ nonzero f l' := by
  simp only [nonzero, List.map_append, List.filter_append]

theorem nonzero_directs (ip : DiskInode) (d : Disk) :
    nonzero (fun k => (ip.addrs k).toNat) directs = nonzero (ip.ptr d) (List.range NDIRECT) := by
  rw [nonzero, nonzero, ← List.map_coe_finRange_eq_range, List.map_map, List.map_map]
  rfl

/-- Behind the direct blocks: nothing, or the entries and then the indirect block. -/
theorem heldBlocks_eq (ip : DiskInode) (d : Disk) :
    heldBlocks ip d = nonzero (fun k => (ip.addrs k).toNat) directs ++
      if ip.indirect = 0 then []
      else nonzero (d ip.indirect).word (List.range NINDIRECT) ++ [ip.indirect] := by
  rw [heldBlocks, truncOrder, nonzero_append, nonzero_append, nonzero_directs ip d]
  congr 1
  have hlast : nonzero (ip.ptr d) [NDIRECT] = if ip.indirect = 0 then [] else [ip.indirect] := by
    rw [nonzero_cons, ip.ptr_last d]
    rfl
  have hmap : nonzero (ip.ptr d) ((List.range NINDIRECT).map (NDIRECT + 1 + ·)) =
      nonzero (fun j => if ip.indirect = 0 then 0 else (d ip.indirect).word j)
        (List.range NINDIRECT) := by
    rw [nonzero, nonzero, List.map_map]
    congr 1
    exact List.map_congr_left fun j _ => ip.ptr_entry d j
  rw [hlast, hmap]
  by_cases h0 : ip.indirect = 0
  · simp only [h0, if_true, List.append_nil]
    rw [nonzero, List.filter_eq_nil_iff]
    intro x hx
    obtain ⟨j, -, rfl⟩ := List.mem_map.mp hx
    simp
  · simp only [h0, if_false]

/-- The inode once it is empty. -/
def emptied (ip : DiskInode) : DiskInode := { ip with size := 0, addrs := fun _ => 0 }

theorem itrunc_eq (hsb : sb.Ordered start) (hnd : (heldBlocks ip d).Nodup)
    (hbit : ∀ x ∈ heldBlocks ip d, d.bit sb x = true)
    (hdata : ∀ x ∈ heldBlocks ip d, start ≤ x ∧ x < sb.size) :
    itrunc sb d i ip =
      .ok (iupdate sb (bfreeAll sb (heldBlocks ip d) d) i (emptied ip), emptied ip) := by
  have hall := bfreeEach_ok hnd hbit
  generalize hD : bfreeAll sb (heldBlocks ip d) d = D at hall ⊢
  rw [heldBlocks_eq] at hall hnd hbit hdata
  generalize hA : nonzero (fun k => (ip.addrs k).toNat) directs = A at hall hnd hbit hdata
  have hAok : bfreeEach sb A d = .ok (bfreeAll sb A d) :=
    bfreeEach_ok hnd.of_append_left fun x hx => hbit x (List.mem_append_left _ hx)
  rw [bfreeEach_append, hAok, ok_bind] at hall
  have hlast : (clearAddrs ip directs).addrs (Fin.last NDIRECT) = ip.addrs (Fin.last NDIRECT) := by
    rw [clearAddrs_addrs, if_neg fun h => (mem_directs _).mp h rfl]
  have hdirect : ∀ k, k ≠ Fin.last NDIRECT → (clearAddrs ip directs).addrs k = 0 := by
    intro k hk
    rw [clearAddrs_addrs, if_pos ((mem_directs k).mpr hk)]
  have hind : (clearAddrs ip directs).indirect = ip.indirect := by
    rw [DiskInode.indirect, hlast, DiskInode.indirect]
  have hempty : ∀ v : DiskInode, v.addrs = (fun _ => 0) →
      v = { ip with size := v.size, addrs := v.addrs } → { v with size := 0 } = emptied ip := by
    intro v hv he
    rw [he, emptied, hv]
  rw [itrunc, truncDirect_eq directs_nodup, hA, hAok]
  simp only [Except.map, ok_bind, truncIndirect, hlast, hind]
  by_cases h0 : ip.indirect = 0
  · have h0' := DiskInode.indirect_eq_zero.mp h0
    rw [if_pos h0] at hall
    cases hall
    rw [if_pos h0', ok_bind]
    have : ({ clearAddrs ip directs with size := 0 } : DiskInode) = emptied ip := by
      refine hempty _ ?_ rfl
      funext k
      by_cases hk : k = Fin.last NDIRECT
      · rw [hk, hlast, h0']
      · exact hdirect k hk
    rw [this]
    rfl
  · have h0' : ip.addrs (Fin.last NDIRECT) ≠ 0 :=
      fun h => h0 (DiskInode.indirect_eq_zero.mpr h)
    rw [if_neg h0] at hall hdata
    have hmem : ip.indirect ∈ A ++ (nonzero (d ip.indirect).word (List.range NINDIRECT) ++
        [ip.indirect]) := by simp
    have hsame : bfreeAll sb A d ip.indirect = d ip.indirect :=
      bfreeAll_data hsb (fun x hx => (hdata x (List.mem_append_left _ hx)).2) d (hdata _ hmem).1
    rw [bfreeEach_append] at hall
    obtain ⟨d₂, hB, hC⟩ := bind_eq_ok.mp hall
    obtain ⟨d₃, hC, hC'⟩ := bind_eq_ok.mp hC
    cases hC'
    rw [if_neg h0', truncEntries_eq, hsame, hB]
    simp only [ok_bind, hC]
    have : ({ (clearAddrs ip directs).setAddr (Fin.last NDIRECT) 0 with size := 0 } : DiskInode) =
        emptied ip := by
      refine hempty _ ?_ rfl
      funext k
      by_cases hk : k = Fin.last NDIRECT
      · exact if_pos hk
      · exact (if_neg hk).trans (hdirect k hk)
    rw [pure_eq_ok, ok_bind, this]
    rfl

end Xv6.Ref.Inodes
