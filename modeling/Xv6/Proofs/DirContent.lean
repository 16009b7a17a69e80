import Xv6.Proofs.BlockRuns

/-!
# What `dirlookup` finds

A directory is a file of 16-byte entries. `dirlookup` reads them one after the other; what
it finds is the first entry in use that has the name.
-/

namespace Xv6.Ref.Inodes

open Xv6.Lib

variable {sb : Superblock} {start : Nat} {s : Files} {p : Iptr} {name : List UInt8}

/-- The entries of a directory with the bytes `c`. -/
def dirents (c : List UInt8) : List (List UInt8) :=
  (List.range (c.length / 16)).map fun k => (c.drop (16 * k)).take 16

/-- An entry in use, with this name. -/
def isEntry (name de : List UInt8) : Bool := deInum de ≠ 0 ∧ namecmp name (deName de)

/-- The inode number of the first entry with the name. -/
def dirEntry (c name : List UInt8) : Option Nat := ((dirents c).find? (isEntry name)).map deInum

theorem dirents_drop {c : List UInt8} {k : Nat} (hk : k < c.length / 16) :
    (dirents c).drop k = (c.drop (16 * k)).take 16 :: (dirents c).drop (k + 1) := by
  have hlen : k < (dirents c).length := by
    rw [dirents, List.length_map, List.length_range]
    exact hk
  rw [List.drop_eq_getElem_cons hlen]
  congr 1
  simp [dirents]

theorem readInode_dirent (devsw : Nat → Devsw) (h : FilesInv sb start s) (hp : s.locked p)
    (hdir : (s.icache p).din.type = T_DIR) {off : Nat}
    (hoff : off + 16 ≤ (s.icache p).din.size.toNat) (hmax : off + 16 < 2 ^ 32) :
    readInode sb devsw s p (BitVec.ofNat 32 off) 16 =
      .ok (s, some ((((s.icache p).din.content s.disk).drop off).take 16)) := by
  obtain ⟨hlt, hd, ht⟩ := h.cache p hp
  obtain ⟨r, hr⟩ := h.readInode devsw hp (BitVec.ofNat 32 off) 16
  have hoff' : (BitVec.ofNat 32 off).toNat = off := by
    rw [BitVec.toNat_ofNat, Nat.mod_eq_of_lt (by omega)]
  have hread := (readi_eq devsw h.block hlt hd ht (by rw [hdir]; decide) (BitVec.ofNat 32 off)
    16).2 (by
      rw [badRead, hoff']
      show ¬ (_ < off ∨ 2 ^ 32 ≤ off + 16)
      omega)
  rw [hr]
  rw [readInode, hread, ok_bind] at hr
  rw [← (Prod.mk.inj (Except.ok.inj hr)).2, hoff']
  rfl

/-- `dirlookup` from its `k`th round on. -/
theorem dirlookupLoop_eq (devsw : Nat → Devsw) (h : FilesInv sb start s) (hp : s.locked p)
    (hdir : (s.icache p).din.type = T_DIR) (hsz : (s.icache p).din.size.toNat % 16 = 0)
    (hmax : (s.icache p).din.size.toNat ≤ MAXFILE * BSIZE) (name : List UInt8) (fuel : Nat) :
    ∀ k, (s.icache p).din.size.toNat ≤ 16 * (k + fuel) →
      ∃ r, dirlookupLoop sb devsw p name fuel s (16 * k) = .ok (s, r) ∧
        r.map Prod.fst = (((dirents ((s.icache p).din.content s.disk)).drop k).find?
          (isEntry name)).map deInum := by
  have hlen : ((s.icache p).din.content s.disk).length = (s.icache p).din.size.toNat := by
    simp [DiskInode.content]
  have hmax : (s.icache p).din.size.toNat ≤ 71680 := hmax
  have hend : ∀ k, (s.icache p).din.size.toNat ≤ 16 * k →
      (dirents ((s.icache p).din.content s.disk)).drop k = [] := by
    intro k hk
    refine List.drop_of_length_le ?_
    rw [dirents, List.length_map, List.length_range, hlen]
    omega
  induction fuel with
  | zero =>
      intro k hk
      refine ⟨none, rfl, ?_⟩
      rw [hend k hk]
      rfl
  | succ fuel ih =>
      intro k hk
      rw [dirlookupLoop]
      split
      · next hlt =>
          rw [readInode_dirent devsw h hp hdir (by omega) (by omega), ok_bind,
            dirents_drop (by rw [hlen]; omega)]
          dsimp only
          have h16 : ((((s.icache p).din.content s.disk).drop (16 * k)).take 16).length = 16 := by
            rw [List.length_take, List.length_drop, hlen]
            omega
          rw [if_neg (by simp [h16])]
          split
          · next hfound =>
              refine ⟨_, rfl, ?_⟩
              rw [List.find?_cons_of_pos (by simpa [isEntry] using hfound)]
              rfl
          · next hno =>
              obtain ⟨r, hr, hmap⟩ := ih (k + 1) (by omega)
              refine ⟨r, hr, ?_⟩
              rw [List.find?_cons_of_neg (by simpa [isEntry] using hno)]
              exact hmap
      · next hge =>
          refine ⟨none, rfl, ?_⟩
          rw [hend k (by omega)]
          rfl

end Xv6.Ref.Inodes
