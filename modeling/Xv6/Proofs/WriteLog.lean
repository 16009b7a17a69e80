import Xv6.Proofs.FileArray
import Xv6.Ref.WriteLog

/-!
# A chunk of `filewrite` fits in its log reservation

`filewrite` cuts what it writes into chunks, each an operation of its own that may log
`MAXOPBLOCKS` blocks. A round of `writei` logs the block it writes to and, if it has to
allocate it, a block of the free map; the indirect block and the block of the free map for
it come once for the chunk, the inode's block at the end. A chunk that begins inside a
block is spread over one block more than it is long, but that first block is there
already, and this is what makes the count come out.
-/

namespace Xv6.Ref.Inodes.Logging

open Xv6.Lib

variable {sb : Superblock} {start i n sz off : Nat} {d d' : Disk} {ip ip' : DiskInode}
  {src : List UInt8} {x : Nat}

/-! ## The results are those of `Ref/Inodes.lean` -/

theorem balloc_result (sb : Superblock) (d : Disk) :
    (balloc sb d).result = Inodes.balloc sb d := by
  rw [balloc, Inodes.balloc]
  cases (List.range sb.size).find? fun b => !d.bit sb b with
  | none => rfl
  | some b => rfl

theorem loadIndirect_result (sb : Superblock) (d : Disk) (ip : DiskInode) :
    (loadIndirect sb d ip).result = Inodes.loadIndirect sb d ip := by
  rw [loadIndirect, Inodes.loadIndirect]
  split
  · rw [Trail.result_bind, balloc_result]
    rfl
  · rfl

theorem bmap_result (sb : Superblock) (d : Disk) (ip : DiskInode) (n : Nat) :
    (bmap sb d ip n).result = Inodes.bmap sb d ip n := by
  rw [bmap, Inodes.bmap]
  split
  · dsimp only
    split
    · rw [Trail.result_bind, balloc_result]
      rfl
    · rfl
  split
  · rw [Trail.result_bind, loadIndirect_result]
    refine bind_congr fun y => ?_
    dsimp only
    split
    · rw [Trail.result_bind, balloc_result]
      rfl
    · rfl
  · rfl

theorem writeiLoop_result (sb : Superblock) (fuel : Nat) :
    ∀ (d : Disk) (ip : DiskInode) (off : Nat) (src : List UInt8),
      (writeiLoop sb fuel d ip off src).result = Inodes.writeiLoop sb fuel d ip off src := by
  induction fuel with
  | zero => exact fun _ _ _ _ => rfl
  | succ fuel ih =>
      intro d ip off src
      rw [writeiLoop, Inodes.writeiLoop]
      split
      · rfl
      · rw [Trail.result_bind, bmap_result]
        exact bind_congr fun y => ih ..

theorem writei_result (sb : Superblock) (devsw : Nat → Devsw) (d : Disk) (inum : Nat)
    (ip : DiskInode) (src : List UInt8) (off : BitVec 32) :
    (writei sb devsw d inum ip src off).result = Inodes.writei sb devsw d inum ip src off := by
  rw [writei, Inodes.writei]
  split
  · split
    · rfl
    · cases (devsw ip.major.toNat).write with
      | none => rfl
      | some write => rfl
  split
  · rfl
  split
  · rfl
  · rw [Trail.result_bind, writeiLoop_result]
    refine bind_congr fun y => ?_
    dsimp only
    split
    · rfl
    · rfl

/-! ## What `bmap` logs -/

theorem balloc_log (h : Inodes.balloc sb d = .ok (d', x)) :
    (balloc sb d).log = [sb.bblock x, x] := by
  revert h
  rw [Inodes.balloc, balloc]
  cases (List.range sb.size).find? fun b => !d.bit sb b with
  | none => rintro ⟨⟩
  | some b =>
      intro h
      cases h
      rfl

theorem balloc_log_error {e : Panic} (h : Inodes.balloc sb d = .error e) :
    (balloc sb d).log = [] := by
  revert h
  rw [Inodes.balloc, balloc]
  cases (List.range sb.size).find? fun b => !d.bit sb b with
  | none => exact fun _ => rfl
  | some b => rintro ⟨⟩

theorem bmap_log_present (hn : n < MAXFILE) (hne : ip.ptr d (ptrOf n) ≠ 0) :
    (bmap sb d ip n).log = [] := by
  rw [bmap]
  split
  · next hd =>
      rw [ptrOf_direct hd, ip.ptr_addr d ⟨n, Nat.lt_succ_of_lt hd⟩] at hne
      dsimp only
      rw [if_neg fun h0 => hne (by rw [h0]; rfl)]
      rfl
  · next hd =>
      obtain ⟨j, rfl⟩ : ∃ j, n = NDIRECT + j := ⟨n - NDIRECT, by omega⟩
      rw [ptrOf_entry, DiskInode.ptr_entry] at hne
      split at hne
      · exact absurd rfl hne
      · next hv =>
          have hload : loadIndirect sb d ip = pure (d, ip) :=
            if_neg fun h0 => hv (DiskInode.indirect_eq_zero.mpr h0)
          rw [Nat.add_sub_cancel_left, if_pos (Nat.lt_of_add_lt_add_left hn), hload]
          show (if (d ip.indirect).word j = 0 then _ else _ : FsTrail _).log = _
          rw [if_neg hne]
          rfl

theorem bmap_direct_log (hd : n < NDIRECT) :
    (∀ e, Inodes.bmap sb d ip n = .error e → (bmap sb d ip n).log = []) ∧
    ∀ d' ip' x, Inodes.bmap sb d ip n = .ok (d', ip', x) →
      (∀ b ∈ (bmap sb d ip n).log, b = sb.bblock x ∨ b = x) ∧ ip'.indirect = ip.indirect := by
  rw [bmap, Inodes.bmap, dif_pos hd, dif_pos hd]
  dsimp only
  split
  · cases hb : Inodes.balloc sb d with
    | error e =>
        rw [Trail.log_bind_error (by rw [balloc_result, hb]), balloc_log_error hb]
        exact ⟨fun _ _ => rfl, by rintro _ _ _ ⟨⟩⟩
    | ok y =>
        rw [Trail.log_bind_ok (by rw [balloc_result, hb]), balloc_log hb]
        refine ⟨by rintro _ ⟨⟩, fun d' ip' x h => ?_⟩
        cases h
        refine ⟨fun b hb => ?_, ?_⟩
        · simpa using hb
        · have hne : Fin.last NDIRECT ≠ ⟨n, Nat.lt_succ_of_lt hd⟩ := by
            intro he
            have := congrArg Fin.val he
            exact absurd this (Nat.ne_of_gt hd)
          simp only [DiskInode.indirect, DiskInode.setAddr, if_neg hne]
  · refine ⟨by rintro _ ⟨⟩, fun d' ip' x h => ?_⟩
    cases h
    exact ⟨by rintro _ ⟨⟩, rfl⟩

theorem bmap_entry_log (hd : ¬ n < NDIRECT) (hv : ip.indirect ≠ 0) :
    (∀ e, Inodes.bmap sb d ip n = .error e → (bmap sb d ip n).log = []) ∧
    ∀ d' ip' x, Inodes.bmap sb d ip n = .ok (d', ip', x) →
      (∀ b ∈ (bmap sb d ip n).log, b = sb.bblock x ∨ b = x ∨ b = ip.indirect) ∧ ip' = ip := by
  have h0 : ¬ ip.addrs (Fin.last NDIRECT) = 0 := fun h0 => hv (DiskInode.indirect_eq_zero.mpr h0)
  rw [bmap, Inodes.bmap, dif_neg hd, dif_neg hd, loadIndirect, Inodes.loadIndirect, if_neg h0,
    if_neg h0]
  split
  · rw [Trail.log_bind_ok (Trail.result_pure _), ok_bind, Trail.log_pure, List.nil_append]
    dsimp only
    split
    · cases hb : Inodes.balloc sb d with
      | error e =>
          rw [Trail.log_bind_error (by rw [balloc_result, hb]), balloc_log_error hb]
          exact ⟨fun _ _ => rfl, by rintro _ _ _ ⟨⟩⟩
      | ok y =>
          rw [Trail.log_bind_ok (by rw [balloc_result, hb]), balloc_log hb]
          refine ⟨by rintro _ ⟨⟩, fun d' ip' x h => ?_⟩
          cases h
          refine ⟨fun b hb => ?_, rfl⟩
          simpa [logWrite] using hb
    · refine ⟨by rintro _ ⟨⟩, fun d' ip' x h => ?_⟩
      cases h
      exact ⟨by rintro _ ⟨⟩, rfl⟩
  · exact ⟨fun _ _ => rfl, by rintro _ _ _ ⟨⟩⟩

/-- Where the indirect block is allocated first, the rest is as if it had been there. -/
theorem bmap_new_log {d₁ : Disk} {y : Nat} (hd : ¬ n < NDIRECT) (hj : n - NDIRECT < NINDIRECT)
    (h0 : ip.addrs (Fin.last NDIRECT) = 0) (hb : Inodes.balloc sb d = .ok (d₁, y))
    (hy : (ip.setAddr (Fin.last NDIRECT) y).indirect ≠ 0) :
    (bmap sb d ip n).log =
      [sb.bblock y, y] ++ (bmap sb d₁ (ip.setAddr (Fin.last NDIRECT) y) n).log ∧
    Inodes.bmap sb d ip n = Inodes.bmap sb d₁ (ip.setAddr (Fin.last NDIRECT) y) n := by
  have h1 : ¬ (ip.setAddr (Fin.last NDIRECT) y).addrs (Fin.last NDIRECT) = 0 :=
    fun h1 => hy (DiskInode.indirect_eq_zero.mpr h1)
  have hload : (loadIndirect sb d ip).result = .ok (d₁, ip.setAddr (Fin.last NDIRECT) y) := by
    rw [loadIndirect_result, Inodes.loadIndirect, if_pos h0, hb]
    rfl
  have hlog : (loadIndirect sb d ip).log = [sb.bblock y, y] := by
    rw [loadIndirect, if_pos h0, Trail.log_bind_ok (by rw [balloc_result, hb]), balloc_log hb]
    rfl
  constructor
  · rw [bmap, bmap, dif_neg hd, dif_neg hd, if_pos hj, if_pos hj, Trail.log_bind_ok hload, hlog,
      loadIndirect, if_neg h1, Trail.log_bind_ok (Trail.result_pure _), Trail.log_pure,
      List.nil_append]
  · rw [loadIndirect_result] at hload
    rw [Inodes.bmap, Inodes.bmap, dif_neg hd, dif_neg hd, if_pos hj, if_pos hj, hload,
      Inodes.loadIndirect, if_neg h1, ok_bind]

/-! ## Counting -/

/-- A chunk logs `k` blocks and at most two more: the indirect block and the block of the
free map that has its bit. Where the file has its indirect block, `v`, that is all. -/
def Spent (v k : Nat) (l : List Nat) : Prop :=
  ∃ (T : Finset Nat) (e₁ e₂ : Nat), T.card ≤ k ∧ (v ≠ 0 → e₁ = v ∧ e₂ = v) ∧
    ∀ b ∈ l, b ∈ T ∨ b = e₁ ∨ b = e₂

theorem Spent.nil (v k : Nat) : Spent v k [] := ⟨∅, v, v, Nat.zero_le _, fun _ => ⟨rfl, rfl⟩, nofun⟩

theorem Spent.mono {v k k' : Nat} {l : List Nat} (h : Spent v k l) (hle : k ≤ k') :
    Spent v k' l := by
  obtain ⟨T, e₁, e₂, hT, he⟩ := h
  exact ⟨T, e₁, e₂, Nat.le_trans hT hle, he⟩

/-- One block more. -/
theorem Spent.cons {v k : Nat} {l : List Nat} (h : Spent v k l) (x : Nat) :
    Spent v (k + 1) (x :: l) := by
  obtain ⟨T, e₁, e₂, hT, he, hl⟩ := h
  refine ⟨insert x T, e₁, e₂, Nat.le_trans (Finset.card_insert_le x T) (by omega), he,
    fun b hb => ?_⟩
  rcases List.mem_cons.mp hb with rfl | hb
  · exact Or.inl (Finset.mem_insert_self ..)
  · exact (hl b hb).imp_left Finset.mem_insert_of_mem

theorem Spent.card {v k : Nat} {l : List Nat} (h : Spent v k l) : l.toFinset.card ≤ k + 2 := by
  obtain ⟨T, e₁, e₂, hT, -, hl⟩ := h
  have hsub : l.toFinset ⊆ insert e₁ (insert e₂ T) := by
    intro b hb
    simp only [Finset.mem_insert]
    rcases hl b (List.mem_toFinset.mp hb) with h | h | h
    · exact Or.inr (Or.inr h)
    · exact Or.inl h
    · exact Or.inr (Or.inl h)
  have h1 := Finset.card_insert_le e₁ (insert e₂ T)
  have h2 := Finset.card_insert_le e₂ T
  have h3 := Finset.card_le_card hsub
  omega

/-- One round: the block that is written and the block of the free map with its bit. -/
theorem Spent.round {k : Nat} {rest : List Nat} (hsb : sb.Ordered start) (hm : MetaSet sb start d)
    (hj : n < MAXFILE) (he : Inodes.bmap sb d ip n = .ok (d', ip', x))
    (h : Spent ip'.indirect k rest) :
    Spent ip.indirect (k + 2) ((bmap sb d ip n).log ++ x :: rest) := by
  obtain ⟨T, e₁, e₂, hT, hext, hrest⟩ := h
  have hcard : (insert (sb.bblock x) (insert x T)).card ≤ k + 2 := by
    have h1 := Finset.card_insert_le (sb.bblock x) (insert x T)
    have h2 := Finset.card_insert_le x T
    omega
  -- The blocks of the round are counted in `T'`; what is left are `f₁` and `f₂`.
  have hcount : ∀ f₁ f₂, (ip.indirect ≠ 0 → f₁ = ip.indirect ∧ f₂ = ip.indirect) →
      (∀ b ∈ (bmap sb d ip n).log, b = sb.bblock x ∨ b = x ∨ b = f₁ ∨ b = f₂) →
      (e₁ = f₁ ∨ e₁ = f₂) → (e₂ = f₁ ∨ e₂ = f₂) →
      Spent ip.indirect (k + 2) ((bmap sb d ip n).log ++ x :: rest) := by
    intro f₁ f₂ hf hlog h1 h2
    refine ⟨insert (sb.bblock x) (insert x T), f₁, f₂, hcard, hf, fun b hb => ?_⟩
    simp only [Finset.mem_insert]
    rcases List.mem_append.mp hb with hb | hb
    · rcases hlog b hb with h | h | h
      · exact Or.inl (Or.inl h)
      · exact Or.inl (Or.inr (Or.inl h))
      · exact Or.inr h
    rcases List.mem_cons.mp hb with rfl | hb
    · exact Or.inl (Or.inr (Or.inl rfl))
    · rcases hrest b hb with hb | rfl | rfl
      · exact Or.inl (Or.inr (Or.inr hb))
      · exact Or.inr h1
      · exact Or.inr h2
  by_cases hd : n < NDIRECT
  · obtain ⟨hlog, hsame⟩ := (bmap_direct_log hd).2 _ _ _ he
    rw [hsame] at hext
    exact hcount e₁ e₂ hext (fun b hb => (hlog b hb).imp_right Or.inl) (Or.inl rfl) (Or.inr rfl)
  by_cases hv : ip.indirect = 0
  · have h0 := DiskInode.indirect_eq_zero.mp hv
    have hj' : n - NDIRECT < NINDIRECT := by
      have hj : n < 140 := hj
      show n - 12 < 128
      have hd : ¬ n < 12 := hd
      omega
    rcases balloc_spec hsb hm with ⟨hb, -⟩ | ⟨d₁, y, hb, hy, -⟩
    · rw [Inodes.bmap, dif_neg hd, if_pos hj', Inodes.loadIndirect, if_pos h0, hb] at he
      cases he
    · obtain ⟨hy0, hylt⟩ := hy.pos hsb
      have hyv : (ip.setAddr (Fin.last NDIRECT) y).indirect = y := by
        rw [DiskInode.indirect, setAddr_toNat hylt, if_pos rfl]
      obtain ⟨hlog, hres⟩ := bmap_new_log hd hj' h0 hb (by rw [hyv]; exact hy0)
      rw [hres] at he
      obtain ⟨hlog', rfl⟩ := (bmap_entry_log hd (by rw [hyv]; exact hy0)).2 _ _ _ he
      rw [hyv] at hlog' hext
      obtain ⟨rfl, rfl⟩ := hext hy0
      refine hcount (sb.bblock e₂) e₂ (fun hne => absurd hv hne) (fun b hb => ?_) (Or.inr rfl)
        (Or.inr rfl)
      rw [hlog] at hb
      rcases List.mem_append.mp hb with hb | hb
      · have hnew : b = sb.bblock e₂ ∨ b = e₂ := by simpa using hb
        exact Or.inr (Or.inr hnew)
      · exact (hlog' b hb).imp_right fun h => h.imp_right Or.inr
  · obtain ⟨hlog, rfl⟩ := (bmap_entry_log hd hv).2 _ _ _ he
    obtain ⟨rfl, rfl⟩ := hext hv
    exact hcount _ _ hext (fun b hb => (hlog b hb).imp_right fun h => h.imp_right Or.inl)
      (Or.inl rfl) (Or.inl rfl)

/-- A round that runs out of blocks may have allocated the indirect block. -/
theorem bmap_spent_error {e : Panic} (hsb : sb.Ordered start) (hm : MetaSet sb start d)
    (he : Inodes.bmap sb d ip n = .error e) (k : Nat) :
    Spent ip.indirect k (bmap sb d ip n).log := by
  by_cases hd : n < NDIRECT
  · rw [(bmap_direct_log hd).1 e he]
    exact Spent.nil ..
  by_cases hv : ip.indirect = 0
  · have h0 := DiskInode.indirect_eq_zero.mp hv
    by_cases hj : n - NDIRECT < NINDIRECT
    · rcases balloc_spec hsb hm with ⟨hb, -⟩ | ⟨d₁, y, hb, hy, -⟩
      · have hload : (loadIndirect sb d ip).result = .error .outOfBlocks := by
          rw [loadIndirect_result, Inodes.loadIndirect, if_pos h0, hb]
          rfl
        rw [bmap, dif_neg hd, if_pos hj, Trail.log_bind_error hload, loadIndirect, if_pos h0,
          Trail.log_bind_error (by rw [balloc_result, hb]), balloc_log_error hb]
        exact Spent.nil ..
      · obtain ⟨hy0, hylt⟩ := hy.pos hsb
        have hyv : (ip.setAddr (Fin.last NDIRECT) y).indirect = y := by
          rw [DiskInode.indirect, setAddr_toNat hylt, if_pos rfl]
        obtain ⟨hlog, hres⟩ := bmap_new_log hd hj h0 hb (by rw [hyv]; exact hy0)
        rw [hres] at he
        rw [hlog, (bmap_entry_log hd (by rw [hyv]; exact hy0)).1 e he]
        refine ⟨∅, sb.bblock y, y, Nat.zero_le _, fun hne => absurd hv hne, fun b hb => Or.inr ?_⟩
        simpa using hb
    · rw [bmap, dif_neg hd, if_neg hj]
      exact Spent.nil ..
  · rw [(bmap_entry_log hd hv).1 e he]
    exact Spent.nil ..

theorem writeiLoop_nil (fuel : Nat) (d : Disk) (ip : DiskInode) (off : Nat) :
    (writeiLoop sb fuel d ip off []).log = [] := by
  cases fuel with
  | zero => rfl
  | succ fuel => rfl

/-- The rounds of a write that begins at the start of a block. -/
theorem writeiLoop_spent (hsb : sb.Ordered start) (fuel : Nat) :
    ∀ {k : Nat} {d : Disk} {ip : DiskInode} {sz off : Nat} {src : List UInt8},
      Mid sb start d i ip sz → off ≤ sz → off + src.length ≤ MAXFILE * BSIZE → off % BSIZE = 0 →
      src.length ≤ k * BSIZE → Spent ip.indirect (2 * k) (writeiLoop sb fuel d ip off src).log := by
  induction fuel with
  | zero => exact fun _ _ _ _ _ => Spent.nil ..
  | succ fuel ih =>
      intro k d ip sz off src h hoff hend hal hlen
      by_cases h0 : src = []
      · rw [h0, writeiLoop_nil]
        exact Spent.nil ..
      have hpos : 0 < src.length := List.length_pos_iff.mpr h0
      have hal' : off % 512 = 0 := hal
      have hlen' : src.length ≤ k * 512 := hlen
      have hend' : off + src.length ≤ 71680 := hend
      have hn : off / BSIZE < MAXFILE := by
        show off / 512 < 140
        omega
      rw [writeiLoop, if_neg h0]
      generalize hm : min src.length (BSIZE - off % BSIZE) = m
      have hm' : m = min src.length (512 - off % 512) := hm.symm
      have htake : (src.take m).length = m := List.length_take_of_le (by omega)
      have hdrop : (src.drop m).length = src.length - m := List.length_drop
      have hround := wrote_round hsb h (src.take m) hoff (by omega)
        (by rw [htake]; show off % 512 + m ≤ 512; omega) hn
      rcases hround with ⟨he, -⟩ | ⟨d₁, ip₁, x, he, -, hw⟩
      · rw [Trail.log_bind_error (by rw [bmap_result, he])]
        exact bmap_spent_error hsb h.metaSet he _
      · rw [Trail.log_bind_ok (by rw [bmap_result, he])]
        obtain ⟨k, rfl⟩ : ∃ k', k = k' + 1 := ⟨k - 1, by omega⟩
        refine Spent.round hsb h.metaSet hn he (k := 2 * k) ?_
        by_cases hmore : src.drop m = []
        · rw [hmore, writeiLoop_nil]
          exact Spent.nil ..
        · have hm512 : m = 512 := by
            have := List.length_pos_iff.mpr hmore
            omega
          have hmid := hw.mid
          rw [htake] at hmid
          refine ih hmid (le_max_right _ _) ?_ ?_ ?_
          · show off + m + (src.drop m).length ≤ 71680
            omega
          · show (off + m) % 512 = 0
            omega
          · show (src.drop m).length ≤ k * 512
            omega

/-- The rounds of a chunk. A first block that is not written from its start is one the file
has. -/
theorem chunk_spent (hsb : sb.Ordered start) (h : Mid sb start d i ip sz) (hoff : off ≤ sz)
    (hend : off + src.length ≤ MAXFILE * BSIZE) (hlen : src.length ≤ fwMax) :
    Spent ip.indirect 7 (writeiLoop sb src.length d ip off src).log := by
  have hlen : src.length ≤ 1536 := hlen
  by_cases hal : off % BSIZE = 0
  · exact (writeiLoop_spent hsb _ (k := 3) h hoff hend hal hlen).mono (by decide)
  have hal' : ¬ off % 512 = 0 := hal
  have hend' : off + src.length ≤ 71680 := hend
  by_cases h0 : src = []
  · rw [h0, writeiLoop_nil]
    exact Spent.nil ..
  have hpos : 0 < src.length := List.length_pos_iff.mpr h0
  obtain ⟨fuel, hfuel⟩ : ∃ fuel, src.length = fuel + 1 := ⟨src.length - 1, by omega⟩
  have hn : off / BSIZE < MAXFILE := by
    show off / 512 < 140
    omega
  have hne : ip.ptr d (ptrOf (off / BSIZE)) ≠ 0 := by
    have hspan := (h.tidy.fits.exact _ hn).mpr (show off / 512 * 512 < sz by omega)
    rwa [setNode_same] at hspan
  rw [hfuel, writeiLoop, if_neg h0, Trail.log_bind_ok (by rw [bmap_result, bmap_eq hn hne]),
    bmap_log_present hn hne]
  generalize hm : min src.length (BSIZE - off % BSIZE) = m
  have hm' : m = min src.length (512 - off % 512) := hm.symm
  have htake : (src.take m).length = m := List.length_take_of_le (by omega)
  have hdrop : (src.drop m).length = src.length - m := List.length_drop
  rcases wrote_round hsb h (src.take m) hoff (by omega)
    (by rw [htake]; show off % 512 + m ≤ 512; omega) hn with ⟨he, -⟩ | ⟨d₁, ip₁, x, he, -, hw⟩
  · rw [bmap_eq hn hne] at he
    cases he
  · rw [bmap_eq hn hne] at he
    cases he
    refine Spent.cons ?_ _
    by_cases hmore : src.drop m = []
    · rw [hmore, writeiLoop_nil]
      exact Spent.nil ..
    · have hm512 : m = 512 - off % 512 := by
        have := List.length_pos_iff.mpr hmore
        omega
      have hmid := hw.mid
      rw [htake] at hmid
      refine writeiLoop_spent hsb fuel (k := 3) hmid (le_max_right _ _) ?_ ?_ ?_
      · show off + m + (src.drop m).length ≤ 71680
        omega
      · show (off + m) % 512 = 0
        omega
      · show (src.drop m).length ≤ 3 * 512
        omega

/-- Every chunk `filewrite` writes to a file stays within its reservation, whatever the
geometry of the disk and the place of the chunk. -/
theorem write_chunk_fits (devsw : Nat → Devsw) (hsb : sb.Ordered start) (h : BlockInv sb start d)
    (hi : i < sb.ninodes) (ht : (d.dinode sb i).type = T_FILE) {off : BitVec 32}
    (hoff : off.toNat ≤ (d.dinode sb i).size.toNat) (src : List UInt8) (done : Nat) :
    (writei sb devsw d i (d.dinode sb i) (nextChunk src done) off).log.toFinset.card ≤
      MAXOPBLOCKS := by
  have hlen : (nextChunk src done).length ≤ fwMax := by
    rw [nextChunk, List.length_take]
    exact Nat.le_trans (Nat.min_le_left _ _) (Nat.min_le_right _ _)
  generalize nextChunk src done = chunk at hlen
  have hmid := h.mid i
  rw [table_eq hi (by rw [ht]; decide)] at hmid
  generalize d.dinode sb i = ip at *
  have hlen' : chunk.length ≤ 1536 := hlen
  rw [writei, if_neg (by rw [ht]; decide)]
  split
  · exact Nat.zero_le _
  next hrange =>
  split
  · exact Nat.zero_le _
  next hmax =>
  have hadd : (off + BitVec.ofNat 32 chunk.length).toNat = off.toNat + chunk.length := by
    rw [gt_iff_lt, BitVec.lt_def, BitVec.lt_def, not_or] at hrange
    have hlt := off.isLt
    have h2 := hrange.2
    rw [BitVec.toNat_add, BitVec.toNat_ofNat] at h2 ⊢
    omega
  rw [hadd] at hmax
  have hspent := chunk_spent hsb hmid hoff (Nat.le_of_not_lt hmax) hlen
  cases hres : (writeiLoop sb chunk.length d ip off.toNat chunk).result with
  | error e =>
      rw [Trail.log_bind_error hres]
      exact Nat.le_trans hspent.card (by decide)
  | ok y =>
      rw [Trail.log_bind_ok hres]
      dsimp only
      split
      · show ((writeiLoop sb chunk.length d ip off.toNat chunk).log ++
          [sb.iblock i]).toFinset.card ≤ _
        rw [List.toFinset_append]
        have hone : [sb.iblock i].toFinset.card ≤ 1 := List.toFinset_card_le _
        have hsum := Finset.card_union_le
          (writeiLoop sb chunk.length d ip off.toNat chunk).log.toFinset [sb.iblock i].toFinset
        have hcard := hspent.card
        show _ ≤ 10
        omega
      · rw [Trail.log_pure, List.append_nil]
        exact Nat.le_trans hspent.card (by decide)

/-- A write at the end of a file of one block. -/
theorem write_chunk_fits_tiny :
    (writei (tinySb 6) (fun _ => ⟨none, none⟩) (tinyDisk 6) 1 ((tinyDisk 6).dinode (tinySb 6) 1)
      (nextChunk [1, 2, 3] 1) 512).log.toFinset.card ≤ MAXOPBLOCKS := by
  have hin : (tinyDisk 6).dinode (tinySb 6) 1 = tinyInode :=
    tinyDisk_dinode 6 (by decide) (by decide) (by decide)
  refine write_chunk_fits _ (tinySb_ordered 6 (by decide)) (tinyDisk_blockInv 6 (by decide)
    (by decide)) (by decide) ?_ ?_ [1, 2, 3] 1
  · rw [hin]
    rfl
  · rw [hin]
    decide

end Xv6.Ref.Inodes.Logging
