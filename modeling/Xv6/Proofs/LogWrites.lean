import Xv6.Ref.Log

/-!
# What the log code writes

`commit` and recovery are described here by the block writes they issue, in
order, as functions of what a reader of the cache sees when they start. That
is all a crash argument needs to know about them: a power failure cuts the
list, and everything else is gone.

The cache is what makes this more than reading the loops off. `write_log`
copies what the *cache* holds when `commit` runs, which after absorption is
the last version of each block and not the one some `log_write` was called
with, and those buffers survive until then only because they are pinned.
`view` is the disk as a reader of the cache sees it. The invariant is that a
clean buffer agrees with the disk, so that recycling one is invisible.
-/

namespace Xv6.Ref

/-- What a `bread` of each block returns. -/
def view (s : Sys) : Disk :=
  fun b =>
    match s.cache b with
    | some buf => buf.data
    | none => s.disk b

/-- A clean buffer holds what the disk holds, so recycling it loses nothing. -/
def Coherent (s : Sys) : Prop :=
  ∀ b buf, s.cache b = some buf → buf.dirty = false → buf.data = s.disk b

theorem coherent_boot (rc : Nat → Nat → Bool) (d : Disk) :
    Coherent (boot rc d) := by
  intro b buf h
  cases h

/-- A block written in the cache and noted in the log header. -/
theorem view_logged (s : Sys) (c : Nat) (buf : Buf) (bs : List Nat) :
    view { s with cache := Function.update s.cache c (some buf), block := bs }
      = Function.update (view s) c buf.data := by
  funext b
  by_cases hb : b = c
  · subst hb
    simp only [view, Function.update_self]
  · simp only [view, Function.update_of_ne hb]

theorem view_boot (rc : Nat → Nat → Bool) (d : Disk) : view (boot rc d) = d := rfl

/-! ## Block writes -/

theorem applyWrites_append (d : Disk) (ws vs : List (Nat × Block)) :
    applyWrites d (ws ++ vs) = applyWrites (applyWrites d ws) vs :=
  List.foldl_append

theorem applyWrites_cons (d : Disk) (w : Nat × Block) (ws : List (Nat × Block)) :
    applyWrites d (w :: ws) = applyWrites (Function.update d w.1 w.2) ws := rfl

/-- A block no write is addressed to stays. -/
theorem applyWrites_ne {d : Disk} {ws : List (Nat × Block)} {b : Nat} :
    (∀ w ∈ ws, w.1 ≠ b) → applyWrites d ws b = d b := by
  induction ws generalizing d with
  | nil => intro _; rfl
  | cons w ws ih =>
      intro h
      rw [applyWrites_cons, ih fun v hv => h v (List.mem_cons_of_mem _ hv)]
      exact Function.update_of_ne (h w List.mem_cons_self).symm _ _

/-- Where every write to a block carries the same contents, a block that is
written has these contents. -/
theorem applyWrites_mem {d : Disk} {ws : List (Nat × Block)} {b : Nat} {x : Block}
    (hval : ∀ w ∈ ws, w.1 = b → w.2 = x) :
    (∃ w ∈ ws, w.1 = b) → applyWrites d ws b = x := by
  induction ws generalizing d with
  | nil => rintro ⟨w, hw, _⟩; cases hw
  | cons w ws ih =>
      rintro ⟨v, hv, hvb⟩
      rw [applyWrites_cons]
      have hrest : ∀ w' ∈ ws, w'.1 = b → w'.2 = x :=
        fun w' hw' => hval w' (List.mem_cons_of_mem _ hw')
      by_cases hin : ∃ w' ∈ ws, w'.1 = b
      · exact ih hrest hin
      · have hvw : v = w := by
          rcases List.mem_cons.mp hv with rfl | hv'
          · rfl
          · exact absurd ⟨v, hv', hvb⟩ hin
        subst hvw
        rw [applyWrites_ne fun w' hw' hb => hin ⟨w', hw', hb⟩, ← hvb,
          Function.update_self]
        exact hval v List.mem_cons_self hvb

/-! ## What a piece of code sends

`Sends s ws s'`: between `s` and `s'` the block writes `ws` were issued, and
the disk and the view moved by exactly these. Code that only reads sends
nothing. -/

structure Sends (s : Sys) (ws : List (Nat × Block)) (s' : Sys) : Prop where
  disk : s'.disk = applyWrites s.disk ws
  view : view s' = applyWrites (view s) ws
  sent : s'.sent = s.sent ++ ws
  coh : Coherent s'

theorem Sends.trans {s s₁ s₂ : Sys} {ws vs : List (Nat × Block)}
    (h₁ : Sends s ws s₁) (h₂ : Sends s₁ vs s₂) : Sends s (ws ++ vs) s₂ where
  disk := by rw [h₂.disk, h₁.disk, applyWrites_append]
  view := by rw [h₂.view, h₁.view, applyWrites_append]
  sent := by rw [h₂.sent, h₁.sent, List.append_assoc]
  coh := h₂.coh

theorem bread_fst {s : Sys} {b : Nat} : (bread s b).1 = view s b := by
  unfold bread view
  cases s.cache b with
  | none => rfl
  | some buf => rfl

/-- Recycling clean buffers does not change what a reader sees. -/
theorem view_recycled {s : Sys} (h : Coherent s) (c : Nat) :
    (match recycled s c with
      | some buf => buf.data
      | none => s.disk c) = view s c := by
  unfold recycled view
  cases hc : s.cache c with
  | none => rfl
  | some buf =>
      by_cases hd : buf.dirty = false ∧ s.recycle s.misses c = true
      · simp only [hd, and_self, if_true]
        exact (h c buf hc hd.1).symm
      · simp only [hd, if_false]

theorem recycled_some {s : Sys} {c : Nat} {buf : Buf}
    (h : recycled s c = some buf) : s.cache c = some buf := by
  unfold recycled at h
  split at h
  · cases h
  · next old hold =>
      split at h
      · cases h
      · rw [hold, h]

theorem bread_sends {s : Sys} (h : Coherent s) (b : Nat) :
    Sends s [] (bread s b).2 := by
  unfold bread
  split
  · exact ⟨rfl, rfl, (List.append_nil _).symm, h⟩
  · next hmiss =>
      refine ⟨rfl, ?_, (List.append_nil _).symm, ?_⟩
      · funext c
        show (match Function.update (recycled s) b (some ⟨s.disk b, false⟩) c with
          | some buf => buf.data
          | none => s.disk c) = view s c
        by_cases hc : c = b
        · subst hc
          rw [Function.update_self]
          simp only [view, hmiss]
        · rw [Function.update_of_ne hc]
          exact view_recycled h c
      · intro c buf hbuf hclean
        change Function.update (recycled s) b (some ⟨s.disk b, false⟩) c
          = some buf at hbuf
        by_cases hc : c = b
        · subst hc
          rw [Function.update_self] at hbuf
          cases hbuf
          rfl
        · rw [Function.update_of_ne hc] at hbuf
          exact h c buf (recycled_some hbuf) hclean

theorem bwrite_sends {s : Sys} (h : Coherent s) (b : Nat) (data : Block) :
    Sends s [(b, data)] (bwrite s b data) := by
  refine ⟨rfl, ?_, rfl, ?_⟩
  · funext c
    show (match Function.update s.cache b (some ⟨data, false⟩) c with
      | some buf => buf.data
      | none => Function.update s.disk b data c) = Function.update (view s) b data c
    by_cases hc : c = b
    · subst hc
      simp only [Function.update_self]
    · simp only [Function.update_of_ne hc]
      rfl
  · intro c buf hbuf hclean
    change Function.update s.cache b (some ⟨data, false⟩) c = some buf at hbuf
    show buf.data = Function.update s.disk b data c
    by_cases hc : c = b
    · subst hc
      rw [Function.update_self] at hbuf ⊢
      cases hbuf
      rfl
    · rw [Function.update_of_ne hc] at hbuf ⊢
      exact h c buf hbuf hclean

/-! ## The two copying loops

Both loops copy one block per entry, and neither writes a block it is still
going to read: `write_log` writes log blocks and reads home blocks,
`install_trans` the other way round, and no home block is in the log area. So
what is sent is determined by the view at the start. -/

/-- The writes of a loop that copies each `src` to its `dst`. -/
def copies (v : Disk) (ps : List (Nat × Nat)) : List (Nat × Block) :=
  ps.map fun p => (p.2, v p.1)

theorem copies_congr {v v' : Disk} {ps : List (Nat × Nat)}
    (h : ∀ p ∈ ps, v p.1 = v' p.1) : copies v ps = copies v' ps := by
  unfold copies
  exact List.map_congr_left fun p hp => by rw [h p hp]

/-- Entry `tail` of the log and the ones behind it: the home block and its
log block. -/
def entries (lg : LogDev) : List Nat → Nat → List (Nat × Nat)
  | [], _ => []
  | b :: bs, tail => (b, lg.start + tail + 1) :: entries lg bs (tail + 1)

theorem mem_entries {lg : LogDev} {bs : List Nat} {tail : Nat} {p : Nat × Nat}
    (h : p ∈ entries lg bs tail) :
    p.1 ∈ bs ∧ lg.start + tail < p.2 ∧ p.2 ≤ lg.start + tail + bs.length := by
  induction bs generalizing tail with
  | nil => cases h
  | cons b bs ih =>
      rcases List.mem_cons.mp h with rfl | h'
      · refine ⟨List.mem_cons_self, ?_, ?_⟩
        · show lg.start + tail < lg.start + tail + 1
          omega
        · rw [List.length_cons]
          show lg.start + tail + 1 ≤ _
          omega
      · obtain ⟨h1, h2, h3⟩ := ih h'
        refine ⟨List.mem_cons_of_mem _ h1, by omega, ?_⟩
        rw [List.length_cons]
        omega

theorem exists_entry (lg : LogDev) {bs : List Nat} {b : Nat} (tail : Nat)
    (h : b ∈ bs) : ∃ p ∈ entries lg bs tail, p.1 = b := by
  induction bs generalizing tail with
  | nil => cases h
  | cons x xs ih =>
      rcases List.mem_cons.mp h with rfl | h'
      · exact ⟨_, List.mem_cons_self, rfl⟩
      · obtain ⟨p, hp, hb⟩ := ih (tail + 1) h'
        exact ⟨p, List.mem_cons_of_mem _ hp, hb⟩

/-- Two entries with the same log block are the same entry. -/
theorem entries_inj {lg : LogDev} {bs : List Nat} {tail : Nat} {p q : Nat × Nat}
    (hp : p ∈ entries lg bs tail) (hq : q ∈ entries lg bs tail) (h : p.2 = q.2) :
    p = q := by
  induction bs generalizing tail with
  | nil => cases hp
  | cons b bs ih =>
      rcases List.mem_cons.mp hp with rfl | hp' <;>
        rcases List.mem_cons.mp hq with rfl | hq'
      · rfl
      · have := (mem_entries hq').2.1
        simp only at h
        omega
      · have := (mem_entries hp').2.1
        simp only at h
        omega
      · exact ih hp' hq'

/-- Every listed block lies outside the log, and the list fits the log area
and the header. What `log_write` maintains. -/
structure LogFits (lg : LogDev) (bs : List Nat) : Prop where
  out : ∀ b ∈ bs, ¬ lg.area b
  word : ∀ b ∈ bs, b < 2 ^ 32
  room : bs.length + 1 ≤ lg.size ∨ bs = []
  size : bs.length ≤ LOGSIZE

theorem LogFits.nil (lg : LogDev) : LogFits lg [] where
  out := by simp
  word := by simp
  room := Or.inr rfl
  size := Nat.zero_le _

/-- The log block of an entry is in the log area, its home block is not. -/
theorem LogFits.entry {lg : LogDev} {bs : List Nat} (h : LogFits lg bs)
    {p : Nat × Nat} (hp : p ∈ entries lg bs 0) :
    ¬ lg.area p.1 ∧ lg.area p.2 ∧ lg.start < p.2 := by
  obtain ⟨h1, h2, h3⟩ := mem_entries hp
  refine ⟨h.out _ h1, ?_, by omega⟩
  rcases h.room with hr | rfl
  · exact ⟨by omega, by omega⟩
  · cases h1

theorem writeLogFrom_sends (lg : LogDev) :
    ∀ (bs : List Nat) (tail : Nat) {s : Sys}, Coherent s →
      (∀ p ∈ entries lg bs tail, ∀ q ∈ entries lg bs tail, p.2 ≠ q.1) →
      Sends s (copies (view s) (entries lg bs tail)) (writeLogFrom lg bs tail s) := by
  intro bs
  induction bs with
  | nil =>
      intro tail s hcoh _
      exact ⟨rfl, rfl, (List.append_nil _).symm, hcoh⟩
  | cons b bs ih =>
      intro tail s hcoh hsep
      have h1 := bread_sends hcoh (lg.start + tail + 1)
      have h2 := bread_sends h1.coh b
      have h3 := bwrite_sends h2.coh (lg.start + tail + 1)
        (bread (bread s (lg.start + tail + 1)).2 b).1
      have hsrc : (bread (bread s (lg.start + tail + 1)).2 b).1 = view s b := by
        rw [bread_fst, h1.view]
        rfl
      have h123 := (h1.trans h2).trans h3
      have hrest := ih (tail + 1) h123.coh fun p hp q hq =>
        hsep p (List.mem_cons_of_mem _ hp) q (List.mem_cons_of_mem _ hq)
      -- The block just written is not the home block of a later entry.
      have hlater : copies (view s) (entries lg bs (tail + 1)) =
          copies (view (bwrite (bread (bread s (lg.start + tail + 1)).2 b).2
            (lg.start + tail + 1) (bread (bread s (lg.start + tail + 1)).2 b).1))
            (entries lg bs (tail + 1)) := by
        refine copies_congr fun p hp => ?_
        rw [h123.view]
        refine (applyWrites_ne fun w hw => ?_).symm
        obtain rfl : w = (lg.start + tail + 1,
            (bread (bread s (lg.start + tail + 1)).2 b).1) := by simpa using hw
        exact hsep _ List.mem_cons_self p (List.mem_cons_of_mem _ hp)
      have hall := h123.trans hrest
      rw [← hlater] at hall
      rw [entries, copies, List.map_cons, ← hsrc]
      exact hall

theorem installTransFrom_sends (lg : LogDev) :
    ∀ (bs : List Nat) (tail : Nat) {s : Sys}, Coherent s →
      (∀ p ∈ entries lg bs tail, ∀ q ∈ entries lg bs tail, p.2 ≠ q.1) →
      Sends s (copies (view s) ((entries lg bs tail).map Prod.swap))
        (installTransFrom lg bs tail s) := by
  intro bs
  induction bs with
  | nil =>
      intro tail s hcoh _
      exact ⟨rfl, rfl, (List.append_nil _).symm, hcoh⟩
  | cons b bs ih =>
      intro tail s hcoh hsep
      have h1 := bread_sends hcoh (lg.start + tail + 1)
      have h2 := bread_sends h1.coh b
      have h3 := bwrite_sends h2.coh b (bread s (lg.start + tail + 1)).1
      have h123 := (h1.trans h2).trans h3
      have hrest := ih (tail + 1) h123.coh fun p hp q hq =>
        hsep p (List.mem_cons_of_mem _ hp) q (List.mem_cons_of_mem _ hq)
      -- The home block just written is not a log block still to be read.
      have hlater : copies (view s) ((entries lg bs (tail + 1)).map Prod.swap) =
          copies (view (bwrite (bread (bread s (lg.start + tail + 1)).2 b).2 b
            (bread s (lg.start + tail + 1)).1))
            ((entries lg bs (tail + 1)).map Prod.swap) := by
        refine copies_congr fun p hp => ?_
        obtain ⟨q, hq, rfl⟩ := List.mem_map.mp hp
        rw [h123.view]
        refine (applyWrites_ne fun w hw => ?_).symm
        obtain rfl : w = (b, (bread s (lg.start + tail + 1)).1) := by simpa using hw
        exact (hsep q (List.mem_cons_of_mem _ hq) _ List.mem_cons_self).symm
      have hall := h123.trans hrest
      rw [← hlater] at hall
      rw [entries, List.map_cons, copies, List.map_cons]
      show Sends s ((b, view s (lg.start + tail + 1)) :: _) _
      rw [← bread_fst]
      exact hall

/-! ## The header block read back -/

theorem word_putBlocks_le {hb : Block} {bs : List Nat} {i j : Nat} (h : j ≤ i) :
    (putBlocks hb i bs).word j = hb.word j := by
  induction bs generalizing hb i with
  | nil => rfl
  | cons b bs ih =>
      rw [putBlocks, ih (by omega), Block.word_setWord_ne (by omega)]

theorem word_putBlocks (hb : Block) {bs : List Nat} (i : Nat)
    (hroom : 4 * (i + bs.length) + 3 < BSIZE) (hw : ∀ b ∈ bs, b < 2 ^ 32) :
    ∀ (k : Nat) (hk : k < bs.length),
      (putBlocks hb i bs).word (i + k + 1) = bs[k] := by
  induction bs generalizing hb i with
  | nil => intro k hk; cases hk
  | cons b bs ih =>
      intro k hk
      rw [List.length_cons] at hroom hk
      rw [putBlocks]
      cases k with
      | zero =>
          rw [word_putBlocks_le (by omega)]
          exact Block.word_setWord_same (by omega) (hw b List.mem_cons_self)
      | succ k =>
          have := ih (hb.setWord (i + 1) b) (i + 1) (by omega)
            (fun c hc => hw c (List.mem_cons_of_mem _ hc)) k (by omega)
          rw [show i + (k + 1) + 1 = i + 1 + k + 1 by omega, this]
          rfl

theorem word_putHead {lg : LogDev} {hb : Block} {bs : List Nat}
    (h : LogFits lg bs) : (putHead hb bs).word 0 = bs.length := by
  have hsize : bs.length ≤ 30 := h.size
  rw [putHead, word_putBlocks_le (Nat.le_refl _)]
  exact Block.word_setWord_same (by decide) (by omega)

/-- What `write_head` wrote, `read_head` finds. -/
theorem getHead_putHead {lg : LogDev} {hb : Block} {bs : List Nat}
    (h : LogFits lg bs) : getHead (putHead hb bs) = bs := by
  have hsize : bs.length ≤ 30 := h.size
  unfold getHead
  rw [word_putHead h]
  refine List.ext_getElem (by simp) fun k h1 h2 => ?_
  rw [List.getElem_map, List.getElem_range]
  have := word_putBlocks (hb.setWord 0 bs.length) 0
    (by show 4 * (0 + bs.length) + 3 < 512; omega) h.word k h2
  rw [Nat.zero_add] at this
  exact this

theorem getHead_zero {hb : Block} (h : hb.word 0 = 0) : getHead hb = [] := by
  unfold getHead
  rw [h]
  rfl

/-- Clearing a header that is clear rewrites the block it was. -/
theorem putHead_nil {hb : Block} (h : hb.word 0 = 0) : putHead hb [] = hb :=
  Block.setWord_self h

theorem word_putHead_nil (hb : Block) : (putHead hb []).word 0 = 0 :=
  Block.word_setWord_same (by decide) (by decide)

/-! ## What `commit` and recovery send -/

@[simp] theorem bread_block (s : Sys) (b : Nat) : (bread s b).2.block = s.block := by
  unfold bread
  split <;> rfl

@[simp] theorem bwrite_block (s : Sys) (b : Nat) (x : Block) :
    (bwrite s b x).block = s.block := rfl

@[simp] theorem writeLogFrom_block (lg : LogDev) :
    ∀ (bs : List Nat) (tail : Nat) (s : Sys),
      (writeLogFrom lg bs tail s).block = s.block := by
  intro bs
  induction bs with
  | nil => intro tail s; rfl
  | cons b bs ih =>
      intro tail s
      rw [writeLogFrom, ih, bwrite_block, bread_block, bread_block]

@[simp] theorem writeHead_block (lg : LogDev) (s : Sys) :
    (writeHead lg s).block = s.block := by
  rw [writeHead, bwrite_block, bread_block]

theorem writeHead_sends (lg : LogDev) {s : Sys} (h : Coherent s) :
    Sends s [(lg.start, putHead (view s lg.start) s.block)] (writeHead lg s) := by
  have h1 := bread_sends h lg.start
  have h2 := bwrite_sends h1.coh lg.start
    (putHead (bread s lg.start).1 (bread s lg.start).2.block)
  have h12 := h1.trans h2
  rw [bread_fst, bread_block] at h12
  show Sends s _ (bwrite (bread s lg.start).2 lg.start
    (putHead (bread s lg.start).1 (bread s lg.start).2.block))
  rw [bread_fst, bread_block]
  exact h12

/-- Taking the list of logged blocks away, or putting one there, moves
nothing. -/
theorem sends_setBlock {s : Sys} (h : Coherent s) (bs : List Nat) :
    Sends s [] { s with block := bs } :=
  ⟨rfl, rfl, (List.append_nil _).symm, h⟩

/-- Each entry's contents, addressed to its home block. -/
def homeWrites (v : Disk) (ps : List (Nat × Nat)) : List (Nat × Block) :=
  ps.map fun p => (p.1, v p.1)

theorem LogFits.separate {lg : LogDev} {bs : List Nat} (h : LogFits lg bs) :
    ∀ p ∈ entries lg bs 0, ∀ q ∈ entries lg bs 0, p.2 ≠ q.1 := by
  intro p hp q hq he
  exact (h.entry hq).1 (he ▸ (h.entry hp).2.1)

theorem mem_copies {v : Disk} {ps : List (Nat × Nat)} {w : Nat × Block} :
    w ∈ copies v ps ↔ ∃ p ∈ ps, w = (p.2, v p.1) := by
  unfold copies
  rw [List.mem_map]
  exact ⟨fun ⟨p, hp, h⟩ => ⟨p, hp, h.symm⟩, fun ⟨p, hp, h⟩ => ⟨p, hp, h.symm⟩⟩

theorem mem_homeWrites {v : Disk} {ps : List (Nat × Nat)} {w : Nat × Block} :
    w ∈ homeWrites v ps ↔ ∃ p ∈ ps, w = (p.1, v p.1) := by
  unfold homeWrites
  rw [List.mem_map]
  exact ⟨fun ⟨p, hp, h⟩ => ⟨p, hp, h.symm⟩, fun ⟨p, hp, h⟩ => ⟨p, hp, h.symm⟩⟩

/-- After the log blocks are written each holds its entry's contents. -/
theorem applyWrites_copies {lg : LogDev} {bs : List Nat} {d v : Disk}
    {p : Nat × Nat} (hp : p ∈ entries lg bs 0) :
    applyWrites d (copies v (entries lg bs 0)) p.2 = v p.1 := by
  refine applyWrites_mem (fun w hw hb => ?_) ⟨(p.2, v p.1), mem_copies.mpr ⟨p, hp, rfl⟩, rfl⟩
  obtain ⟨q, hq, rfl⟩ := mem_copies.mp hw
  rw [entries_inj hq hp hb]

/-- The writes of a `commit`: log blocks, the header that commits, home
blocks, the header cleared. -/
def commitWrites (lg : LogDev) (v : Disk) (bs : List Nat) : List (Nat × Block) :=
  copies v (entries lg bs 0) ++
    (lg.start, putHead (v lg.start) bs) ::
      (homeWrites v (entries lg bs 0) ++
        [(lg.start, putHead (putHead (v lg.start) bs) [])])

theorem commit_sends {lg : LogDev} {s : Sys} (hcoh : Coherent s)
    (hfits : LogFits lg s.block) (hne : s.block ≠ []) :
    Sends s (commitWrites lg (view s) s.block) (commit lg s) ∧
      (commit lg s).block = [] := by
  have hpos : s.block.length > 0 := List.length_pos_of_ne_nil hne
  have h1 : Sends s _ (writeLog lg s) := writeLogFrom_sends lg _ 0 hcoh hfits.separate
  have hb1 : (writeLog lg s).block = s.block := writeLogFrom_block lg _ _ _
  have h2 := writeHead_sends lg h1.coh
  have hb2 : (writeHead lg (writeLog lg s)).block = s.block := by
    rw [writeHead_block, hb1]
  have h3 : Sends _ _ (installTrans lg (writeHead lg (writeLog lg s))) :=
    installTransFrom_sends lg (writeHead lg (writeLog lg s)).block 0 h2.coh
      (by rw [hb2]; exact hfits.separate)
  have h4 := sends_setBlock h3.coh []
  have h5 := writeHead_sends lg h4.coh
  -- The header is not a log block and not a home block of the transaction.
  have hstart : ∀ w ∈ copies (view s) (entries lg s.block 0), w.1 ≠ lg.start := by
    intro w hw
    obtain ⟨p, hp, rfl⟩ := mem_copies.mp hw
    have := (hfits.entry hp).2.2
    show p.2 ≠ lg.start
    omega
  have hv1 : view (writeLog lg s) lg.start = view s lg.start := by
    rw [h1.view]
    exact applyWrites_ne hstart
  have hv2 : ∀ p ∈ entries lg s.block 0,
      view (writeHead lg (writeLog lg s)) p.2 = view s p.1 := by
    intro p hp
    rw [h2.view, applyWrites_ne, h1.view]
    · exact applyWrites_copies hp
    · intro w hw
      obtain rfl := List.mem_singleton.mp hw
      have := (hfits.entry hp).2.2
      show lg.start ≠ p.2
      omega
  have hhome : copies (view (writeHead lg (writeLog lg s)))
      ((entries lg s.block 0).map Prod.swap) =
      homeWrites (view s) (entries lg s.block 0) := by
    unfold copies homeWrites
    rw [List.map_map]
    refine List.map_congr_left fun p hp => ?_
    show (p.1, view (writeHead lg (writeLog lg s)) p.2) = (p.1, view s p.1)
    rw [hv2 p hp]
  have hv3 : view (installTrans lg (writeHead lg (writeLog lg s))) lg.start =
      putHead (view s lg.start) s.block := by
    rw [h3.view, applyWrites_ne, h2.view, hb1, hv1]
    · exact Function.update_self _ _ _
    · rw [hb2, hhome]
      intro w hw
      obtain ⟨p, hp, rfl⟩ := mem_homeWrites.mp hw
      intro he
      have hst : lg.area lg.start := ⟨Nat.le_refl _, by
        have := (hfits.entry hp).2.1.2
        have := (hfits.entry hp).2.2
        omega⟩
      exact (hfits.entry hp).1 (by rw [show p.1 = lg.start from he]; exact hst)
  have hall := (((h1.trans h2).trans h3).trans h4).trans h5
  rw [hb1, hv1, hb2, hhome] at hall
  have hv4 : view { installTrans lg (writeHead lg (writeLog lg s)) with block := [] }
      lg.start = putHead (view s lg.start) s.block := hv3
  rw [hv4] at hall
  simp only [List.append_assoc, List.append_nil, List.cons_append] at hall
  rw [commit, if_pos hpos]
  exact ⟨hall, writeHead_block _ _⟩

theorem recoverFromLog_sends (lg : LogDev) {s : Sys} (hcoh : Coherent s)
    (hfits : LogFits lg (getHead (view s lg.start)))
    (hlog : ∀ p ∈ entries lg (getHead (view s lg.start)) 0,
      p.1 ≠ lg.start) :
    Sends s
      (copies (view s)
          ((entries lg (getHead (view s lg.start)) 0).map Prod.swap) ++
        [(lg.start, putHead (view s lg.start) [])])
      (recoverFromLog lg s) ∧ (recoverFromLog lg s).block = [] := by
  have h1 : Sends s [] (readHead lg s) :=
    (bread_sends hcoh lg.start).trans (sends_setBlock (bread_sends hcoh lg.start).coh _)
  have hb1 : (readHead lg s).block = getHead (view s lg.start) := by
    rw [readHead, ← bread_fst]
  have h2 : Sends _ _ (installTrans lg (readHead lg s)) :=
    installTransFrom_sends lg (readHead lg s).block 0 h1.coh
      (by rw [hb1]; exact hfits.separate)
  have h3 := sends_setBlock h2.coh []
  have h4 := writeHead_sends lg h3.coh
  have hv1 : view (readHead lg s) = view s := h1.view
  have hv2 : view { installTrans lg (readHead lg s) with block := [] } lg.start =
      view s lg.start := by
    show view (installTrans lg (readHead lg s)) lg.start = _
    rw [h2.view, hv1, hb1]
    refine applyWrites_ne fun w hw => ?_
    obtain ⟨p, hp, rfl⟩ := mem_copies.mp hw
    obtain ⟨q, hq, rfl⟩ := List.mem_map.mp hp
    exact hlog q hq
  have hall := ((h1.trans h2).trans h3).trans h4
  rw [hv2, hb1, hv1] at hall
  simp only [List.append_nil, List.nil_append] at hall
  exact ⟨hall, writeHead_block _ _⟩

end Xv6.Ref
