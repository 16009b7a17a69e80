import Xv6.Proofs.LogWrites

/-!
# The log makes a group transaction atomic

`commit` issues `2n + 2` block writes and the power can fail between any two
of them; recovery issues more and can be cut short again and again. The
argument is the usual one for a redo log, with the header block as the switch.
While it reads zero the log blocks may hold anything and the home blocks are
the old ones (`Clear`). Once it lists the transaction the log blocks hold the
new contents and the home blocks of the transaction no longer matter
(`Logged`); the last write turns it back when every home block has its new
contents.

Recovery is the second half of `commit` again, so one lemma about the home
writes followed by a cleared header, `recoverable_install`, serves both. The
run lemma `play_inv` then carries the invariant through any history of
transactions, power failures and recoveries.
-/

namespace Xv6.Ref

/-- The committed state: the disk's non-log blocks after the modifications of
a group, each made on the block as the ones before left it. -/
def applyMods (A : Disk) (ms : List Mod) : Disk :=
  ms.foldl (fun A m => Function.update A m.1 (m.2 (A m.1))) A

/-- A write to the header block is among the block writes. The first of these
a `commit` issues is the `write_head` that commits. -/
def headReached (lg : LogDev) (ws : List (Nat × Block)) : Bool :=
  ws.any fun w => w.1 == lg.start

/-- The state after exactly the transactions whose committing `write_head`
reached the disk. -/
def committed (lg : LogDev) : Machine → Disk → Event → Disk
  | .up s, A, .group ms =>
      match modifyAll lg s ms with
      | none => A
      | some s' =>
          if headReached lg (writesOf (commit lg) s') then applyMods A ms else A
  | .up s, A, .groupCut ms k =>
      match modifyAll lg s ms with
      | none => A
      | some s' =>
          if headReached lg ((writesOf (commit lg) s').take k) then applyMods A ms
          else A
  | _, A, _ => A

def committedAll (lg : LogDev) : Machine → Disk → List Event → Disk
  | _, A, [] => A
  | m, A, ev :: evs => committedAll lg (play lg m ev) (committed lg m A ev) evs

/-- The blocks an event's group transaction modifies lie outside the log. A
block number is a `uint`. -/
def Event.outside (lg : LogDev) : Event → Prop
  | .group ms | .groupCut ms _ => ∀ m ∈ ms, m.1 < 2 ^ 32 ∧ ¬ lg.area m.1
  | _ => True

/-! ## What a disk looks like when the power is off -/

/-- Nothing is committed that is not installed. -/
structure Clear (lg : LogDev) (A d : Disk) : Prop where
  head : (d lg.start).word 0 = 0
  home : ∀ b, ¬ lg.area b → d b = A b

/-- The blocks `bs` are committed and may or may not be installed. -/
structure Logged (lg : LogDev) (A : Disk) (bs : List Nat) (d : Disk) : Prop where
  fits : LogFits lg bs
  ne : bs ≠ []
  head : getHead (d lg.start) = bs
  logs : ∀ p ∈ entries lg bs 0, d p.2 = A p.1
  home : ∀ b, ¬ lg.area b → b ∉ bs → d b = A b

/-- A recovery that runs to its end will produce `A`. -/
def Recoverable (lg : LogDev) (A d : Disk) : Prop :=
  Clear lg A d ∨ ∃ bs, Logged lg A bs d

theorem Logged.start_area {lg : LogDev} {A d : Disk} {bs : List Nat}
    (h : Logged lg A bs d) : lg.area lg.start := by
  refine ⟨Nat.le_refl _, ?_⟩
  rcases h.fits.room with hr | hr
  · omega
  · exact absurd hr h.ne

theorem Logged.home_ne_start {lg : LogDev} {A d : Disk} {bs : List Nat}
    (h : Logged lg A bs d) {b : Nat} (hb : b ∈ bs) : b ≠ lg.start := by
  intro he
  exact h.fits.out b hb (he ▸ h.start_area)

/-- Installing any of the committed blocks keeps the log what it was. -/
theorem Logged.install {lg : LogDev} {A d : Disk} {bs : List Nat}
    (h : Logged lg A bs d) {ws : List (Nat × Block)}
    (hws : ∀ w ∈ ws, ∃ p ∈ entries lg bs 0, w = (p.1, A p.1)) :
    Logged lg A bs (applyWrites d ws) := by
  have hmem : ∀ w ∈ ws, w.1 ∈ bs := by
    intro w hw
    obtain ⟨p, hp, rfl⟩ := hws w hw
    exact (mem_entries hp).1
  refine ⟨h.fits, h.ne, ?_, ?_, ?_⟩
  · rw [applyWrites_ne fun w hw => h.home_ne_start (hmem w hw)]
    exact h.head
  · intro p hp
    rw [applyWrites_ne, h.logs p hp]
    intro w hw he
    exact h.fits.out _ (hmem w hw) (he ▸ (h.fits.entry hp).2.1)
  · intro b hb hnot
    rw [applyWrites_ne, h.home b hb hnot]
    intro w hw he
    exact hnot (he ▸ hmem w hw)

/-- Once every committed block is installed, clearing the header loses
nothing. -/
theorem Logged.clear {lg : LogDev} {A d : Disk} {bs : List Nat}
    (h : Logged lg A bs d) (hin : ∀ b ∈ bs, d b = A b) {z : Block}
    (hz : z.word 0 = 0) : Clear lg A (applyWrites d [(lg.start, z)]) := by
  refine ⟨?_, ?_⟩
  · rw [show applyWrites d [(lg.start, z)] lg.start = z from
      Function.update_self _ _ _]
    exact hz
  · intro b hb
    have hne : b ≠ lg.start := fun he => hb (he ▸ h.start_area)
    rw [show applyWrites d [(lg.start, z)] b = d b from
      Function.update_of_ne hne _ _]
    by_cases hmem : b ∈ bs
    · exact hin b hmem
    · exact h.home b hb hmem

theorem applyWrites_homeWrites {lg : LogDev} {A d : Disk} {bs : List Nat} {b : Nat}
    (hb : b ∈ bs) : applyWrites d (homeWrites A (entries lg bs 0)) b = A b := by
  obtain ⟨p, hp, rfl⟩ := exists_entry lg 0 hb
  refine applyWrites_mem (fun w hw he => ?_)
    ⟨(p.1, A p.1), mem_homeWrites.mpr ⟨p, hp, rfl⟩, rfl⟩
  obtain ⟨q, hq, rfl⟩ := mem_homeWrites.mp hw
  exact congrArg A he

/-- The half that `commit` and recovery share: home blocks, then the cleared
header. All of it reaches the committed state, and no prefix of it is beyond
recovery. -/
theorem Logged.all {lg : LogDev} {A d : Disk} {bs : List Nat}
    (h : Logged lg A bs d) {z : Block} (hz : z.word 0 = 0) :
    Clear lg A
      (applyWrites d (homeWrites A (entries lg bs 0) ++ [(lg.start, z)])) := by
  rw [applyWrites_append]
  refine (h.install fun w hw => mem_homeWrites.mp hw).clear (fun b hb => ?_) hz
  exact applyWrites_homeWrites hb

theorem recoverable_install {lg : LogDev} {A d : Disk} {bs : List Nat}
    (h : Logged lg A bs d) {z : Block} (hz : z.word 0 = 0) (k : Nat) :
    Recoverable lg A (applyWrites d
      ((homeWrites A (entries lg bs 0) ++ [(lg.start, z)]).take k)) := by
  rcases Nat.lt_or_ge (homeWrites A (entries lg bs 0)).length k with hk | hk
  · rw [List.take_of_length_le (by rw [List.length_append]; exact hk)]
    exact Or.inl (h.all hz)
  · rw [List.take_append_of_le_length hk]
    exact Or.inr ⟨bs, h.install fun w hw =>
      mem_homeWrites.mp (List.mem_of_mem_take hw)⟩

/-! ## Recovery -/

/-- Recovery of a disk with nothing to install rewrites the header as it
was. -/
theorem recover_clear {lg : LogDev} {A d : Disk} (h : Clear lg A d)
    (rc : Nat → Nat → Bool) :
    Sends (boot rc d) [(lg.start, d lg.start)] (recoverFromLog lg (boot rc d)) ∧
      (recoverFromLog lg (boot rc d)).block = [] := by
  have hnil : getHead (view (boot rc d) lg.start) = [] := getHead_zero h.head
  have := recoverFromLog_sends lg (coherent_boot rc d)
    (by rw [hnil]; exact LogFits.nil lg) (by rw [hnil]; intro p hp; cases hp)
  rw [hnil, view_boot, putHead_nil h.head] at this
  exact this

theorem applyWrites_same (d : Disk) (b : Nat) : applyWrites d [(b, d b)] = d :=
  Function.update_eq_self b d

/-- Recovery of a disk with a committed transaction installs it. -/
theorem recover_logged {lg : LogDev} {A d : Disk} {bs : List Nat}
    (h : Logged lg A bs d) (rc : Nat → Nat → Bool) :
    Sends (boot rc d)
        (homeWrites A (entries lg bs 0) ++ [(lg.start, putHead (d lg.start) [])])
        (recoverFromLog lg (boot rc d)) ∧
      (recoverFromLog lg (boot rc d)).block = [] := by
  have hbs : getHead (view (boot rc d) lg.start) = bs := h.head
  have := recoverFromLog_sends lg (coherent_boot rc d)
    (by rw [hbs]; exact h.fits)
    (by rw [hbs]; intro p hp; exact h.home_ne_start (mem_entries hp).1)
  have hhome : copies d ((entries lg bs 0).map Prod.swap) =
      homeWrites A (entries lg bs 0) := by
    unfold copies homeWrites
    rw [List.map_map]
    refine List.map_congr_left fun p hp => ?_
    show (p.1, d p.2) = (p.1, A p.1)
    rw [h.logs p hp]
  rw [hbs, view_boot, hhome] at this
  exact this

theorem writesOf_eq {f : Sys → Sys} {s : Sys} {ws : List (Nat × Block)}
    (h : Sends s ws (f s)) : writesOf f s = ws := by
  rw [writesOf, h.sent, List.drop_left]

/-- A recovery cut anywhere leaves the same state to be recovered. -/
theorem recover_cut {lg : LogDev} {A d : Disk} (h : Recoverable lg A d)
    (rc : Nat → Nat → Bool) (k : Nat) :
    Recoverable lg A (cutAfter (recoverFromLog lg) (boot rc d) k) := by
  rcases h with h | ⟨bs, h⟩
  · rw [cutAfter, writesOf_eq (recover_clear h rc).1]
    cases k with
    | zero => exact Or.inl h
    | succ k =>
        rw [List.take_succ_cons, List.take_nil]
        show Recoverable lg A (applyWrites d [(lg.start, d lg.start)])
        rw [applyWrites_same]
        exact Or.inl h
  · rw [cutAfter, writesOf_eq (recover_logged h rc).1]
    exact recoverable_install h (word_putHead_nil _) k

/-- A recovery that runs to its end leaves the committed state, nothing in
the log, and a cache that agrees with it. -/
theorem recover_full {lg : LogDev} {A d : Disk} (h : Recoverable lg A d)
    (rc : Nat → Nat → Bool) :
    Clear lg A (recoverFromLog lg (boot rc d)).disk ∧
      view (recoverFromLog lg (boot rc d)) = (recoverFromLog lg (boot rc d)).disk ∧
      Coherent (recoverFromLog lg (boot rc d)) ∧
      (recoverFromLog lg (boot rc d)).block = [] := by
  rcases h with h | ⟨bs, h⟩
  · obtain ⟨hs, hb⟩ := recover_clear h rc
    refine ⟨?_, by rw [hs.view, hs.disk]; rfl, hs.coh, hb⟩
    rw [hs.disk]
    show Clear lg A (applyWrites d [(lg.start, d lg.start)])
    rw [applyWrites_same]
    exact h
  · obtain ⟨hs, hb⟩ := recover_logged h rc
    refine ⟨?_, by rw [hs.view, hs.disk]; rfl, hs.coh, hb⟩
    rw [hs.disk]
    exact h.all (word_putHead_nil _)

/-! ## A group transaction

`Open lg A₀ A s`: a group is being put together in `s`. The disk still is the
state `A₀` before it, a reader of the cache sees the state `A` after it, and
the two differ only in the blocks the log lists. -/

structure Open (lg : LogDev) (A₀ A : Disk) (s : Sys) : Prop where
  coh : Coherent s
  fits : LogFits lg s.block
  clear : Clear lg A₀ s.disk
  seen : ∀ b, ¬ lg.area b → view s b = A b
  diff : ∀ b, ¬ lg.area b → b ∉ s.block → A b = A₀ b

theorem mem_absorb {bs : List Nat} {b c : Nat} :
    c ∈ absorb bs b ↔ c ∈ bs ∨ c = b := by
  induction bs with
  | nil => simp [absorb]
  | cons x xs ih =>
      rw [absorb]
      split
      · next h =>
          subst h
          rw [List.mem_cons]
          tauto
      · rw [List.mem_cons, ih, List.mem_cons]
        tauto

theorem length_absorb_le (bs : List Nat) (b : Nat) :
    (absorb bs b).length ≤ bs.length + 1 := by
  induction bs with
  | nil => exact Nat.le_refl _
  | cons x xs ih =>
      rw [absorb]
      split
      · rw [List.length_cons, List.length_cons]
        omega
      · rw [List.length_cons, List.length_cons]
        omega

theorem LogFits.absorb {lg : LogDev} {bs : List Nat} {b : Nat} (h : LogFits lg bs)
    (hbig : ¬ tooBig lg bs) (hb : ¬ lg.area b) (hw : b < 2 ^ 32) :
    LogFits lg (absorb bs b) := by
  have hlen := length_absorb_le bs b
  unfold tooBig at hbig
  refine ⟨?_, ?_, Or.inl (by omega), by omega⟩
  · intro c hc
    rcases mem_absorb.mp hc with hc | rfl
    · exact h.out c hc
    · exact hb
  · intro c hc
    rcases mem_absorb.mp hc with hc | rfl
    · exact h.word c hc
    · exact hw

theorem modify_open {lg : LogDev} {A₀ A : Disk} {s s' : Sys} {m : Mod}
    (h : Open lg A₀ A s) (hm : m.1 < 2 ^ 32 ∧ ¬ lg.area m.1)
    (hs : modify lg s m = some s') :
    Open lg A₀ (Function.update A m.1 (m.2 (A m.1))) s' := by
  have hr := bread_sends h.coh m.1
  simp only [modify, logWrite, bread_block] at hs
  split at hs
  · cases hs
  · next hbig =>
      rw [bread_fst, h.seen _ hm.2] at hs
      obtain rfl := Option.some.inj hs
      have hdisk : (bread s m.1).2.disk = s.disk := hr.disk
      have hview : view (bread s m.1).2 = view s := hr.view
      refine ⟨?_, h.fits.absorb hbig hm.2 hm.1, ?_, ?_, ?_⟩
      · intro b buf hbuf hclean
        change Function.update (bread s m.1).2.cache m.1 _ b = some buf at hbuf
        by_cases hb : b = m.1
        · subst hb
          rw [Function.update_self] at hbuf
          cases hbuf
          cases hclean
        · rw [Function.update_of_ne hb] at hbuf
          exact hr.coh b buf hbuf hclean
      · show Clear lg A₀ (bread s m.1).2.disk
        rw [hdisk]
        exact h.clear
      · intro b hb
        rw [view_logged (bread s m.1).2, hview]
        by_cases hbm : b = m.1
        · subst hbm
          rw [Function.update_self, Function.update_self]
        · rw [Function.update_of_ne hbm, Function.update_of_ne hbm]
          exact h.seen b hb
      · intro b hb hnot
        have hnot' : b ∉ s.block ∧ b ≠ m.1 := by
          constructor <;> intro hc <;> exact hnot (mem_absorb.mpr (by tauto))
        rw [Function.update_of_ne hnot'.2]
        exact h.diff b hb hnot'.1

theorem modifyAll_open {lg : LogDev} {A₀ : Disk} :
    ∀ {ms : List Mod} {A : Disk} {s s' : Sys}, Open lg A₀ A s →
      (∀ m ∈ ms, m.1 < 2 ^ 32 ∧ ¬ lg.area m.1) → modifyAll lg s ms = some s' →
      Open lg A₀ (applyMods A ms) s' := by
  intro ms
  induction ms with
  | nil =>
      intro A s s' h _ hs
      obtain rfl := Option.some.inj hs
      exact h
  | cons m ms ih =>
      intro A s s' h hms hs
      rw [modifyAll] at hs
      split at hs
      · cases hs
      · next s₁ hs₁ =>
          exact ih (modify_open h (hms m List.mem_cons_self) hs₁)
            (fun m' hm' => hms m' (List.mem_cons_of_mem _ hm')) hs

/-! ## `commit`, whole and cut -/

/-- Writes into the log blocks leave the state before the transaction. -/
theorem Open.logging {lg : LogDev} {A₀ A : Disk} {s : Sys} (h : Open lg A₀ A s)
    {ws : List (Nat × Block)}
    (hws : ∀ w ∈ ws, w ∈ copies (view s) (entries lg s.block 0)) :
    Clear lg A₀ (applyWrites s.disk ws) := by
  have hlog : ∀ w ∈ ws, lg.area w.1 ∧ lg.start < w.1 := by
    intro w hw
    obtain ⟨p, hp, rfl⟩ := mem_copies.mp (hws w hw)
    exact (h.fits.entry hp).2
  refine ⟨?_, ?_⟩
  · rw [applyWrites_ne fun w hw => ?_]
    · exact h.clear.head
    · have := (hlog w hw).2
      omega
  · intro b hb
    rw [applyWrites_ne fun w hw => ?_]
    · exact h.clear.home b hb
    · intro he
      exact hb (he ▸ (hlog w hw).1)

/-- The committing `write_head`: from here on the disk recovers to the new
state. -/
theorem Open.logged {lg : LogDev} {A₀ A : Disk} {s : Sys} (h : Open lg A₀ A s)
    (hne : s.block ≠ []) :
    Logged lg A s.block (applyWrites s.disk (copies (view s) (entries lg s.block 0) ++
      [(lg.start, putHead (view s lg.start) s.block)])) := by
  have hstart : ∀ p ∈ entries lg s.block 0, p.2 ≠ lg.start := by
    intro p hp
    have := (h.fits.entry hp).2.2
    omega
  have harea : lg.area lg.start := by
    refine ⟨Nat.le_refl _, ?_⟩
    rcases h.fits.room with hr | hr
    · omega
    · exact absurd hr hne
  rw [applyWrites_append]
  refine ⟨h.fits, hne, ?_, ?_, ?_⟩
  · rw [show applyWrites _ [(lg.start, putHead (view s lg.start) s.block)] lg.start =
      putHead (view s lg.start) s.block from Function.update_self _ _ _]
    exact getHead_putHead h.fits
  · intro p hp
    rw [show applyWrites _ [(lg.start, putHead (view s lg.start) s.block)] p.2 = _ from
      Function.update_of_ne (hstart p hp) _ _, applyWrites_copies hp]
    exact h.seen _ (h.fits.entry hp).1
  · intro b hb hnot
    have hne' : b ≠ lg.start := fun he => hb (he ▸ harea)
    rw [show applyWrites _ [(lg.start, putHead (view s lg.start) s.block)] b = _ from
      Function.update_of_ne hne' _ _, applyWrites_ne, h.diff b hb hnot]
    · exact h.clear.home b hb
    · intro w hw he
      obtain ⟨p, hp, rfl⟩ := mem_copies.mp hw
      exact hb (he ▸ (h.fits.entry hp).2.1)

/-- `commit`'s writes seen from the state it commits. -/
theorem Open.commitWrites {lg : LogDev} {A₀ A : Disk} {s : Sys}
    (h : Open lg A₀ A s) :
    commitWrites lg (view s) s.block =
      (copies (view s) (entries lg s.block 0) ++
        [(lg.start, putHead (view s lg.start) s.block)]) ++
      (homeWrites A (entries lg s.block 0) ++
        [(lg.start, putHead (putHead (view s lg.start) s.block) [])]) := by
  have hhome : homeWrites (view s) (entries lg s.block 0) =
      homeWrites A (entries lg s.block 0) := by
    unfold homeWrites
    refine List.map_congr_left fun p hp => ?_
    rw [h.seen _ (h.fits.entry hp).1]
  rw [Ref.commitWrites, hhome, List.append_assoc, List.singleton_append]

theorem headReached_false {lg : LogDev} {ws : List (Nat × Block)}
    (h : ∀ w ∈ ws, w.1 ≠ lg.start) : headReached lg ws = false := by
  rw [headReached, List.any_eq_false]
  intro w hw
  simpa using h w hw

theorem headReached_append {lg : LogDev} {ws vs : List (Nat × Block)} {x : Block} :
    headReached lg ((ws ++ [(lg.start, x)]) ++ vs) = true := by
  rw [headReached, List.any_eq_true]
  exact ⟨(lg.start, x), by simp, by simp⟩

/-- A `commit` cut after `k` block writes: the disk recovers to the new state
if the committing `write_head` is among them and to the old one if not. -/
theorem commit_cut {lg : LogDev} {A₀ A : Disk} {s : Sys} (h : Open lg A₀ A s)
    (k : Nat) :
    Recoverable lg
      (if headReached lg ((writesOf (commit lg) s).take k) then A else A₀)
      (cutAfter (commit lg) s k) := by
  by_cases hne : s.block = []
  · -- Nothing was logged, so `commit` writes nothing.
    have hw : writesOf (commit lg) s = [] := by
      rw [writesOf, commit, if_neg (by rw [hne]; decide), List.drop_length]
    rw [cutAfter, hw, List.take_nil, headReached_false (by simp)]
    exact Or.inl h.clear
  · have hw := writesOf_eq (commit_sends h.coh h.fits hne).1
    rw [h.commitWrites] at hw
    rw [cutAfter, hw]
    rcases Nat.lt_or_ge (copies (view s) (entries lg s.block 0)).length k with hk | hk
    · obtain ⟨j, rfl⟩ : ∃ j, k = (copies (view s) (entries lg s.block 0) ++
          [(lg.start, putHead (view s lg.start) s.block)]).length + j := by
        refine ⟨k - ((copies (view s) (entries lg s.block 0)).length + 1), ?_⟩
        rw [List.length_append, List.length_singleton]
        omega
      rw [List.take_length_add_append, headReached_append, applyWrites_append]
      exact recoverable_install (h.logged hne) (word_putHead_nil _) j
    · rw [List.append_assoc, List.take_append_of_le_length hk, headReached_false]
      · exact Or.inl (h.logging fun w hw => List.mem_of_mem_take hw)
      · intro w hw
        obtain ⟨p, hp, rfl⟩ := mem_copies.mp (List.mem_of_mem_take hw)
        have := (h.fits.entry hp).2.2
        show p.2 ≠ lg.start
        omega

/-- A `commit` that completes leaves the new state on the disk and an empty
log. -/
theorem commit_full {lg : LogDev} {A₀ A : Disk} {s : Sys} (h : Open lg A₀ A s) :
    let A' := if headReached lg (writesOf (commit lg) s) then A else A₀
    Open lg A' A' (commit lg s) ∧ (commit lg s).block = [] := by
  by_cases hne : s.block = []
  · have hc : commit lg s = s := by rw [commit, if_neg (by rw [hne]; decide)]
    have hw : writesOf (commit lg) s = [] := by rw [writesOf, hc, List.drop_length]
    rw [hw, headReached_false (by simp), hc]
    refine ⟨⟨h.coh, h.fits, h.clear, ?_, fun b _ _ => rfl⟩, hne⟩
    intro b hb
    have hdiff := h.diff b hb (by rw [hne]; exact List.not_mem_nil)
    rw [h.seen b hb, hdiff]
    rfl
  · obtain ⟨hs, hb⟩ := commit_sends h.coh h.fits hne
    have hw := writesOf_eq hs
    rw [h.commitWrites] at hs hw
    rw [hw, headReached_append]
    refine ⟨⟨hs.coh, by rw [hb]; exact LogFits.nil lg, ?_, ?_, fun b _ _ => rfl⟩, hb⟩
    · rw [hs.disk, applyWrites_append]
      exact (h.logged hne).all (word_putHead_nil _)
    · intro b hb'
      show view (commit lg s) b = A b
      rw [hs.view, ← List.append_assoc, applyWrites_append]
      -- A home block was written with its new contents or did not change.
      have hstart : b ≠ lg.start := fun he => hb' (he ▸ (h.logged hne).start_area)
      rw [show applyWrites _ [(lg.start, putHead (putHead (view s lg.start) s.block) [])]
        b = _ from Function.update_of_ne hstart _ _, applyWrites_append]
      by_cases hmem : b ∈ s.block
      · exact applyWrites_homeWrites hmem
      · rw [applyWrites_ne, applyWrites_ne, h.seen b hb']
        · intro w hw he
          rcases List.mem_append.mp hw with hw | hw
          · obtain ⟨p, hp, rfl⟩ := mem_copies.mp hw
            exact hb' (he ▸ (h.fits.entry hp).2.1)
          · obtain rfl := List.mem_singleton.mp hw
            exact hstart he.symm
        · intro w hw he
          obtain ⟨p, hp, rfl⟩ := mem_homeWrites.mp hw
          exact hmem (he ▸ (mem_entries hp).1)

/-! ## Histories -/

/-- The invariant of a machine whose committed state is `A`. -/
def MachineInv (lg : LogDev) (A : Disk) : Machine → Prop
  | .up s => Open lg A A s ∧ s.block = []
  | .down d => Recoverable lg A d

theorem MachineInv.recoverable {lg : LogDev} {A : Disk} {m : Machine}
    (h : MachineInv lg A m) : Recoverable lg A m.disk := by
  cases m with
  | up s => exact Or.inl h.1.clear
  | down d => exact h

/-- One event. -/
theorem play_inv {lg : LogDev} {A : Disk} {m : Machine} {ev : Event}
    (h : MachineInv lg A m) (hout : ev.outside lg) :
    MachineInv lg (committed lg m A ev) (play lg m ev) := by
  have hrec := h.recoverable
  cases ev with
  | group ms =>
      cases m with
      | down d => exact h
      | up s =>
          rw [committed, play]
          cases hs : modifyAll lg s ms with
          | none => exact hrec
          | some s' => exact commit_full (modifyAll_open h.1 hout hs)
  | groupCut ms k =>
      cases m with
      | down d => exact h
      | up s =>
          rw [committed, play]
          cases hs : modifyAll lg s ms with
          | none => exact hrec
          | some s' => exact commit_cut (modifyAll_open h.1 hout hs) k
  | recover rc =>
      obtain ⟨h1, h2, h3, h4⟩ := recover_full hrec rc
      have hup : MachineInv lg A (.up (recoverFromLog lg (boot rc m.disk))) := by
        refine ⟨⟨h3, by rw [h4]; exact LogFits.nil lg, h1, ?_, fun b _ _ => rfl⟩, h4⟩
        intro b hb
        rw [h2]
        exact h1.home b hb
      cases m <;> exact hup
  | recoverCut rc k =>
      have hcut := recover_cut hrec rc k
      cases m <;> exact hcut

/-- A whole history. -/
theorem playAll_inv {lg : LogDev} :
    ∀ {evs : List Event} {A : Disk} {m : Machine}, MachineInv lg A m →
      (∀ ev ∈ evs, ev.outside lg) →
      MachineInv lg (committedAll lg m A evs) (playAll lg m evs) := by
  intro evs
  induction evs with
  | nil => intro A m h _; exact h
  | cons ev evs ih =>
      intro A m h hout
      exact ih (play_inv h (hout ev List.mem_cons_self))
        fun ev' hev => hout ev' (List.mem_cons_of_mem _ hev)

/-- Whatever transactions, power failures and cut recoveries there were: when
a recovery has run to its end, every block outside the log holds the state
after exactly the transactions whose committing `write_head` reached the
disk, and another recovery changes nothing on the disk. -/
theorem log_crash_atomic (lg : LogDev) (d₀ : Disk) (evs : List Event)
    (hhead : (d₀ lg.start).word 0 = 0) (hout : ∀ ev ∈ evs, ev.outside lg)
    (rc rc' : Nat → Nat → Bool) :
    let m := play lg (playAll lg (.down d₀) evs) (.recover rc)
    (∀ b, ¬ lg.area b → m.disk b = committedAll lg (.down d₀) d₀ evs b) ∧
      (play lg m (.recover rc')).disk = m.disk := by
  have hinit : MachineInv lg d₀ (.down d₀) := Or.inl ⟨hhead, fun _ _ => rfl⟩
  have hinv := playAll_inv hinit hout
  have hrec := hinv.recoverable
  obtain ⟨h1, _⟩ := recover_full hrec rc
  have hm : play lg (playAll lg (.down d₀) evs) (.recover rc) =
      .up (recoverFromLog lg (boot rc (playAll lg (.down d₀) evs).disk)) := by
    cases playAll lg (.down d₀) evs <;> rfl
  rw [hm]
  refine ⟨fun b hb => h1.home b hb, ?_⟩
  exact (recover_clear h1 rc').1.disk.trans (applyWrites_same _ _)

/-- The log of `mkfs` on a blank disk, one transaction on block 60 cut after
three of its four block writes and one recovery cut after its first. -/
theorem log_crash_atomic_blank :
    let lg : LogDev := ⟨2, 30⟩
    let d₀ : Disk := fun _ _ => 0
    let all : Nat → Nat → Bool := fun _ _ => true
    let evs : List Event := [.recover all, .groupCut [(60, fun _ _ => 7)] 3,
      .recoverCut all 1]
    let m := play lg (playAll lg (.down d₀) evs) (.recover all)
    (∀ b, ¬ lg.area b → m.disk b = committedAll lg (.down d₀) d₀ evs b) ∧
      (play lg m (.recover all)).disk = m.disk := by
  intro lg d₀ all evs
  refine log_crash_atomic lg d₀ evs (by decide) ?_ all all
  intro ev hev
  simp only [evs, List.mem_cons, List.not_mem_nil, or_false] at hev
  rcases hev with rfl | rfl | rfl
  · trivial
  · intro m hm
    obtain rfl := List.mem_singleton.mp hm
    exact ⟨by decide, by decide⟩
  · trivial

end Xv6.Ref
