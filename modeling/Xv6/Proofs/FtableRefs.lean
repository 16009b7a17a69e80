import Xv6.Ref.Ftable
import Xv6.Lib.Sum

/-!
# References to open files

The books balance at every point inside a call if the references the call itself
holds are counted: the one `filealloc` hands out before `fdalloc` finds a
descriptor for it, the one `close` has taken out of the table before `fileclose`
drops it. `Balanced s held` is the invariant with those in `held`; each function
of `file.c` moves a reference between `held` and the descriptors, and at the ends
of the calls `held` is zero.

Next to the counts the invariant ties the ends of the pipes to the files: every
open end has a file, and only one. That file's last `fileclose` is the only
`pipeclose` of the end, so the second one of a pipe frees its page, and no later
one can.
-/

namespace Xv6.Ref.Ftable

open Xv6.Lib

variable {s s' : Files} {held : Fidx → Nat} {f : Fidx} {p : Slot} {fd : Fd}

/-- How many descriptors point to `f`. -/
def Files.refs (s : Files) (f : Fidx) : Nat :=
  ∑ x : Slot × Fd, if s.ofile x.1 x.2 = some f then 1 else 0

/-- One reference to `f` more. -/
def bump (held : Fidx → Nat) (f : Fidx) : Fidx → Nat :=
  fun g => if g = f then held g + 1 else held g

def PipeEnds.isOpen (e : PipeEnds) (writable : Bool) : Bool :=
  if writable = true then e.writeopen else e.readopen

/-- The file is the writable or the readable end of the pipe. -/
def File.endOf (g : File) (k : Nat) (writable : Bool) : Prop :=
  g.type = .FD_PIPE ∧ g.pipe = k ∧ g.writable = writable

/-- The ends of the pipes and the files. -/
structure Ends (s : Files) : Prop where
  none : ∀ f, (s.file f).ref = 0 → (s.file f).type = .FD_NONE
  pipe : ∀ f k w, (s.file f).endOf k w →
    k < s.npipe ∧ (s.pipe k).isOpen w = true ∧ (s.file f).readable = !w
  one : ∀ f g k w, (s.file f).endOf k w → (s.file g).endOf k w → f = g
  backed : ∀ k w, k < s.npipe → (s.pipe k).isOpen w = true → ∃ f, (s.file f).endOf k w
  freed : ∀ k, k < s.npipe → (s.pipe k).freed =
    if (s.pipe k).readopen = false ∧ (s.pipe k).writeopen = false then 1 else 0

structure Balanced (s : Files) (held : Fidx → Nat) : Prop where
  ref : ∀ f, (s.file f).ref = s.refs f + held f
  ends : Ends s
  idle : ∀ p, s.state p ≠ .RUNNABLE → ∀ fd, s.ofile p fd = none

theorem balanced_boot : Balanced Files.boot fun _ => 0 where
  ref := by
    intro f
    simp [Files.refs, Files.boot, File.zero]
  ends := {
    none := fun _ _ => rfl
    pipe := fun _ _ _ h => nomatch h.1
    one := fun _ _ _ _ h => nomatch h.1
    backed := fun k _ h => absurd h (Nat.not_lt_zero k)
    freed := fun k h => absurd h (Nat.not_lt_zero k) }
  idle := fun _ _ _ => rfl

/-! ## Descriptors -/

theorem refs_setOfile (s : Files) (p : Slot) (fd : Fd) (v : Option Fidx) (f : Fidx) :
    (s.setOfile p fd v).refs f + (if s.ofile p fd = some f then 1 else 0) =
      s.refs f + if v = some f then 1 else 0 := by
  have h := sum_change (i := (p, fd))
    (f := fun x : Slot × Fd => if (s.setOfile p fd v).ofile x.1 x.2 = some f then 1 else 0)
    (g := fun x : Slot × Fd => if s.ofile x.1 x.2 = some f then 1 else 0) ?_
  · simp only [Files.setOfile, and_self, if_true] at h
    exact h
  · rintro ⟨p', fd'⟩ hne
    have : ¬(p' = p ∧ fd' = fd) := fun he => hne (by rw [he.1, he.2])
    simp [Files.setOfile, this]

theorem refs_pos (h : s.ofile p fd = some f) : 0 < s.refs f := by
  have := le_sum (fun x : Slot × Fd => if s.ofile x.1 x.2 = some f then 1 else 0) id (p, fd)
  simp only [id, h, if_true] at this
  exact this

theorem Ends.setOfile (h : Ends s) (p : Slot) (fd : Fd) (v : Option Fidx) :
    Ends (s.setOfile p fd v) := ⟨h.none, h.pipe, h.one, h.backed, h.freed⟩

/-- A held reference goes into a free descriptor. -/
theorem Balanced.store (hi : Balanced s (bump held f)) (hp : s.state p = .RUNNABLE)
    (hfree : s.ofile p fd = none) : Balanced (s.setOfile p fd (some f)) held where
  ref := by
    intro g
    have h := refs_setOfile s p fd (some f) g
    have hr := hi.ref g
    rw [hfree] at h
    simp only [bump] at hr
    simp only [reduceCtorEq, if_false, Option.some.injEq] at h
    show (s.file g).ref = _
    by_cases he : g = f
    · subst he
      simp only [if_true] at h hr
      omega
    · simp only [if_neg he, if_neg (Ne.symm he)] at h hr
      omega
  ends := hi.ends.setOfile p fd _
  idle := by
    intro q hq fd'
    have hqp : q ≠ p := fun he => hq (he ▸ hp)
    simp only [Files.setOfile, hqp, false_and, if_false]
    exact hi.idle q hq fd'

/-- A descriptor is cleared, and its reference held. -/
theorem Balanced.clear (hi : Balanced s held) (hf : s.ofile p fd = some f) :
    Balanced (s.setOfile p fd none) (bump held f) where
  ref := by
    intro g
    have h := refs_setOfile s p fd none g
    have hr := hi.ref g
    rw [hf] at h
    simp only [bump]
    simp only [reduceCtorEq, if_false, Option.some.injEq] at h
    show (s.file g).ref = _
    by_cases he : g = f
    · subst he
      simp only [if_true] at h ⊢
      omega
    · simp only [if_neg he, if_neg (Ne.symm he)] at h ⊢
      omega
  ends := hi.ends.setOfile p fd _
  idle := by
    intro q hq fd'
    simp only [Files.setOfile]
    split
    · rfl
    · exact hi.idle q hq fd'

/-! ## `file.c` -/

/-- A step that leaves the pipes and the files at their ends. -/
theorem Ends.frame (h : Ends s) (hn : s'.npipe = s.npipe) (hp : s'.pipe = s.pipe)
    (hnone : ∀ f, (s'.file f).ref = 0 → (s'.file f).type = .FD_NONE)
    (hend : ∀ f k w, (s'.file f).endOf k w ↔ (s.file f).endOf k w)
    (hread : ∀ f, (s.file f).type = .FD_PIPE →
      (s'.file f).readable = (s.file f).readable) : Ends s' where
  none := hnone
  pipe := by
    intro f k w he
    rw [hend] at he
    obtain ⟨h1, h2, h3⟩ := h.pipe f k w he
    exact ⟨by rw [hn]; exact h1, by rw [hp]; exact h2, by rw [hread f he.1]; exact h3⟩
  one := by
    intro f g k w hf hg
    rw [hend] at hf hg
    exact h.one f g k w hf hg
  backed := by
    intro k w hk ho
    rw [hn] at hk
    rw [hp] at ho
    obtain ⟨f, hf⟩ := h.backed k w hk ho
    exact ⟨f, (hend f k w).mpr hf⟩
  freed := by
    intro k hk
    rw [hn] at hk
    rw [hp]
    exact h.freed k hk

/-- A file that is no end of a pipe is changed into another that is none. -/
theorem Ends.setFile (h : Ends s) {g : File → File}
    (hend : (s.file f).type = .FD_PIPE → g (s.file f) = { s.file f with ref := (g (s.file f)).ref })
    (hpipe : (s.file f).type ≠ .FD_PIPE → (g (s.file f)).type ≠ .FD_PIPE)
    (hnone : (g (s.file f)).ref = 0 → (g (s.file f)).type = .FD_NONE) :
    Ends (s.setFile f g) := by
  refine h.frame rfl rfl ?_ ?_ ?_
  · intro f' h0
    simp only [Files.setFile] at h0 ⊢
    split at h0
    · next he => rw [if_pos he]; exact hnone h0
    · next he => rw [if_neg he]; exact h.none f' h0
  · intro f' k w
    simp only [Files.setFile]
    split
    · next he =>
        subst he
        by_cases ht : (s.file f').type = .FD_PIPE
        · rw [hend ht]; exact Iff.rfl
        · exact ⟨fun hx => absurd hx.1 (hpipe ht), fun hx => absurd hx.1 ht⟩
    · exact Iff.rfl
  · intro f' ht
    simp only [Files.setFile]
    split
    · next he => subst he; rw [hend ht]
    · rfl

theorem filealloc_spec (hi : Balanced s held) (h : filealloc s = some (f, s')) :
    Balanced s' (bump held f) ∧ (s.file f).ref = 0 ∧ (s'.file f).type = .FD_NONE ∧
      s' = s.setFile f fun g => { g with ref := 1 } := by
  simp only [filealloc] at h
  split at h <;> cases h
  next hf =>
    have h0 : (s.file f).ref = 0 := by simpa using List.find?_some hf
    have ht := hi.ends.none f h0
    refine ⟨⟨?_, ?_, hi.idle⟩, h0, by simp [Files.setFile, ht], rfl⟩
    · intro g
      have hr := hi.ref g
      simp only [Files.setFile, bump]
      by_cases he : g = f
      · subst he
        simp only [if_true]
        show 1 = s.refs g + (held g + 1)
        omega
      · simp only [if_neg he]
        exact hr
    · exact hi.ends.setFile (fun hp => absurd hp (by rw [ht]; nofun)) (fun h => h) nofun

theorem filedup_spec (hi : Balanced s held) (hpos : 0 < (s.file f).ref) :
    filedup s f = some (s.setFile f fun g => { g with ref := g.ref + 1 }) ∧
      Balanced (s.setFile f fun g => { g with ref := g.ref + 1 }) (bump held f) := by
  refine ⟨if_neg (by omega), ?_, ?_, hi.idle⟩
  · intro g
    have hr := hi.ref g
    simp only [Files.setFile, bump]
    by_cases he : g = f
    · subst he
      simp only [if_true]
      show (s.file g).ref + 1 = s.refs g + (held g + 1)
      omega
    · simp only [if_neg he]
      exact hr
  · exact hi.ends.setFile (fun _ => rfl) (fun h => h) nofun

/-- What `pipeclose` does to the pipe it closes an end of. -/
def PipeEnds.close (e : PipeEnds) (writable : Bool) : PipeEnds :=
  let e := if writable = true then { e with writeopen := false }
    else { e with readopen := false }
  if e.readopen = false ∧ e.writeopen = false then { e with freed := e.freed + 1 } else e

theorem setPipe_congr {k : Nat} {g g' : PipeEnds → PipeEnds}
    (h : g (s.pipe k) = g' (s.pipe k)) : s.setPipe k g = s.setPipe k g' := by
  simp only [Files.setPipe, h]

theorem setPipe_setPipe (s : Files) (k : Nat) (g g' : PipeEnds → PipeEnds) :
    (s.setPipe k g).setPipe k g' = s.setPipe k fun e => g' (g e) := by
  simp only [Files.setPipe, if_true]
  congr 1
  funext k'
  split <;> rfl

theorem pipeclose_eq (s : Files) (k : Nat) (w : Bool) :
    pipeclose s k w = s.setPipe k fun e => e.close w := by
  have key : ∀ g : PipeEnds → PipeEnds,
      (if (g (s.pipe k)).readopen = false ∧ (g (s.pipe k)).writeopen = false then
        (s.setPipe k g).setPipe k fun e => { e with freed := e.freed + 1 }
      else s.setPipe k g) =
        s.setPipe k fun e => if (g e).readopen = false ∧ (g e).writeopen = false then
          { g e with freed := (g e).freed + 1 } else g e := by
    intro g
    split
    · next h => rw [setPipe_setPipe]; exact setPipe_congr (if_pos h).symm
    · next h => exact setPipe_congr (if_neg h).symm
  have hk : ∀ g, (s.setPipe k g).pipe k = g (s.pipe k) := fun g => if_pos rfl
  simp only [pipeclose, hk]
  cases w with
  | false => exact key fun e => { e with readopen := false }
  | true => exact key fun e => { e with writeopen := false }

theorem close_isOpen (e : PipeEnds) (w w' : Bool) :
    (e.close w).isOpen w' = if w' = w then false else e.isOpen w' := by
  obtain ⟨r, wr, n⟩ := e
  cases w <;> cases w' <;> cases r <;> cases wr <;> rfl

theorem close_freed {e : PipeEnds} {w : Bool} (ho : e.isOpen w = true)
    (hf : e.freed = if e.readopen = false ∧ e.writeopen = false then 1 else 0) :
    (e.close w).freed =
      if (e.close w).readopen = false ∧ (e.close w).writeopen = false then 1 else 0 := by
  obtain ⟨r, wr, n⟩ := e
  cases w <;> cases r <;> cases wr <;> simp_all [PipeEnds.close, PipeEnds.isOpen]

/-- The only file at an open end of a pipe is gone, and the end is closed. -/
theorem Ends.close (h : Ends s) {k : Nat} {w : Bool} (hf : (s.file f).endOf k w) :
    Ends (pipeclose (s.setFile f fun g => { g with ref := 0, type := .FD_NONE }) k w) := by
  obtain ⟨hk, ho, _⟩ := h.pipe f k w hf
  rw [pipeclose_eq]
  have hfile : ∀ g k' w', (((s.setFile f fun g => { g with ref := 0, type := .FD_NONE }).setPipe
      k fun e => e.close w).file g).endOf k' w' ↔ g ≠ f ∧ (s.file g).endOf k' w' := by
    intro g k' w'
    simp only [Files.setPipe, Files.setFile]
    by_cases he : g = f
    · simp [he, File.endOf]
    · simp [he]
  have hopen : ∀ k' w', ((((s.setFile f fun g => { g with ref := 0, type := .FD_NONE }).setPipe
      k fun e => e.close w).pipe k').isOpen w' = true ↔
        (s.pipe k').isOpen w' = true ∧ ¬(k' = k ∧ w' = w)) := by
    intro k' w'
    simp only [Files.setPipe]
    by_cases he : k' = k
    · subst he
      simp only [if_true, close_isOpen]
      by_cases hw : w' = w <;> simp [hw, Files.setFile]
    · simp [he, Files.setFile]
  exact {
    none := by
      intro g hg
      simp only [Files.setPipe, Files.setFile] at hg ⊢
      split at hg
      · next he => rw [if_pos he]
      · next he => rw [if_neg he]; exact h.none g hg
    pipe := by
      intro g k' w' hg
      obtain ⟨hne, hold⟩ := (hfile g k' w').mp hg
      obtain ⟨h1, h2, h3⟩ := h.pipe g k' w' hold
      refine ⟨h1, (hopen k' w').mpr ⟨h2, ?_⟩, ?_⟩
      · rintro ⟨rfl, rfl⟩
        exact hne (h.one g f k' w' hold hf)
      · simp only [Files.setPipe, Files.setFile, if_neg hne]
        exact h3
    one := by
      intro g g' k' w' hg hg'
      exact h.one g g' k' w' ((hfile g k' w').mp hg).2 ((hfile g' k' w').mp hg').2
    backed := by
      intro k' w' hk' ho'
      obtain ⟨ho', hne⟩ := (hopen k' w').mp ho'
      obtain ⟨g, hg⟩ := h.backed k' w' hk' ho'
      refine ⟨g, (hfile g k' w').mpr ⟨?_, hg⟩⟩
      rintro rfl
      exact hne ⟨hg.2.1.symm.trans hf.2.1, hg.2.2.symm.trans hf.2.2⟩
    freed := by
      intro k' hk'
      simp only [Files.setPipe, Files.setFile]
      by_cases he : k' = k
      · subst he
        simp only [if_true]
        exact close_freed ho (h.freed k' hk')
      · simp only [if_neg he]
        exact h.freed k' hk' }

/-- Dropping a held reference never panics and keeps the books. -/
theorem fileclose_spec (hi : Balanced s (bump held f)) :
    ∃ s', fileclose s f = some s' ∧ Balanced s' held ∧ s'.ofile = s.ofile ∧
      s'.state = s.state := by
  have hrf : (s.file f).ref = s.refs f + (held f + 1) := by
    have := hi.ref f
    simpa [bump] using this
  have href : ∀ (s' : Files), s'.ofile = s.ofile →
      (∀ g, (s'.file g).ref = if g = f then (s.file f).ref - 1 else (s.file g).ref) →
      ∀ g, (s'.file g).ref = s'.refs g + held g := by
    intro s' ho hr g
    have hg := hi.ref g
    have hrefs : s'.refs g = s.refs g := by rw [Files.refs, ho]; rfl
    rw [hr, hrefs]
    by_cases he : g = f
    · subst he; rw [if_pos rfl]; omega
    · rw [if_neg he, hg]
      simp [bump, he]
  simp only [fileclose]
  rw [if_neg (by omega)]
  by_cases hpos : (s.file f).ref - 1 > 0
  · rw [if_pos hpos]
    refine ⟨_, rfl, ⟨href _ rfl fun g => ?_, ?_, hi.idle⟩, rfl, rfl⟩
    · simp only [Files.setFile]
      split <;> rfl
    · exact hi.ends.setFile (fun _ => rfl) (fun h => h)
        fun h0 => absurd h0 (Nat.pos_iff_ne_zero.mp hpos)
  · rw [if_neg hpos]
    have hone : (s.file f).ref - 1 = 0 := by omega
    have hset : ∀ g, ((s.setFile f fun g => { g with ref := 0, type := .FD_NONE }).file g).ref
        = if g = f then (s.file f).ref - 1 else (s.file g).ref := by
      intro g
      rw [hone]
      simp only [Files.setFile]
      split <;> rfl
    have hother : (s.file f).type ≠ .FD_PIPE →
        Ends (s.setFile f fun g => { g with ref := 0, type := .FD_NONE }) := fun ht =>
      hi.ends.setFile (fun hp => absurd hp ht) (fun _ => nofun) fun _ => rfl
    cases ht : (s.file f).type with
    | FD_PIPE =>
        refine ⟨_, rfl, ⟨href _ ?_ ?_, hi.ends.close ⟨ht, rfl, rfl⟩, ?_⟩, ?_, ?_⟩ <;>
          rw [pipeclose_eq]
        · rfl
        · exact hset
        · exact hi.idle
        · rfl
        · rfl
    | FD_INODE =>
        exact ⟨_, rfl, ⟨href _ rfl hset, hother (by rw [ht]; nofun), hi.idle⟩, rfl, rfl⟩
    | FD_NONE =>
        exact ⟨_, rfl, ⟨href _ rfl hset, hother (by rw [ht]; nofun), hi.idle⟩, rfl, rfl⟩

/-! ## The calls -/

/-- A step that moves no reference. -/
theorem Balanced.keep (hi : Balanced s held) (ho : s'.ofile = s.ofile)
    (hst : s'.state = s.state) (hr : ∀ g, (s'.file g).ref = (s.file g).ref)
    (he : Ends s') : Balanced s' held where
  ref := by
    intro g
    rw [hr, hi.ref g, Files.refs, Files.refs, ho]
  ends := he
  idle := by
    rw [ho, hst]
    exact hi.idle

theorem bump_comm (held : Fidx → Nat) (f g : Fidx) :
    bump (bump held f) g = bump (bump held g) f := by
  funext x
  simp only [bump]
  split_ifs <;> rfl

theorem fdalloc_some (h : fdalloc s p f = some (fd, s')) :
    s.ofile p fd = none ∧ s' = s.setOfile p fd (some f) := by
  simp only [fdalloc] at h
  split at h <;> cases h
  next hfd => exact ⟨by simpa using List.find?_some hfd, rfl⟩

theorem argfd_some {n : Int} (h : argfd s p n = some (fd, f)) : s.ofile p fd = some f := by
  simp only [argfd] at h
  split at h
  · split at h <;> cases h
    next hf => exact hf
  · cases h

/-- Nothing is held between calls. -/
abbrev Settled (s : Files) : Prop := Balanced s fun _ => 0

theorem sysDup_spec (hi : Settled s) (hp : s.state p = .RUNNABLE) (n : Int) :
    ∃ r s', sysDup s p n = some (r, s') ∧ Settled s' := by
  simp only [sysDup]
  cases ha : argfd s p n with
  | none => exact ⟨_, _, rfl, hi⟩
  | some x =>
      obtain ⟨fd, f⟩ := x
      dsimp only
      cases hd : fdalloc s p f with
      | none => exact ⟨_, _, rfl, hi⟩
      | some y =>
          obtain ⟨fd', s₁⟩ := y
          obtain ⟨hfree, rfl⟩ := fdalloc_some hd
          have hpos : 0 < (s.file f).ref := by
            have := refs_pos (argfd_some ha)
            rw [hi.ref f]
            omega
          obtain ⟨_, hb⟩ := filedup_spec hi hpos
          -- `filedup` does not look at the descriptors.
          have hdup : filedup (s.setOfile p fd' (some f)) f =
              some ((s.setFile f fun g => { g with ref := g.ref + 1 }).setOfile p fd'
                (some f)) := if_neg (Nat.not_lt.mpr hpos)
          simp only [hdup, Option.map_some]
          exact ⟨_, _, rfl, hb.store hp hfree⟩

theorem sysClose_spec (hi : Settled s) (n : Int) :
    ∃ r s', sysClose s p n = some (r, s') ∧ Settled s' := by
  simp only [sysClose]
  cases ha : argfd s p n with
  | none => exact ⟨_, _, rfl, hi⟩
  | some x =>
      obtain ⟨fd, f⟩ := x
      obtain ⟨s', hc, hb, _⟩ := fileclose_spec (hi.clear (argfd_some ha))
      simp only [hc, Option.map_some]
      exact ⟨_, _, rfl, hb⟩

theorem sysOpen_spec (hi : Settled s) (hp : s.state p = .RUNNABLE) (ip : Option Nat)
    (omode : Nat) : ∃ r s', sysOpen s p ip omode = some (r, s') ∧ Settled s' := by
  cases ip with
  | none => exact ⟨_, _, rfl, hi⟩
  | some ip =>
      simp only [sysOpen]
      cases ha : filealloc s with
      | none => exact ⟨_, _, rfl, hi⟩
      | some x =>
          obtain ⟨f, s₁⟩ := x
          obtain ⟨hb, _, ht, hs₁⟩ := filealloc_spec hi ha
          dsimp only
          cases hd : fdalloc s₁ p f with
          | none =>
              obtain ⟨s', hc, hb', _⟩ := fileclose_spec hb
              simp only [hc, Option.map_some]
              exact ⟨_, _, rfl, hb'⟩
          | some y =>
              obtain ⟨fd, s₂⟩ := y
              obtain ⟨hfree, rfl⟩ := fdalloc_some hd
              have hp₁ : s₁.state p = .RUNNABLE := by rw [hs₁]; exact hp
              have hb₂ := hb.store hp₁ hfree
              refine ⟨_, _, rfl, hb₂.keep rfl rfl ?_ ?_⟩
              · intro g
                simp only [Files.setFile]
                split
                · next he => rw [he]
                · rfl
              · refine hb₂.ends.setFile (fun hx => absurd (ht.symm.trans hx) nofun)
                  (fun _ => nofun) fun h0 => ?_
                have := hb.ref f
                rw [show (s₁.file f).ref = 0 from h0] at this
                simp [bump] at this

/-- The two files of a new pipe are its ends. -/
theorem Ends.newPipe (h : Ends s) {f₀ f₁ : Fidx} (hne : f₀ ≠ f₁)
    (hpos : (s.file f₀).ref ≠ 0 ∧ (s.file f₁).ref ≠ 0)
    (ht : (s.file f₀).type = .FD_NONE ∧ (s.file f₁).type = .FD_NONE)
    (hn : s'.npipe = s.npipe + 1)
    (hp : ∀ k, s'.pipe k = if k = s.npipe then ⟨true, true, 0⟩ else s.pipe k)
    (h₀ : s'.file f₀ = { s.file f₀ with
      type := .FD_PIPE, readable := true, writable := false, pipe := s.npipe })
    (h₁ : s'.file f₁ = { s.file f₁ with
      type := .FD_PIPE, readable := false, writable := true, pipe := s.npipe })
    (hf : ∀ g, g ≠ f₀ → g ≠ f₁ → s'.file g = s.file g) : Ends s' := by
  -- An end is old and below `npipe`, or one of the two new ones.
  have hend : ∀ g k w, (s'.file g).endOf k w →
      ((s.file g).endOf k w ∧ k ≠ s.npipe ∧ s'.file g = s.file g) ∨
      (k = s.npipe ∧ ((g = f₀ ∧ w = false) ∨ (g = f₁ ∧ w = true))) := by
    intro g k w hg
    by_cases hg₀ : g = f₀
    · subst hg₀
      rw [h₀] at hg
      exact Or.inr ⟨hg.2.1.symm, Or.inl ⟨rfl, hg.2.2.symm⟩⟩
    · by_cases hg₁ : g = f₁
      · subst hg₁
        rw [h₁] at hg
        exact Or.inr ⟨hg.2.1.symm, Or.inr ⟨rfl, hg.2.2.symm⟩⟩
      · have he := hf g hg₀ hg₁
        rw [he] at hg
        exact Or.inl ⟨hg, Nat.ne_of_lt (h.pipe g k w hg).1, he⟩
  exact {
    none := by
      intro g hg
      by_cases hg₀ : g = f₀
      · subst hg₀; rw [h₀] at hg; exact absurd hg hpos.1
      · by_cases hg₁ : g = f₁
        · subst hg₁; rw [h₁] at hg; exact absurd hg hpos.2
        · rw [hf g hg₀ hg₁] at hg ⊢
          exact h.none g hg
    pipe := by
      intro g k w hg
      rw [hn, hp]
      rcases hend g k w hg with ⟨hold, hk, he⟩ | ⟨rfl, ⟨rfl, rfl⟩ | ⟨rfl, rfl⟩⟩
      · obtain ⟨h1, h2, h3⟩ := h.pipe g k w hold
        rw [if_neg hk, he]
        exact ⟨by omega, h2, h3⟩
      · rw [if_pos rfl, h₀]
        exact ⟨by omega, rfl, rfl⟩
      · rw [if_pos rfl, h₁]
        exact ⟨by omega, rfl, rfl⟩
    one := by
      intro g g' k w hg hg'
      rcases hend g k w hg with ⟨hold, hk, _⟩ | ⟨hk, hcase⟩ <;>
        rcases hend g' k w hg' with ⟨hold', hk', _⟩ | ⟨hk', hcase'⟩
      · exact h.one g g' k w hold hold'
      · exact absurd hk' hk
      · exact absurd hk hk'
      · rcases hcase with ⟨rfl, rfl⟩ | ⟨rfl, rfl⟩ <;>
          rcases hcase' with ⟨rfl, hw⟩ | ⟨rfl, hw⟩
        · rfl
        · cases hw
        · cases hw
        · rfl
    backed := by
      intro k w hk ho
      rw [hn] at hk
      rw [hp] at ho
      split at ho
      · next he =>
          subst he
          cases w with
          | false => exact ⟨f₀, by rw [h₀]; exact ⟨rfl, rfl, rfl⟩⟩
          | true => exact ⟨f₁, by rw [h₁]; exact ⟨rfl, rfl, rfl⟩⟩
      · next he =>
          obtain ⟨g, hg⟩ := h.backed k w (by omega) ho
          have hg₀ : g ≠ f₀ := by
            rintro rfl
            exact absurd (ht.1.symm.trans hg.1) nofun
          have hg₁ : g ≠ f₁ := by
            rintro rfl
            exact absurd (ht.2.symm.trans hg.1) nofun
          exact ⟨g, by rw [hf g hg₀ hg₁]; exact hg⟩
    freed := by
      intro k hk
      rw [hn] at hk
      rw [hp]
      split
      · rfl
      · exact h.freed k (by omega) }

theorem pipeallocBad_spec (fs : List Fidx)
    (hi : Balanced s (fs.foldr (fun f h => bump h f) held)) :
    ∃ s', pipeallocBad s fs = some s' ∧ Balanced s' held ∧ s'.ofile = s.ofile ∧
      s'.state = s.state := by
  induction fs generalizing s with
  | nil => exact ⟨s, rfl, hi, rfl, rfl⟩
  | cons f fs ih =>
      obtain ⟨s₁, hc, hb, ho, hst⟩ := fileclose_spec hi
      obtain ⟨s₂, hc₂, hb₂, ho₂, hst₂⟩ := ih hb
      exact ⟨s₂, by simp only [pipeallocBad, hc, hc₂], hb₂, ho₂.trans ho, hst₂.trans hst⟩

/-- The references `pipealloc` ends with. -/
def pipeHeld : Option (Fidx × Fidx) → Fidx → Nat
  | none => fun _ => 0
  | some (f₀, f₁) => bump (bump (fun _ => 0) f₁) f₀

theorem pipealloc_spec (hi : Settled s) (page : Bool) :
    ∃ r s', pipealloc s page = some (r, s') ∧ Balanced s' (pipeHeld r) ∧
      s'.state = s.state := by
  simp only [pipealloc]
  cases h0 : filealloc s with
  | none => exact ⟨none, s, rfl, hi, rfl⟩
  | some x =>
      obtain ⟨f₀, s₁⟩ := x
      obtain ⟨hb₁, _, ht₀, hs₁⟩ := filealloc_spec hi h0
      have hst₁ : s₁.state = s.state := by rw [hs₁]; rfl
      dsimp only
      cases h1 : filealloc s₁ with
      | none =>
          obtain ⟨s', hc, hb, _, hst⟩ := pipeallocBad_spec [f₀] hb₁
          simp only [hc, Option.map_some]
          exact ⟨none, s', rfl, hb, hst.trans hst₁⟩
      | some y =>
          obtain ⟨f₁, s₂⟩ := y
          obtain ⟨hb₂, hr₁, ht₁, hs₂⟩ := filealloc_spec hb₁ h1
          have hst₂ : s₂.state = s.state := by rw [hs₂]; exact hst₁
          rw [bump_comm] at hb₂
          cases page with
          | false =>
              obtain ⟨s', hc, hb, _, hst⟩ := pipeallocBad_spec [f₀, f₁] hb₂
              simp only [hc, if_true, Option.map_some]
              exact ⟨none, s', rfl, hb, hst.trans hst₂⟩
          | true =>
              have hne : f₀ ≠ f₁ := by
                rintro rfl
                rw [hs₁] at hr₁
                simp [Files.setFile] at hr₁
              have hf₀ : s₂.file f₀ = s₁.file f₀ := by
                rw [hs₂]
                simp [Files.setFile, hne]
              have hpos : ∀ g, (g = f₀ ∨ g = f₁) → (s₂.file g).ref ≠ 0 := by
                rintro g hg
                rw [hb₂.ref g]
                rcases hg with rfl | rfl <;> simp only [bump, if_true] <;>
                  first | omega | (split <;> omega)
              refine ⟨some (f₀, f₁), _, rfl, hb₂.keep rfl rfl ?_ ?_, hst₂⟩
              · intro g
                simp only [Files.setFile, Files.setPipe]
                by_cases hg₁ : g = f₁
                · simp [hg₁, Ne.symm hne]
                · by_cases hg₀ : g = f₀ <;> simp [hg₁, hg₀, hne]
              · refine hb₂.ends.newPipe hne ⟨hpos f₀ (Or.inl rfl), hpos f₁ (Or.inr rfl)⟩
                  ⟨by rw [hf₀]; exact ht₀, ht₁⟩ rfl (fun k => rfl) ?_ ?_ ?_
                · simp [Files.setFile, Files.setPipe, hne]
                · simp [Files.setFile, Files.setPipe, Ne.symm hne]
                · intro g hg₀ hg₁
                  simp [Files.setFile, Files.setPipe, hg₀, hg₁]

theorem sysPipeBad_spec {rf wf : Fidx} (fd0 : Option Fd)
    (hi : Balanced (match fd0 with
      | none => s
      | some fd0 => s.setOfile p fd0 none) (bump (bump (fun _ => 0) wf) rf)) :
    ∃ r s', sysPipeBad s p fd0 rf wf = some (r, s') ∧ Settled s' := by
  obtain ⟨s₁, hc₁, hb₁, _⟩ := fileclose_spec hi
  obtain ⟨s₂, hc₂, hb₂, _⟩ := fileclose_spec hb₁
  refine ⟨-1, s₂, ?_, hb₂⟩
  cases fd0 <;> simp only [sysPipeBad, hc₁, hc₂, Option.map_some]

theorem sysPipe_spec (hi : Settled s) (hp : s.state p = .RUNNABLE) (ptr page : Bool) :
    ∃ r s', sysPipe s p ptr page = some (r, s') ∧ Settled s' := by
  simp only [sysPipe]
  split
  · exact ⟨_, _, rfl, hi⟩
  · obtain ⟨r, s₁, ha, hb, hst⟩ := pipealloc_spec hi page
    rw [ha]
    rw [← hst] at hp
    cases r with
    | none => exact ⟨_, _, rfl, hb⟩
    | some x =>
        obtain ⟨rf, wf⟩ := x
        dsimp only
        cases h0 : fdalloc s₁ p rf with
        | none => exact sysPipeBad_spec none hb
        | some y =>
            obtain ⟨fd0, s₂⟩ := y
            obtain ⟨hfree, rfl⟩ := fdalloc_some h0
            have hb₂ := Balanced.store hb hp hfree
            dsimp only
            cases h1 : fdalloc (s₁.setOfile p fd0 (some rf)) p wf with
            | none =>
                -- The first descriptor is taken back.
                refine sysPipeBad_spec (some fd0) (hb₂.clear ?_)
                simp [Files.setOfile]
            | some z =>
                obtain ⟨fd1, s₃⟩ := z
                obtain ⟨hfree₁, rfl⟩ := fdalloc_some h1
                exact ⟨_, _, rfl, hb₂.store hp hfree₁⟩

/-- The loop of `fork` gives the child a reference for each of its parent's. The
child counts as running already: nothing in the loop looks at the state. -/
theorem forkLoop_spec {np : Slot} {fds : List Fd} (hnd : fds.Nodup)
    (hi : Settled (s.setState np .RUNNABLE)) (hfree : ∀ fd ∈ fds, s.ofile np fd = none) :
    ∃ s', forkLoop s p np fds = some s' ∧ Settled (s'.setState np .RUNNABLE) := by
  induction fds generalizing s with
  | nil => exact ⟨s, rfl, hi⟩
  | cons fd fds ih =>
      obtain ⟨hfd, hnd⟩ := List.nodup_cons.mp hnd
      simp only [forkLoop]
      cases ho : s.ofile p fd with
      | none => exact ih hnd hi fun fd' h' => hfree fd' (List.mem_cons_of_mem _ h')
      | some f =>
          have hpos : 0 < (s.file f).ref := by
            have hr := hi.ref f
            have := refs_pos (s := s.setState np .RUNNABLE) ho
            have hr' : (s.file f).ref = (s.setState np .RUNNABLE).refs f + 0 := hr
            omega
          obtain ⟨_, hb⟩ := filedup_spec hi hpos
          have hdup : filedup s f = some (s.setFile f fun g => { g with ref := g.ref + 1 }) :=
            if_neg (Nat.not_lt.mpr hpos)
          simp only [hdup]
          have hrun : (s.setState np .RUNNABLE).state np = .RUNNABLE := if_pos rfl
          refine ih hnd (hb.store hrun (hfree fd List.mem_cons_self)) fun fd' h' => ?_
          have : fd' ≠ fd := fun he => hfd (he ▸ h')
          simp only [Files.setOfile, this, and_false, if_false]
          exact hfree fd' (List.mem_cons_of_mem _ h')

theorem fork_spec (hi : Settled s) (mem : Bool) :
    ∃ r s', fork s p mem = some (r, s') ∧ Settled s' := by
  simp only [fork]
  split
  · exact ⟨_, _, rfl, hi⟩
  · next np hnp =>
      split
      · exact ⟨_, _, rfl, hi⟩
      · have hun : s.state np = .UNUSED := by simpa using List.find?_some hnp
        have hstart : Settled (s.setState np .RUNNABLE) := by
          refine ⟨hi.ref, ⟨hi.ends.none, hi.ends.pipe, hi.ends.one, hi.ends.backed,
            hi.ends.freed⟩, fun q hq => hi.idle q fun hr => hq ?_⟩
          simp only [Files.setState]
          split
          · rfl
          · exact hr
        obtain ⟨s', hl, hs'⟩ := forkLoop_spec (p := p) (List.nodup_finRange NOFILE) hstart
          fun fd _ => hi.idle np (by rw [hun]; nofun) fd
        exact ⟨_, _, by rw [hl]; rfl, hs'⟩

/-- `fileclose` does not look at the descriptors. -/
theorem fileclose_setOfile (s : Files) (f : Fidx) (p : Slot) (fd : Fd) (v : Option Fidx) :
    fileclose (s.setOfile p fd v) f = (fileclose s f).map fun s => s.setOfile p fd v := by
  simp only [fileclose]
  rw [show (s.setOfile p fd v).file = s.file from rfl]
  split
  · rfl
  · split
    · rfl
    · cases (s.file f).type with
      | FD_PIPE => simp only [pipeclose_eq, Option.map_some]; rfl
      | FD_INODE => rfl
      | FD_NONE => rfl

/-- The loop of `exit` closes the descriptors it visits. -/
theorem exitLoop_spec {fds : List Fd} (hnd : fds.Nodup) (hi : Settled s) :
    ∃ s', exitLoop s p fds = some s' ∧ Settled s' ∧ s'.state = s.state ∧
      (∀ fd ∈ fds, s'.ofile p fd = none) ∧
      ∀ fd, fd ∉ fds → s'.ofile p fd = s.ofile p fd := by
  induction fds generalizing s with
  | nil => exact ⟨s, rfl, hi, rfl, nofun, fun _ _ => rfl⟩
  | cons fd fds ih =>
      obtain ⟨hfd, hnd⟩ := List.nodup_cons.mp hnd
      simp only [exitLoop]
      cases ho : s.ofile p fd with
      | none =>
          obtain ⟨s', hl, hb, hst, hin, hout⟩ := ih hnd hi
          refine ⟨s', hl, hb, hst, fun fd' h' => ?_, fun fd' h' => ?_⟩
          · rcases List.mem_cons.mp h' with rfl | h'
            · rw [hout fd' hfd]; exact ho
            · exact hin fd' h'
          · exact hout fd' fun hm => h' (List.mem_cons_of_mem _ hm)
      | some f =>
          obtain ⟨s₁, hc, hb₁, hof, hst₁⟩ := fileclose_spec (hi.clear ho)
          rw [fileclose_setOfile] at hc
          obtain ⟨s₂, hc₂, rfl⟩ := Option.map_eq_some_iff.mp hc
          simp only [hc₂]
          obtain ⟨s', hl, hb, hst, hin, hout⟩ := ih hnd hb₁
          refine ⟨s', hl, hb, hst.trans hst₁, fun fd' h' => ?_, fun fd' h' => ?_⟩
          · rcases List.mem_cons.mp h' with rfl | h'
            · rw [hout fd' hfd, hof]
              simp [Files.setOfile]
            · exact hin fd' h'
          · rw [hout fd' fun hm => h' (List.mem_cons_of_mem _ hm), hof]
            have : fd' ≠ fd := fun he => h' (he ▸ List.mem_cons_self)
            simp [Files.setOfile, this]

/-- A process with no descriptors changes its state. -/
theorem Balanced.setState (hi : Settled s) (st : Procstate)
    (h : ∀ fd, s.ofile p fd = none) : Settled (s.setState p st) := by
  refine ⟨hi.ref, ⟨hi.ends.none, hi.ends.pipe, hi.ends.one, hi.ends.backed,
    hi.ends.freed⟩, fun q hq fd => ?_⟩
  by_cases he : q = p
  · subst he; exact h fd
  · refine hi.idle q (fun hr => hq ?_) fd
    simp only [Files.setState, if_neg he]
    exact hr

theorem exit_spec (hi : Settled s) (hp : p ≠ initproc) :
    ∃ s', exit s p = some s' ∧ Settled s' := by
  obtain ⟨s', hl, hb, _, hnone, _⟩ := exitLoop_spec (p := p) (List.nodup_finRange NOFILE) hi
  refine ⟨_, ?_, hb.setState .ZOMBIE fun fd => hnone fd (List.mem_finRange fd)⟩
  simp only [exit, if_neg hp, hl, Option.map_some]

/-- No call panics, except the exit of `init`, and every call keeps the books. -/
theorem call_spec (hi : Settled s) (hp : s.state p = .RUNNABLE) (c : FileCall)
    (hc : c = .exit → p ≠ initproc) : ∃ s', call s p c = some s' ∧ Settled s' := by
  cases c with
  | «open» ip omode =>
      obtain ⟨r, s', h, hs'⟩ := sysOpen_spec hi hp ip omode
      exact ⟨s', by simp only [call, h, Option.map_some], hs'⟩
  | pipe ptr page =>
      obtain ⟨r, s', h, hs'⟩ := sysPipe_spec hi hp ptr page
      exact ⟨s', by simp only [call, h, Option.map_some], hs'⟩
  | dup fd =>
      obtain ⟨r, s', h, hs'⟩ := sysDup_spec hi hp fd
      exact ⟨s', by simp only [call, h, Option.map_some], hs'⟩
  | close fd =>
      obtain ⟨r, s', h, hs'⟩ := sysClose_spec (p := p) hi fd
      exact ⟨s', by simp only [call, h, Option.map_some], hs'⟩
  | fork mem =>
      obtain ⟨r, s', h, hs'⟩ := fork_spec (p := p) hi mem
      exact ⟨s', by simp only [call, h, Option.map_some], hs'⟩
  | exit => exact exit_spec hi (hc rfl)

theorem settled_step {a : FileAct} (hi : Settled s) (h : step s a = some s') :
    Settled s' := by
  cases a with
  | call p c =>
      simp only [step] at h
      split at h
      · next hp =>
          have hc : c = .exit → p ≠ initproc := by
            rintro rfl rfl
            simp [call, exit] at h
          obtain ⟨s₁, h₁, hs₁⟩ := call_spec hi hp c hc
          rw [h] at h₁
          cases h₁
          exact hs₁
      · cases h
  | reap p =>
      simp only [step] at h
      split at h <;> cases h
      next hz => exact hi.setState .UNUSED fun fd => hi.idle p (by rw [hz]; nofun) fd

theorem settled_reach {ok : Files → FileAct → Prop} (h : Reach step ok Files.boot s) :
    Settled s :=
  h.invariant balanced_boot fun _ _ _ hi _ hs => settled_step hi hs

/-- Between system calls the reference counts are the numbers of descriptors,
an unused `struct file` is nobody's, an end of a pipe is open as long as it has a
file, and the page of a pipe is freed once, when both ends are closed. -/
theorem file_refs_exact (hr : Reach step anyStep Files.boot s) :
    (∀ f, (s.file f).ref =
      (Finset.univ.filter fun x : Slot × Fd => s.ofile x.1 x.2 = some f).card) ∧
    (∀ f, (s.file f).ref = 0 →
      (s.file f).type = .FD_NONE ∧ ∀ p fd, s.ofile p fd ≠ some f) ∧
    (∀ k < s.npipe,
      ((s.pipe k).readopen = true ↔ ∃ f, 0 < (s.file f).ref ∧
        (s.file f).type = .FD_PIPE ∧ (s.file f).pipe = k ∧ (s.file f).readable = true) ∧
      ((s.pipe k).writeopen = true ↔ ∃ f, 0 < (s.file f).ref ∧
        (s.file f).type = .FD_PIPE ∧ (s.file f).pipe = k ∧ (s.file f).writable = true) ∧
      (s.pipe k).freed =
        if (s.pipe k).readopen = false ∧ (s.pipe k).writeopen = false then 1 else 0) ∧
    ∀ p c, s.state p = .RUNNABLE → (c = .exit → p ≠ initproc) →
      (call s p c).isSome = true := by
  have hi := settled_reach hr
  have hlive : ∀ f k w, (s.file f).endOf k w → 0 < (s.file f).ref := by
    intro f k w he
    refine Nat.pos_of_ne_zero fun h0 => ?_
    exact absurd ((hi.ends.none f h0).symm.trans he.1) nofun
  have hends : ∀ k < s.npipe, ∀ w, (s.pipe k).isOpen w = true ↔
      ∃ f, 0 < (s.file f).ref ∧ (s.file f).endOf k w := by
    intro k hk w
    refine ⟨fun ho => ?_, fun ⟨f, _, he⟩ => (hi.ends.pipe f k w he).2.1⟩
    obtain ⟨f, hf⟩ := hi.ends.backed k w hk ho
    exact ⟨f, hlive f k w hf, hf⟩
  refine ⟨fun f => ?_, fun f h0 => ⟨hi.ends.none f h0, fun p fd ho => ?_⟩,
    fun k hk => ⟨?_, ?_, hi.ends.freed k hk⟩, fun p c hp hc => ?_⟩
  · have href := hi.ref f
    simp only [Nat.add_zero] at href
    rw [href, Files.refs, Finset.card_filter]
  · have := refs_pos ho
    have := hi.ref f
    omega
  · refine (hends k hk false).trans ⟨?_, ?_⟩
    · rintro ⟨f, hf, he⟩
      have := (hi.ends.pipe f k false he).2.2
      exact ⟨f, hf, he.1, he.2.1, by simpa using this⟩
    · rintro ⟨f, hf, ht, hpk, hread⟩
      have := (hi.ends.pipe f k _ ⟨ht, hpk, rfl⟩).2.2
      rw [hread] at this
      exact ⟨f, hf, ht, hpk, by simpa using this.symm⟩
  · exact hends k hk true
  · obtain ⟨s', h, _⟩ := call_spec hi hp c hc
    rw [h]
    rfl

/-- `init` makes a pipe, forks, closes its readable end, and the child exits. -/
def pipeToChild : List FileAct :=
  [.call 0 (.open (some 7) 2), .call 0 (.pipe true true), .call 0 (.fork true),
    .call 0 (.close 1), .call 1 .exit]

theorem file_refs_exact_pipe :
    ∃ s : Files, Reach step anyStep Files.boot s ∧ 0 < s.npipe ∧
      (s.pipe 0).readopen = false ∧ (s.pipe 0).freed = 0 ∧
      (s.file 2).ref =
        (Finset.univ.filter fun x : Slot × Fd => s.ofile x.1 x.2 = some 2).card := by
  have hrun : (exec step anyStep Files.boot pipeToChild).any (fun s =>
      0 < s.npipe ∧ (s.pipe 0).readopen = false ∧ (s.pipe 0).writeopen = true) = true := by
    decide +kernel
  obtain ⟨s, hr, hp⟩ := exists_reach_of_exec hrun
  obtain ⟨hk, hro, hw⟩ := of_decide_eq_true hp
  obtain ⟨href, _, hpipe, _⟩ := file_refs_exact hr
  have hfreed := (hpipe 0 hk).2.2
  rw [if_neg (by rw [hw]; nofun)] at hfreed
  exact ⟨s, hr, hk, hro, hfreed, href 2⟩

end Xv6.Ref.Ftable
