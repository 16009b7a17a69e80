import Xv6.Lib.Sum
import Xv6.Lib.Trans
import Xv6.Ref.Bio

/-!
# The buffer cache is a transparent single copy of the disk

The list is a ring of all the buffers, so the two loops of `bget` are searches among all
of them: a buffer is recycled only where none is for the block. What is in a valid buffer
that nobody is changing is what was last left in its block, and a block whose content is
not on the disk has a dirty buffer, which is not recycled.
-/

namespace Xv6.Ref.Bio

open Xv6.Lib

/-! ## The list -/

/-- The buffers are one circular doubly linked list. -/
def Bcache.Ring (c : Bcache) : Prop :=
  ∃ bs : List (Fin NBUF), bs.Nodup ∧ (∀ b, b ∈ bs) ∧ Segment c.next c.prev none bs none

theorem putFront_segment {c : Bcache} {b : Fin NBUF} {bs : List (Fin NBUF)}
    (h : Segment c.next c.prev none bs none) (hnd : bs.Nodup) (hb : b ∉ bs) :
    Segment (c.putFront b).next (c.putFront b).prev none (b :: bs) none :=
  h.pushFront hnd hb

theorem foldl_putFront_segment (bs : List (Fin NBUF)) {c : Bcache} {cs : List (Fin NBUF)}
    (h : Segment c.next c.prev none cs none) (hnd : (bs.reverse ++ cs).Nodup) :
    Segment (bs.foldl Bcache.putFront c).next (bs.foldl Bcache.putFront c).prev none
      (bs.reverse ++ cs) none := by
  induction bs generalizing c cs with
  | nil => exact h
  | cons b bs ih =>
      rw [List.reverse_cons, List.append_assoc] at hnd ⊢
      obtain ⟨hb, hcs⟩ := List.nodup_cons.mp (List.nodup_append.mp hnd).2.1
      exact ih (putFront_segment h hcs hb) hnd

theorem binit_ring : binit.Ring := by
  refine ⟨(List.finRange NBUF).reverse ++ [], ?_, ?_, foldl_putFront_segment _ ⟨rfl, rfl⟩ ?_⟩
  · simpa using List.nodup_finRange NBUF
  · simp
  · simpa using List.nodup_finRange NBUF

theorem foldl_putFront_buf (bs : List (Fin NBUF)) (c : Bcache) :
    (bs.foldl Bcache.putFront c).buf = c.buf ∧
      (bs.foldl Bcache.putFront c).refcnt = c.refcnt := by
  induction bs generalizing c with
  | nil => exact ⟨rfl, rfl⟩
  | cons b bs ih => exact ih (c.putFront b)

theorem binit_buf (b : Fin NBUF) : binit.buf b = DiskBuf.zero :=
  congrFun (foldl_putFront_buf _ _).1 b

theorem binit_refcnt (b : Fin NBUF) : binit.refcnt b = 0 :=
  congrFun (foldl_putFront_buf _ _).2 b

/-- A loop over the list, in either direction, is a search among all the buffers. -/
theorem scan_all {bs : List (Fin NBUF)} {next prev : Node → Node} (hnd : bs.Nodup)
    (hall : ∀ b, b ∈ bs) (hseg : Segment next prev none bs none) (test : Fin NBUF → Bool) :
    (∃ b, test b ∧ scan next test (NBUF + 1) (next none) = .found b) ∨
      (∀ b, test b = false) ∧ scan next test (NBUF + 1) (next none) = .missing := by
  have hlen : bs.length < NBUF + 1 := Nat.lt_succ_of_le (by simpa using hnd.length_le_card)
  rw [hseg.scan test hlen]
  cases hf : bs.find? test with
  | none =>
      right
      exact ⟨fun b => by simpa using List.find?_eq_none.mp hf b (hall b), rfl⟩
  | some b => exact Or.inl ⟨b, List.find?_some hf, rfl⟩

theorem Bcache.Ring.scan_next {c : Bcache} (h : c.Ring) (test : Fin NBUF → Bool) :
    (∃ b, test b ∧ scan c.next test (NBUF + 1) (c.next none) = .found b) ∨
      (∀ b, test b = false) ∧ scan c.next test (NBUF + 1) (c.next none) = .missing := by
  obtain ⟨bs, hnd, hall, hseg⟩ := h
  exact scan_all hnd hall hseg test

theorem Bcache.Ring.scan_prev {c : Bcache} (h : c.Ring) (test : Fin NBUF → Bool) :
    (∃ b, test b ∧ scan c.prev test (NBUF + 1) (c.prev none) = .found b) ∨
      (∀ b, test b = false) ∧ scan c.prev test (NBUF + 1) (c.prev none) = .missing := by
  obtain ⟨bs, hnd, hall, hseg⟩ := h
  exact scan_all (List.nodup_reverse.mpr hnd) (fun b => List.mem_reverse.mpr (hall b))
    hseg.reverse test

/-! ## The two sections -/

/-- The buffer for a block, with one more reference. -/
def Bcache.again (c : Bcache) (b : Fin NBUF) : Bcache :=
  { c with refcnt := Function.update c.refcnt b (c.refcnt b + 1) }

/-- A buffer that is now for another block. -/
def Bcache.recycle (c : Bcache) (b : Fin NBUF) (dev blockno : Nat) : Bcache :=
  { c with
    buf := Function.update c.buf b
      { c.buf b with dev := dev, blockno := blockno, valid := false, dirty := false }
    refcnt := Function.update c.refcnt b 1 }

/-- `bget` takes the buffer for the block, or an unused one if there is none. -/
theorem bget_cases {c : Bcache} (h : c.Ring) (dev blockno : Nat) :
    (∃ b, DiskBuf.isFor (c.buf b) dev blockno ∧ bget c dev blockno = .found b (c.again b)) ∨
      (∀ b, DiskBuf.isFor (c.buf b) dev blockno = false) ∧
        ((∃ b, c.unused b ∧ bget c dev blockno = .found b (c.recycle b dev blockno)) ∨
          bget c dev blockno = .noBuffers) := by
  rcases h.scan_next fun b => DiskBuf.isFor (c.buf b) dev blockno with
    ⟨b, hb, hs⟩ | ⟨hno, hs⟩
  · left
    refine ⟨b, hb, ?_⟩
    rw [bget, hs]
    rfl
  · right
    refine ⟨hno, ?_⟩
    rcases h.scan_prev c.unused with ⟨b, hb, ht⟩ | ⟨_, ht⟩
    · left
      refine ⟨b, hb, ?_⟩
      rw [bget, hs]
      dsimp only
      rw [ht]
      rfl
    · right
      rw [bget, hs]
      dsimp only
      rw [ht]

theorem brelse_buf (c : Bcache) (b : Fin NBUF) : (brelse c b).buf = c.buf := by
  rw [brelse]
  dsimp only
  split <;> rfl

theorem brelse_refcnt (c : Bcache) (b : Fin NBUF) :
    (brelse c b).refcnt = Function.update c.refcnt b (c.refcnt b - 1) := by
  rw [brelse]
  dsimp only
  split <;> rfl

theorem brelse_ring {c : Bcache} (h : c.Ring) (b : Fin NBUF) : (brelse c b).Ring := by
  rw [brelse]
  dsimp only
  split
  · obtain ⟨bs, hnd, hall, hseg⟩ := h
    obtain ⟨l, r, rfl⟩ := List.append_of_mem (hall b)
    have hperm : (b :: (l ++ r)).Perm (l ++ b :: r) := List.perm_middle.symm
    obtain ⟨hb, hlr⟩ := List.nodup_cons.mp (hperm.nodup_iff.mpr hnd)
    refine ⟨b :: (l ++ r), hperm.nodup_iff.mpr hnd, fun x => hperm.mem_iff.mpr (hall x), ?_⟩
    exact putFront_segment (hseg.unlink hnd) hlr hb
  · exact h

/-! ## The invariant -/

variable {P : Type} [DecidableEq P]

/-- The process has a reference to `b` and does not hold it. -/
def Pc.pending (b : Fin NBUF) : Pc → Prop
  | .waiting b' _ _ | .releasing b' => b' = b
  | _ => False

/-- The buffer and the block that a call of `bread` is for. -/
def Pc.request : Pc → Option (Fin NBUF × Nat × Nat)
  | .waiting b dev blockno | .locked b dev blockno | .returned b dev blockno =>
      some (b, dev, blockno)
  | _ => none

/-- The buffer that `bread` has and has not looked into. -/
def Pc.fetching (b : Fin NBUF) : Pc → Prop
  | .locked b' _ _ => b' = b
  | _ => False

/-- The buffer that `bread` has. -/
def Pc.taken (b : Fin NBUF) : Pc → Prop
  | .locked b' _ _ | .returned b' _ _ => b' = b
  | _ => False

/-- No block has two buffers. -/
def Single (buf : Fin NBUF → DiskBuf) : Prop :=
  ∀ b b', (buf b).dev ≠ 0 → (buf b).dev = (buf b').dev → (buf b).blockno = (buf b').blockno →
    b = b'

/-- One buffer, `left` being what was left in the blocks. -/
structure BufOk (left : Nat → Nat → Block) (v : DiskBuf) (unsaved : Bool) : Prop where
  dirty : v.dirty → v.valid
  disk1 : v.valid → v.dev = 1
  content : v.valid → unsaved = false → v.data = left v.dev v.blockno

/-- A block is on the disk, or there is a dirty buffer for it. -/
def Stored (disk : Disk) (left : Nat → Nat → Block) (buf : Fin NBUF → DiskBuf) : Prop :=
  ∀ n, disk n = left 1 n ∨ ∃ b, (buf b).dirty ∧ (buf b).dev = 1 ∧ (buf b).blockno = n

/-- Every reference is the holder's or a pending one. -/
def Refs (refcnt : Fin NBUF → Nat) (lock : Fin NBUF → Option P) (pc : P → Pc) : Prop :=
  ∀ b, ∃ n, Counted (fun p => (pc p).pending b) n ∧ refcnt b = n + (lock b).isSome.toNat

/-- One process and the buffers it has. -/
structure PcOk (buf : Fin NBUF → DiskBuf) (lock : Fin NBUF → Option P) (unsaved : Fin NBUF → Bool)
    (p : P) (pc : Pc) : Prop where
  request : ∀ b dev blockno, pc.request = some (b, dev, blockno) →
    (buf b).dev = dev ∧ (buf b).blockno = blockno
  taken : ∀ b, pc.taken b → lock b = some p ∧ unsaved b = false
  ready : ∀ b, lock b = some p → (buf b).valid ∨ pc.fetching b

structure BioInv (s : State P) : Prop where
  ring : s.cache.Ring
  single : Single s.cache.buf
  bufs : ∀ b, BufOk s.left (s.cache.buf b) (s.unsaved b)
  unsaved : ∀ b, s.unsaved b → s.lock b ≠ none
  stored : Stored s.disk s.left s.cache.buf
  refs : Refs s.cache.refcnt s.lock s.pc
  procs : ∀ p, PcOk s.cache.buf s.lock s.unsaved p (s.pc p)

omit [DecidableEq P] in
theorem bioInv_init (disk : Disk) : BioInv (State.init P disk) := by
  have hbuf : ∀ b, (State.init P disk).cache.buf b = DiskBuf.zero := binit_buf
  refine ⟨binit_ring, fun b b' h => ?_, fun b => ?_, nofun, fun n => Or.inl rfl, fun b => ?_,
    fun p => ⟨nofun, nofun, nofun⟩⟩
  · exact absurd (congrArg DiskBuf.dev (hbuf b)) h
  · rw [hbuf b]
    exact ⟨nofun, nofun, nofun⟩
  · exact ⟨0, Counted.zero fun _ => id, binit_refcnt b⟩

/-! ## What a change of one buffer or of one process keeps -/

section

variable {buf : Fin NBUF → DiskBuf} {lock : Fin NBUF → Option P} {unsaved : Fin NBUF → Bool}
  {refcnt : Fin NBUF → Nat} {pc : P → Pc} {left : Nat → Nat → Block} {disk : Disk}
  {p : P} {b : Fin NBUF} {v : DiskBuf} {x : Pc}

theorem Pc.not_pending_of_outside (h : x.outside) (b : Fin NBUF) : ¬ x.pending b := by
  cases x <;> first | exact id | cases h

theorem Pc.not_fetching_of_outside (h : x.outside) (b : Fin NBUF) : ¬ x.fetching b := by
  cases x <;> first | exact id | cases h

/-- A request is pending or its buffer is taken. -/
theorem Pc.pending_or_taken {dev blockno : Nat} (h : x.request = some (b, dev, blockno)) :
    x.pending b ∨ x.taken b := by
  cases x with
  | waiting b' _ _ => cases h; exact Or.inl rfl
  | locked b' _ _ => cases h; exact Or.inr rfl
  | returned b' _ _ => cases h; exact Or.inr rfl
  | running => cases h
  | releasing b' => cases h

theorem Single.update (h : Single buf) (hd : v.dev = (buf b).dev)
    (hn : v.blockno = (buf b).blockno) : Single (Function.update buf b v) := by
  have hdev : ∀ c, (Function.update buf b v c).dev = (buf c).dev := by
    intro c
    rcases eq_or_ne c b with rfl | hc
    · rw [Function.update_self, hd]
    · rw [Function.update_of_ne hc]
  have hno : ∀ c, (Function.update buf b v c).blockno = (buf c).blockno := by
    intro c
    rcases eq_or_ne c b with rfl | hc
    · rw [Function.update_self, hn]
    · rw [Function.update_of_ne hc]
  intro c c'
  rw [hdev, hdev, hno, hno]
  exact h c c'

theorem Stored.update (h : Stored disk left buf)
    (hb : (buf b).dirty → v.dirty ∧ v.dev = (buf b).dev ∧ v.blockno = (buf b).blockno) :
    Stored disk left (Function.update buf b v) := by
  intro n
  rcases h n with hd | ⟨c, hc, hc1, hcn⟩
  · exact Or.inl hd
  · refine Or.inr ⟨c, ?_⟩
    rcases eq_or_ne c b with rfl | hne
    · obtain ⟨h1, h2, h3⟩ := hb hc
      rw [Function.update_self]
      exact ⟨h1, h2.trans hc1, h3.trans hcn⟩
    · rw [Function.update_of_ne hne]
      exact ⟨hc, hc1, hcn⟩

omit [DecidableEq P] in
/-- A buffer that stays for its block and valid. -/
theorem PcOk.update (h : PcOk buf lock unsaved p x) (hd : v.dev = (buf b).dev)
    (hn : v.blockno = (buf b).blockno) (hv : (buf b).valid → v.valid) :
    PcOk (Function.update buf b v) lock unsaved p x := by
  refine ⟨fun c dev blockno hc => ?_, h.taken, fun c hc => ?_⟩
  · rcases eq_or_ne c b with rfl | hne
    · rw [Function.update_self, hd, hn]
      exact h.request c dev blockno hc
    · rw [Function.update_of_ne hne]
      exact h.request c dev blockno hc
  · rcases eq_or_ne c b with rfl | hne
    · rw [Function.update_self]
      exact (h.ready c hc).imp_left hv
    · rw [Function.update_of_ne hne]
      exact h.ready c hc

theorem procs_goto (h : ∀ q ≠ p, PcOk buf lock unsaved q (pc q))
    (hp : PcOk buf lock unsaved p x) (q : P) :
    PcOk buf lock unsaved q (Function.update pc p x q) := by
  rcases eq_or_ne q p with rfl | hq
  · rw [Function.update_self]
    exact hp
  · rw [Function.update_of_ne hq]
    exact h q hq

theorem counted_goto {n : Nat} (h : Counted (fun q => (pc q).pending b) n)
    (hx : x.pending b ↔ (pc p).pending b) :
    Counted (fun q => (Function.update pc p x q).pending b) n := by
  refine h.congr fun q => ?_
  rcases eq_or_ne q p with rfl | hq
  · rw [Function.update_self, hx]
  · rw [Function.update_of_ne hq]

theorem counted_goto_add {n : Nat} (h : Counted (fun q => (pc q).pending b) n)
    (hp : ¬ (pc p).pending b) (hx : x.pending b) :
    Counted (fun q => (Function.update pc p x q).pending b) (n + 1) := by
  refine h.add hp fun q => ?_
  rcases eq_or_ne q p with rfl | hq
  · simp [hx]
  · simp [hq]

theorem counted_goto_remove {n : Nat} (h : Counted (fun q => (pc q).pending b) n)
    (hp : (pc p).pending b) (hx : ¬ x.pending b) :
    Counted (fun q => (Function.update pc p x q).pending b) (n - 1) := by
  refine h.remove hp fun q => ?_
  rcases eq_or_ne q p with rfl | hq
  · simp [hx]
  · simp [hq]

/-- A move that changes no reference. -/
theorem Refs.goto (h : Refs refcnt lock pc) (hx : ∀ b, x.pending b ↔ (pc p).pending b) :
    Refs refcnt lock (Function.update pc p x) := by
  intro b
  obtain ⟨n, hn, href⟩ := h b
  exact ⟨n, counted_goto hn (hx b), href⟩

end

/-! ## Steps -/

section

variable {s : State P} {p : P} {b : Fin NBUF}

omit [DecidableEq P] in
/-- A holder that `bread` has returned to has a valid buffer. -/
theorem BioInv.valid_of_lock (h : BioInv s) (hout : (s.pc p).outside) (hl : s.lock b = some p) :
    (s.cache.buf b).valid :=
  ((h.procs p).ready b hl).resolve_right (Pc.not_fetching_of_outside hout b)

omit [DecidableEq P] in
theorem BioInv.free_of_refcnt (h : BioInv s) (hb : s.cache.refcnt b = 0) :
    s.lock b = none ∧ s.unsaved b = false ∧ (∀ p, ¬ (s.pc p).pending b) ∧
      ∀ p, ¬ (s.pc p).taken b := by
  obtain ⟨n, hn, href⟩ := h.refs b
  have hl : s.lock b = none := by
    cases hb' : s.lock b with
    | none => rfl
    | some p =>
        rw [hb', Option.isSome_some, Bool.toNat_true] at href
        omega
  refine ⟨hl, ?_, fun p hp => ?_, fun p hp => ?_⟩
  · by_contra hu
    exact h.unsaved b (by simpa using hu) hl
  · have := hn.pos hp
    omega
  · have := ((h.procs p).taken b hp).1
    rw [hl] at this
    cases this

theorem BioInv.again (h : BioInv s) (hout : (s.pc p).outside) {dev blockno : Nat}
    (hb : DiskBuf.isFor (s.cache.buf b) dev blockno) :
    BioInv ({ s with cache := s.cache.again b }.goto p (.waiting b dev blockno)) := by
  have hfor : (s.cache.buf b).dev = dev ∧ (s.cache.buf b).blockno = blockno := by
    simpa [DiskBuf.isFor] using hb
  have hnot := Pc.not_pending_of_outside hout
  refine ⟨h.ring, h.single, h.bufs, h.unsaved, h.stored, fun c => ?_,
    procs_goto (fun q _ => h.procs q) ⟨?_, nofun, fun c hc => Or.inl (h.valid_of_lock hout hc)⟩⟩
  · obtain ⟨n, hn, href⟩ := h.refs c
    rcases eq_or_ne c b with rfl | hc
    · refine ⟨n + 1, counted_goto_add hn (hnot c) rfl, ?_⟩
      show Function.update s.cache.refcnt c _ c = _
      rw [Function.update_self, href, Nat.add_right_comm]
      rfl
    · refine ⟨n, counted_goto hn (iff_of_false hc.symm (hnot c)), ?_⟩
      show Function.update s.cache.refcnt b _ c = _
      rw [Function.update_of_ne hc]
      exact href
  · rintro c d n ⟨rfl⟩
    exact hfor

theorem BioInv.recycle (h : BioInv s) (hout : (s.pc p).outside) {dev blockno : Nat}
    (hno : ∀ c, DiskBuf.isFor (s.cache.buf c) dev blockno = false) (hb : s.cache.unused b) :
    BioInv ({ s with cache := s.cache.recycle b dev blockno }.goto p
      (.waiting b dev blockno)) := by
  obtain ⟨href0, hclean⟩ : s.cache.refcnt b = 0 ∧ (s.cache.buf b).dirty = false := by
    simpa [Bcache.unused] using hb
  obtain ⟨hl, hu, hpend, htaken⟩ := h.free_of_refcnt href0
  have hnew : ∀ c, (s.cache.buf c).dev = dev → (s.cache.buf c).blockno ≠ blockno := by
    intro c hd hn
    have := hno c
    simp [DiskBuf.isFor, hd, hn] at this
  have hother : ∀ c ≠ b, (s.cache.recycle b dev blockno).buf c = s.cache.buf c :=
    fun c hc => Function.update_of_ne hc ..
  have hself : (s.cache.recycle b dev blockno).buf b =
      { s.cache.buf b with dev := dev, blockno := blockno, valid := false, dirty := false } :=
    Function.update_self ..
  refine ⟨h.ring, fun c c' => ?_, fun c => ?_, h.unsaved, ?_, fun c => ?_,
    procs_goto (fun q _ => ⟨fun c d n hq => ?_, (h.procs q).taken, fun c hc => ?_⟩)
      ⟨?_, nofun, fun c hc => ?_⟩⟩
  · dsimp only [State.goto]
    by_cases hc : c = b <;> by_cases hc' : c' = b
    · exact fun _ _ _ => hc.trans hc'.symm
    · rw [hc, hself, hother c' hc']
      exact fun _ hd hn => absurd hn.symm (hnew c' hd.symm)
    · rw [hc', hself, hother c hc]
      exact fun _ hd hn => absurd hn (hnew c hd)
    · rw [hother c hc, hother c' hc']
      exact h.single c c'
  · dsimp only [State.goto]
    rcases eq_or_ne c b with rfl | hc
    · rw [hself]
      exact ⟨nofun, nofun, nofun⟩
    · rw [hother c hc]
      exact h.bufs c
  · exact h.stored.update fun hd => by rw [hclean] at hd; cases hd
  · rcases eq_or_ne c b with rfl | hc
    · refine ⟨1, counted_goto_add (Counted.zero hpend) (hpend p) rfl, ?_⟩
      show Function.update s.cache.refcnt c 1 c = 1 + (s.lock c).isSome.toNat
      rw [Function.update_self, hl]
      rfl
    · obtain ⟨n, hn, href⟩ := h.refs c
      refine ⟨n, counted_goto hn (iff_of_false hc.symm (Pc.not_pending_of_outside hout c)), ?_⟩
      show Function.update s.cache.refcnt b 1 c = _
      rw [Function.update_of_ne hc]
      exact href
  · have hc : c ≠ b := by
      rintro rfl
      exact (Pc.pending_or_taken hq).elim (hpend q) (htaken q)
    dsimp only [State.goto]
    rw [hother c hc]
    exact (h.procs q).request c d n hq
  · dsimp only [State.goto] at hc ⊢
    rw [hother c (by rintro rfl; rw [hl] at hc; cases hc)]
    exact (h.procs q).ready c hc
  · rintro c d n ⟨rfl⟩
    dsimp only [State.goto]
    rw [hself]
    exact ⟨rfl, rfl⟩
  · dsimp only [State.goto] at hc ⊢
    rw [hother c (by rintro rfl; rw [hl] at hc; cases hc)]
    exact Or.inl (h.valid_of_lock hout hc)

theorem BioInv.acquiresleep (h : BioInv s) {dev blockno : Nat}
    (hp : s.pc p = .waiting b dev blockno) (hl : s.lock b = none) :
    BioInv ({ s with lock := Function.update s.lock b (some p) }.goto p
      (.locked b dev blockno)) := by
  have hu : s.unsaved b = false := by
    by_contra hu
    exact h.unsaved b (by simpa using hu) hl
  have hother : ∀ q c, c ≠ b → Function.update s.lock b (some p) c = some q → s.lock c = some q :=
    fun q c hc => by rw [Function.update_of_ne hc]; exact id
  have hpend : (s.pc p).pending b := by rw [hp]; rfl
  refine ⟨h.ring, h.single, h.bufs, fun c hc => ?_, h.stored, fun c => ?_,
    procs_goto (fun q hq => ⟨(h.procs q).request, fun c hc => ?_, fun c hc => ?_⟩)
      ⟨?_, ?_, fun c hc => ?_⟩⟩
  · dsimp only [State.goto]
    rcases eq_or_ne c b with rfl | hne
    · rw [Function.update_self]
      exact nofun
    · rw [Function.update_of_ne hne]
      exact h.unsaved c hc
  · obtain ⟨n, hn, href⟩ := h.refs c
    dsimp only [State.goto]
    rcases eq_or_ne c b with rfl | hne
    · refine ⟨n - 1, counted_goto_remove hn hpend id, ?_⟩
      have := hn.pos hpend
      rw [href, hl, Function.update_self, Option.isSome_none, Option.isSome_some,
        Bool.toNat_true, Bool.toNat_false]
      omega
    · refine ⟨n, counted_goto hn (iff_of_false id ?_), ?_⟩
      · rw [hp]
        exact hne.symm
      · rw [Function.update_of_ne hne]
        exact href
  · obtain ⟨hlc, huc⟩ := (h.procs q).taken c hc
    have hne : c ≠ b := by rintro rfl; rw [hl] at hlc; cases hlc
    dsimp only [State.goto]
    rw [Function.update_of_ne hne]
    exact ⟨hlc, huc⟩
  · have hne : c ≠ b := by
      rintro rfl
      dsimp only [State.goto] at hc
      rw [Function.update_self] at hc
      exact hq (Option.some.inj hc).symm
    exact (h.procs q).ready c (hother q c hne hc)
  · intro c d n hq
    exact (h.procs p).request c d n (by rw [hp]; exact hq)
  · rintro c rfl
    exact ⟨Function.update_self .., hu⟩
  · rcases eq_or_ne c b with rfl | hne
    · exact Or.inr rfl
    · refine Or.inl (((h.procs p).ready c (hother p c hne hc)).resolve_right ?_)
      rw [hp]
      exact id

/-- `iderw` of a clean buffer reads the block. -/
theorem iderw_read {v : DiskBuf} (hclean : v.dirty = false) {disksize : Nat} {t : State P}
    (ht : s.iderw disksize p b v = some t) :
    v.dev = 1 ∧ t = s.setBuf b { v with data := s.disk v.blockno, valid := true } := by
  rw [State.iderw, memIderw] at ht
  split at ht
  · next hr =>
      split at hr
      · cases hr
      split at hr
      · cases hr
      split at hr
      · cases hr
      next hdev =>
      split at hr
      · cases hr
      rw [if_neg (by rw [hclean]; nofun)] at hr
      cases hr
      cases ht
      exact ⟨not_not.mp hdev, rfl⟩
  · cases ht

/-- `iderw` of a dirty buffer writes the block. -/
theorem iderw_write {v : DiskBuf} (hdirty : v.dirty = true) {disksize : Nat} {t : State P}
    (ht : s.iderw disksize p b v = some t) :
    t = { s.setBuf b { v with dirty := false, valid := true } with
      disk := Function.update s.disk v.blockno v.data } := by
  rw [State.iderw, memIderw] at ht
  split at ht
  · next hr =>
      split at hr
      · cases hr
      split at hr
      · cases hr
      split at hr
      · cases hr
      split at hr
      · cases hr
      cases hr
      cases ht
      rfl
  · cases ht

/-- `bread` returns the buffer that it finds valid. -/
theorem BioInv.hit (h : BioInv s) {dev blockno : Nat} (hp : s.pc p = .locked b dev blockno)
    (hv : (s.cache.buf b).valid) : BioInv (s.goto p (.returned b dev blockno)) := by
  refine ⟨h.ring, h.single, h.bufs, h.unsaved, h.stored,
    h.refs.goto fun c => by rw [hp]; exact Iff.rfl, procs_goto (fun q _ => h.procs q)
      ⟨fun c d n hq => ?_, fun c hc => ?_, fun c hc => ?_⟩⟩
  · exact (h.procs p).request c d n (by rw [hp]; exact hq)
  · exact (h.procs p).taken c (by rw [hp]; exact hc)
  · rcases (h.procs p).ready c hc with hc | hc
    · exact Or.inl hc
    · rw [hp] at hc
      cases hc
      exact Or.inl hv

/-- `bread` reads the block into a buffer that is not valid. -/
theorem BioInv.miss (h : BioInv s) {dev blockno : Nat} (hp : s.pc p = .locked b dev blockno)
    (hv : (s.cache.buf b).valid = false) {disksize : Nat} {t : State P}
    (ht : s.iderw disksize p b (s.cache.buf b) = some t) :
    BioInv (t.goto p (.returned b dev blockno)) := by
  have hclean : (s.cache.buf b).dirty = false := by
    by_contra hd
    have := (h.bufs b).dirty (by simpa using hd)
    rw [hv] at this
    cases this
  obtain ⟨hdev, rfl⟩ : (s.cache.buf b).dev = 1 ∧ t = s.setBuf b
      { s.cache.buf b with data := s.disk (s.cache.buf b).blockno, valid := true } :=
    iderw_read hclean ht
  have hleft : s.disk (s.cache.buf b).blockno = s.left 1 (s.cache.buf b).blockno := by
    refine (h.stored _).resolve_right ?_
    rintro ⟨c, hc, hc1, hcn⟩
    obtain rfl : c = b := h.single c b (by omega) (hc1.trans hdev.symm) hcn
    rw [hclean] at hc
    cases hc
  have hproc : ∀ q, PcOk (Function.update s.cache.buf b _) s.lock s.unsaved q (s.pc q) :=
    fun q => (h.procs q).update (v := { s.cache.buf b with
      data := s.disk (s.cache.buf b).blockno, valid := true }) rfl rfl fun _ => rfl
  refine ⟨h.ring, h.single.update rfl rfl, fun c => ?_, h.unsaved,
    h.stored.update fun hd => ⟨hd, rfl, rfl⟩, h.refs.goto fun c => by rw [hp]; exact Iff.rfl,
    procs_goto (fun q _ => hproc q) ⟨fun c d n hq => ?_, fun c hc => ?_, fun c hc => ?_⟩⟩
  · dsimp only [State.goto, State.setBuf]
    rcases eq_or_ne c b with rfl | hc
    · rw [Function.update_self]
      refine ⟨fun _ => rfl, fun _ => hdev, fun _ _ => ?_⟩
      show s.disk (s.cache.buf c).blockno = s.left (s.cache.buf c).dev (s.cache.buf c).blockno
      rw [hdev]
      exact hleft
    · rw [Function.update_of_ne hc]
      exact h.bufs c
  · exact (hproc p).request c d n (by rw [hp]; exact hq)
  · exact (hproc p).taken c (by rw [hp]; exact hc)
  · rcases (hproc p).ready c hc with hc | hc
    · exact Or.inl hc
    · rw [hp] at hc
      cases hc
      dsimp only [State.goto, State.setBuf]
      rw [Function.update_self]
      exact Or.inl rfl

omit [DecidableEq P] in
/-- A process outside that holds `b` is the only one that has it. -/
theorem BioInv.not_taken (h : BioInv s) (hl : s.lock b = some p) {q : P} (hq : q ≠ p) :
    ¬ (s.pc q).taken b := by
  intro ht
  have := ((h.procs q).taken b ht).1
  rw [hl] at this
  exact hq (Option.some.inj this).symm

omit [DecidableEq P] in
theorem BioInv.running (h : BioInv s) (hout : (s.pc p).outside) :
    PcOk s.cache.buf s.lock s.unsaved p .running :=
  ⟨nofun, nofun, fun _ hc => Or.inl (h.valid_of_lock hout hc)⟩

theorem BioInv.modify (h : BioInv s) (hout : (s.pc p).outside) (hl : s.lock b = some p)
    (data : Block) :
    BioInv ({ s.setBuf b { s.cache.buf b with data := data } with
      unsaved := Function.update s.unsaved b true }.goto p .running) := by
  have hmark : ∀ q x, PcOk s.cache.buf s.lock s.unsaved q x → ¬ x.taken b →
      PcOk s.cache.buf s.lock (Function.update s.unsaved b true) q x := by
    intro q x hx hb
    refine ⟨hx.request, fun c hc => ?_, hx.ready⟩
    rw [Function.update_of_ne (by rintro rfl; exact hb hc)]
    exact hx.taken c hc
  refine ⟨h.ring, h.single.update rfl rfl, fun c => ?_, fun c hc => ?_,
    h.stored.update fun hd => ⟨hd, rfl, rfl⟩,
    h.refs.goto fun c => iff_of_false id (Pc.not_pending_of_outside hout c),
    procs_goto (fun q hq => ?_) ?_⟩
  · dsimp only [State.goto, State.setBuf]
    rcases eq_or_ne c b with rfl | hc
    · rw [Function.update_self, Function.update_self]
      exact ⟨(h.bufs c).dirty, (h.bufs c).disk1, nofun⟩
    · rw [Function.update_of_ne hc, Function.update_of_ne hc]
      exact h.bufs c
  · dsimp only [State.goto, State.setBuf] at hc ⊢
    rcases eq_or_ne c b with rfl | hne
    · rw [hl]
      exact nofun
    · rw [Function.update_of_ne hne] at hc
      exact h.unsaved c hc
  · exact (hmark q _ (h.procs q) (h.not_taken hl hq)).update rfl rfl id
  · exact (hmark p _ (h.running hout) id).update rfl rfl id

/-- What is left in a block after `b` was written. -/
def leave (left : Nat → Nat → Block) (v : DiskBuf) : Nat → Nat → Block :=
  Function.update left v.dev (Function.update (left v.dev) v.blockno v.data)

theorem leave_self (left : Nat → Nat → Block) (v : DiskBuf) :
    leave left v v.dev v.blockno = v.data := by
  rw [leave, Function.update_self, Function.update_self]

theorem leave_other (left : Nat → Nat → Block) {v : DiskBuf} {dev n : Nat}
    (h : dev = v.dev → n ≠ v.blockno) : leave left v dev n = left dev n := by
  rw [leave]
  by_cases hd : dev = v.dev
  · rw [hd, Function.update_self, Function.update_of_ne (h hd)]
  · rw [Function.update_of_ne hd]

/-- The holder of `b` leaves its content in the block, on the disk or in a dirty buffer. -/
theorem BioInv.save (h : BioInv s) (hout : (s.pc p).outside) (hl : s.lock b = some p)
    {dirty : Bool} {disk : Disk}
    (hst : Stored disk (leave s.left (s.cache.buf b))
      (Function.update s.cache.buf b { s.cache.buf b with dirty := dirty, valid := true })) :
    BioInv (({ s.setBuf b { s.cache.buf b with dirty := dirty, valid := true } with
      disk := disk }.keep b (s.cache.buf b)).goto p .running) := by
  have hdev := (h.bufs b).disk1 (h.valid_of_lock hout hl)
  have hclear : ∀ q x, PcOk s.cache.buf s.lock s.unsaved q x →
      PcOk s.cache.buf s.lock (Function.update s.unsaved b false) q x := by
    intro q x hx
    refine ⟨hx.request, fun c hc => ⟨(hx.taken c hc).1, ?_⟩, hx.ready⟩
    rcases eq_or_ne c b with rfl | hne
    · exact Function.update_self ..
    · rw [Function.update_of_ne hne]
      exact (hx.taken c hc).2
  refine ⟨h.ring, h.single.update rfl rfl, fun c => ?_, fun c hc => ?_, hst,
    h.refs.goto fun c => iff_of_false id (Pc.not_pending_of_outside hout c),
    procs_goto (fun q hq => ?_) ?_⟩
  · show BufOk (leave s.left (s.cache.buf b)) (Function.update s.cache.buf b _ c)
      (Function.update s.unsaved b false c)
    rcases eq_or_ne c b with rfl | hc
    · rw [Function.update_self, Function.update_self]
      exact ⟨fun _ => rfl, fun _ => hdev, fun _ _ => (leave_self ..).symm⟩
    · rw [Function.update_of_ne hc, Function.update_of_ne hc]
      refine ⟨(h.bufs c).dirty, (h.bufs c).disk1, fun hv hu => ?_⟩
      rw [leave_other]
      · exact (h.bufs c).content hv hu
      · intro hd hn
        exact hc (h.single c b (by rw [(h.bufs c).disk1 hv]; omega) hd hn)
  · dsimp only [State.goto, State.keep, State.setBuf] at hc ⊢
    rcases eq_or_ne c b with rfl | hne
    · rw [hl]
      exact nofun
    · rw [Function.update_of_ne hne] at hc
      exact h.unsaved c hc
  · exact (hclear q _ (h.procs q)).update rfl rfl fun _ => rfl
  · exact (hclear p _ (h.running hout)).update rfl rfl fun _ => rfl

theorem BioInv.logWrite (h : BioInv s) (hout : (s.pc p).outside) (hl : s.lock b = some p) :
    BioInv (((s.setBuf b { s.cache.buf b with dirty := true }).keep b (s.cache.buf b)).goto p
      .running) := by
  have hv := h.valid_of_lock hout hl
  have hdev := (h.bufs b).disk1 hv
  have hsame : { s.cache.buf b with dirty := true } =
      { s.cache.buf b with dirty := true, valid := true } := by
    dsimp only
    rw [hv]
  rw [hsame]
  refine h.save hout hl fun n => ?_
  by_cases hn : n = (s.cache.buf b).blockno
  · right
    refine ⟨b, ?_⟩
    rw [Function.update_self]
    exact ⟨rfl, hdev, hn.symm⟩
  · rw [leave_other _ fun _ => hn]
    exact h.stored.update (b := b) (v := { s.cache.buf b with dirty := true, valid := true })
      (fun _ => ⟨rfl, rfl, rfl⟩) n

theorem BioInv.bwrite (h : BioInv s) (hout : (s.pc p).outside) (hl : s.lock b = some p)
    {disksize : Nat} {t : State P}
    (ht : s.iderw disksize p b { s.cache.buf b with dirty := true } = some t) :
    BioInv ((t.keep b (s.cache.buf b)).goto p .running) := by
  have hdev := (h.bufs b).disk1 (h.valid_of_lock hout hl)
  obtain rfl := iderw_write rfl ht
  refine h.save hout hl fun n => ?_
  by_cases hn : n = (s.cache.buf b).blockno
  · left
    rw [hn, Function.update_self, ← hdev, leave_self]
  · rw [leave_other _ fun _ => hn, Function.update_of_ne hn]
    rcases h.stored n with hd | ⟨c, hc, hc1, hcn⟩
    · exact Or.inl hd
    · refine Or.inr ⟨c, ?_⟩
      rw [Function.update_of_ne (by rintro rfl; exact hn hcn.symm)]
      exact ⟨hc, hc1, hcn⟩

theorem BioInv.releasesleep (h : BioInv s) (hout : (s.pc p).outside) (hl : s.lock b = some p)
    (hu : s.unsaved b = false) :
    BioInv ({ s with lock := Function.update s.lock b none }.goto p (.releasing b)) := by
  have hother : ∀ c q, Function.update s.lock b none c = some q → s.lock c = some q := by
    intro c q hc
    rcases eq_or_ne c b with rfl | hne
    · rw [Function.update_self] at hc
      cases hc
    · rwa [Function.update_of_ne hne] at hc
  refine ⟨h.ring, h.single, h.bufs, fun c hc => ?_, h.stored, fun c => ?_,
    procs_goto (fun q hq => ⟨(h.procs q).request, fun c hc => ?_, fun c hc => ?_⟩)
      ⟨nofun, nofun, fun c hc => Or.inl (h.valid_of_lock hout (hother c p hc))⟩⟩
  · have hne : c ≠ b := by
      rintro rfl
      rw [show s.unsaved c = true from hc] at hu
      cases hu
    dsimp only [State.goto]
    rw [Function.update_of_ne hne]
    exact h.unsaved c hc
  · obtain ⟨n, hn, href⟩ := h.refs c
    have hnot := Pc.not_pending_of_outside hout c
    dsimp only [State.goto]
    rcases eq_or_ne c b with rfl | hne
    · refine ⟨n + 1, counted_goto_add hn hnot rfl, ?_⟩
      rw [href, hl, Function.update_self]
      rfl
    · refine ⟨n, counted_goto hn (iff_of_false hne.symm hnot), ?_⟩
      rw [Function.update_of_ne hne]
      exact href
  · have hne : c ≠ b := by
      rintro rfl
      exact h.not_taken hl hq hc
    dsimp only [State.goto]
    rw [Function.update_of_ne hne]
    exact (h.procs q).taken c hc
  · exact (h.procs q).ready c (hother c q hc)

theorem BioInv.drop (h : BioInv s) (hp : s.pc p = .releasing b) :
    BioInv ({ s with cache := brelse s.cache b }.goto p .running) := by
  have hbuf : (brelse s.cache b).buf = s.cache.buf := brelse_buf s.cache b
  have hpend : (s.pc p).pending b := by rw [hp]; rfl
  refine ⟨brelse_ring h.ring b, ?_, fun c => ?_, h.unsaved, ?_, fun c => ?_,
    procs_goto (fun q _ => ?_) ?_⟩
  · dsimp only [State.goto]
    rw [hbuf]
    exact h.single
  · dsimp only [State.goto]
    rw [hbuf]
    exact h.bufs c
  · dsimp only [State.goto]
    rw [hbuf]
    exact h.stored
  · obtain ⟨n, hn, href⟩ := h.refs c
    dsimp only [State.goto]
    rw [brelse_refcnt]
    rcases eq_or_ne c b with rfl | hne
    · refine ⟨n - 1, counted_goto_remove hn hpend id, ?_⟩
      have := hn.pos hpend
      rw [Function.update_self, href]
      omega
    · refine ⟨n, counted_goto hn (iff_of_false id ?_), ?_⟩
      · rw [hp]
        exact hne.symm
      · rw [Function.update_of_ne hne]
        exact href
  · dsimp only [State.goto]
    rw [hbuf]
    exact h.procs q
  · dsimp only [State.goto]
    rw [hbuf]
    refine ⟨nofun, nofun, fun c hc => ((h.procs p).ready c hc).imp_right ?_⟩
    rw [hp]
    exact id

end

theorem bioInv_step {disksize : Nat} {s s' : State P} {a : P × Action} (h : BioInv s)
    (hok : savesFirst s a) (hs : step disksize s a = some s') : BioInv s' := by
  obtain ⟨p, a⟩ := a
  cases a with
  | bread dev blockno =>
      dsimp only [step] at hs
      split at hs
      · next hout =>
          rcases bget_cases h.ring dev blockno with ⟨b, hb, hg⟩ | ⟨hno, ⟨b, hb, hg⟩ | hg⟩
          · rw [hg] at hs
            cases hs
            exact h.again hout hb
          · rw [hg] at hs
            cases hs
            exact h.recycle hout hno hb
          · rw [hg] at hs
            cases hs
      · cases hs
  | acquiresleep =>
      dsimp only [step] at hs
      split at hs
      · next b dev blockno hp =>
          split at hs
          · next hl =>
              cases hs
              exact h.acquiresleep hp hl
          · cases hs
      · cases hs
  | fetch =>
      dsimp only [step] at hs
      split at hs
      · next b dev blockno hp =>
          split at hs
          · next hv =>
              cases hs
              exact h.hit hp hv
          · next hv =>
              obtain ⟨t, ht, rfl⟩ := Option.map_eq_some_iff.mp hs
              exact h.miss hp (by simpa using hv) ht
      · cases hs
  | modify b data =>
      dsimp only [step] at hs
      split at hs
      · next hb =>
          cases hs
          exact h.modify hb.1 hb.2 data
      · cases hs
  | bwrite b =>
      dsimp only [step] at hs
      split at hs
      · next hb =>
          obtain ⟨t, ht, rfl⟩ := Option.map_eq_some_iff.mp hs
          exact h.bwrite hb.1 hb.2 ht
      · cases hs
  | logWrite b =>
      dsimp only [step] at hs
      split at hs
      · next hb =>
          cases hs
          exact h.logWrite hb.1 hb.2
      · cases hs
  | brelse b =>
      dsimp only [step] at hs
      split at hs
      · next hb =>
          cases hs
          exact h.releasesleep hb.1 hb.2 hok
      · cases hs
  | drop =>
      dsimp only [step] at hs
      split at hs
      · next b hp =>
          cases hs
          exact h.drop hp
      · cases hs

/-! ## The cache as its callers see it -/

/-- A step leaves a buffer that is referenced or dirty for its block, and valid. -/
theorem step_not_recycled {disksize : Nat} {s s' : State P} {a : P × Action} (h : BioInv s)
    (hs : step disksize s a = some s') {b : Fin NBUF}
    (hb : 0 < s.cache.refcnt b ∨ (s.cache.buf b).dirty) :
    (s'.cache.buf b).dev = (s.cache.buf b).dev ∧
      (s'.cache.buf b).blockno = (s.cache.buf b).blockno ∧
      ((s.cache.buf b).valid → (s'.cache.buf b).valid) := by
  have hupd : ∀ {c : Fin NBUF} {v : DiskBuf}, v.dev = (s.cache.buf c).dev →
      v.blockno = (s.cache.buf c).blockno → ((s.cache.buf c).valid → v.valid) →
      (Function.update s.cache.buf c v b).dev = (s.cache.buf b).dev ∧
        (Function.update s.cache.buf c v b).blockno = (s.cache.buf b).blockno ∧
        ((s.cache.buf b).valid → (Function.update s.cache.buf c v b).valid) := by
    intro c v hd hn hv
    rcases eq_or_ne b c with rfl | hne
    · rw [Function.update_self]
      exact ⟨hd, hn, hv⟩
    · rw [Function.update_of_ne hne]
      exact ⟨rfl, rfl, id⟩
  obtain ⟨p, a⟩ := a
  cases a with
  | bread dev blockno =>
      dsimp only [step] at hs
      split at hs
      · rcases bget_cases h.ring dev blockno with ⟨c, hc, hg⟩ | ⟨hno, ⟨c, hc, hg⟩ | hg⟩
        · rw [hg] at hs
          cases hs
          exact ⟨rfl, rfl, id⟩
        · rw [hg] at hs
          cases hs
          have hne : b ≠ c := by
            rintro rfl
            simp only [Bcache.unused, Bool.and_eq_true, beq_iff_eq, Bool.not_eq_true'] at hc
            rcases hb with hb | hb
            · omega
            · rw [hc.2] at hb
              cases hb
          have : (s.cache.recycle c dev blockno).buf b = s.cache.buf b :=
            Function.update_of_ne hne ..
          dsimp only [State.goto]
          rw [this]
          exact ⟨rfl, rfl, id⟩
        · rw [hg] at hs
          cases hs
      · cases hs
  | acquiresleep =>
      dsimp only [step] at hs
      split at hs
      · split at hs
        · cases hs
          exact ⟨rfl, rfl, id⟩
        · cases hs
      · cases hs
  | fetch =>
      dsimp only [step] at hs
      split at hs
      · next c dev blockno hp =>
          split at hs
          · cases hs
            exact ⟨rfl, rfl, id⟩
          · next hv =>
              obtain ⟨t, ht, rfl⟩ := Option.map_eq_some_iff.mp hs
              have hclean : (s.cache.buf c).dirty = false := by
                by_contra hd
                exact hv ((h.bufs c).dirty (by simpa using hd))
              obtain ⟨_, rfl⟩ := iderw_read hclean ht
              exact hupd rfl rfl fun _ => rfl
      · cases hs
  | modify c data =>
      dsimp only [step] at hs
      split at hs
      · cases hs
        exact hupd rfl rfl id
      · cases hs
  | bwrite c =>
      dsimp only [step] at hs
      split at hs
      · obtain ⟨t, ht, rfl⟩ := Option.map_eq_some_iff.mp hs
        obtain rfl := iderw_write rfl ht
        exact hupd rfl rfl fun _ => rfl
      · cases hs
  | logWrite c =>
      dsimp only [step] at hs
      split at hs
      · cases hs
        exact hupd rfl rfl id
      · cases hs
  | brelse c =>
      dsimp only [step] at hs
      split at hs
      · cases hs
        exact ⟨rfl, rfl, id⟩
      · cases hs
  | drop =>
      dsimp only [step] at hs
      split at hs
      · cases hs
        dsimp only [State.goto]
        rw [brelse_buf]
        exact ⟨rfl, rfl, id⟩
      · cases hs

theorem bget_ends {c : Bcache} (h : c.Ring) (dev blockno : Nat) :
    bget c dev blockno ≠ .spins := by
  rcases bget_cases h dev blockno with ⟨b, _, hg⟩ | ⟨_, ⟨b, _, hg⟩ | hg⟩ <;>
    · rw [hg]
      exact nofun

/-- The cache is a single copy of the disk. -/
structure SingleCopy (disksize : Nat) (s : State P) : Prop where
  list : s.cache.Ring
  single : Single s.cache.buf
  kept : ∀ a s', step disksize s a = some s' → ∀ b,
    0 < s.cache.refcnt b ∨ (s.cache.buf b).dirty →
      (s'.cache.buf b).dev = (s.cache.buf b).dev ∧
      (s'.cache.buf b).blockno = (s.cache.buf b).blockno ∧
      ((s.cache.buf b).valid → (s'.cache.buf b).valid)
  /-- Where `bread` has returned, with the buffer locked. -/
  returned : ∀ p b dev blockno, s.pc p = .returned b dev blockno →
    s.lock b = some p ∧ (s.cache.buf b).dev = dev ∧ (s.cache.buf b).blockno = blockno ∧
      (s.cache.buf b).data = s.left dev blockno
  loops : ∀ dev blockno, bget s.cache dev blockno ≠ .spins

theorem bcache_transparent (disksize : Nat) (disk : Disk) {s : State P}
    (hr : Reach (step disksize) savesFirst (State.init P disk) s) : SingleCopy disksize s := by
  have h : BioInv s := hr.invariant (I := BioInv) (bioInv_init disk)
    fun _ _ _ hi hok hs => bioInv_step hi hok hs
  refine ⟨h.ring, h.single, fun a s' hs b hb => step_not_recycled h hs hb,
    fun p b dev blockno hp => ?_, bget_ends h.ring⟩
  obtain ⟨hl, hu⟩ := (h.procs p).taken b (by rw [hp]; rfl)
  obtain ⟨rfl, rfl⟩ := (h.procs p).request b dev blockno (by rw [hp]; rfl)
  have hv : (s.cache.buf b).valid := h.valid_of_lock (by rw [hp]; rfl) hl
  exact ⟨hl, rfl, rfl, (h.bufs b).content hv hu⟩

/-- One process changes block 5 and pins it, and the other one reads it. -/
theorem bcache_transparent_pinned :
    ∃ s, Reach (step FSSIZE) savesFirst (State.init Bool fun _ _ => 0) s ∧
      s.pc true = .returned 0 1 5 ∧ (s.cache.buf 0).dirty ∧ (s.cache.buf 0).data 0 = 7 ∧
      SingleCopy FSSIZE s := by
  have hrun : (exec (step FSSIZE) savesFirst (State.init Bool fun _ _ => 0)
      [(false, .bread 1 5), (true, .bread 1 5), (false, .acquiresleep), (false, .fetch),
        (false, .modify 0 fun _ => 7), (false, .logWrite 0), (false, .brelse 0),
        (true, .acquiresleep), (false, .drop), (true, .fetch)]).any
      (fun s => s.pc true = .returned 0 1 5 ∧ (s.cache.buf 0).dirty ∧
        (s.cache.buf 0).data 0 = 7) = true := by
    decide +kernel
  obtain ⟨s, hs, ht⟩ := exists_reach_of_exec hrun
  obtain ⟨h1, h2, h3⟩ := of_decide_eq_true ht
  exact ⟨s, hs, h1, h2, h3, bcache_transparent FSSIZE _ hs⟩

end Xv6.Ref.Bio
