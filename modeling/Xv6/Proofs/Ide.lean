import Xv6.Lib.Except
import Xv6.Lib.Trans
import Xv6.Ref.Ide

/-!
# The disk driver does what the disk in memory does

The queue in memory is a list of buffers (`Core.linked`), the requests are those
completed, the one the handler has taken off and the queued ones, in this order
(`Core.order`), and `memide.c` has the same buffers after the same history
(`Core.mem`). The disk may be ahead of it by the one write that the device has
finished and the handler has not yet seen (`Finished`).

What the lock holder has done so far is the `Stage`. Only its place matters, so the
invariant names the place, and the other parties are described one by one (`At`).
-/

namespace Xv6.Ref.Ide

open Xv6.Lib

variable {P B : Type}

/-! ## The lock -/

def Place.locked : Place B → Bool
  | .idle | .rwAcquire _ | .panic _ => false
  | _ => true

/-- The places at which the queue and the device may disagree. -/
def Place.solo : Place B → Bool
  | .rwWalk _ _ | .rwStart _ _ | .intrTest | .intrData _ | .intrWake _ | .intrStart => true
  | _ => false

theorem Place.locked_of_solo (l : Place B) (h : l.solo = true) : l.locked = true := by
  cases l with
  | idle | rwAcquire | panic => cases h
  | _ => rfl

section

variable [DecidableEq P] [DecidableEq B]

theorem ideCode_disciplined : Disciplined Place.locked (ideCode (P := P) (B := B)) := by
  intro party call d l
  cases l with
  | idle =>
      cases party with
      | proc p =>
          cases call <;> simp only [ideCode, user] <;> repeat' split
          all_goals first | rfl | trivial
      | intr cpu =>
          simp only [ideCode, interrupt]
          split
          · exact ⟨rfl, rfl⟩
          · trivial
      | device =>
          simp only [ideCode, device]
          repeat' split
          all_goals first | rfl | trivial
  | rwAcquire b => exact ⟨rfl, rfl⟩
  | rwInit b => rfl
  | rwWalk b pp =>
      simp only [ideCode, rwWalk]
      repeat' split
      all_goals rfl
  | rwStart b k =>
      simp only [ideCode, rwStart, idestart]
      repeat' split
      all_goals first | rfl | trivial
  | rwWait b k =>
      simp only [ideCode]
      split
      · rfl
      · exact ⟨rfl, rfl⟩
  | rwRelease b k => exact ⟨rfl, rfl⟩
  | intrTest =>
      simp only [ideCode, intrTest]
      split <;> rfl
  | intrData b =>
      simp only [ideCode, intrData]
      split
      · trivial
      · rfl
  | intrWake b => exact ⟨rfl, rfl⟩
  | intrStart =>
      simp only [ideCode, intrStart, idestart]
      repeat' split
      all_goals first | rfl | trivial
  | intrRelease => exact ⟨rfl, rfl⟩
  | panic e | panicLocked e => trivial

theorem ideCode_wakeful (party : Party P) (call : UserCall B) (d : Driver P B) (l : Place B) :
    (ideCode party call d l).wakeful Place.solo := by
  cases l with
  | idle =>
      cases party with
      | proc p =>
          cases call <;> simp only [ideCode, user] <;> repeat' split
          all_goals trivial
      | intr cpu =>
          simp only [ideCode, interrupt]
          split <;> trivial
      | device =>
          simp only [ideCode, device]
          repeat' split
          all_goals trivial
  | rwWalk b pp =>
      simp only [ideCode, rwWalk]
      repeat' split
      all_goals trivial
  | rwStart b k =>
      simp only [ideCode, rwStart, idestart]
      repeat' split
      all_goals trivial
  | rwWait b k =>
      simp only [ideCode]
      split
      · trivial
      · rfl
  | intrTest =>
      simp only [ideCode, intrTest]
      split <;> trivial
  | intrData b =>
      simp only [ideCode, intrData]
      split <;> trivial
  | intrStart =>
      simp only [ideCode, intrStart, idestart]
      repeat' split
      all_goals trivial
  | _ => trivial

end

/-! ## The device -/

/-- A buffer `iderw` has something to do for. -/
def Todo (v : DiskBuf) : Prop := v.synced = false ∧ v.dev = 1 ∧ v.blockno < FSSIZE

theorem command_drive {v : DiskBuf} (h : Todo v) : (command v).regs.drive = 1 := by
  have hdev := h.2.1
  show (224 + v.dev % 2 * 16 + v.blockno * (512 / 512) / 2 ^ 24 % 16) / 16 % 2 = 1
  omega

theorem command_sector {v : DiskBuf} (h : Todo v) : (command v).regs.sector = v.blockno := by
  have hdev := h.2.1
  have hblock : v.blockno < 1000 := h.2.2
  show v.blockno * (512 / 512) % 256 + 256 * (v.blockno * (512 / 512) / 256 % 256) +
    65536 * (v.blockno * (512 / 512) / 65536 % 256) +
    16777216 * ((224 + v.dev % 2 * 16 + v.blockno * (512 / 512) / 16777216 % 16) % 16) =
    v.blockno
  omega

variable {d d' : Driver P B} {md : Disk} {q : List B} {b : B}

/-- No command, and the disk is that of `memide.c`. -/
def Quiet (d : Driver P B) (md : Disk) : Prop :=
  d.irq = false ∧ d.busy = none ∧ d.disk 1 = md

/-- The device is at the command for `b`. -/
def Working (d : Driver P B) (md : Disk) (b : B) : Prop :=
  d.busy = some (command (d.buf b)) ∧ d.disk 1 = md

/-- The device is done with the command for `b`. -/
def Finished (d : Driver P B) (md : Disk) (b : B) : Prop :=
  d.busy = none ∧
    if (d.buf b).dirty then d.disk 1 = Function.update md (d.buf b).blockno (d.buf b).data
    else d.disk 1 = md ∧ d.port = md (d.buf b).blockno

/-- The head of the queue is the only request the device has been given. -/
def Normal (d : Driver P B) (md : Disk) : List B → Prop
  | [] => Quiet d md
  | b :: _ => d.irq = false ∧ Working d md b ∨ d.irq = true ∧ Finished d md b

/-- What the lock holder has done so far. -/
def Stage (d : Driver P B) (md : Disk) (q : List B) : Place B → Prop
  | .rwWalk b pp =>
      Normal d md q ∧ b ∉ q ∧ d.qnext b = none ∧ ∃ bs cs, q = bs ++ cs ∧ pp = bs.getLast?
  | .rwStart b k =>
      k + 1 = d.queued.length ∧ ∃ bs, q = bs ++ [b] ∧ if bs = [] then Quiet d md else Normal d md q
  | .intrTest => Normal d md q ∧ (d.irq = true ∨ q = [])
  | .intrData b => d.irq = false ∧ Finished d md b
  | .intrWake _ | .intrStart => Quiet d md
  | _ => Normal d md q

/-- The buffer the handler has taken off the queue. -/
def Place.popped : Place B → List B
  | .intrData b => [b]
  | _ => []

theorem Place.calm {l : Place B} (h : l.solo = false) : l.popped = [] := by
  cases l with
  | intrData b => cases h
  | _ => rfl

theorem Stage.calm {l l' : Place B} (h : Stage d md q l) (hl : l.solo = false)
    (hl' : l'.solo = false) : Stage d md q l' := by
  have hn : Normal d md q := by
    cases l with
    | rwWalk | rwStart | intrTest | intrData | intrWake | intrStart => cases hl
    | _ => exact h
  cases l' with
  | rwWalk | rwStart | intrTest | intrData | intrWake | intrStart => cases hl'
  | _ => exact hn

theorem Normal.congr (h : Normal d md q) (hirq : d'.irq = d.irq) (hbusy : d'.busy = d.busy)
    (hport : d'.port = d.port) (hdisk : d'.disk = d.disk)
    (hbuf : ∀ b ∈ q, d'.buf b = d.buf b) : Normal d' md q := by
  cases q with
  | nil =>
      obtain ⟨h1, h2, h3⟩ := h
      exact ⟨hirq.trans h1, hbusy.trans h2, by rw [hdisk]; exact h3⟩
  | cons b bs =>
      have hb := hbuf b List.mem_cons_self
      rw [Normal, Working, Finished] at h ⊢
      rw [hirq, hbusy, hport, hdisk, hb]
      exact h

theorem Finished.congr (h : Finished d md b) (hbusy : d'.busy = d.busy)
    (hport : d'.port = d.port) (hdisk : d'.disk = d.disk) (hbuf : d'.buf b = d.buf b) :
    Finished d' md b := by
  rw [Finished, hbusy, hport, hdisk, hbuf]
  exact h

/-- Changes of the owners and of buffers that are not queued do not matter. -/
theorem Stage.congr {l : Place B} (h : Stage d md q l) (hirq : d'.irq = d.irq)
    (hbusy : d'.busy = d.busy) (hport : d'.port = d.port) (hdisk : d'.disk = d.disk)
    (hqnext : d'.qnext = d.qnext) (hqueued : d'.queued = d.queued)
    (hbuf : ∀ b ∈ l.popped ++ q, d'.buf b = d.buf b) : Stage d' md q l := by
  have hquiet : Quiet d md → Quiet d' md := by
    rintro ⟨h1, h2, h3⟩
    exact ⟨hirq.trans h1, hbusy.trans h2, by rw [hdisk]; exact h3⟩
  have hnormal : Normal d md q → Normal d' md q := fun hn =>
    hn.congr hirq hbusy hport hdisk fun b hb => hbuf b (List.mem_append_right _ hb)
  cases l with
  | rwWalk b pp => exact ⟨hnormal h.1, h.2.1, by rw [hqnext]; exact h.2.2.1, h.2.2.2⟩
  | rwStart b k =>
      obtain ⟨hk, bs, hq, hst⟩ := h
      refine ⟨by rw [hqueued]; exact hk, bs, hq, ?_⟩
      split at hst
      · next hbs =>
          rw [if_pos hbs]
          exact hquiet hst
      · next hbs =>
          rw [if_neg hbs]
          exact hnormal hst
  | intrTest => exact ⟨hnormal h.1, by rw [hirq]; exact h.2⟩
  | intrData b =>
      exact ⟨hirq.trans h.1, h.2.congr hbusy hport hdisk (hbuf b (by simp [Place.popped]))⟩
  | intrWake b | intrStart => exact hquiet h
  | _ => exact hnormal h

theorem idestart_next {c : B} {l l' : Place B} (hc : Todo (d.buf c)) (hbusy : d.busy = none)
    (hn : (idestart d c l).next d = some (d', l')) :
    d' = { d with busy := some (command (d.buf c)) } ∧ l' = l := by
  rw [idestart, if_neg (Nat.not_le.mpr hc.2.2), hbusy] at hn
  cases hn
  exact ⟨rfl, rfl⟩

/-- The device finishes the command of the first request. -/
theorem Normal.device (h : Normal d md q) (htodo : ∀ b ∈ q, Todo (d.buf b)) {l' : Place B}
    (hn : (device d).next d = some (d', l')) :
    Normal d' md q ∧ d'.irq = true ∧ l' = .idle ∧ d'.buf = d.buf ∧ d'.owner = d.owner ∧
      d'.idequeue = d.idequeue ∧ d'.qnext = d.qnext ∧ d'.queued = d.queued ∧
      d'.hist = d.hist := by
  rw [Ide.device] at hn
  cases hbusy : d.busy with rw [hbusy] at hn
  | none => cases hn
  | some cmd =>
      cases q with
      | nil =>
          rw [h.2.1] at hbusy
          cases hbusy
      | cons b bs =>
          have hb := htodo b List.mem_cons_self
          rcases h with ⟨-, hw, hdisk⟩ | ⟨-, hno, -⟩
          · rw [hw] at hbusy
            cases hbusy
            have hdrive := command_drive hb
            have hsector := command_sector hb
            cases hd : (d.buf b).dirty with
            | true =>
                have hwrite : (command (d.buf b)).write = some (d.buf b).data := by
                  rw [command, hd]
                  rfl
                simp only [hwrite] at hn
                cases hn
                refine ⟨Or.inr ⟨rfl, rfl, ?_⟩, rfl, rfl, rfl, rfl, rfl, rfl, rfl, rfl⟩
                rw [if_pos hd, hdrive, hsector, hdisk]
                dsimp only
                rw [Function.update_self]
            | false =>
                have hwrite : (command (d.buf b)).write = none := by
                  rw [command, hd]
                  rfl
                simp only [hwrite] at hn
                cases hn
                refine ⟨Or.inr ⟨rfl, rfl, ?_⟩, rfl, rfl, rfl, rfl, rfl, rfl, rfl, rfl⟩
                rw [if_neg (by rw [hd]; nofun), hdrive, hsector, hdisk]
                exact ⟨rfl, rfl⟩
          · rw [hno] at hbusy
            cases hbusy

/-! ## The history -/

theorem completions_set (hist : List (Event B)) (b : B) (v : DiskBuf) :
    completions (hist ++ [.set b v]) = completions hist := by
  simp [completions]

theorem completions_complete (hist : List (Event B)) (b : B) :
    completions (hist ++ [.complete b]) = completions hist ++ [b] := by
  simp [completions]

theorem memIderw_todo {v : DiskBuf} (h : Todo v) (md : Disk) :
    memIderw FSSIZE true v md =
      .ok ({ v with data := if v.dirty then v.data else md v.blockno, valid := true,
                    dirty := false },
        if v.dirty then Function.update md v.blockno v.data else md) := by
  obtain ⟨hs, hdev, hb⟩ := h
  have hb' : ¬ v.blockno ≥ FSSIZE := Nat.not_le.mpr hb
  cases hd : v.dirty <;> simp [memIderw, hs, hdev, hb', hd]

variable [DecidableEq B] {m₀ m : Memide B} {φ : Place B}

theorem run_snoc {hist : List (Event B)} {e : Event B} {m' : Memide B}
    (h : m₀.run hist = .ok m) (he : m.step e = .ok m') : m₀.run (hist ++ [e]) = .ok m' := by
  rw [Memide.run, List.foldlM_append]
  rw [Memide.run] at h
  rw [h, ok_bind]
  simp [he]

/-- The queue, the history and the device, with the lock holder at `φ`. -/
structure Core (m₀ : Memide B) (d : Driver P B) (φ : Place B) (q : List B) (m : Memide B) :
    Prop where
  linked : Linked d.qnext d.idequeue q
  nodup : (φ.popped ++ q).Nodup
  order : d.queued = completions d.hist ++ (φ.popped ++ q)
  todo : ∀ b ∈ φ.popped ++ q, Todo (d.buf b)
  mem : m₀.run d.hist = .ok m
  buf : m.buf = d.buf
  stage : Stage d m.disk q φ

/-- At the other places the lock holder does not matter. -/
theorem Core.calm {l l' : Place B} (h : Core m₀ d l q m) (hl : l.solo = false)
    (hl' : l'.solo = false) : Core m₀ d l' q m := by
  obtain ⟨h1, h2, h3, h4, h5, h6, h7⟩ := h
  rw [Place.calm hl] at h2 h3 h4
  exact ⟨h1, by rw [Place.calm hl']; exact h2, by rw [Place.calm hl']; exact h3,
    by rw [Place.calm hl']; exact h4, h5, h6, h7.calm hl hl'⟩

/-! ## The steps of the lock holder -/

/-- The walk along the queue, and the append at its end. -/
theorem rwWalk_core {pp : Option B} {l' : Place B} (h : Core m₀ d (.rwWalk b pp) q m)
    (hb : Todo (d.buf b)) (hn : (rwWalk d b pp).next d = some (d', l')) :
    ∃ q, Core m₀ d' l' q m := by
  obtain ⟨hlink, hnd, hord, htodo, hmem, hbuf, hnormal, hfresh, hnext, bs, cs, rfl, rfl⟩ := h
  rw [rwWalk, hlink.slot] at hn
  cases cs with
  | cons c cs =>
      cases hn
      refine ⟨bs ++ c :: cs, hlink, hnd, hord, htodo, hmem, hbuf, hnormal, hfresh, hnext,
        bs ++ [c], cs, ?_, ?_⟩
      · rw [List.append_assoc]
        rfl
      · rw [List.getLast?_concat]
  | nil =>
      rw [List.append_nil] at *
      have hnd' : (bs ++ [b]).Nodup := by
        rw [List.nodup_append]
        refine ⟨hnd, List.nodup_singleton b, ?_⟩
        rintro x hx y hy rfl
        rw [List.mem_singleton] at hy
        exact hfresh (hy ▸ hx)
      have htodo' : ∀ c ∈ bs ++ [b], Todo (d.buf c) := by
        intro c hc
        rcases List.mem_append.mp hc with hc | hc
        · exact htodo c hc
        · rw [List.mem_singleton] at hc
          rw [hc]
          exact hb
      have hord' : d.queued ++ [b] = completions d.hist ++ (bs ++ [b]) := by
        rw [hord, List.append_assoc]
        rfl
      cases bs using List.reverseRecOn with
      | nil =>
          cases hn
          refine ⟨[b], ⟨rfl, hnext⟩, hnd', hord', htodo', hmem, hbuf, ?_, [], rfl, ?_⟩
          · simp
          · rw [if_pos rfl]
            exact hnormal
      | append_singleton bs c =>
          rw [List.getLast?_concat] at hn
          cases hn
          refine ⟨bs ++ [c] ++ [b], hlink.snoc hnd hfresh hnext, hnd', hord', htodo', hmem, hbuf,
            ?_, bs ++ [c], rfl, ?_⟩
          · simp
          · rw [if_neg (by simp)]
            have : Normal d m.disk (bs ++ [c] ++ [b]) := by
              cases bs with
              | nil => exact hnormal
              | cons a bs => exact hnormal
            exact this.congr rfl rfl rfl rfl fun _ _ => rfl

/-- `idestart` if the request is the first one. -/
theorem rwStart_core {k : Nat} {l' : Place B} (h : Core m₀ d (.rwStart b k) q m)
    (hn : (rwStart d b k).next d = some (d', l')) :
    Core m₀ d' l' q m ∧ l' = .rwWait b k ∧ (completions d.hist).length ≤ k := by
  obtain ⟨hlink, hnd, hord, htodo, hmem, hbuf, hk, bs, rfl, hstage⟩ := h
  have hle : (completions d.hist).length ≤ k := by
    rw [hord] at hk
    simp [Place.popped] at hk
    omega
  rw [rwStart] at hn
  cases bs with
  | nil =>
      obtain ⟨hirq, hbusy, hdisk⟩ := hstage
      rw [if_pos hlink.1] at hn
      obtain ⟨rfl, rfl⟩ := idestart_next (htodo b (by simp)) hbusy hn
      exact ⟨⟨hlink, hnd, hord, htodo, hmem, hbuf, Or.inl ⟨hirq, rfl, hdisk⟩⟩, rfl, hle⟩
  | cons a bs =>
      have hne : d.idequeue ≠ some b := by
        rw [hlink.1]
        rintro he
        cases he
        exact (List.nodup_cons.mp hnd).1 (by simp)
      rw [if_neg hne] at hn
      cases hn
      exact ⟨⟨hlink, hnd, hord, htodo, hmem, hbuf, hstage⟩, rfl, hle⟩

/-- The handler takes off the request the device is done with. -/
theorem intrTest_core {l' : Place B} (h : Core m₀ d .intrTest q m)
    (hn : (intrTest d).next d = some (d', l')) : ∃ q, Core m₀ d' l' q m := by
  obtain ⟨hlink, hnd, hord, htodo, hmem, hbuf, hnormal, hirq⟩ := h
  rw [intrTest, hlink.head] at hn
  cases q with
  | nil =>
      cases hn
      obtain ⟨-, hbusy, hdisk⟩ := hnormal
      exact ⟨[], rfl, hnd, hord, htodo, hmem, hbuf, rfl, hbusy, hdisk⟩
  | cons c cs =>
      cases hn
      have hirq' : d.irq = true := hirq.resolve_right nofun
      rcases hnormal with ⟨hno, -⟩ | ⟨-, hfin⟩
      · rw [hirq'] at hno
        cases hno
      · exact ⟨cs, hlink.2, hnd, hord, htodo, hmem, hbuf, rfl,
          hfin.congr rfl rfl rfl rfl⟩

/-- Data and flags: what `iderw` of `memide.c` does to the buffer. -/
theorem intrData_core {l' : Place B} (h : Core m₀ d (.intrData b) q m)
    (hn : (intrData d b).next d = some (d', l')) :
    l' = .intrWake b ∧ (∃ m, Core m₀ d' l' q m) ∧
      d'.queued = d.queued ∧ d'.owner = d.owner ∧
      d'.hist = d.hist ++ [.complete b] ∧ (d'.buf b).synced = true ∧
      ∀ c, c ≠ b → d'.buf c = d.buf c := by
  obtain ⟨hlink, hnd, hord, htodo, hmem, hbuf, hirq, hbusy, hfin⟩ := h
  have hb : Todo (d.buf b) := htodo b (by simp [Place.popped])
  rw [intrData, if_neg (by rw [hbusy]; simp)] at hn
  cases hn
  refine ⟨rfl, ?_, rfl, rfl, rfl, by simp [DiskBuf.synced], fun c hc => Function.update_of_ne hc ..⟩
  have hnb := List.nodup_cons.mp hnd
  have hstep := memIderw_todo hb m.disk
  have hrun : m.step (.complete b) = .ok
      { buf := Function.update m.buf b
          { d.buf b with
            data := if (d.buf b).dirty then (d.buf b).data else m.disk (d.buf b).blockno
            valid := true
            dirty := false }
        disk := if (d.buf b).dirty then Function.update m.disk (d.buf b).blockno (d.buf b).data
          else m.disk } := by
    rw [Memide.step, hbuf, hstep, ok_bind]
    rfl
  refine ⟨_, hlink, hnb.2, ?_, ?_, run_snoc hmem hrun, ?_, hirq, hbusy, ?_⟩
  · rw [completions_complete, hord]
    simp [Place.popped]
  · intro c hc
    have hcb : c ≠ b := by
      rintro rfl
      exact hnb.1 hc
    show Todo (Function.update d.buf b _ c)
    rw [Function.update_of_ne hcb]
    exact htodo c (List.mem_cons_of_mem _ hc)
  · rw [hbuf]
    cases hd : (d.buf b).dirty with rw [hd] at hfin
    | true => simp
    | false => simp [hfin.2]
  · cases hd : (d.buf b).dirty with rw [hd] at hfin
    | true => exact hfin
    | false => exact hfin.1

theorem intrWake_core (h : Core m₀ d (.intrWake b) q m) : Core m₀ d .intrStart q m := by
  obtain ⟨hlink, hnd, hord, htodo, hmem, hbuf, hstage⟩ := h
  exact ⟨hlink, hnd, hord, htodo, hmem, hbuf, hstage⟩

/-- The device gets the next request. -/
theorem intrStart_core {l' : Place B} (h : Core m₀ d .intrStart q m)
    (hn : (intrStart d).next d = some (d', l')) : Core m₀ d' l' q m := by
  obtain ⟨hlink, hnd, hord, htodo, hmem, hbuf, hirq, hbusy, hdisk⟩ := h
  rw [intrStart, hlink.head] at hn
  cases q with
  | nil =>
      cases hn
      exact ⟨hlink, hnd, hord, htodo, hmem, hbuf, hirq, hbusy, hdisk⟩
  | cons c cs =>
      obtain ⟨rfl, rfl⟩ := idestart_next (htodo c (by simp)) hbusy hn
      exact ⟨hlink, hnd, hord, htodo, hmem, hbuf, Or.inl ⟨hirq, rfl, hdisk⟩⟩

/-! ## Into the critical sections -/

theorem rwInit_core (h : Core m₀ d .idle q m) (hb : b ∉ q) :
    Core m₀ { d with qnext := Function.update d.qnext b none } (.rwWalk b none) q m := by
  obtain ⟨hlink, hnd, hord, htodo, hmem, hbuf, hstage⟩ := h
  refine ⟨hlink.congr fun c hc => Function.update_of_ne ?_ .., hnd, hord, htodo, hmem, hbuf,
    Normal.congr hstage rfl rfl rfl rfl fun _ _ => rfl, hb, Function.update_self .., [], q,
    rfl, rfl⟩
  rintro rfl
  exact hb hc

theorem interrupt_core (h : Core m₀ d .idle q m) (hi : d.irq = true ∨ d.idequeue = none) :
    Core m₀ d .intrTest q m := by
  obtain ⟨hlink, hnd, hord, htodo, hmem, hbuf, hstage⟩ := h
  refine ⟨hlink, hnd, hord, htodo, hmem, hbuf, hstage, hi.imp id fun hnone => ?_⟩
  rw [hlink.head, List.head?_eq_none_iff] at hnone
  exact hnone

/-! ## All parties -/

/-- The process holds the buffer's lock. -/
def Owns (d : Driver P B) (party : Party P) (b : B) : Prop :=
  ∃ p, party = .proc p ∧ d.owner b = some p

omit [DecidableEq B] in
theorem Owns.unique {r r' : Party P} (h : Owns d r b) (h' : Owns d r' b) : r = r' := by
  obtain ⟨p, rfl, hp⟩ := h
  obtain ⟨p', rfl, hp'⟩ := h'
  rw [hp] at hp'
  rw [Option.some.inj hp']

/-- What a party in `iderw` knows: its buffer, and the number of its request. -/
def At (d : Driver P B) (party : Party P) : Place B → Prop
  | .rwAcquire b | .rwInit b | .rwWalk b _ => Owns d party b ∧ Todo (d.buf b)
  | .rwStart b k => Owns d party b ∧ d.queued[k]? = some b
  | .rwWait b k =>
      Owns d party b ∧ d.queued[k]? = some b ∧
        (k < (completions d.hist).length → (d.buf b).synced = true)
  | .rwRelease b k =>
      Owns d party b ∧ d.queued[k]? = some b ∧ k < (completions d.hist).length
  | _ => True

/-- The place that matters is that of the lock holder. -/
def CoreAt (m₀ : Memide B) (d : Driver P B) (place : Party P → Place B) : Prop :=
  ∃ φ q m, Core m₀ d φ q m ∧ (∀ p, (place p).solo = true → place p = φ) ∧
    (φ.solo = true → ∃ p, place p = φ)

/-- The request a process in `iderw` waits for. -/
def Place.waiting : Place B → Option (B × Nat)
  | .rwStart b k | .rwWait b k => some (b, k)
  | _ => none

structure IdeInv (m₀ : Memide B) (d : Driver P B) (place : Party P → Place B) : Prop where
  core : CoreAt m₀ d place
  each : ∀ p, At d p (place p)
  /-- Behind each open request there is a process in `iderw`. -/
  waits : ∀ k b, (completions d.hist).length ≤ k → d.queued[k]? = some b →
    ∃ p, (place p).waiting = some (b, k)

variable {place place' : Party P → Place B} {r : Party P} {l l' : Place B}

theorem ideInv_boot (buf : B → DiskBuf) (havedisk1 : Bool) (port : Block) (disk : Nat → Disk) :
    IdeInv ⟨buf, disk 1⟩ (Driver.boot (P := P) buf havedisk1 port disk) fun _ => .idle where
  core := by
    refine ⟨.idle, [], ⟨buf, disk 1⟩, ?_, fun _ _ => rfl, nofun⟩
    exact ⟨rfl, List.nodup_nil, rfl, nofun, rfl, rfl, rfl, rfl, rfl⟩
  each := fun _ => trivial
  waits := nofun

/-- Somebody waits for each buffer that is queued or taken off. -/
theorem IdeInv.pending (h : IdeInv m₀ d place) {k : Nat} (hk : (completions d.hist).length ≤ k)
    (hb : d.queued[k]? = some b) :
    ∃ r, Owns d r b ∧ (place r).waiting = some (b, k) := by
  obtain ⟨r, hr⟩ := h.waits k b hk hb
  have hat := h.each r
  cases hl : place r with rw [hl] at hr hat
  | rwStart b' k' | rwWait b' k' =>
      cases hr
      exact ⟨r, hat.1, by rw [hl]; rfl⟩
  | _ => cases hr

theorem Core.index (h : Core m₀ d φ q m) (hb : b ∈ φ.popped ++ q) :
    ∃ k, (completions d.hist).length ≤ k ∧ d.queued[k]? = some b := by
  obtain ⟨j, hj⟩ := List.mem_iff_getElem?.mp hb
  refine ⟨(completions d.hist).length + j, Nat.le_add_right .., ?_⟩
  rw [h.order, List.getElem?_append_right (Nat.le_add_right ..), Nat.add_sub_cancel_left]
  exact hj

theorem Core.todo_index (h : Core m₀ d φ q m) {k : Nat} (hk : (completions d.hist).length ≤ k)
    (hb : d.queued[k]? = some b) : b ∈ φ.popped ++ q := by
  rw [h.order, List.getElem?_append_right hk] at hb
  exact List.mem_of_getElem? hb

/-- A buffer that no party waits for is not queued. -/
theorem IdeInv.fresh (h : IdeInv m₀ d place) (hcore : Core m₀ d φ q m)
    (hno : ∀ r, Owns d r b → (place r).waiting = none) :
    b ∉ φ.popped ++ q := by
  intro hb
  obtain ⟨k, hk, hbk⟩ := hcore.index hb
  obtain ⟨r, hown, hr⟩ := h.pending hk hbk
  rw [hno r hown] at hr
  cases hr

omit [DecidableEq B] in
/-- What does not touch a party's buffer and requests leaves what it knows. -/
theorem At.frame (h : At d r l) (hown : ∀ b, Owns d r b → Owns d' r b ∧ d'.buf b = d.buf b)
    (hq : ∀ (k : Nat) b, d.queued[k]? = some b → d'.queued[k]? = some b)
    (hc : completions d'.hist = completions d.hist) : At d' r l := by
  cases l with
  | rwAcquire b | rwInit b | rwWalk b pp =>
      obtain ⟨ho, hb⟩ := hown b h.1
      exact ⟨ho, by rw [hb]; exact h.2⟩
  | rwStart b k => exact ⟨(hown b h.1).1, hq k b h.2⟩
  | rwWait b k =>
      obtain ⟨ho, hb⟩ := hown b h.1
      exact ⟨ho, hq k b h.2.1, by rw [hb, hc]; exact h.2.2⟩
  | rwRelease b k => exact ⟨(hown b h.1).1, hq k b h.2.1, by rw [hc]; exact h.2.2⟩
  | _ => trivial

/-! ## One instruction -/

variable [DecidableEq P] {p : Party P}

theorem coreAt_solo (h : Core m₀ d l' q m) (hcalm : ∀ r ≠ p, (place r).solo = false) :
    CoreAt m₀ d (Function.update place p l') := by
  refine ⟨l', q, m, h, fun r hr => ?_, fun _ => ⟨p, Function.update_self ..⟩⟩
  by_cases he : r = p
  · rw [he, Function.update_self]
  · rw [Function.update_of_ne he, hcalm r he] at hr
    cases hr

theorem coreAt_calm (h : Core m₀ d' φ q m) (honly : ∀ r, (place r).solo = true → place r = φ)
    (hsome : φ.solo = true → ∃ r, place r = φ) (hl : (place p).solo = false)
    (hl' : l'.solo = false) : CoreAt m₀ d' (Function.update place p l') := by
  refine ⟨φ, q, m, h, fun r hr => ?_, fun hφ => ?_⟩
  · by_cases he : r = p
    · rw [he, Function.update_self, hl'] at hr
      cases hr
    · rw [Function.update_of_ne he] at hr ⊢
      exact honly r hr
  · obtain ⟨r, hr⟩ := hsome hφ
    have he : r ≠ p := by
      rintro rfl
      rw [hr, hφ] at hl
      cases hl
    exact ⟨r, by rw [Function.update_of_ne he]; exact hr⟩

omit [DecidableEq P] in
theorem IdeInv.core_solo (h : IdeInv m₀ d place) (hl : (place p).solo = true) :
    ∃ q m, Core m₀ d (place p) q m := by
  obtain ⟨φ, q, m, hcore, honly, -⟩ := h.core
  rw [honly p hl]
  exact ⟨q, m, hcore⟩

omit [DecidableEq P] in
/-- While no party is at a special place. -/
theorem IdeInv.core_calm (h : IdeInv m₀ d place) (hcalm : ∀ r, (place r).solo = false) :
    ∃ q m, Core m₀ d .idle q m := by
  obtain ⟨φ, q, m, hcore, -, hsome⟩ := h.core
  refine ⟨q, m, hcore.calm ?_ rfl⟩
  by_contra hφ
  obtain ⟨r, hr⟩ := hsome (by simpa using hφ)
  exact hφ (by rw [← hr]; exact hcalm r)

theorem IdeInv.update (h : IdeInv m₀ d place) (hcore : CoreAt m₀ d' (Function.update place p l'))
    (hat : At d' p l') (hframe : ∀ r ≠ p, At d r (place r) → At d' r (place r))
    (hwaits : ∀ (k : Nat) b, (completions d'.hist).length ≤ k → d'.queued[k]? = some b →
      l'.waiting = some (b, k) ∨
        (completions d.hist).length ≤ k ∧ d.queued[k]? = some b ∧
          (place p).waiting ≠ some (b, k)) :
    IdeInv m₀ d' (Function.update place p l') where
  core := hcore
  each := by
    intro r
    by_cases he : r = p
    · rw [he, Function.update_self]
      exact hat
    · rw [Function.update_of_ne he]
      exact hframe r he (h.each r)
  waits := by
    intro k b hk hb
    rcases hwaits k b hk hb with hl | ⟨hk, hb, hne⟩
    · exact ⟨p, by rw [Function.update_self]; exact hl⟩
    · obtain ⟨r, hr⟩ := h.waits k b hk hb
      have he : r ≠ p := by
        rintro rfl
        exact hne hr
      exact ⟨r, by rw [Function.update_of_ne he]; exact hr⟩

/-- A move that leaves the data, between places where nothing is special. -/
theorem IdeInv.move (h : IdeInv m₀ d place) (hl : (place p).solo = false) (hl' : l'.solo = false)
    (hat : At d p l')
    (hwait : ∀ b k, (place p).waiting = some (b, k) → (completions d.hist).length ≤ k →
      l'.waiting = some (b, k)) :
    IdeInv m₀ d (Function.update place p l') := by
  obtain ⟨φ, q, m, hcore, honly, hsome⟩ := h.core
  refine h.update (coreAt_calm hcore honly hsome hl hl') hat (fun _ _ => id) fun k b hk hb => ?_
  by_cases hp : (place p).waiting = some (b, k)
  · exact Or.inl (hwait b k hp hk)
  · exact Or.inr ⟨hk, hb, hp⟩

omit [DecidableEq B] [DecidableEq P] in
/-- A move that keeps the requests. -/
theorem waits_keep {k : Nat} (hp : (place p).waiting = none) (hq : d'.queued = d.queued)
    (hc : completions d'.hist = completions d.hist)
    (hk : (completions d'.hist).length ≤ k) (hb : d'.queued[k]? = some b) :
    l'.waiting = some (b, k) ∨
      (completions d.hist).length ≤ k ∧ d.queued[k]? = some b ∧
        (place p).waiting ≠ some (b, k) := by
  rw [hc] at hk
  rw [hq] at hb
  refine Or.inr ⟨hk, hb, ?_⟩
  rw [hp]
  exact nofun

theorem ideInv_user {u : P} {call : UserCall B} (h : IdeInv m₀ d place)
    (hp : place (.proc u) = .idle)
    (hok : ∀ b, call = .iderw b →
      d.owner b = some u ∧ (d.buf b).dev = 1 ∧ (d.buf b).blockno < FSSIZE)
    (hn : (user u d call).next d = some (d', l')) :
    IdeInv m₀ d' (Function.update place (.proc u) l') := by
  have hsolo : (place (.proc u)).solo = false := by rw [hp]; rfl
  have hno : (place (.proc u)).waiting = none := by rw [hp]; rfl
  obtain ⟨φ, q, m, hcore, honly, hsome⟩ := h.core
  cases call with
  | lock b =>
      rw [user] at hn
      split at hn <;> cases hn
      next hfree =>
      refine h.update (coreAt_calm (q := q) (m := m) ?_ honly hsome hsolo rfl) trivial
        (fun r _ hr => hr.frame (fun c hc => ⟨?_, rfl⟩) (fun _ _ => id) rfl)
        fun k c => waits_keep hno rfl rfl
      · obtain ⟨h1, h2, h3, h4, h5, h6, h7⟩ := hcore
        exact ⟨h1, h2, h3, h4, h5, h6, by cases φ <;> exact h7⟩
      · obtain ⟨u', rfl, hu'⟩ := hc
        have hcb : c ≠ b := by
          rintro rfl
          rw [hfree] at hu'
          cases hu'
        exact ⟨u', rfl, by dsimp only; rw [Function.update_of_ne hcb]; exact hu'⟩
  | unlock b =>
      rw [user] at hn
      split at hn <;> cases hn
      next hown =>
      refine h.update (coreAt_calm (q := q) (m := m) ?_ honly hsome hsolo rfl) trivial
        (fun r hne hr => hr.frame (fun c hc => ⟨?_, rfl⟩) (fun _ _ => id) rfl)
        fun k c => waits_keep hno rfl rfl
      · obtain ⟨h1, h2, h3, h4, h5, h6, h7⟩ := hcore
        exact ⟨h1, h2, h3, h4, h5, h6, by cases φ <;> exact h7⟩
      · have hcb : c ≠ b := by
          rintro rfl
          exact hne (hc.unique ⟨u, rfl, hown⟩)
        obtain ⟨u', rfl, hu'⟩ := hc
        exact ⟨u', rfl, by dsimp only; rw [Function.update_of_ne hcb]; exact hu'⟩
  | set b v =>
      rw [user] at hn
      split at hn <;> cases hn
      next hown =>
      -- whoever owns the buffer is this process, outside of `iderw`
      have hwho : ∀ r, Owns d r b → r = .proc u := by
        rintro r hr
        rcases hown with hown | hown
        · obtain ⟨u', rfl, hu'⟩ := hr
          rw [hown] at hu'
          cases hu'
        · exact hr.unique ⟨u, rfl, hown⟩
      have hfresh : b ∉ φ.popped ++ q := by
        refine h.fresh hcore fun r hr => ?_
        rw [hwho r hr, hno]
      have hbuf : ∀ c ∈ φ.popped ++ q, Function.update d.buf b v c = d.buf c := by
        intro c hc
        refine Function.update_of_ne ?_ ..
        rintro rfl
        exact hfresh hc
      refine h.update
        (coreAt_calm (q := q) (m := { m with buf := Function.update m.buf b v })
          ?_ honly hsome hsolo rfl) trivial
        (fun r hne hr => hr.frame (fun c hc => ⟨hc, ?_⟩) (fun _ _ => id)
          (completions_set ..))
        fun k c => waits_keep hno rfl (completions_set ..)
      · obtain ⟨h1, h2, h3, h4, h5, h6, h7⟩ := hcore
        refine ⟨h1, h2, by rw [completions_set]; exact h3, fun c hc => ?_, run_snoc h5 rfl,
          by rw [h6], ?_⟩
        · dsimp only
          rw [hbuf c hc]
          exact h4 c hc
        · exact h7.congr rfl rfl rfl rfl rfl rfl hbuf
      · refine Function.update_of_ne ?_ ..
        rintro rfl
        exact hne (hwho r hc)
  | iderw b =>
      obtain ⟨hown, hdev, hblock⟩ := hok b rfl
      rw [user, if_neg (not_not.mpr hown)] at hn
      split at hn
      · cases hn
        exact h.move hsolo rfl trivial fun b k he => by rw [hno] at he; cases he
      · next hsync =>
          split at hn <;> cases hn
          · exact h.move hsolo rfl trivial fun b k he => by rw [hno] at he; cases he
          · exact h.move hsolo rfl ⟨⟨u, rfl, hown⟩, by simpa using hsync, hdev, hblock⟩
              fun b k he => by rw [hno] at he; cases he

theorem ideInv_device (h : IdeInv m₀ d place) (hp : place p = .idle)
    (hn : (device d).next d = some (d', l')) : IdeInv m₀ d' (Function.update place p l') := by
  have hsolo : (place p).solo = false := by rw [hp]; rfl
  obtain ⟨φ, q, m, hcore, honly, hsome⟩ := h.core
  obtain ⟨h1, h2, h3, h4, h5, h6, h7⟩ := hcore
  have htodo : ∀ b ∈ q, Todo (d.buf b) := fun b hb => h4 b (List.mem_append_right _ hb)
  have hbusy : d.busy ≠ none := by
    intro hno
    rw [device, hno] at hn
    cases hn
  -- the device has work only while the queue and the device agree
  have hstage : Normal d m.disk q ∧ (Normal d' m.disk q → d'.irq = true →
      d'.qnext = d.qnext → d'.queued = d.queued → Stage d' m.disk q φ) := by
    cases φ with
    | rwWalk b pp =>
        refine ⟨h7.1, fun hn _ hq _ => ⟨hn, h7.2.1, ?_, h7.2.2.2⟩⟩
        rw [hq]
        exact h7.2.2.1
    | rwStart b k =>
        obtain ⟨hk, bs, hq, hst⟩ := h7
        split at hst
        · exact absurd hst.2.1 hbusy
        · next hbs =>
            refine ⟨hst, fun hn _ _ hqd => ⟨by rw [hqd]; exact hk, bs, hq, ?_⟩⟩
            rw [if_neg hbs]
            exact hn
    | intrTest => exact ⟨h7.1, fun hn hirq _ _ => ⟨hn, Or.inl hirq⟩⟩
    | intrData b => exact absurd h7.2.1 hbusy
    | intrWake b | intrStart => exact absurd h7.2.1 hbusy
    | _ => exact ⟨h7, fun hn _ _ _ => hn⟩
  obtain ⟨hnormal, hirq, rfl, hbuf, hown, hqueue, hqnext, hqueued, hhist⟩ :=
    hstage.1.device htodo hn
  refine h.update (coreAt_calm (q := q) (m := m) ?_ honly hsome hsolo rfl) trivial
    (fun r _ hr => hr.frame (fun c hc => ⟨?_, by rw [hbuf]⟩) ?_ (by rw [hhist]))
    fun k c => waits_keep (by rw [hp]; rfl) hqueued (by rw [hhist])
  · refine ⟨?_, h2, by rw [hqueued, hhist]; exact h3, by rw [hbuf]; exact h4,
      by rw [hhist]; exact h5, by rw [hbuf]; exact h6, hstage.2 hnormal hirq hqnext hqueued⟩
    rw [hqnext, hqueue]
    exact h1
  · obtain ⟨u, rfl, hu⟩ := hc
    exact ⟨u, rfl, by rw [hown]; exact hu⟩
  · rw [hqueued]
    exact fun _ _ => id

/-- The instructions that only change pointers and the device. -/
def Same (d d' : Driver P B) : Prop :=
  d'.owner = d.owner ∧ d'.buf = d.buf ∧ d'.queued = d.queued ∧ d'.hist = d.hist

omit [DecidableEq P] in
theorem rwStart_same {k : Nat} (hn : (rwStart d b k).next d = some (d', l')) : Same d d' := by
  rw [rwStart, idestart] at hn
  repeat' split at hn
  all_goals
    cases hn
    try exact ⟨rfl, rfl, rfl, rfl⟩

omit [DecidableEq P] [DecidableEq B] in
theorem intrTest_same (hn : (intrTest d).next d = some (d', l')) :
    Same d d' ∧ l'.waiting = none ∧ At d' p l' := by
  rw [intrTest] at hn
  split at hn <;> cases hn <;> exact ⟨⟨rfl, rfl, rfl, rfl⟩, rfl, trivial⟩

omit [DecidableEq P] [DecidableEq B] in
theorem intrStart_same (hn : (intrStart d).next d = some (d', l')) :
    Same d d' ∧ l'.waiting = none ∧ At d' p l' := by
  rw [intrStart] at hn
  unfold idestart at hn
  repeat' split at hn
  all_goals
    cases hn
    try exact ⟨⟨rfl, rfl, rfl, rfl⟩, rfl, trivial⟩

omit [DecidableEq P] in
theorem rwWalk_next {pp : Option B} (hn : (rwWalk d b pp).next d = some (d', l')) :
    (d' = d ∧ ∃ c, l' = .rwWalk b (some c)) ∨
      d'.owner = d.owner ∧ d'.buf = d.buf ∧ d'.queued = d.queued ++ [b] ∧ d'.hist = d.hist ∧
        l' = .rwStart b d.queued.length := by
  have hlen : (d.queued ++ [b]).length - 1 = d.queued.length := by simp
  rw [rwWalk] at hn
  split at hn
  · next c _ =>
      cases hn
      exact Or.inl ⟨rfl, c, rfl⟩
  · dsimp only at hn
    rw [hlen] at hn
    split at hn <;> cases hn <;> exact Or.inr ⟨rfl, rfl, rfl, rfl, rfl⟩

omit [DecidableEq P] [DecidableEq B] in
theorem At.same (h : At d r l) (hs : Same d d') : At d' r l := by
  obtain ⟨hown, hbuf, hq, hc⟩ := hs
  refine h.frame (fun b hb => ⟨?_, by rw [hbuf]⟩) (by rw [hq]; exact fun _ _ => id) (by rw [hc])
  obtain ⟨u, rfl, hu⟩ := hb
  exact ⟨u, rfl, by rw [hown]; exact hu⟩

/-- The lock holder changes pointers or the device. -/
theorem IdeInv.same (h : IdeInv m₀ d place) (hs : Same d d') (hcore : Core m₀ d' l' q m)
    (hcalm : ∀ r ≠ p, (place r).solo = false) (hat : At d' p l')
    (hwait : l'.waiting = (place p).waiting) : IdeInv m₀ d' (Function.update place p l') := by
  refine h.update (coreAt_solo hcore hcalm) hat (fun r _ hr => hr.same hs) fun k b hk hb => ?_
  obtain ⟨-, -, hq, hc⟩ := hs
  rw [hc] at hk
  rw [hq] at hb
  by_cases hp : (place p).waiting = some (b, k)
  · exact Or.inl (hwait.trans hp)
  · exact Or.inr ⟨hk, hb, hp⟩

theorem ideInv_intrData (h : IdeInv m₀ d place) (hp : place p = .intrData b)
    (hcalm : ∀ r ≠ p, (place r).solo = false)
    (hn : (intrData d b).next d = some (d', l')) : IdeInv m₀ d' (Function.update place p l') := by
  obtain ⟨q, m, hcore⟩ := h.core_solo (p := p) (by rw [hp]; rfl)
  rw [hp] at hcore
  obtain ⟨rfl, ⟨m', hcore'⟩, hqueued, hown, hhist, hsync, hbuf⟩ := intrData_core hcore hn
  have hcomp : completions d'.hist = completions d.hist ++ [b] := by
    rw [hhist, completions_complete]
  have hb : d.queued[(completions d.hist).length]? = some b := by
    rw [hcore.order, List.getElem?_append_right (le_refl _), Nat.sub_self]
    rfl
  have htodo : Todo (d.buf b) := hcore.todo b (by simp [Place.popped])
  obtain ⟨r₀, hr₀, hwait₀⟩ := h.pending (le_refl _) hb
  have hlen : (completions d'.hist).length = (completions d.hist).length + 1 := by
    rw [hcomp, List.length_append, List.length_singleton]
  refine h.update (coreAt_solo hcore' hcalm) trivial (fun r hne hr => ?_) fun k c hk hc => ?_
  · have hown' : ∀ c, Owns d r c → Owns d' r c := by
      rintro c ⟨u, rfl, hu⟩
      exact ⟨u, rfl, by rw [hown]; exact hu⟩
    -- the buffer's process is waiting for it
    have hother : ∀ c, Owns d r c → (place r).waiting = none → d'.buf c = d.buf c := by
      intro c hc hw
      refine hbuf c ?_
      rintro rfl
      rw [hc.unique hr₀, hwait₀] at hw
      cases hw
    cases hl : place r with rw [hl] at hr hother
    | rwAcquire c | rwInit c | rwWalk c pp =>
        refine ⟨hown' c hr.1, ?_⟩
        rw [hother c hr.1 rfl]
        exact hr.2
    | rwStart c k => exact ⟨hown' c hr.1, by rw [hqueued]; exact hr.2⟩
    | rwWait c k =>
        refine ⟨hown' c hr.1, by rw [hqueued]; exact hr.2.1, fun hk => ?_⟩
        by_cases hcb : c = b
        · rw [hcb]
          exact hsync
        · rw [hbuf c hcb]
          refine hr.2.2 ?_
          by_contra hge
          have he : k = (completions d.hist).length := by omega
          have hck := hr.2.1
          rw [he, hb] at hck
          exact hcb (Option.some.inj hck).symm
    | rwRelease c k =>
        refine ⟨hown' c hr.1, by rw [hqueued]; exact hr.2.1, ?_⟩
        have := hr.2.2
        omega
    | _ => trivial
  · rw [hqueued] at hc
    refine Or.inr ⟨by omega, hc, ?_⟩
    rw [hp]
    exact nofun

theorem ideInv_rwWalk {pp : Option B} (h : IdeInv m₀ d place) (hp : place p = .rwWalk b pp)
    (hcalm : ∀ r ≠ p, (place r).solo = false)
    (hn : (rwWalk d b pp).next d = some (d', l')) : IdeInv m₀ d' (Function.update place p l') := by
  have hat := h.each p
  rw [hp] at hat
  obtain ⟨q, m, hcore⟩ := h.core_solo (p := p) (by rw [hp]; rfl)
  rw [hp] at hcore
  obtain ⟨q', hcore'⟩ := rwWalk_core hcore hat.2 hn
  rcases rwWalk_next hn with ⟨rfl, c, rfl⟩ | ⟨hown, hbuf, hqueued, hhist, rfl⟩
  · exact h.same ⟨rfl, rfl, rfl, rfl⟩ hcore' hcalm hat (by rw [hp]; rfl)
  · have hown' : ∀ r c, Owns d r c → Owns d' r c := by
      rintro r c ⟨u, rfl, hu⟩
      exact ⟨u, rfl, by rw [hown]; exact hu⟩
    refine h.update (coreAt_solo hcore' hcalm) ⟨hown' p b hat.1, ?_⟩
      (fun r _ hr => hr.frame (fun c hc => ⟨hown' r c hc, by rw [hbuf]⟩) (fun k c hc => ?_)
        (by rw [hhist])) fun k c hk hc => ?_
    · rw [hqueued, List.getElem?_concat_length]
    · rw [hqueued, List.getElem?_append_left (List.getElem?_eq_some_iff.mp hc).1]
      exact hc
    · rw [hhist] at hk
      rw [hqueued] at hc
      by_cases hlt : k < d.queued.length
      · rw [List.getElem?_append_left hlt] at hc
        refine Or.inr ⟨hk, hc, ?_⟩
        rw [hp]
        exact nofun
      · have hlt' := (List.getElem?_eq_some_iff.mp hc).1
        rw [List.length_append, List.length_singleton] at hlt'
        have he : k = d.queued.length := by omega
        rw [he, List.getElem?_concat_length] at hc
        cases hc
        exact Or.inl (by rw [he]; rfl)

theorem ideInv_code {call : UserCall B} (h : IdeInv m₀ d place) (hp : place p = l)
    (hcalm : l.solo = true ∨ l'.solo = true → ∀ r ≠ p, (place r).solo = false)
    (hok : ∀ u b, p = .proc u → l = .idle → call = .iderw b →
      d.owner b = some u ∧ (d.buf b).dev = 1 ∧ (d.buf b).blockno < FSSIZE)
    (hn : (ideCode p call d l).next d = some (d', l')) :
    IdeInv m₀ d' (Function.update place p l') := by
  have hat := h.each p
  rw [hp] at hat
  -- a party that is about to enter its critical section
  have hall : l.solo = false → l'.solo = true → ∃ q m, Core m₀ d .idle q m := by
    intro hl hl'
    refine h.core_calm fun r => ?_
    by_cases he : r = p
    · rw [he, hp, hl]
    · exact hcalm (Or.inr hl') r he
  have hsolo := h.core_solo (p := p)
  rw [hp] at hsolo
  cases l with
  | idle =>
      cases p with
      | proc u => exact ideInv_user h hp (fun b => hok u b rfl rfl) hn
      | intr cpu =>
          simp only [ideCode, interrupt] at hn
          split at hn <;> cases hn
          next hi =>
          obtain ⟨q, m, hcore⟩ := hall rfl rfl
          exact h.same ⟨rfl, rfl, rfl, rfl⟩ (interrupt_core hcore hi) (hcalm (Or.inr rfl)) trivial
            (by rw [hp]; rfl)
      | device => exact ideInv_device h hp hn
  | rwAcquire b =>
      cases hn
      exact h.move (by rw [hp]; rfl) rfl hat fun b k he => by rw [hp] at he; cases he
  | rwInit b =>
      cases hn
      obtain ⟨q, m, hcore⟩ := hall rfl rfl
      have hb : b ∉ q := by
        refine h.fresh hcore fun r hr => ?_
        rw [hr.unique hat.1, hp]
        rfl
      exact h.same ⟨rfl, rfl, rfl, rfl⟩ (rwInit_core hcore hb) (hcalm (Or.inr rfl)) hat
        (by rw [hp]; rfl)
  | rwWalk b pp => exact ideInv_rwWalk h hp (hcalm (Or.inl rfl)) hn
  | rwStart b k =>
      obtain ⟨q, m, hcore⟩ := hsolo rfl
      obtain ⟨hcore', rfl, hk⟩ := rwStart_core hcore hn
      have hsame := rwStart_same hn
      have hat' := hat.same hsame
      refine h.same hsame hcore' (hcalm (Or.inl rfl)) ⟨hat'.1, hat'.2, fun hlt => ?_⟩
        (by rw [hp]; rfl)
      rw [hsame.2.2.2] at hlt
      omega
  | rwWait b k =>
      simp only [ideCode] at hn
      split at hn <;> cases hn
      · next hsync =>
          have hk : k < (completions d.hist).length := by
            by_contra hge
            obtain ⟨φ, q, m, hcore, -⟩ := h.core
            have := hcore.todo b (hcore.todo_index (Nat.not_lt.mp hge) hat.2.1)
            rw [this.1] at hsync
            cases hsync
          refine h.move (by rw [hp]; rfl) rfl ⟨hat.1, hat.2.1, hk⟩ fun b' k' he hge => ?_
          rw [hp] at he
          cases he
          omega
      · exact h.move (by rw [hp]; rfl) rfl hat fun b' k' he _ => by rw [hp] at he; exact he
  | rwRelease b k =>
      cases hn
      exact h.move (by rw [hp]; rfl) rfl trivial fun b k he => by rw [hp] at he; cases he
  | intrTest =>
      obtain ⟨q, m, hcore⟩ := hsolo rfl
      obtain ⟨q', hcore'⟩ := intrTest_core hcore hn
      obtain ⟨hsame, hwait, hat'⟩ := intrTest_same (p := p) hn
      exact h.same hsame hcore' (hcalm (Or.inl rfl)) hat' (by rw [hp]; exact hwait)
  | intrData b => exact ideInv_intrData h hp (hcalm (Or.inl rfl)) hn
  | intrWake b =>
      cases hn
      obtain ⟨q, m, hcore⟩ := hsolo rfl
      exact h.same ⟨rfl, rfl, rfl, rfl⟩ (intrWake_core hcore) (hcalm (Or.inl rfl)) trivial
        (by rw [hp]; rfl)
  | intrStart =>
      obtain ⟨q, m, hcore⟩ := hsolo rfl
      obtain ⟨hsame, hwait, hat'⟩ := intrStart_same (p := p) hn
      exact h.same hsame (intrStart_core hcore hn) (hcalm (Or.inl rfl)) hat'
        (by rw [hp]; exact hwait)
  | intrRelease =>
      cases hn
      exact h.move (by rw [hp]; rfl) rfl trivial fun b k he => by rw [hp] at he; cases he
  | panic e | panicLocked e => cases hn

/-! ## Wakeups -/

/-- A request for the buffer is open. -/
def Open (b : B) (d : Driver P B) : Prop :=
  ∃ k, (completions d.hist).length ≤ k ∧ d.queued[k]? = some b

/-- `ideintr` between the flags and `wakeup`. -/
def Place.owes (l : Place B) (b : B) : Prop := l = .intrWake b

omit [DecidableEq P] [DecidableEq B] in
theorem Open.keep {c : B} (h : Open c d) (hq : ∀ (k : Nat) b, d.queued[k]? = some b →
    d'.queued[k]? = some b) (hc : completions d'.hist = completions d.hist) : Open c d' := by
  obtain ⟨k, hk, hb⟩ := h
  exact ⟨k, by rw [hc]; exact hk, hq k c hb⟩

omit [DecidableEq P] in
/-- The handler completes the oldest open request. -/
theorem intrData_open {c : B} (h : Core m₀ d (.intrData b) q m)
    (hn : (intrData d b).next d = some (d', l')) (hc : Open c d) : Open c d' ∨ l'.owes c := by
  obtain ⟨rfl, -, hqueued, -, hhist, -, -⟩ := intrData_core h hn
  obtain ⟨k, hk, hck⟩ := hc
  by_cases he : k = (completions d.hist).length
  · rw [he, h.order, List.getElem?_append_right (le_refl _), Nat.sub_self] at hck
    cases hck
    exact Or.inr rfl
  · refine Or.inl ⟨k, ?_, by rw [hqueued]; exact hck⟩
    rw [hhist, completions_complete, List.length_append, List.length_singleton]
    omega

theorem ideCode_pays {call : UserCall B} (h : IdeInv m₀ d place) (hp : place p = l) :
    (ideCode p call d l).pays Open Place.owes d l := by
  have hat := h.each p
  rw [hp] at hat
  cases l with
  | idle =>
      cases p with
      | proc u =>
          cases call <;> simp only [ideCode, user] <;> repeat' split
          all_goals first
            | trivial
            | exact fun c hc => Or.inl ((hc.resolve_right nofun).keep (fun _ _ => id) rfl)
            | exact fun c hc => Or.inl
                ((hc.resolve_right nofun).keep (fun _ _ => id) (completions_set ..))
      | intr cpu =>
          simp only [ideCode, interrupt]
          split
          · exact fun c hc => nomatch hc
          · trivial
      | device =>
          simp only [ideCode, device]
          repeat' split
          all_goals first
            | trivial
            | exact fun c hc => Or.inl ((hc.resolve_right nofun).keep (fun _ _ => id) rfl)
  | rwAcquire b => exact fun c hc => nomatch hc
  | rwInit b =>
      exact fun c hc => Or.inl ((hc.resolve_right nofun).keep (fun _ _ => id) rfl)
  | rwWalk b pp =>
      have happend : ∀ (k : Nat) c, d.queued[k]? = some c → (d.queued ++ [b])[k]? = some c := by
        intro k c hc
        rw [List.getElem?_append_left (List.getElem?_eq_some_iff.mp hc).1]
        exact hc
      simp only [ideCode, rwWalk]
      split
      · exact fun c hc => Or.inl (hc.resolve_right nofun)
      · split <;> exact fun c hc => Or.inl ((hc.resolve_right nofun).keep happend rfl)
  | rwStart b k =>
      simp only [ideCode, rwStart, idestart]
      repeat' split
      all_goals first
        | trivial
        | exact fun c hc => Or.inl ((hc.resolve_right nofun).keep (fun _ _ => id) rfl)
  | rwWait b k =>
      simp only [ideCode]
      split
      · exact fun c hc => Or.inl (hc.resolve_right nofun)
      · next hsync =>
          refine ⟨⟨k, ?_, hat.2.1⟩, fun c => nofun⟩
          by_contra hlt
          exact hsync (hat.2.2 (Nat.not_le.mp hlt))
  | rwRelease b k => exact fun c hc => nomatch hc
  | intrTest =>
      simp only [ideCode, intrTest]
      split <;> exact fun c hc => Or.inl ((hc.resolve_right nofun).keep (fun _ _ => id) rfl)
  | intrData b =>
      obtain ⟨q, m, hcore⟩ := h.core_solo (p := p) (by rw [hp]; rfl)
      rw [hp] at hcore
      simp only [ideCode]
      cases hi : intrData d b with
      | go d' l' =>
          exact fun c hc => intrData_open hcore (by rw [hi]; rfl) (hc.resolve_right nofun)
      | halt => trivial
      | acquire | release | sleep | wakeup =>
          rw [intrData] at hi
          split at hi <;> cases hi
  | intrWake b =>
      rintro c hc
      cases hc
      exact Or.inl rfl
  | intrStart =>
      simp only [ideCode, intrStart, idestart]
      repeat' split
      all_goals first
        | trivial
        | exact fun c hc => Or.inl ((hc.resolve_right nofun).keep (fun _ _ => id) rfl)
  | intrRelease => exact fun c hc => nomatch hc
  | panic e | panicLocked e => trivial

/-! ## Whole runs -/

variable {s s' : IdeState P B}

theorem ideInv_step {act : MonAct (Party P) (UserCall B)} (hm : MonInv Place.locked s)
    (hm' : MonInv Place.locked s') (hw : Wakeful Place.solo s) (hw' : Wakeful Place.solo s')
    (h : IdeInv m₀ s.data fun p => (s.pc p).place) (hok : callsOk s act)
    (hs : ideStep s act = some s') : IdeInv m₀ s'.data fun p => (s'.pc p).place := by
  rcases step_place hs with ⟨hd, hpc⟩ | ⟨p, call, l, rfl, hl, hnext, hother⟩
  · have hplace : (fun p => (s'.pc p).place) = fun p => (s.pc p).place := funext hpc
    rw [hd, hplace]
    exact h
  · have hplace : (fun r => (s'.pc r).place) =
        Function.update (fun r => (s.pc r).place) p (s'.pc p).place := by
      refine (Function.update_eq_iff.mpr ⟨rfl, fun r hr => ?_⟩).symm
      rw [hother r hr]
    have hpl : (s.pc p).place = l := by rw [hl]; rfl
    rw [hplace]
    refine ideInv_code h hpl (fun hsolo r hr => ?_) ?_ hnext
    · -- two parties at special places would both have the lock
      by_contra hrs
      rw [Bool.not_eq_false] at hrs
      rcases hsolo with hsolo | hsolo
      · refine hr (hw.unique hm Place.locked_of_solo (by rw [hpl]; exact hsolo) ?_)
        exact hw.locked Place.locked_of_solo hrs
      · refine hr (hw'.unique hm' Place.locked_of_solo hsolo ?_)
        refine hw'.locked Place.locked_of_solo ?_
        rw [hother r hr]
        exact hrs
    · rintro u b rfl rfl rfl
      exact hok hl

def IdeState.boot (buf : B → DiskBuf) (havedisk1 : Bool) (port : Block) (disk : Nat → Disk) :
    IdeState P B :=
  Mon.init (Party P) B (Driver.boot buf havedisk1 port disk) .idle

variable {buf : B → DiskBuf} {havedisk1 : Bool} {port : Block} {disk : Nat → Disk}

theorem ide_reach (h : Reach ideStep callsOk (IdeState.boot buf havedisk1 port disk) s) :
    MonInv Place.locked s ∧ Wakeful Place.solo s ∧ Debt Open Place.owes s ∧
      IdeInv ⟨buf, disk 1⟩ s.data fun p => (s.pc p).place := by
  refine h.invariant
    (I := fun s => MonInv Place.locked s ∧ Wakeful Place.solo s ∧ Debt Open Place.owes s ∧
      IdeInv ⟨buf, disk 1⟩ s.data fun p => (s.pc p).place)
    ⟨monInv_init _ rfl, wakeful_init _ _, debt_init _ _, ideInv_boot ..⟩ ?_
  rintro s s' act ⟨hm, hw, hd, hi⟩ hok hs
  have hm' := monInv_step ideCode_disciplined hm hs
  have hw' := wakeful_step ideCode_wakeful hw hs
  refine ⟨hm', hw', debt_step hm hd (fun p call l _ hl => ideCode_pays hi ?_) hs,
    ideInv_step hm hm' hw hw' hi hok hs⟩
  rw [hl]
  rfl

/-- What the driver guarantees in every state, next to `memide.c` started from `m₀`. -/
structure Refines (m₀ : Memide B) (s : IdeState P B) : Prop where
  /-- The queue has no duplicates and no cycle. While `idelock` is free, the device has
  the command of its head and no other, and the open requests are queued in the order
  they came. -/
  queue : ∃ q, Linked s.data.qnext s.data.idequeue q ∧ q.Nodup ∧
    (s.lock = none → s.data.queued = completions s.data.hist ++ q ∧
      match q with
      | [] => s.data.busy = none ∧ s.data.irq = false
      | b :: _ =>
          s.data.busy = some (command (s.data.buf b)) ∧ s.data.irq = false ∨
            s.data.busy = none ∧ s.data.irq = true)
  /-- The requests complete in order, each once. -/
  order : completions s.data.hist <+: s.data.queued
  /-- A process leaves `iderw` when its own request is completed, -/
  returns : ∀ p b k, (s.pc p).place = .rwRelease b k →
    s.data.queued[k]? = some b ∧ k < (completions s.data.hist).length
  /-- and sleeps only while it is not. -/
  sleepers : s.lock = none → s.table = none → ∀ p b, s.asleep p = some b → Open b s.data
  /-- The buffers are what `memide.c` makes of them, and so is the disk, up to the write
  the device has finished and the handler has not yet seen. -/
  memide : ∃ m, m₀.run s.data.hist = .ok m ∧ m.buf = s.data.buf ∧
    (s.lock = none → s.data.disk 1 = m.disk ∨
      ∃ b, s.data.idequeue = some b ∧ s.data.irq = true ∧ (s.data.buf b).dirty = true ∧
        s.data.disk 1 = Function.update m.disk (s.data.buf b).blockno (s.data.buf b).data)

theorem iderw_refines (h : Reach ideStep callsOk (IdeState.boot buf havedisk1 port disk) s) :
    Refines ⟨buf, disk 1⟩ s := by
  obtain ⟨hm, hw, hd, hi⟩ := ide_reach h
  obtain ⟨φ, q, m, hcore, honly, hsome⟩ := hi.core
  have hfree : s.lock = none → Core ⟨buf, disk 1⟩ s.data .idle q m := by
    intro hlock
    refine hcore.calm ?_ rfl
    by_contra hφ
    rw [Bool.not_eq_false] at hφ
    obtain ⟨r, hr⟩ := hsome hφ
    have hr : (s.pc r).place = φ := hr
    have hlocked := hw.locked (p := r) Place.locked_of_solo (by rw [hr]; exact hφ)
    rw [hm.lock r, hlock] at hlocked
    cases hlocked
  refine ⟨⟨q, hcore.linked, hcore.nodup.of_append_right, fun hlock => ⟨(hfree hlock).order, ?_⟩⟩,
    ⟨_, hcore.order.symm⟩, fun p b k hp => ?_, fun hlock htable p b hp => ?_,
    m, hcore.mem, hcore.buf, fun hlock => ?_⟩
  · have hstage : Normal s.data m.disk q := (hfree hlock).stage
    cases q with
    | nil => exact ⟨hstage.2.1, hstage.1⟩
    | cons b bs =>
        rcases hstage with ⟨hirq, hbusy, -⟩ | ⟨hirq, hbusy, -⟩
        · exact Or.inl ⟨hbusy, hirq⟩
        · exact Or.inr ⟨hbusy, hirq⟩
  · have hat := hi.each p
    rw [hp] at hat
    exact hat.2
  · refine hd.reason (Or.inl hp) fun r hr => ?_
    have hno : (s.pc r).holds Place.locked ≠ true := by
      rw [ne_eq, hm.lock r, hlock]
      exact nofun
    cases hv : s.pc r with rw [hv] at hr hno
    | «at» l =>
        cases hr
        exact hno rfl
    | wakeup | waking | woken => exact hno rfl
    | _ => exact hr
  · have hstage : Normal s.data m.disk q := (hfree hlock).stage
    have hhead := hcore.linked.head
    cases q with
    | nil => exact Or.inl hstage.2.2
    | cons b bs =>
        rcases hstage with ⟨-, -, hdisk⟩ | ⟨hirq, -, hfin⟩
        · exact Or.inl hdisk
        · split at hfin
          · next hdirty => exact Or.inr ⟨b, hhead, hirq, hdirty, hfin⟩
          · exact Or.inl hfin.1

/-- A process that slept for its read to be done, and is about to return. -/
theorem iderw_refines_read :
    ∃ s : IdeState Unit Unit, (s.pc (.proc ())).place = .rwRelease () 0 ∧
      Refines ⟨fun _ => ⟨false, false, 1, 5, fun _ => 0⟩, fun _ _ => 7⟩ s := by
  have hrun : (exec ideStep callsOk
      (IdeState.boot (fun _ => ⟨false, false, 1, 5, fun _ => 0⟩) true (fun _ => 0)
        fun _ _ _ => 7)
      (.run (.proc ()) (.lock ()) :: List.replicate 9 (.run (.proc ()) (.iderw ())) ++
        .run .device (.lock ()) :: List.replicate 9 (.run (.intr 0) (.lock ())) ++
        List.replicate 4 (.run (.proc ()) (.lock ())))).any
      (fun s : IdeState Unit Unit => (s.pc (.proc ())).place = .rwRelease () 0) = true := by
    decide +kernel
  obtain ⟨s, hs, ht⟩ := exists_reach_of_exec hrun
  exact ⟨s, of_decide_eq_true ht, iderw_refines hs⟩

end Xv6.Ref.Ide
