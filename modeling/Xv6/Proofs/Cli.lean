import Xv6.Ref.Cli

/-!
# The interrupt flag follows the kernel thread

`ncli` and `intena` are fields of the CPU, and the thread they count for can leave the CPU
in between. It does so in one place, with `ncli` 1 on both sides of the switch, so the
count of the CPU is at any time the count of the thread it runs; and it takes its `intena`
along in a local of `sched`. While a thread is away other threads overwrite the `intena`
of every CPU, which does not matter, because what it comes back to is overwritten by its
own.

The invariant has a part for each CPU and the thread it runs (`Running`), a part for each
process that is switched away (`Parked`), and one that says who is where. A step that does
not switch concerns the first part only.
-/

namespace Xv6.Ref.Cli

open Xv6.Lib

variable {C : Nat} {P : Type} [DecidableEq P]

/-- A CPU and the thread it runs. -/
structure Running (x : Cpu C P) (k : Kthread) : Prop where
  place : k.place = .running
  count : x.ncli = k.depth
  off : 0 < k.depth → x.flagIF = false
  read : ∀ e, k.eflags = some e → e = x.flagIF
  intena : ∀ p, x.thread = .proc p → 0 < k.depth → k.own = true → x.intena = k.left
  traps : ∀ e f, (e, f) ∈ k.traps → f = true ∧ e ≠ some false

/-- A process that is not running, with the `intena` it is going to run under. -/
structure Parked (k : Kthread) (intena : Option Bool) : Prop where
  depth : k.depth = 1
  eflags : k.eflags = none
  left : k.own = true → intena = some k.left
  traps : ∀ e f, (e, f) ∈ k.traps → f = true ∧ e ≠ some false

structure Inv (s : Machine C P) : Prop where
  ok : s.panicked = none
  running : ∀ c, Running (s.cpu c) (s.current c)
  here : ∀ c d, (s.cpu c).thread = .sched d → d = c
  one : ∀ c d p, (s.cpu c).thread = .proc p → (s.cpu d).thread = .proc p → c = d
  fresh : ∀ p, (s.thread (.proc p)).place = .fresh → Parked (s.thread (.proc p)) none
  switched : ∀ p i, (s.thread (.proc p)).place = .switched i →
    Parked (s.thread (.proc p)) (some i)
  away : ∀ c, (s.cpu c).thread ≠ .sched c → (s.thread (.sched c)).depth = 1 ∧
    (s.thread (.sched c)).eflags = none ∧ (s.thread (.sched c)).traps = []

variable {s s' : Machine C P}

theorem inv_boot (C : Nat) (P : Type) [DecidableEq P] : Inv (Machine.boot C P) where
  ok := rfl
  running := fun c => ⟨rfl, rfl, nofun, nofun, nofun, nofun⟩
  here := fun c d h => (Thread.sched.inj h).symm
  one := fun c d p h => nomatch h
  fresh := fun p h => nomatch h
  switched := fun p i h => nomatch h
  away := fun c h => absurd rfl h

/-- No thread is on two CPUs. -/
theorem Inv.thread_inj (h : Inv s) {c d : Fin C} (he : (s.cpu c).thread = (s.cpu d).thread) :
    c = d := by
  cases hd : (s.cpu d).thread with
  | sched b => exact (h.here c b (he.trans hd)).symm.trans (h.here d b hd)
  | proc p => exact h.one c d p (he.trans hd) hd

/-- A scheduler is on its own CPU or on none. -/
theorem Inv.sched_elsewhere (h : Inv s) {c d : Fin C} (hd : d ≠ c) :
    (s.cpu d).thread ≠ .sched c := fun he => hd (h.here d c he).symm

/-! ## Steps that do not switch -/

/-- The thread on CPU `c` goes on there. -/
theorem Inv.local (h : Inv s) {c : Fin C} {x : Cpu C P} {k : Kthread}
    (hx : x.thread = (s.cpu c).thread) (hk : Running x k) :
    Inv ((s.setCurrent c k).setCpu c x) := by
  generalize hs : (s.setCurrent c k).setCpu c x = s'
  have hcpu : ∀ d, s'.cpu d = if d = c then x else s.cpu d := by
    intro d
    rw [← hs, setCpu_cpu]
    rfl
  have hrun : ∀ d, (s'.cpu d).thread = (s.cpu d).thread := by
    intro d
    rw [hcpu]
    split
    · next hd => rw [hx, hd]
    · rfl
  have hthread : ∀ t, s'.thread t = if t = (s.cpu c).thread then k else s.thread t := by
    intro t
    rw [← hs]
    exact setThread_thread ..
  -- A thread that is not running is not the one on `c`.
  have hparked : ∀ t, (s'.thread t).place ≠ .running → s'.thread t = s.thread t := by
    intro t ht
    rw [hthread] at ht ⊢
    split
    · next he => rw [if_pos he] at ht; exact absurd hk.place ht
    · rfl
  refine ⟨hs ▸ h.ok, fun d => ?_, fun d b hd => ?_, fun d b p hd hb => ?_, fun p hp => ?_,
    fun p i hp => ?_, fun d hd => ?_⟩
  · rw [Machine.current, hrun, hthread, hcpu]
    by_cases hd : d = c
    · rw [if_pos hd, if_pos (by rw [hd])]
      exact hk
    · rw [if_neg hd, if_neg fun he => hd (h.thread_inj he)]
      exact h.running d
  · exact h.here d b ((hrun d).symm.trans hd)
  · exact h.one d b p ((hrun d).symm.trans hd) ((hrun b).symm.trans hb)
  · have he := hparked (.proc p) (by rw [hp]; nofun)
    rw [he] at hp ⊢
    exact h.fresh p hp
  · have he := hparked (.proc p) (by rw [hp]; nofun)
    rw [he] at hp ⊢
    exact h.switched p i hp
  · rw [hrun] at hd
    have hne : Thread.sched d ≠ (s.cpu c).thread := by
      intro he
      exact hd ((h.here c d he.symm) ▸ he.symm)
    rw [hthread, if_neg hne]
    exact h.away d hd

theorem inv_readeflags (h : Inv s) {c : Fin C} (hs : stepReadeflags s c = some s') : Inv s' := by
  unfold stepReadeflags at hs
  split at hs
  · cases hs
    have hr := h.running c
    have hsame : s.setCurrent c { s.current c with eflags := some (s.cpu c).flagIF } =
        (s.setCurrent c { s.current c with eflags := some (s.cpu c).flagIF }).setCpu c
          (s.cpu c) := by
      rw [Machine.setCpu]
      exact congrArg (fun f => Machine.mk f _ _) (Function.update_eq_self c s.cpu).symm
    rw [hsame]
    refine h.local rfl ⟨hr.place, hr.count, hr.off, fun e he => ?_, hr.intena, hr.traps⟩
    exact (Option.some.inj he).symm
  · cases hs

theorem inv_cli (h : Inv s) {c : Fin C} (hs : stepCli s c = some s') : Inv s' := by
  have hr := h.running c
  unfold stepCli at hs
  dsimp only at hs
  split at hs
  · cases hs
  · next e he =>
      cases hs
      have hflag := hr.read e he
      refine h.local (by unfold pushcli; dsimp only; split <;> rfl) ?_
      by_cases hd : (s.current c).depth = 0
      · -- The outermost `pushcli` stores the flag it read, which is the one it clears.
        have hn : (s.cpu c).ncli = 0 := by rw [hr.count, hd]; rfl
        rw [if_pos hd, pushcli]
        dsimp only
        rw [if_pos hn]
        refine ⟨hr.place, ?_, fun _ => rfl, nofun, fun p _ _ _ => hflag, hr.traps⟩
        show (s.cpu c).ncli + 1 = (((s.current c).depth + 1 : Nat) : Int)
        rw [hr.count]
        rfl
      · have hn : ¬ (s.cpu c).ncli = 0 := by rw [hr.count]; omega
        rw [if_neg hd, pushcli]
        dsimp only
        rw [if_neg hn]
        refine ⟨hr.place, ?_, fun _ => rfl, nofun, fun p hp _ ho => ?_, hr.traps⟩
        · show (s.cpu c).ncli + 1 = (((s.current c).depth + 1 : Nat) : Int)
          rw [hr.count]
          rfl
        · exact hr.intena p hp (Nat.pos_of_ne_zero hd) ho

/-- With something to undo, `popcli` does not panic, and ends with the flag that was stored
when it undoes the last. -/
theorem popcli_ok {x : Cpu C P} {k : Kthread} (hr : Running x k) (hd : 0 < k.depth) :
    popcli x = .ok { x with
      ncli := (k.depth - 1 : Nat), flagIF := if k.depth = 1 then x.intena else false } := by
  have hoff := hr.off hd
  have hcount := hr.count
  have hn : x.ncli - 1 = ((k.depth - 1 : Nat) : Int) := by omega
  rw [popcli, if_neg (by rw [hoff]; nofun)]
  dsimp only
  rw [hn, if_neg (by omega)]
  by_cases h1 : k.depth = 1
  · rw [if_pos h1]
    cases hi : x.intena with
    | true => rw [if_pos ⟨by omega, rfl⟩]
    | false =>
        rw [if_neg fun h => nomatch h.2]
        exact congrArg (fun b => Except.ok (Cpu.mk _ _ b _)) hoff
  · rw [if_neg h1, if_neg fun h => h1 (by omega)]
    exact congrArg (fun b => Except.ok (Cpu.mk _ _ b _)) hoff

theorem inv_popcli (h : Inv s) {c : Fin C} (hd : 0 < (s.current c).depth)
    (hs : stepPopcli s c = some s') : Inv s' := by
  have hr := h.running c
  unfold stepPopcli at hs
  dsimp only at hs
  rw [popcli_ok hr hd] at hs
  split at hs
  · cases hs
  · next he =>
      cases hs
      have hnone : (s.current c).eflags = none := not_not.mp he
      refine h.local rfl ⟨hr.place, rfl, fun h0 => ?_, ?_, ?_, hr.traps⟩
      · have : ¬ (s.current c).depth = 1 := by dsimp only at h0; omega
        dsimp only
        rw [if_neg this]
      · intro e he'
        rw [hnone] at he'
        cases he'
      · intro p hp _ ho
        exact hr.intena p hp hd ho

theorem inv_trap (h : Inv s) {c : Fin C} {istrap : Bool}
    (hs : stepTrap s c istrap = some s') : Inv s' := by
  have hr := h.running c
  unfold stepTrap at hs
  dsimp only at hs
  split at hs
  · next hf =>
      cases hs
      have hzero : ¬ 0 < (s.current c).depth := fun hd => by
        rw [hr.off hd] at hf
        cases hf
      refine h.local rfl ⟨hr.place, hr.count, fun hd => absurd hd hzero, nofun,
        fun p _ hd => absurd hd hzero, fun e f hef => ?_⟩
      rcases List.mem_cons.mp hef with he | he
      · cases he
        refine ⟨rfl, fun hfalse => ?_⟩
        rw [← hr.read false hfalse] at hf
        cases hf
      · exact hr.traps e f he
  · cases hs

theorem inv_iret (h : Inv s) {c : Fin C} (hd : (s.current c).depth = 0)
    (hs : stepIret s c = some s') : Inv s' := by
  have hr := h.running c
  unfold stepIret at hs
  dsimp only at hs
  split at hs
  · cases hs
  · next e f rest ht =>
      split at hs
      · cases hs
        obtain ⟨hf, he⟩ := hr.traps e f (by rw [ht]; exact List.mem_cons_self)
        refine h.local rfl ⟨hr.place, hr.count, fun h0 => ?_, fun b hb => ?_, ?_, ?_⟩
        · exact absurd hd (Nat.pos_iff_ne_zero.mp h0)
        · dsimp only at hb ⊢
          rw [hf]
          cases b with
          | true => rfl
          | false => exact absurd hb he
        · exact fun p _ h0 => absurd hd (Nat.pos_iff_ne_zero.mp h0)
        · exact fun e' f' hef => hr.traps e' f' (by rw [ht]; exact List.mem_cons_of_mem _ hef)
      · cases hs

theorem inv_sti (h : Inv s) {c : Fin C} (hs : stepSti s c = some s') : Inv s' := by
  have hr := h.running c
  unfold stepSti at hs
  split at hs
  · next hg =>
      obtain ⟨ht, he, _, hd⟩ := hg
      cases hs
      have hsame : s.setCpu c { s.cpu c with flagIF := true } =
          (s.setCurrent c (s.current c)).setCpu c { s.cpu c with flagIF := true } := by
        rw [Machine.setCurrent, Machine.setThread]
        exact congrArg (fun f => Machine.mk _ f _)
          (Function.update_eq_self (s.cpu c).thread s.thread).symm
      rw [hsame]
      refine h.local rfl ⟨hr.place, hr.count, fun h0 => ?_, fun e he' => ?_, fun p hp => ?_,
        hr.traps⟩
      · exact absurd hd (Nat.pos_iff_ne_zero.mp h0)
      · rw [he] at he'
        cases he'
      · rw [ht] at hp
        cases hp
  · cases hs

/-! ## Switching -/

/-- The process on CPU `c` leaves it to the scheduler. -/
theorem inv_sched (h : Inv s) {c : Fin C} (hn : (s.cpu c).ncli = 1)
    (hs : stepSched s c = some s') : Inv s' := by
  have hr := h.running c
  unfold stepSched at hs
  split at hs
  · cases hs
  next p hp =>
  split at hs
  · cases hs
  next he =>
  have hdepth : (s.current c).depth = 1 := by
    have := hr.count
    omega
  have hoff := hr.off (by omega)
  have hsched : sched (s.cpu c) = .ok (s.cpu c).intena := by
    rw [sched, if_neg (not_not_intro hn), if_neg (by rw [hoff]; nofun)]
  rw [hsched] at hs
  dsimp only at hs
  generalize hk : ({ s.current c with place := .switched (s.cpu c).intena } : Kthread) = k at hs
  generalize hk' : ({ s.thread (.sched c) with place := .running } : Kthread) = k' at hs
  have haway := h.away c (by rw [hp]; nofun)
  have hcpu : ∀ d, s'.cpu d = if d = c then { s.cpu c with thread := .sched c } else s.cpu d := by
    intro d
    rw [← Option.some.inj hs, setCpu_cpu]
    rfl
  have hthread : ∀ t, s'.thread t =
      if t = .sched c then k' else if t = .proc p then k else s.thread t := by
    intro t
    rw [← Option.some.inj hs, setCpu_thread, setThread_thread, Machine.setCurrent, hp,
      setThread_thread]
  refine ⟨?_, fun d => ?_, fun d b hd => ?_, fun d b q hd hb => ?_, fun q hq => ?_,
    fun q i hq => ?_, fun d hd => ?_⟩
  · rw [← Option.some.inj hs]
    exact h.ok
  · rw [Machine.current, hcpu]
    by_cases hd : d = c
    · rw [if_pos hd, hthread, if_pos rfl, ← hk']
      refine ⟨rfl, ?_, fun _ => hoff, fun e hread => ?_, nofun, fun e f hef => ?_⟩
      · show (s.cpu c).ncli = ((s.thread (.sched c)).depth : Int)
        rw [hn, haway.1]
        rfl
      · exact absurd hread (by rw [haway.2.1]; nofun)
      · exact absurd hef (by rw [haway.2.2]; exact List.not_mem_nil)
    · rw [if_neg hd, hthread, if_neg (h.sched_elsewhere hd), if_neg fun hq => hd (h.one d c p hq hp)]
      exact h.running d
  · rw [hcpu] at hd
    split at hd
    · next hdc => rw [hdc]; exact (Thread.sched.inj hd).symm
    · exact h.here d b hd
  · rw [hcpu] at hd hb
    split at hd
    · cases hd
    · split at hb
      · cases hb
      · exact h.one d b q hd hb
  · rw [hthread, if_neg nofun] at hq ⊢
    split at hq
    · rw [← hk] at hq
      cases hq
    · next hne => rw [if_neg hne]; exact h.fresh q hq
  · rw [hthread, if_neg nofun] at hq ⊢
    split at hq
    · next heq =>
        rw [if_pos heq]
        rw [← hk] at hq ⊢
        obtain rfl : (s.cpu c).intena = i := Place.switched.inj hq
        refine ⟨hdepth, not_not.mp he, fun ho => ?_, hr.traps⟩
        exact congrArg some (hr.intena p hp (by omega) ho)
    · next hne => rw [if_neg hne]; exact h.switched q i hq
  · rw [hcpu] at hd
    by_cases hdc : d = c
    · rw [if_pos hdc, hdc] at hd
      exact absurd rfl hd
    · rw [if_neg hdc] at hd
      rw [hthread, if_neg fun he => hdc (Thread.sched.inj he), if_neg nofun]
      exact h.away d hd

/-- The scheduler on CPU `c` leaves it to a process. `i` is what the process puts into
`intena`, if it does. -/
theorem Inv.dispatch (h : Inv s) {c : Fin C} {p : P} {i : Option Bool} (hg : s.scheduling c 1)
    (hp : Parked (s.thread (.proc p)) i) (hplace : (s.thread (.proc p)).place ≠ .running) :
    Inv (((s.setThread (.sched c)
      { s.thread (.sched c) with place := .switched (s.cpu c).intena }).setThread (.proc p)
        { s.thread (.proc p) with place := .running }).setCpu c
          { s.cpu c with thread := .proc p, intena := i.getD (s.cpu c).intena }) := by
  obtain ⟨hc, heflags, htraps, hdepth⟩ := hg
  have hr := h.running c
  have hoff := hr.off (by omega)
  rw [Machine.current, hc] at heflags htraps hdepth
  generalize hk : ({ s.thread (.sched c) with place := .switched (s.cpu c).intena } : Kthread) = k
  generalize hk' : ({ s.thread (.proc p) with place := .running } : Kthread) = k'
  generalize hs : ((s.setThread (.sched c) k).setThread (.proc p) k').setCpu c _ = s'
  have hcpu : ∀ d, s'.cpu d = if d = c then
      { s.cpu c with thread := .proc p, intena := i.getD (s.cpu c).intena } else s.cpu d := by
    intro d
    rw [← hs, setCpu_cpu]
    rfl
  have hthread : ∀ t, s'.thread t =
      if t = .proc p then k' else if t = .sched c then k else s.thread t := by
    intro t
    rw [← hs, setCpu_thread, setThread_thread, setThread_thread]
  have hnowhere : ∀ d, (s.cpu d).thread ≠ .proc p := by
    intro d hd
    have := (h.running d).place
    rw [Machine.current, hd] at this
    exact hplace this
  refine ⟨hs ▸ h.ok, fun d => ?_, fun d b hd => ?_, fun d b q hd hb => ?_, fun q hq => ?_,
    fun q j hq => ?_, fun d hd => ?_⟩
  · rw [Machine.current, hcpu]
    by_cases hd : d = c
    · rw [if_pos hd, hthread, if_pos rfl, ← hk']
      refine ⟨rfl, ?_, fun _ => hoff, fun e hread => ?_, fun q _ _ ho => ?_, hp.traps⟩
      · show (s.cpu c).ncli = ((s.thread (.proc p)).depth : Int)
        rw [hr.count, Machine.current, hc, hdepth, hp.depth]
      · exact absurd hread (by rw [hp.eflags]; nofun)
      · show i.getD _ = _
        rw [hp.left ho]
        rfl
    · rw [if_neg hd, hthread, if_neg (hnowhere d), if_neg (h.sched_elsewhere hd)]
      exact h.running d
  · rw [hcpu] at hd
    split at hd
    · cases hd
    · exact h.here d b hd
  · rw [hcpu] at hd hb
    split at hd
    · next hdc =>
        split at hb
        · next hbc => rw [hdc, hbc]
        · exact absurd (Thread.proc.inj hd ▸ hb) (hnowhere b)
    · split at hb
      · exact absurd (Thread.proc.inj hb ▸ hd) (hnowhere d)
      · exact h.one d b q hd hb
  · rw [hthread] at hq ⊢
    split at hq
    · rw [← hk'] at hq
      cases hq
    · next hne =>
        rw [if_neg nofun] at hq
        rw [if_neg hne, if_neg nofun]
        exact h.fresh q hq
  · rw [hthread] at hq ⊢
    split at hq
    · rw [← hk'] at hq
      cases hq
    · next hne =>
        rw [if_neg nofun] at hq
        rw [if_neg hne, if_neg nofun]
        exact h.switched q j hq
  · rw [hthread, if_neg nofun]
    by_cases hdc : d = c
    · rw [hdc, if_pos rfl, ← hk]
      exact ⟨hdepth, heflags, htraps⟩
    · rw [hcpu, if_neg hdc] at hd
      rw [if_neg fun he => hdc (Thread.sched.inj he)]
      exact h.away d hd

theorem inv_swtch (h : Inv s) {c : Fin C} {p : P} (hs : stepSwtch s c p = some s') : Inv s' := by
  unfold stepSwtch at hs
  split at hs
  · next hg =>
      dsimp only at hs
      split at hs
      · next hf =>
          cases hs
          exact h.dispatch (i := none) hg (h.fresh p hf) (by rw [hf]; nofun)
      · next i hi =>
          cases hs
          exact h.dispatch (i := some i) hg (h.switched p i hi) (by rw [hi]; nofun)
      · cases hs
  · cases hs

theorem inv_fork (h : Inv s) {p : P} (hs : stepFork s p = some s') : Inv s' := by
  unfold stepFork at hs
  split at hs
  · next hp =>
      cases hs
      have hnowhere : ∀ d, (s.cpu d).thread ≠ .proc p := by
        intro d hd
        have := (h.running d).place
        rw [Machine.current, hd, hp] at this
        cases this
      refine ⟨h.ok, fun d => ?_, h.here, h.one, fun q hq => ?_, fun q i hq => ?_, fun d hd => ?_⟩
      · rw [Machine.current, setThread_cpu, setThread_thread, if_neg (hnowhere d)]
        exact h.running d
      · rw [setThread_thread] at hq ⊢
        split at hq
        · next heq =>
            rw [if_pos heq]
            refine ⟨rfl, rfl, nofun, fun e f hef => ?_⟩
            cases List.mem_singleton.mp hef
            exact ⟨rfl, nofun⟩
        · next hne => rw [if_neg hne]; exact h.fresh q hq
      · rw [setThread_thread] at hq ⊢
        split at hq
        · cases hq
        · next hne => rw [if_neg hne]; exact h.switched q i hq
      · rw [setThread_thread, if_neg nofun]
        exact h.away d hd
  · cases hs

/-! ## Runs -/

/-- The calls match: nobody undoes a `pushcli` it has not made, a trap returns with all of
its own undone, and `sched` is called with `ncli` 1. -/
def matched (s : Machine C P) : Act C P → Prop
  | .popcli c => 0 < (s.current c).depth
  | .iret c => (s.current c).depth = 0
  | .sched c => (s.cpu c).ncli = 1
  | _ => True

instance (s : Machine C P) (a : Act C P) : Decidable (matched s a) := by
  cases a <;> unfold matched <;> infer_instance

theorem inv_step {a : Act C P} (h : Inv s) (hok : matched s a) (hs : step s a = some s') :
    Inv s' := by
  unfold step at hs
  rw [if_neg (not_not_intro h.ok)] at hs
  cases a with
  | readeflags c => exact inv_readeflags h hs
  | cli c => exact inv_cli h hs
  | popcli c => exact inv_popcli h hok hs
  | trap c istrap => exact inv_trap h hs
  | iret c => exact inv_iret h hok hs
  | sched c => exact inv_sched h hok hs
  | sti c => exact inv_sti h hs
  | swtch c p => exact inv_swtch h hs
  | fork p => exact inv_fork h hs

theorem inv_reach (hr : Reach step matched (Machine.boot C P) s) : Inv s :=
  hr.invariant (I := Inv) (inv_boot C P) fun _ _ _ hi hok hs => inv_step hi hok hs

/-- In every state of a run with matching calls: nothing has panicked, interrupts are off on
a CPU whose `ncli` is positive, and a `popcli` that takes a process's thread back to 0 does
not panic and leaves the flag as it was when the thread left 0, on whichever CPU that was. -/
theorem flag_follows_thread (hr : Reach step matched (Machine.boot C P) s) :
    s.panicked = none ∧
    (∀ c, 0 < (s.cpu c).ncli → (s.cpu c).flagIF = false) ∧
    (∀ c, 0 < (s.current c).depth → ∃ x, popcli (s.cpu c) = .ok x) ∧
    ∀ c p s', (s.cpu c).thread = .proc p → (s.thread (.proc p)).own = true →
      (s.thread (.proc p)).depth = 1 → step s (.popcli c) = some s' →
      (s'.thread (.proc p)).depth = 0 ∧ (s'.cpu c).thread = .proc p ∧
        (s'.cpu c).flagIF = (s.thread (.proc p)).left := by
  have h := inv_reach hr
  refine ⟨h.ok, fun c hc => ?_, fun c hd => ⟨_, popcli_ok (h.running c) hd⟩, ?_⟩
  · have hrun := h.running c
    exact hrun.off (by have := hrun.count; omega)
  · intro c p s' hp ho hd hs
    have hrun := h.running c
    have hcur : s.current c = s.thread (.proc p) := by rw [Machine.current, hp]
    rw [step, if_neg (not_not_intro h.ok)] at hs
    unfold stepPopcli at hs
    dsimp only at hs
    rw [popcli_ok hrun (by rw [hcur]; omega)] at hs
    split at hs
    · cases hs
    · cases hs
      refine ⟨?_, ?_, ?_⟩
      · rw [setCpu_thread, Machine.setCurrent, hp, setThread_thread, if_pos rfl, hcur]
        dsimp only
        omega
      · rw [setCpu_cpu, if_pos rfl]
        exact hp
      · rw [setCpu_cpu, if_pos rfl]
        dsimp only
        rw [if_pos (by rw [hcur]; exact hd), hrun.intena p hp (by rw [hcur]; omega)
          (by rw [hcur]; exact ho), hcur]

/-- A process makes a system call on CPU 0, sleeps with one lock held, and is resumed by the
scheduler of CPU 1, which never had interrupts on. -/
def migrates : List (Act 2 Unit) :=
  [.fork (), .readeflags 0, .cli 0, .swtch 0 (), .popcli 0, .iret 0, .trap 0 true,
    .readeflags 0, .cli 0, .sched 0, .readeflags 1, .cli 1, .swtch 1 ()]

theorem flag_follows_thread_migrates :
    ∃ s s' : Machine 2 Unit, Reach step matched (Machine.boot 2 Unit) s ∧
      (s.thread (.proc ())).left = true ∧ step s (.popcli 1) = some s' ∧
      (s'.cpu 1).flagIF = true := by
  have hrun : (exec step matched (Machine.boot 2 Unit) migrates).any (fun s =>
      decide ((s.cpu 1).thread = .proc () ∧ (s.thread (.proc ())).own = true ∧
        (s.thread (.proc ())).depth = 1 ∧ (s.thread (.proc ())).left = true) &&
      (step s (.popcli 1)).isSome) = true := by
    decide +kernel
  obtain ⟨s, hr, hp⟩ := exists_reach_of_exec hrun
  obtain ⟨hp, hs⟩ := Bool.and_eq_true_iff.mp hp
  obtain ⟨ht, ho, hd, hl⟩ := of_decide_eq_true hp
  obtain ⟨s', hs⟩ := Option.isSome_iff_exists.mp hs
  have hflag := ((flag_follows_thread hr).2.2.2 1 () s' ht ho hd hs).2.2
  exact ⟨s, s', hr, hl, hs, hflag.trans hl⟩

end Xv6.Ref.Cli
