import Xv6.Proofs.ProcEvent

/-!
# Birth, death and burial of processes

The invariant of the process table behind `fork`, `exit`, `wait` and `waitx`:
pids are positive, distinct and older than `nextpid`; whoever can run or has
exited has a parent that can still run; and nobody sleeps in `wait` on a zombie
child. The last is the absence of lost wakeups. It holds in every state, not
only when the lock is free, because `exit` wakes the parent, hands its children
to `init` and becomes a ZOMBIE in one section, and `wait` scans and goes to
sleep in one.
-/

namespace Xv6.Ref

open Xv6.Lib

variable {C : Nat} {flag : Char} {s s' : Kern C}

/-! ## The section of `exit` -/

/-- Not asleep in `wait`. -/
def Awake (t : Table) (p : Slot) : Prop :=
  (t p).state = .SLEEPING → (t p).chan ≠ some (.proc p)

/-- Nothing but wakeups and new parents. -/
def Nudged (t u : Table) : Prop :=
  ∀ j, (u j).pid = (t j).pid ∧ (u j).chan = (t j).chan ∧
    ((u j).state = (t j).state ∨ (t j).state = .SLEEPING ∧ (u j).state = .RUNNABLE)

theorem Nudged.refl (t : Table) : Nudged t t := fun _ => ⟨rfl, rfl, Or.inl rfl⟩

theorem Nudged.trans {t u v : Table} (h₁ : Nudged t u) (h₂ : Nudged u v) :
    Nudged t v := by
  intro j
  obtain ⟨hp, hc, hs⟩ := h₁ j
  obtain ⟨hp', hc', hs'⟩ := h₂ j
  refine ⟨hp'.trans hp, hc'.trans hc, ?_⟩
  rcases hs' with hs' | ⟨hs', hr⟩
  · rw [hs']; exact hs
  · rcases hs with hs | ⟨_, hs⟩
    · exact Or.inr ⟨hs ▸ hs', hr⟩
    · rw [hs] at hs'; cases hs'

theorem Nudged.awake {t u : Table} (h : Nudged t u) {p : Slot} (ha : Awake t p) :
    Awake u p := by
  intro hs
  obtain ⟨_, hc, hst | ⟨_, hst⟩⟩ := h p
  · rw [hc]
    exact ha (hst.symm.trans hs)
  · rw [hst] at hs; cases hs

theorem Nudged.zombie {t u : Table} (h : Nudged t u) {z : Slot}
    (hz : (t z).state = .ZOMBIE) : (u z).state = .ZOMBIE := by
  obtain ⟨_, _, hst | ⟨hst, _⟩⟩ := h z
  · exact hst.trans hz
  · rw [hz] at hst; cases hst

theorem wakeup1_nudged (chan : Chan) (t : Table) : Nudged t (wakeup1 chan t) := by
  intro j
  simp only [wakeup1]
  split
  · next h => exact ⟨rfl, rfl, Or.inr ⟨h.1, rfl⟩⟩
  · exact ⟨rfl, rfl, Or.inl rfl⟩

theorem wakeup1_parent (chan : Chan) (t : Table) (j : Slot) :
    (wakeup1 chan t j).parent = (t j).parent := by
  simp only [wakeup1]
  split <;> rfl

theorem wakeup1_awake (t : Table) (p : Slot) : Awake (wakeup1 (.proc p) t) p := by
  intro hs
  simp only [wakeup1] at hs ⊢
  split at hs
  · cases hs
  · next hn =>
      rw [if_neg hn]
      exact fun hc => hn ⟨hs, hc⟩

theorem setParent_nudged (t : Table) (i q : Slot) :
    Nudged t (t.modify i fun p => { p with parent := some q }) := by
  intro j
  simp only [Table.modify]
  split
  · next he => subst he; exact ⟨rfl, rfl, Or.inl rfl⟩
  · exact ⟨rfl, rfl, Or.inl rfl⟩

theorem reparent_nudged (cur : Slot) (is : List Slot) (t : Table) :
    Nudged t (reparent cur is t) := by
  induction is generalizing t with
  | nil => exact .refl t
  | cons i is ih =>
      simp only [reparent]
      have hmod := setParent_nudged t i initproc
      split
      · split
        · exact (hmod.trans (wakeup1_nudged _ _)).trans (ih _)
        · exact hmod.trans (ih _)
      · exact ih t

theorem reparent_parent (cur : Slot) (is : List Slot) (t : Table) (j : Slot) : (reparent cur is t j).parent =
      if j ∈ is ∧ (t j).parent = some cur then some initproc else (t j).parent := by
  induction is generalizing t with
  | nil => simp [reparent]
  | cons i is ih =>
      simp only [reparent]
      by_cases hp : (t i).parent = some cur
      · have hmod : ∀ u : Table, (u j).parent = (t.modify i (fun p =>
            { p with parent := some initproc }) j).parent →
            (reparent cur is u j).parent = if j ∈ i :: is ∧ (t j).parent = some cur
              then some initproc else (t j).parent := by
          intro u hu
          rw [ih, hu]
          by_cases he : j = i
          · subst he
            simp [hp]
          · simp [Table.modify_other t he, he]
        rw [if_pos hp]
        split
        · exact hmod _ (wakeup1_parent _ _ _)
        · exact hmod _ rfl
      · rw [if_neg hp, ih]
        by_cases he : j = i
        · subst he; simp [hp]
        · simp [he]

/-- A zombie that is passed on wakes `init`. -/
theorem reparent_awake {cur z : Slot} (is : List Slot) (t : Table) (hz : z ∈ is)
    (hp : (t z).parent = some cur) (hst : (t z).state = .ZOMBIE) :
    Awake (reparent cur is t) initproc := by
  induction is generalizing t with
  | nil => cases hz
  | cons i is ih =>
      simp only [reparent]
      have hmod := setParent_nudged t i initproc
      by_cases he : z = i
      · subst he
        rw [if_pos hp, if_pos (hmod.zombie hst)]
        exact (reparent_nudged cur is _).awake (wakeup1_awake _ _)
      · have hz : z ∈ is := (List.mem_cons.mp hz).resolve_left he
        split
        · split
          · refine ih _ hz ?_ ?_
            · rw [wakeup1_parent, Table.modify_other t he]; exact hp
            · exact (hmod.trans (wakeup1_nudged _ _)).zombie hst
          · exact ih _ hz (by rw [Table.modify_other t he]; exact hp) (hmod.zombie hst)
        · exact ih t hz hp hst

/-- What the section of `exit` does to the table. -/
structure Exited (cur : Slot) (t u : Table) : Prop where
  pid : ∀ j, (u j).pid = (t j).pid
  chan : ∀ j, (u j).chan = (t j).chan
  parent : ∀ j, (u j).parent =
    if (t j).parent = some cur then some initproc else (t j).parent
  zombie : (u cur).state = .ZOMBIE
  other : ∀ j, j ≠ cur → (u j).state = (t j).state ∨
    (t j).state = .SLEEPING ∧ (u j).state = .RUNNABLE
  wakeParent : ∀ q, (t cur).parent = some q → Awake u q
  wakeInit : ∀ z, (t z).parent = some cur → (t z).state = .ZOMBIE → Awake u initproc

theorem exited_section (cur : Slot) (ticks : Ticks) (t : Table) : Exited cur t (exitSection cur ticks t) := by
  obtain ⟨t₁, ht₁, hpar, hwake, hsec⟩ : ∃ t₁, Nudged t t₁ ∧
      (∀ j, (t₁ j).parent = (t j).parent) ∧
      (∀ q, (t cur).parent = some q → Awake t₁ q) ∧
      exitSection cur ticks t = (reparent cur slots t₁).modify cur
        fun p => { p with state := .ZOMBIE, etime := ticks } := by
    simp only [exitSection]
    split
    · next q hq =>
        refine ⟨_, wakeup1_nudged (.proc q) t, wakeup1_parent _ t, ?_, rfl⟩
        intro q' hq'
        rw [hq] at hq'
        cases hq'
        exact wakeup1_awake t q
    · next hq =>
        refine ⟨t, .refl t, fun _ => rfl, ?_, rfl⟩
        intro q hq'
        rw [hq] at hq'
        cases hq'
  have hn : Nudged t (reparent cur slots t₁) := ht₁.trans (reparent_nudged cur slots t₁)
  have hawake : ∀ p, Awake (reparent cur slots t₁) p →
      Awake (exitSection cur ticks t) p := by
    intro p ha
    rw [hsec]
    by_cases he : p = cur
    · intro hs
      rw [he, Table.modify_same] at hs
      cases hs
    · intro hs
      rw [Table.modify_other _ he] at hs ⊢
      exact ha hs
  have hsame : ∀ {α : Type} (f : Proc → α), (∀ p : Proc, ∀ tk,
      f { p with state := .ZOMBIE, etime := tk } = f p) →
      ∀ j, f (exitSection cur ticks t j) = f (reparent cur slots t₁ j) := by
    intro α f hf j
    rw [hsec]
    by_cases he : j = cur
    · rw [he, Table.modify_same, hf]
    · rw [Table.modify_other _ he]
  exact {
    pid := fun j => (hsame Proc.pid (fun _ _ => rfl) j).trans (hn j).1
    chan := fun j => (hsame Proc.chan (fun _ _ => rfl) j).trans (hn j).2.1
    parent := by
      intro j
      rw [hsame Proc.parent (fun _ _ => rfl) j, reparent_parent, hpar]
      simp
    zombie := by rw [hsec, Table.modify_same]
    other := by
      intro j hj
      rw [hsec, Table.modify_other _ hj]
      exact (hn j).2.2
    wakeParent := fun q hq => hawake q ((reparent_nudged cur slots t₁).awake (hwake q hq))
    wakeInit := fun z hp hz => hawake _
      (reparent_awake slots t₁ (List.mem_finRange z) ((hpar z).trans hp) (ht₁.zombie hz)) }

/-! ## The invariant -/

/-- Can run, now or later. -/
def Procstate.alive : Procstate → Bool
  | .RUNNABLE | .RUNNING | .SLEEPING => true
  | _ => false

/-- Was made RUNNABLE by `fork` and is not yet buried. -/
def Procstate.forked : Procstate → Bool
  | .UNUSED | .EMBRYO => false
  | _ => true

structure LifeInv (s : Kern C) : Prop where
  pids : ∀ i, (s.proc i).pid < s.nextpid
  live : ∀ i, (s.proc i).state ≠ .UNUSED → 0 < (s.proc i).pid
  distinct : ∀ i j, (s.proc i).state ≠ .UNUSED → (s.proc j).state ≠ .UNUSED →
    (s.proc i).pid = (s.proc j).pid → i = j
  forking : ∀ i np, (s.kpc i).child = some np →
    (s.proc i).state = .RUNNING ∨ (s.proc i).state = .RUNNABLE
  adopted : ∀ i np, (s.kpc i).adopted = some np → (s.proc np).parent = some i
  init : (s.proc initproc).state.alive = true ∧ (s.proc initproc).parent = none
  parent : ∀ i, i ≠ initproc → (s.proc i).state.forked = true →
    ∃ q, (s.proc i).parent = some q ∧ (s.proc q).state.alive = true
  own : ∀ i, (s.proc i).parent ≠ some i
  asleep : ∀ i z, (s.proc z).parent = some i → (s.proc z).state = .ZOMBIE →
    Awake s.proc i

theorem lifeInv_boot (C : Nat) : LifeInv (Kern.boot C) := by
  have hproc : ∀ i, (Kern.boot C).proc i =
      if i = initproc then { Proc.zero with state := .RUNNABLE, pid := 1, priority := 60 }
      else Proc.zero := by
    intro i
    simp only [Kern.boot, Function.update_apply]
  have hkpc : ∀ i, ((Kern.boot C).kpc i).child = none := by
    intro i
    simp only [Kern.boot, Function.update_apply]
    split <;> rfl
  refine ⟨?_, ?_, ?_, ?_, ?_, ?_, ?_, ?_, ?_⟩
  · intro i
    rw [hproc]
    split <;> simp [Kern.boot, Proc.zero]
  · intro i hi
    rw [hproc] at hi ⊢
    split at hi
    · next he => rw [if_pos he]; decide
    · exact absurd rfl hi
  · intro i j hi hj _
    rw [hproc] at hi hj
    split at hi <;> split at hj
    · next h1 h2 => rw [h1, h2]
    all_goals first | exact absurd rfl hi | exact absurd rfl hj
  · intro i np h
    rw [hkpc] at h
    cases h
  · intro i np h
    have := KPc.child_of_adopted h
    rw [hkpc] at this
    cases this
  · rw [hproc]
    exact ⟨rfl, rfl⟩
  · intro i hi hf
    rw [hproc, if_neg hi] at hf
    cases hf
  · intro i h
    rw [hproc] at h
    split at h <;> cases h
  · intro i z h
    rw [hproc] at h
    split at h <;> cases h

/-- A step that leaves pids and parents alone, and only moves processes that
can run between the states in which they can. -/
structure Calm (s s' : Kern C) : Prop where
  frame : IdFrame s s'
  pid : ∀ j, (s'.proc j).pid = (s.proc j).pid
  parent : ∀ j, (s'.proc j).parent = (s.proc j).parent
  state : ∀ j, (s'.proc j).state = (s.proc j).state ∨
    (s.proc j).state.alive = true ∧ (s'.proc j).state.alive = true
  forking : ∀ j np, (s.kpc j).child = some np →
    (s.proc j).state = .RUNNING ∨ (s.proc j).state = .RUNNABLE →
    (s'.proc j).state = .RUNNING ∨ (s'.proc j).state = .RUNNABLE
  awake : ∀ j z, (s.proc z).parent = some j → (s.proc z).state = .ZOMBIE →
    Awake s.proc j → Awake s'.proc j

theorem Calm.alive (h : Calm s s') {j : Slot} (hj : (s.proc j).state.alive = true) :
    (s'.proc j).state.alive = true := by
  rcases h.state j with hs | ⟨_, hs⟩
  · rw [hs]; exact hj
  · exact hs

theorem Calm.forked (h : Calm s s') {j : Slot} (hj : (s'.proc j).state.forked = true) :
    (s.proc j).state.forked = true := by
  rcases h.state j with hs | ⟨hs, _⟩
  · rw [← hs]; exact hj
  · revert hs
    cases (s.proc j).state <;> decide

theorem Calm.unused (h : Calm s s') {j : Slot} (hj : (s'.proc j).state ≠ .UNUSED) :
    (s.proc j).state ≠ .UNUSED := by
  rcases h.state j with hs | ⟨hs, _⟩
  · rw [← hs]; exact hj
  · intro he
    rw [he] at hs
    cases hs

theorem Calm.zombie (h : Calm s s') {j : Slot} (hj : (s'.proc j).state = .ZOMBIE) :
    (s.proc j).state = .ZOMBIE := by
  rcases h.state j with hs | ⟨_, hs⟩
  · rw [← hs]; exact hj
  · rw [hj] at hs; cases hs

theorem LifeInv.calm (hi : LifeInv s) (h : Calm s s') : LifeInv s' where
  pids := fun i => by rw [h.pid, h.frame.pid]; exact hi.pids i
  live := fun i hl => by rw [h.pid]; exact hi.live i (h.unused hl)
  distinct := by
    intro i j hl hm he
    rw [h.pid, h.pid] at he
    exact hi.distinct i j (h.unused hl) (h.unused hm) he
  forking := by
    intro i np hc
    have hc := h.frame.child i np hc
    exact h.forking i np hc (hi.forking i np hc)
  adopted := fun i np ha => by rw [h.parent]; exact hi.adopted i np (h.frame.adopted i np ha)
  init := ⟨h.alive hi.init.1, by rw [h.parent]; exact hi.init.2⟩
  parent := by
    intro i hne hf
    obtain ⟨q, hq, ha⟩ := hi.parent i hne (h.forked hf)
    exact ⟨q, by rw [h.parent]; exact hq, h.alive ha⟩
  own := fun i => by rw [h.parent]; exact hi.own i
  asleep := by
    intro i z hp hz
    rw [h.parent] at hp
    exact h.awake i z hp (h.zombie hz) (hi.asleep i z hp (h.zombie hz))

/-! ## Calm steps -/

theorem calm_quiet (frame : IdFrame s s') (ids : ∀ j, SameId (s.proc j) (s'.proc j)) :
    Calm s s' where
  frame := frame
  pid := fun j => (ids j).2.1
  parent := fun j => (ids j).2.2.1
  state := fun j => Or.inl (ids j).1
  forking := fun j np _ h => by rw [(ids j).1]; exact h
  awake := by
    intro j z _ _ ha hs
    rw [(ids j).1] at hs
    rw [(ids j).2.2.2.2]
    exact ha hs

theorem calm_nudged (frame : IdFrame s s') (h : Nudged s.proc s'.proc)
    (parent : ∀ j, (s'.proc j).parent = (s.proc j).parent) : Calm s s' where
  frame := frame
  pid := fun j => (h j).1
  parent := parent
  state := by
    intro j
    rcases (h j).2.2 with hs | ⟨hs, hs'⟩
    · exact Or.inl hs
    · exact Or.inr ⟨by rw [hs]; rfl, by rw [hs']; rfl⟩
  forking := by
    intro j np _ hst
    rcases (h j).2.2 with hs | ⟨_, hs'⟩
    · rw [hs]; exact hst
    · exact Or.inr hs'
  awake := fun j z _ _ ha => h.awake ha

theorem kill_nudged (pid : Int) (t : Table) : Nudged t ((kill pid t).getD t) := by
  intro j
  simp only [kill]
  split
  · exact ⟨rfl, rfl, Or.inl rfl⟩
  · next i _ =>
      simp only [Option.getD_some, Table.modify]
      split
      · next he =>
          subst he
          refine ⟨rfl, rfl, ?_⟩
          dsimp only
          split
          · next hs => exact Or.inr ⟨hs, rfl⟩
          · exact Or.inl rfl
      · exact ⟨rfl, rfl, Or.inl rfl⟩

theorem kill_parent (pid : Int) (t : Table) (j : Slot) :
    ((kill pid t).getD t j).parent = (t j).parent := by
  simp only [kill]
  split
  · rfl
  · next i _ =>
      simp only [Option.getD_some, Table.modify]
      split
      · next he => subst he; rfl
      · rfl

/-- A step that writes one slot, of a process that can run. -/
theorem calm_slot (frame : IdFrame s s') (i : Slot)
    (other : ∀ j, j ≠ i → s'.proc j = s.proc j)
    (pid : (s'.proc i).pid = (s.proc i).pid)
    (parent : (s'.proc i).parent = (s.proc i).parent)
    (alive : (s.proc i).state.alive = true ∧ (s'.proc i).state.alive = true)
    (forking : (s.kpc i).child = none ∨ (s'.proc i).state = .RUNNING ∨
      (s'.proc i).state = .RUNNABLE)
    (awake : ∀ z, (s.proc z).parent = some i → (s.proc z).state = .ZOMBIE →
      Awake s.proc i → Awake s'.proc i) : Calm s s' where
  frame := frame
  pid := fun j => by
    by_cases he : j = i
    · rw [he]; exact pid
    · rw [other j he]
  parent := fun j => by
    by_cases he : j = i
    · rw [he]; exact parent
    · rw [other j he]
  state := fun j => by
    by_cases he : j = i
    · rw [he]; exact Or.inr alive
    · rw [other j he]; exact Or.inl rfl
  forking := by
    intro j np hc hst
    by_cases he : j = i
    · subst he
      rcases forking with hn | hf
      · rw [hn] at hc; cases hc
      · exact hf
    · rw [other j he]; exact hst
  awake := by
    intro j z hp hz ha
    by_cases he : j = i
    · subst he; exact awake z hp hz ha
    · intro hs
      rw [other j he] at hs ⊢
      exact ha hs

theorem calm_own (hk : KInv s) (frame : IdFrame s s') {c : Fin C} {i : Slot}
    (on : OnCpu s c i) (other : ∀ j, j ≠ i → s'.proc j = s.proc j)
    (h : OwnMove s i (s'.proc i))
    (pc : (s.kpc i).child = none ∨ (s'.proc i).state = .RUNNABLE) : Calm s s' := by
  have hrun := hk.running c i on
  refine calm_slot frame i other ?_ ?_ ⟨by rw [hrun]; rfl, ?_⟩ (pc.imp id Or.inr) ?_
  · generalize s'.proc i = p at h
    cases h <;> rfl
  · generalize s'.proc i = p at h
    cases h <;> rfl
  · generalize s'.proc i = p at h
    cases h <;> first | rfl | (rw [hrun]; rfl)
  · intro z hp hz _ hs
    generalize s'.proc i = p at h hs
    cases h with
    | tidy => rw [hrun] at hs; cases hs
    | yield => cases hs
    | sleep a => nofun
    | wait none => exact absurd hz (none z hp)

theorem calm_run (frame : IdFrame s s') {p : Slot}
    (ready : (s.proc p).state = .RUNNABLE) (other : ∀ j, j ≠ p → s'.proc j = s.proc j)
    (h : s'.proc p = { s.proc p with state := .RUNNING }) : Calm s s' := by
  refine calm_slot frame p other (by rw [h]) (by rw [h])
    ⟨by rw [ready]; rfl, by rw [h]; rfl⟩ (Or.inr (Or.inl (by rw [h]))) ?_
  intro z _ _ _ hs
  rw [h] at hs
  cases hs

/-! ## Steps that are not -/

theorem LifeInv.exit (hk : KInv s) (hi : LifeInv s) (frame : IdFrame s s') {c : Fin C}
    {i : Slot} (on : OnCpu s c i) (hinit : i ≠ initproc) (pc : s.kpc i = .user)
    (h : Exited i s.proc s'.proc) : LifeInv s' := by
  have hrun := hk.running c i on
  have hlive : ∀ {j}, (s'.proc j).state ≠ .UNUSED → (s.proc j).state ≠ .UNUSED := by
    intro j hj he
    by_cases hji : j = i
    · rw [hji, hrun] at he; cases he
    · rcases h.other j hji with hs | ⟨hs, _⟩
      · exact hj (hs.trans he)
      · rw [he] at hs; cases hs
  have halive : ∀ {j}, j ≠ i → (s.proc j).state.alive = true →
      (s'.proc j).state.alive = true := by
    intro j hj ha
    rcases h.other j hj with hs | ⟨_, hs⟩
    · rw [hs]; exact ha
    · rw [hs]; rfl
  have hnot : ∀ {j np}, (s'.kpc j).child = some np → j ≠ i := by
    rintro j np hc rfl
    have := frame.child j np hc
    rw [pc] at this
    cases this
  have hnew : ∀ j, (s'.proc j).parent ≠ some i := by
    intro j
    rw [h.parent]
    split
    · exact fun he => hinit (Option.some.inj he).symm
    · next hne => exact hne
  exact {
    pids := fun j => by rw [h.pid, frame.pid]; exact hi.pids j
    live := fun j hj => by rw [h.pid]; exact hi.live j (hlive hj)
    distinct := by
      intro j l hj hl he
      rw [h.pid, h.pid] at he
      exact hi.distinct j l (hlive hj) (hlive hl) he
    forking := by
      intro j np hc
      have hst := hi.forking j np (frame.child j np hc)
      rcases h.other j (hnot hc) with hs | ⟨_, hs⟩
      · rw [hs]; exact hst
      · exact Or.inr hs
    adopted := by
      intro j np ha
      have hp := hi.adopted j np (frame.adopted j np ha)
      rw [h.parent, if_neg, hp]
      rw [hp]
      exact fun he => hnot (KPc.child_of_adopted ha) (Option.some.inj he)
    init := by
      refine ⟨halive (Ne.symm hinit) hi.init.1, ?_⟩
      rw [h.parent, hi.init.2]
      rfl
    parent := by
      intro j hj hf
      have hf' : (s.proc j).state.forked = true := by
        by_cases hji : j = i
        · rw [hji, hrun]; rfl
        · rcases h.other j hji with hs | ⟨hs, _⟩
          · rw [← hs]; exact hf
          · rw [hs]; rfl
      obtain ⟨q, hq, ha⟩ := hi.parent j hj hf'
      rw [h.parent]
      split
      · exact ⟨initproc, rfl, halive (Ne.symm hinit) hi.init.1⟩
      · next hne =>
          refine ⟨q, hq, halive ?_ ha⟩
          rintro rfl
          exact hne hq
    own := by
      intro j
      rw [h.parent]
      split
      · next hp =>
          intro he
          obtain rfl := (Option.some.inj he)
          rw [hi.init.2] at hp
          cases hp
      · exact hi.own j
    asleep := by
      -- The new zombie's parent was woken, `init` for every zombie passed on.
      intro q z hp hz
      have hp' := hp
      rw [h.parent] at hp
      by_cases hzi : z = i
      · subst hzi
        rw [if_neg (hi.own z)] at hp
        exact h.wakeParent q hp
      · have hz' : (s.proc z).state = .ZOMBIE := by
          rcases h.other z hzi with hs | ⟨_, hs⟩
          · rw [← hs]; exact hz
          · rw [hz] at hs; cases hs
        split at hp
        · next hc =>
            cases hp
            exact h.wakeInit z hc hz'
        · have ha := hi.asleep q z hp hz'
          have hqi : q ≠ i := by
            rintro rfl
            exact hnew z hp'
          intro hs
          rcases h.other q hqi with he | ⟨_, he⟩
          · rw [h.chan]
            exact ha (he.symm.trans hs)
          · rw [hs] at he; cases he }

/-- A step that writes one slot, which nobody could run before: the frame. -/
theorem awake_other {t u : Table} {i : Slot} (other : ∀ j, j ≠ i → u j = t j) {p : Slot}
    (hp : p ≠ i) (ha : Awake t p) : Awake u p := by
  intro hs
  rw [other p hp] at hs ⊢
  exact ha hs

/-- `allocproc` takes a slot that is nobody. -/
theorem LifeInv.alloc (hk : KInv s) (hi : LifeInv s) {c : Fin C} {i np : Slot}
    (on : OnCpu s c i) (hun : (s.proc np).state = .UNUSED)
    (other : ∀ j, j ≠ np → s'.proc j = s.proc j)
    (h : s'.proc np = allocproc s.nextpid s.ticks (s.proc np))
    (pid : s'.nextpid = s.nextpid + 1)
    (pcs : ∀ j, s'.kpc j = if j = i then .alloc np else s.kpc j) : LifeInv s' := by
  have hpos : 0 < s.nextpid := by
    have h0 := hi.pids initproc
    have h1 := hi.live initproc (by
      intro he
      have := hi.init.1
      rw [he] at this
      cases this)
    omega
  have hne : ∀ {j}, (s.proc j).state.alive = true → j ≠ np := by
    rintro j ha rfl
    rw [hun] at ha
    cases ha
  have hpar : ∀ j, (s'.proc j).parent = (s.proc j).parent := by
    intro j
    by_cases he : j = np
    · rw [he, h]; rfl
    · rw [other j he]
  have hforked : ∀ {j}, (s'.proc j).state.forked = true → j ≠ np := by
    rintro j hf rfl
    rw [h] at hf
    cases hf
  have hrun := hk.running c i on
  exact {
    pids := by
      intro j
      rw [pid]
      by_cases he : j = np
      · rw [he, h]; simp only [allocproc]; omega
      · rw [other j he]
        have := hi.pids j
        omega
    live := by
      intro j hj
      by_cases he : j = np
      · rw [he, h]; exact hpos
      · rw [other j he] at hj ⊢
        exact hi.live j hj
    distinct := by
      intro j l hj hl he
      by_cases h1 : j = np <;> by_cases h2 : l = np
      · rw [h1, h2]
      · rw [h1, h, other l h2] at he
        have := hi.pids l
        simp only [allocproc] at he
        omega
      · rw [h2, h, other j h1] at he
        have := hi.pids j
        simp only [allocproc] at he
        omega
      · rw [other j h1] at hj he
        rw [other l h2] at hl he
        exact hi.distinct j l hj hl he
    forking := by
      intro j np' hc
      rw [pcs] at hc
      have hst : (s.proc j).state = .RUNNING ∨ (s.proc j).state = .RUNNABLE := by
        split at hc
        · next he => rw [he]; exact Or.inl hrun
        · exact hi.forking j np' hc
      rw [other j]
      · exact hst
      · rcases hst with hst | hst <;> exact hne (by rw [hst]; rfl)
    adopted := by
      intro j np' ha
      rw [hpar]
      rw [pcs] at ha
      split at ha
      · cases ha
      · exact hi.adopted j np' ha
    init := by
      rw [hpar, other _ (hne hi.init.1)]
      exact hi.init
    parent := by
      intro j hj hf
      have hjn := hforked hf
      rw [other j hjn] at hf ⊢
      obtain ⟨q, hq, ha⟩ := hi.parent j hj hf
      exact ⟨q, hq, by rw [other q (hne ha)]; exact ha⟩
    own := fun j => by rw [hpar]; exact hi.own j
    asleep := by
      intro q z hp hz
      have hzn : z ≠ np := hforked (by rw [hz]; rfl)
      rw [other z hzn] at hp hz
      by_cases he : q = np
      · intro hs
        rw [he, h] at hs
        cases hs
      · exact awake_other other he (hi.asleep q z hp hz) }

/-- A slot that is being set up: it is given back, gets its parent, or becomes
RUNNABLE. The changes of the parent and of the state are what the three
differ in. -/
theorem LifeInv.embryo (hi : LifeInv s) {np : Slot}
    (hem : (s.proc np).state = .EMBRYO)
    (other : ∀ j, j ≠ np → s'.proc j = s.proc j)
    (pid : s'.nextpid = s.nextpid) (pids : (s'.proc np).pid = (s.proc np).pid)
    (chan : (s'.proc np).state ≠ .SLEEPING ∧ (s'.proc np).state ≠ .ZOMBIE)
    (child : ChildFrame s s')
    (adopted : ∀ j l, (s'.kpc j).adopted = some l → (s'.proc l).parent = some j)
    (own : (s'.proc np).parent ≠ some np)
    (parent : (s'.proc np).state.forked = true →
      ∃ q, (s'.proc np).parent = some q ∧ (s.proc q).state.alive = true) :
    LifeInv s' := by
  have hne : ∀ {j}, (s.proc j).state ≠ .EMBRYO → j ≠ np := by
    rintro j ha rfl
    exact ha hem
  have halive : ∀ {j}, (s.proc j).state.alive = true → j ≠ np := by
    intro j ha
    refine hne fun he => ?_
    rw [he] at ha
    cases ha
  have hlive : ∀ {j}, (s'.proc j).state ≠ .UNUSED → (s.proc j).state ≠ .UNUSED := by
    intro j hj
    by_cases he : j = np
    · rw [he, hem]; nofun
    · rw [other j he] at hj; exact hj
  have hpid : ∀ j, (s'.proc j).pid = (s.proc j).pid := by
    intro j
    by_cases he : j = np
    · rw [he]; exact pids
    · rw [other j he]
  exact {
    pids := fun j => by rw [hpid, pid]; exact hi.pids j
    live := fun j hj => by rw [hpid]; exact hi.live j (hlive hj)
    distinct := by
      intro j l hj hl he
      rw [hpid, hpid] at he
      exact hi.distinct j l (hlive hj) (hlive hl) he
    forking := by
      intro j l hc
      have hst := hi.forking j l (child j l hc)
      rw [other j]
      · exact hst
      · rcases hst with hst | hst <;> exact hne (by rw [hst]; nofun)
    adopted := adopted
    init := by
      rw [other _ (halive hi.init.1)]
      exact hi.init
    parent := by
      intro j hj hf
      by_cases he : j = np
      · subst he
        obtain ⟨q, hq, ha⟩ := parent hf
        exact ⟨q, hq, by rw [other q (halive ha)]; exact ha⟩
      · rw [other j he] at hf ⊢
        obtain ⟨q, hq, ha⟩ := hi.parent j hj hf
        exact ⟨q, hq, by rw [other q (halive ha)]; exact ha⟩
    own := by
      intro j
      by_cases he : j = np
      · rw [he]; exact own
      · rw [other j he]; exact hi.own j
    asleep := by
      intro q z hp hz
      have hzn : z ≠ np := by
        rintro rfl
        exact chan.2 hz
      rw [other z hzn] at hp hz
      by_cases he : q = np
      · intro hs
        rw [he] at hs
        exact absurd hs chan.1
      · exact awake_other other he (hi.asleep q z hp hz) }

/-- `wait` buries a zombie, which is nobody's parent. -/
theorem LifeInv.reap (hi : LifeInv s) (frame : IdFrame s s') {z : Slot}
    (zombie : (s.proc z).state = .ZOMBIE)
    (other : ∀ j, j ≠ z → s'.proc j = s.proc j)
    (h : s'.proc z = reap s.ticks (s.proc z))
    (hadopt : ∀ j, (s.kpc j).child ≠ some z) : LifeInv s' := by
  have halive : ∀ {j}, (s.proc j).state.alive = true → j ≠ z := by
    rintro j ha rfl
    rw [zombie] at ha
    cases ha
  have hgone : ∀ {j}, (s'.proc j).state ≠ .UNUSED → j ≠ z := by
    rintro j hj rfl
    rw [h] at hj
    exact hj rfl
  exact {
    pids := by
      intro j
      rw [frame.pid]
      by_cases he : j = z
      · rw [he, h]
        have h0 := hi.pids z
        have h1 := hi.live z (by rw [zombie]; nofun)
        simp only [Ref.reap]
        omega
      · rw [other j he]; exact hi.pids j
    live := by
      intro j hj
      have he := other j (hgone hj)
      rw [he] at hj ⊢
      exact hi.live j hj
    distinct := by
      intro j l hj hl he
      have hj' := other j (hgone hj)
      have hl' := other l (hgone hl)
      rw [hj'] at hj he
      rw [hl'] at hl he
      exact hi.distinct j l hj hl he
    forking := by
      intro j np hc
      have hst := hi.forking j np (frame.child j np hc)
      rw [other j]
      · exact hst
      · rcases hst with hst | hst <;> exact halive (by rw [hst]; rfl)
    adopted := by
      intro j np ha
      have ha := frame.adopted j np ha
      rw [other np]
      · exact hi.adopted j np ha
      · rintro rfl
        exact hadopt j (KPc.child_of_adopted ha)
    init := by
      rw [other _ (halive hi.init.1)]
      exact hi.init
    parent := by
      intro j hj hf
      have hjz : j ≠ z := hgone fun he => by rw [he] at hf; cases hf
      rw [other j hjz] at hf ⊢
      obtain ⟨q, hq, ha⟩ := hi.parent j hj hf
      exact ⟨q, hq, by rw [other q (halive ha)]; exact ha⟩
    own := by
      intro j
      by_cases he : j = z
      · rw [he, h]; nofun
      · rw [other j he]; exact hi.own j
    asleep := by
      intro q y hp hy
      have hyz : y ≠ z := hgone (by rw [hy]; nofun)
      rw [other y hyz] at hp hy
      by_cases he : q = z
      · intro hs
        rw [he, h] at hs
        cases hs
      · exact awake_other other he (hi.asleep q y hp hy) }

theorem lifeInv_step {a : KAct C} (hk : KInv s) (hi : LifeInv s)
    (h : kernStep flag s a = some s') : LifeInv s' := by
  cases kernStep_event h with
  | quiet frame ids => exact hi.calm (calm_quiet frame ids)
  | wake frame a h =>
      exact hi.calm (calm_nudged frame (h ▸ wakeup1_nudged _ _)
        (h ▸ wakeup1_parent _ _))
  | kill frame pid act h =>
      exact hi.calm (calm_nudged frame (h ▸ kill_nudged _ _) (h ▸ kill_parent _ _))
  | exit frame c i on init pc h =>
      exact hi.exit hk frame on init pc (h ▸ exited_section i s.ticks s.proc)
  | own frame c i on other h pc => exact hi.calm (calm_own hk frame on other h pc)
  | run frame c p on ready other h => exact hi.calm (calm_run frame ready other h)
  | alloc c i np act on found other h pid pcs =>
      exact hi.alloc hk on (findUnused_some found) other h pid pcs
  | freed frame i np pc pc' other h =>
      have hem := hk.embryo i np pc
      refine hi.embryo hem other frame.pid (by rw [h])
        (by rw [h]; exact ⟨nofun, nofun⟩) frame.child ?_ (by rw [h]; exact hi.own np)
        (by rw [h]; nofun)
      intro j l ha
      have hp := hi.adopted j l (frame.adopted j l ha)
      by_cases he : l = np
      · subst he; rw [h]; exact hp
      · rw [other l he]; exact hp
  | adopt c i np on pc pcs other h pid =>
      have hc : (s.kpc i).child = some np := by rw [pc]; rfl
      have hem := hk.embryo i np hc
      have hne : i ≠ np := by
        rintro rfl
        rw [hk.running c i on] at hem
        cases hem
      refine hi.embryo hem other pid (by rw [h])
        (by rw [h]; show (s.proc np).state ≠ _ ∧ _ ≠ _; rw [hem]; exact ⟨nofun, nofun⟩)
        ?_ ?_ (by rw [h]; exact fun he => hne (Option.some.inj he)) ?_
      · intro j l hj
        rw [pcs] at hj
        split at hj
        · next he => rw [he, hc]; exact hj
        · exact hj
      · intro j l ha
        rw [pcs] at ha
        split at ha
        · next he => cases ha; rw [he, h]
        · next hj =>
            rw [other l]
            · exact hi.adopted j l ha
            · rintro rfl
              exact hj (hk.oneFork j i l (KPc.child_of_adopted ha) hc)
      · rw [h]
        show (s.proc np).state.forked = true → _
        rw [hem]
        nofun
  | publish frame c i np act on pc other h =>
      have hc : (s.kpc i).child = some np := by rw [pc]; rfl
      have hp : (s.proc np).parent = some i := hi.adopted i np (by rw [pc]; rfl)
      refine hi.embryo (hk.embryo i np hc) other frame.pid (by rw [h])
        (by rw [h]; exact ⟨nofun, nofun⟩) frame.child ?_
        (by rw [h]; exact hi.own np) ?_
      · intro j l ha
        have hl := hi.adopted j l (frame.adopted j l ha)
        by_cases he : l = np
        · subst he; rw [h]; exact hl
        · rw [other l he]; exact hl
      · intro _
        rw [h]
        exact ⟨i, hp, by rw [hk.running c i on]; rfl⟩
  | reap frame c i z x act on pc zombie parent scan other h =>
      refine hi.reap frame zombie other h fun j hj => ?_
      rw [hk.embryo j z hj] at zombie
      cases zombie

theorem lifeInv_reach {ok : Kern C → KAct C → Prop}
    (h : Reach (kernStep flag) ok (Kern.boot C) s) : KInv s ∧ LifeInv s :=
  h.invariant (I := fun s => KInv s ∧ LifeInv s) ⟨kinv_boot C, lifeInv_boot C⟩
    fun _ _ _ hi _ hs => ⟨kinv_step hi.1 hs, lifeInv_step hi.1 hi.2 hs⟩

/-- Whoever was forked and not yet buried has a parent that can still run, and
nobody sleeps in `wait` or `waitx` on a child that has exited. -/
theorem no_exit_missed (hr : Reach (kernStep flag) anyStep (Kern.boot C) s) :
    (∀ i, i ≠ initproc → (s.proc i).state.forked = true →
      ∃ q, (s.proc i).parent = some q ∧ (s.proc q).state.alive = true) ∧
    ∀ i z, (s.proc i).state = .SLEEPING → (s.proc i).chan = some (.proc i) →
      (s.proc z).parent = some i → (s.proc z).state ≠ .ZOMBIE := by
  obtain ⟨_, hi⟩ := lifeInv_reach hr
  exact ⟨hi.parent, fun i z hs hc hp hz => hi.asleep i z hp hz hs hc⟩

/-- `init` forks twice and waits for the children. -/
def initWaits : List (KAct 1) :=
  acctOf 0 0 ++ [.schedGo 0, .release 0] ++ forkOf 0 ++ forkOf 0 ++
    [.waitCall 0 false, .waitScan 0]

theorem no_exit_missed_init :
    ∃ s : Kern 1, Reach (kernStep 'R') anyStep (Kern.boot 1) s ∧
      (s.proc initproc).state = .SLEEPING ∧ (s.proc 1).parent = some initproc ∧
      (∃ q, (s.proc 1).parent = some q ∧ (s.proc q).state.alive = true) ∧
      ∀ z, (s.proc z).parent = some initproc → (s.proc z).state ≠ .ZOMBIE := by
  have hrun : (exec (kernStep 'R') anyStep (Kern.boot 1) initWaits).any (fun s =>
      (s.proc initproc).state = .SLEEPING ∧
        (s.proc initproc).chan = some (.proc initproc) ∧
        (s.proc 1).parent = some initproc ∧ (s.proc 1).state.forked = true) = true := by
    decide +kernel
  obtain ⟨s, hr, hp⟩ := exists_reach_of_exec hrun
  obtain ⟨hst, hch, hpar, hf⟩ := of_decide_eq_true hp
  have hinv := no_exit_missed hr
  exact ⟨s, hr, hst, hpar, hinv.1 1 (by decide) hf, fun z => hinv.2 initproc z hst hch⟩

end Xv6.Ref
