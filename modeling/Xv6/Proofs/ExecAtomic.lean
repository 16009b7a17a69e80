import Xv6.Proofs.ExecImage
import Xv6.Proofs.InodeLocks
import Xv6.Ref.ExecCall

/-!
# `exec` is all or nothing

`exec` leaves by a dozen exits, most of them through the label `bad`, and what `bad` has to
undo depends on how far it got. The rules of this file follow what `exec` has at each point:
references to inodes, locks, the open transaction, and the pages its new directory holds.
The rules say nothing about what a read returns and forbid a panic in `vm.c`, so what is
proved from them holds whatever the file contains.
-/

namespace Xv6.Ref.Sysfile.ExecCall

open Xv6.Lib
open Xv6.Ref.Inodes (Iptr Devsw tinySb)
open Xv6.Ref.Vm

variable {N : Nat}

/-! ## The rules -/

/-- What `exec` has. -/
structure Held (N : Nat) where
  loc : Loc N
  locks : Finset Iptr
  /-- Between `begin_op` and `end_op`. -/
  inOp : Bool

/-- What an operation needs. -/
def Held.pre (h : Held N) : ExecOp N → Prop
  | .beginOp => h.inOp = false
  | .endOp => h.inOp = true ∧ h.locks = ∅
  | .file o => h.inOp = true ∧ o.quiet = true ∧ h.loc.pre o ∧ lockPre h.locks o
  | .stop _ => False

def Held.post (h : Held N) : (o : ExecOp N) → o.Resp → Held N → Prop
  | .beginOp, _, h' => h' = { h with inOp := true }
  | .endOp, _, h' => h' = { h with inOp := false }
  | .file o, r, h' => h.loc.post o r h'.loc ∧ lockPost h.locks o r h'.locks ∧ h'.inOp = h.inOp
  | .stop _, _, _ => True

/-- A program keeps to the rules. -/
abbrev Tidy {α : Type} (h : Held N) (x : ExecProg N α) (Q : Held N → α → Prop) : Prop :=
  Prog.Meets Held.pre Held.post h x Q

section

variable {α β : Type} {h : Held N}

theorem tidy_seq {x : ExecProg N α} {f : α → ExecProg N β} {Q : Held N → β → Prop}
    (hx : Tidy h x fun h' a => Tidy h' (f a) Q) : Tidy h (x >>= f) Q :=
  Prog.Meets.bind hx

theorem tidy_vm {x : Except Stop α} {a : α} {Q : Held N → α → Prop} (hx : x = .ok a)
    (hq : Q h a) : Tidy h (vm x) Q := by
  rw [hx]
  exact hq

/-- A function of the file system, by the rules for its references and for its locks. -/
theorem tidy_file {Q₁ : Loc N → α → Prop} {Q₂ : Finset Iptr → α → Prop} {Q : Held N → α → Prop}
    (hq : ∀ l locks a, Q₁ l a → Q₂ locks a → Q ⟨l, locks, true⟩ a) (x : SysProg N α) :
    ∀ {l : Loc N} {locks : Finset Iptr}, Ok l x Q₁ → Locks locks x Q₂ → Quiet x →
      Tidy ⟨l, locks, true⟩ (file x) Q := by
  induction x with
  | ret a => exact fun hok hlocks _ => hq _ _ a hok hlocks
  | op o k ih =>
      intro l locks hok hlocks hquiet
      refine ⟨⟨rfl, hquiet.1, hok.1, hlocks.1⟩, ?_⟩
      rintro r ⟨l', locks', inOp⟩ ⟨hl, hk, rfl⟩
      exact ih r (hok.2 r _ hl) (hlocks.2 r _ hk) (hquiet.2 r () trivial)

theorem tidy_endOp {l : Loc N} {Q : Held N → Unit → Prop} (hq : Q ⟨l, ∅, false⟩ ()) :
    Tidy ⟨l, ∅, true⟩ endOp Q := by
  refine Prog.meets_perform ⟨rfl, rfl⟩ ?_
  rintro _ _ rfl
  exact hq

end

/-! ## Reading the file -/

/-- The inode is locked and `exec` has a reference to it. -/
def reading (l : Loc N) (ip : Iptr) : Held N :=
  ⟨{ l with temp := ip ::ₘ l.temp }, insert ip ∅, true⟩

section

variable {l : Loc N} {ip : Iptr}

theorem tidy_iunlockput {Q : Held N → Unit → Prop} (hq : Q ⟨l, ∅, true⟩ ()) :
    Tidy (reading l ip) (file (iunlockput ip)) Q := by
  have hok : Ok { l with temp := ip ::ₘ l.temp } (iunlockput ip) fun l' _ => l' = l :=
    ok_iunlockput_head rfl
  have hlocks : Locks (insert ip ∅) (iunlockput (N := N) ip) fun locks _ => locks = ∅ :=
    locks_iunlockput (Finset.notMem_empty ip) rfl
  refine tidy_file (fun l' locks a hl hk => ?_) _ hok hlocks (quiet_iunlockput ip)
  rw [hl, hk]
  exact hq

theorem tidy_readAll {off n : Nat} {Q : Held N → Option (List UInt8) → Prop}
    (hnone : Q (reading l ip) none)
    (hsome : ∀ bs, bs.length = n → Q (reading l ip) (some bs)) :
    Tidy (reading l ip) (readAll ip off n) Q := by
  have hok : Ok { l with temp := ip ::ₘ l.temp }
      (readi ip (BitVec.ofNat 32 off) (BitVec.ofNat 32 n))
      fun l' _ => l' = { l with temp := ip ::ₘ l.temp } := ok_readi _ _ _ fun _ => rfl
  have hlocks : Locks (insert ip ∅) (readi (N := N) ip (BitVec.ofNat 32 off) (BitVec.ofNat 32 n))
      fun locks _ => locks = insert ip ∅ := locks_readi (Finset.notMem_empty ip) fun _ => rfl
  refine tidy_seq (tidy_file (fun l' locks r hl hk => ?_) _ hok hlocks (quiet_readi ..))
  rw [hl, hk]
  cases r with
  | none => exact hnone
  | some bs =>
      dsimp only
      split
      · next hlen => exact hsome bs hlen
      · exact hnone

variable {k : Kernel} {m m₀ : Phys} {d : Pgdir} {top : Nat} {img : Nat → UInt8}

theorem tidy_loaduvmLoop {perm : Nat → Perm} {addr sz : Nat} (offset : Nat)
    (haddr : addr % PGSIZE = 0) (htop : addr + sz ≤ top) {Q : Held N → Phys × Bool → Prop}
    (hq : ∀ m' b img', Built k perm img' m₀ top m' d → Q (reading l ip) (m', b)) (n : Nat) :
    ∀ {m : Phys} {i : Nat} {img : Nat → UInt8}, Built k perm img m₀ top m d → i % PGSIZE = 0 →
      Tidy (reading l ip) (loaduvmLoop d ip addr offset sz n m i) Q := by
  induction n with
  | zero => exact fun h _ => hq _ _ _ h
  | succ n ih =>
      intro m i img h hal
      rw [loaduvmLoop]
      split
      · next hlt =>
          have hal' : i % 4096 = 0 := hal
          have haddr' : addr % 4096 = 0 := haddr
          have hva : addr + i < top := by omega
          obtain ⟨pg, hp, -⟩ := h.space.mapped (addr + i) hva
          obtain ⟨t, ht⟩ := Option.ne_none_iff_exists'.mp (tab_of_pte hp)
          simp only [ht, hp, Option.map_some, Option.getD_some]
          refine tidy_seq (tidy_readAll (hq _ _ _ h) fun bs hlen => ?_)
          have hoff : (addr + i) % PGSIZE = 0 := by
            show (addr + i) % 4096 = 0
            omega
          have hlen' : bs.length = if sz - i < 4096 then sz - i else 4096 := hlen
          have hfit : bs.length ≤ 4096 := by
            rw [hlen']
            split <;> omega
          have hw := h.write hva hp (show (addr + i) % 4096 + bs.length ≤ 4096 by omega)
          rw [hoff] at hw
          exact ih hw (by show (i + 4096) % 4096 = 0; omega)
      · exact hq _ _ _ h

theorem tidy_loadSegments (hpool : Pool k m₀) {Q : Held N → Phys × Pgdir × Option Nat → Prop}
    (hbad : ∀ m' d', Taken m₀ m' d' → Q (reading l ip) (m', d', none))
    (hq : ∀ m' d' sz img', sz < KERNBASE → Built k allPerm img' m₀ (PGROUNDUP sz) m' d' →
      Q (reading l ip) (m', d', some sz)) (n : Nat) :
    ∀ (off : Nat) {sz : Nat} {m : Phys} {d : Pgdir} {img : Nat → UInt8},
      Built k allPerm img m₀ (PGROUNDUP sz) m d → sz < KERNBASE →
      Tidy (reading l ip) (loadSegments k ip n off m d sz) Q := by
  induction n with
  | zero => exact fun off sz m d img h hsz => hq _ _ _ _ hsz h
  | succ n ih =>
      intro off sz m d img h hsz
      refine tidy_seq (tidy_readAll (hbad _ _ h.taken) fun bs _ => ?_)
      dsimp only
      generalize hph : Proghdr.ofBytes bs = ph
      have hlt32 : ph.vaddr < 2 ^ 32 ∧ ph.memsz < 2 ^ 32 := by
        rw [← hph]
        exact ⟨word_lt bs 8, word_lt bs 20⟩
      split
      · exact ih _ h hsz
      split
      · exact hbad _ _ h.taken
      next hmem =>
      split
      · exact hbad _ _ h.taken
      next hwrap =>
      have hnowrap : (ph.vaddr + ph.memsz) % 2 ^ 32 = ph.vaddr + ph.memsz := by omega
      obtain ⟨m₁, d₁, r₁, ha, hr₁⟩ := segment_alloc ph hpool h hsz
      rw [hnowrap]
      refine tidy_seq (tidy_vm ha ?_)
      dsimp only
      rcases hr₁ with ⟨rfl, ht⟩ | ⟨hr₁, hr₁lt, hb₁⟩
      · exact hbad _ _ ht
      split
      · exact hbad _ _ hb₁.taken
      split
      · exact hbad _ _ hb₁.taken
      next hal =>
      have hal : ph.vaddr % PGSIZE = 0 := not_not.mp hal
      have htop : ph.vaddr + ph.filesz ≤ PGROUNDUP r₁ := by
        refine Nat.le_trans ?_ (le_PGROUNDUP r₁)
        omega
      refine tidy_seq ?_
      rw [loaduvm, if_neg (not_not.mpr hal)]
      refine tidy_loaduvmLoop ph.off hal htop (fun m' b img' hb => ?_) _ hb₁ (Nat.zero_mod _)
      cases b with
      | false => exact hbad _ _ hb.taken
      | true => exact ih _ hb hr₁lt

/-! ## The exits -/

/-- What `exec` leaves when it returns. -/
def Left (l : Loc N) (m₀ : Phys) (h : Held N) (r : Option Image × Phys) : Prop :=
  h = ⟨l, ∅, false⟩ ∧ (r.1 = none → Returned m₀ r.2)

theorem tidy_bad_ip (hret : Returned m₀ m) :
    Tidy (reading l ip) (bad k m none (some ip)) (Left l m₀) :=
  tidy_seq (tidy_seq (tidy_iunlockput (tidy_endOp ⟨rfl, fun _ => hret⟩)))

theorem tidy_bad_pgdir_ip (hpool : Pool k m₀) (ht : Taken m₀ m d) :
    Tidy (reading l ip) (bad k m (some d) (some ip)) (Left l m₀) := by
  obtain ⟨m', hf, hret⟩ := freevm_returned hpool ht.pages ht.mem
  refine tidy_seq (tidy_vm hf ?_)
  exact tidy_seq (tidy_iunlockput (tidy_seq (tidy_endOp ⟨rfl, fun _ => hret⟩)))

theorem tidy_bad_pgdir (hpool : Pool k m₀) (ht : Taken m₀ m d) :
    Tidy ⟨l, ∅, false⟩ (bad k m (some d) none) (Left l m₀) := by
  obtain ⟨m', hf, hret⟩ := freevm_returned hpool ht.pages ht.mem
  exact tidy_seq (tidy_vm hf ⟨rfl, fun _ => hret⟩)

theorem pushStack_taken (path : Path) {argv : List (List UInt8)} (entry : Nat) {sz : Nat}
    (hpool : Pool k m₀) (hargs : ∀ s ∈ argv, s.length < PGSIZE)
    (hb : Built k allPerm img m₀ (PGROUNDUP sz) m d) :
    ∃ m' d' r, pushStack k path argv entry m d sz = .ok (m', d', r) ∧ Taken m₀ m' d' := by
  obtain ⟨m', d', r, hp, ht, _⟩ := pushStack_built path entry hpool hb (noHole_of_short hargs)
    fun s hs => Nat.le_trans (hargs s hs) (by decide)
  exact ⟨m', d', r, hp, ht⟩

/-- At every exit `exec` has given back what it had to. -/
theorem tidy_exec (path : Path) {argv : List (List UInt8)} (hpool : Pool k m)
    (hargs : ∀ s ∈ argv, s.length < PGSIZE) :
    Tidy ⟨l, ∅, false⟩ (exec k m path argv) (Left l m) := by
  have hself : Returned m m := ⟨rfl, fun _ _ => rfl⟩
  refine tidy_seq (Prog.meets_perform rfl ?_)
  rintro _ _ rfl
  have hnamei : Ok l (namei path) fun l' r => (r = none ∧ l' = l) ∨
      ∃ ip, r = some ip ∧ l' = { l with temp := ip ::ₘ l.temp } :=
    ok_namei (Or.inl ⟨rfl, rfl⟩) fun ip => Or.inr ⟨ip, rfl, rfl⟩
  have hlocks : Locks ∅ (namei (N := N) path) fun locks _ => locks = ∅ := locks_namei fun _ => rfl
  have hquiet : Quiet (namei (N := N) path) := (quiet_namex path false).seq fun _ => quiet_pure _
  refine tidy_seq (tidy_file (fun l' locks r hl hk => ?_) _ hnamei hlocks hquiet)
  rw [hk]
  rcases hl with ⟨rfl, rfl⟩ | ⟨ip, rfl, rfl⟩
  · exact tidy_seq (tidy_endOp ⟨rfl, fun _ => hself⟩)
  have hlock : Ok { l with temp := ip ::ₘ l.temp } (ilock ip) fun l' _ =>
    l' = { l with temp := ip ::ₘ l.temp } := ok_ilock ip rfl
  have hlocks : Locks ∅ (ilock (N := N) ip) fun locks _ => locks = insert ip ∅ :=
    locks_ilock fun _ => rfl
  refine tidy_seq (tidy_file (fun l' locks r hl hk => ?_) _ hlock hlocks
    ((quiet_perform rfl).seq fun _ => quiet_perform rfl))
  rw [hl, hk]
  refine tidy_seq (tidy_readAll (tidy_bad_ip hself) fun bs _ => ?_)
  dsimp only
  split
  · exact tidy_bad_ip hself
  obtain ⟨⟨r₁, m₁⟩, hs⟩ := setupkvm_total hpool.usable
  refine tidy_seq (tidy_vm hs ?_)
  cases r₁ with
  | none => exact tidy_bad_ip (setupkvm_none hs)
  | some d₁ =>
      have hb₁ : Built k allPerm (fun _ => 0) m (PGROUNDUP 0) m₁ d₁ := setupkvm_built hs
      refine tidy_seq (tidy_loadSegments hpool (fun m' d' ht => tidy_bad_pgdir_ip hpool ht)
        (fun m₂ d₂ sz img hsz hb => ?_) _ _ hb₁ (by decide))
      obtain ⟨m₃, d₃, r₃, hp, ht⟩ := pushStack_taken path (Elfhdr.ofBytes bs).entry hpool hargs hb
      refine tidy_seq (tidy_iunlockput (tidy_seq (tidy_endOp ?_)))
      rw [hp]
      cases r₃ with
      | none => exact tidy_bad_pgdir hpool ht
      | some image => exact ⟨rfl, nofun⟩

end

/-! ## `exec` run alone -/

section

variable {sb : Superblock} {devsw : Nat → Devsw} {pick : Nat} {p : Fin N} {s₀ : Sys N} {n₀ : Nat}
  {L : Fin N → Loc N}

/-- The state agrees with what `exec` has. -/
structure Agrees (p : Fin N) (s₀ : Sys N) (n₀ : Nat) (L : Fin N → Loc N) (h : Held N) (s : Sys N)
    (n : Nat) : Prop where
  inv : SysInv s (Function.update L p h.loc)
  locked : Locked p s₀ s h.locks
  outstanding : n = n₀ + if h.inOp then 1 else 0
  kept : Kept s₀ s

variable (sb devsw pick) in
/-- A program that keeps to the rules does not panic in `vm.c`, and the state it ends in
agrees with what it has. -/
theorem alone_agrees {α : Type} {Q : Held N → α → Prop} (hrun : s₀.state p = .RUNNABLE)
    (x : ExecProg N α) : ∀ {h : Held N} {s : Sys N} {n : Nat}, Agrees p s₀ n₀ L h s n → Tidy h x Q →
      (∀ why, alone sb devsw pick p x s n ≠ .stop why) ∧
      ∀ s' n' a, alone sb devsw pick p x s n = .ok (s', n') a →
        ∃ h', Q h' a ∧ Agrees p s₀ n₀ L h' s' n' := by
  induction x with
  | ret a =>
      intro h s n ha hq
      refine ⟨nofun, fun s' n' a he => ?_⟩
      cases he
      exact ⟨h, hq, ha⟩
  | op o k ih =>
      intro h s n ha hq
      cases o with
      | beginOp =>
          refine ih () (h := { h with inOp := true }) ⟨ha.inv, ha.locked, ?_, ha.kept⟩
            (hq.2 () _ rfl)
          have hclosed : h.inOp = false := hq.1
          rw [ha.outstanding, hclosed]
          rfl
      | endOp =>
          refine ih () (h := { h with inOp := false }) ⟨ha.inv, ha.locked, ?_, ha.kept⟩
            (hq.2 () _ rfl)
          rw [ha.outstanding, hq.1.1]
          rfl
      | stop why => exact hq.1.elim
      | file o =>
          obtain ⟨⟨-, hquiet, hpre, hlock⟩, hnext⟩ := hq
          rw [alone]
          split
          · next s₁ r hstep =>
              have hrun' : s.state p = .RUNNABLE := by rw [ha.kept.state, hrun]
              obtain ⟨hans, hinv⟩ := sysInv_op ha.inv hrun'
                (by rw [Function.update_self]; exact hpre) hstep
              rw [Function.update_self] at hans hinv
              rw [Function.update_idem] at hinv
              obtain ⟨locks', hpost, hlocked⟩ := ha.locked.op hquiet hlock hstep
              exact ih r (h := ⟨_, locks', h.inOp⟩)
                ⟨hinv, hlocked, ha.outstanding, ha.kept.trans (kept_of_quiet hquiet hstep)⟩
                (hnext r _ ⟨⟨hans, rfl⟩, hpost, rfl⟩)
          · exact ⟨nofun, nofun⟩
          · exact ⟨nofun, nofun⟩

/-- The same references as before. -/
theorem Agrees.ref {s : Sys N} {n : Nat} (hinv : SysInv s₀ L)
    (ha : Agrees p s₀ n₀ L ⟨L p, ∅, false⟩ s n) (e : Iptr) :
    (s.files.icache e).ref = (s₀.files.icache e).ref := by
  have href := ha.inv.ref e
  rw [Function.update_eq_self] at href
  rw [href, hinv.ref e]
  exact inodeRefs_congr ha.kept.cwd fun f e => by rw [ha.kept.file]

/-- `exec` in a state that a run of the system reaches. Whatever the path, the strings, the
file and the number of free pages, it does not panic in `vm.c`; and when it returns -1, it
has changed neither the process nor the files it has open, its pages are free again, and
the references, the locks and the number of open transactions are what they were. -/
theorem exec_all_or_nothing [NeZero N] {disk : Disk} {mach : Machine N}
    (hreach : Reach (sysStep sb devsw) anyStep (Machine.boot N disk) mach) {w : World N}
    (hsys : w.sys = mach.sys) (hrun : w.sys.state p = .RUNNABLE) {k : Kernel}
    (hpool : Pool k w.phys) (path : Path) {argv : List (List UInt8)}
    (hargs : ∀ s ∈ argv, s.length < PGSIZE) :
    (∀ why, alone sb devsw pick p (exec k w.phys path argv) w.sys w.outstanding ≠ .stop why) ∧
    ∀ w', call k sb devsw pick p path argv w = .ok w' (-1) →
      w'.proc = w.proc ∧ w'.sys.cwd = w.sys.cwd ∧ w'.sys.ofile = w.sys.ofile ∧
      w'.sys.file = w.sys.file ∧ w'.phys.freelist.Perm w.phys.freelist ∧
      (∀ pg, pg ∉ w.phys.freelist → w'.phys.mem pg = w.phys.mem pg) ∧
      (∀ e, (w'.sys.files.icache e).ref = (w.sys.files.icache e).ref) ∧
      w'.sys.lock = w.sys.lock ∧ w'.outstanding = w.outstanding := by
  obtain ⟨L, hinv, -⟩ := exact_reach hreach
  rw [← hsys] at hinv
  have hstart : Agrees p w.sys w.outstanding L ⟨L p, ∅, false⟩ w.sys w.outstanding :=
    ⟨by rw [Function.update_eq_self]; exact hinv, ⟨nofun, fun _ _ => rfl⟩, rfl, Kept.refl _⟩
  have halone := alone_agrees sb devsw pick hrun _ hstart (tidy_exec path hpool hargs)
  refine ⟨halone.1, fun w' hcall => ?_⟩
  rw [call] at hcall
  split at hcall
  · cases hcall
  · cases hcall
  · cases hcall
  · next s n m hrun =>
      cases hcall
      obtain ⟨h', ⟨rfl, hret⟩, ha⟩ := halone.2 s n _ hrun
      have hret := hret rfl
      exact ⟨rfl, ha.kept.cwd, ha.kept.ofile, ha.kept.file, hret.perm_free, hret.mem, ha.ref hinv,
        funext fun e => ha.locked.rest e (Finset.notMem_empty e), ha.outstanding⟩
  · split at hcall
    · cases hcall
    · cases hcall

end

/-- The first process, with four free pages. -/
def tinyWorld : World 1 := ⟨(Machine.boot 1 rootDisk).sys, 0, tinyPhys 4, fun _ => Mproc.zero⟩

/-- The root directory is no program. -/
theorem exec_all_or_nothing_root : ∃ w',
    call tinyKernel (tinySb 6) (fun _ => ⟨none, none⟩) 0 0 [47] [] tinyWorld = .ok w' (-1) ∧
    w'.proc = tinyWorld.proc ∧ w'.sys.lock = tinyWorld.sys.lock ∧
    (w'.sys.files.icache 0).ref = (tinyWorld.sys.files.icache 0).ref ∧ w'.outstanding = 0 := by
  have hret : (match call tinyKernel (tinySb 6) (fun _ => ⟨none, none⟩) 0 0 [47] [] tinyWorld with
      | .ok _ r => r == -1
      | _ => false) = true := by
    decide +kernel
  split at hret
  · next w' r hcall =>
      rw [eq_of_beq hret] at hcall
      have hreach : Reach (sysStep (tinySb 6) fun _ => ⟨none, none⟩) anyStep
        (Machine.boot 1 rootDisk) (Machine.boot 1 rootDisk) := .refl
      obtain ⟨hproc, -, -, -, -, -, href, hlock, hout⟩ :=
        (exec_all_or_nothing hreach rfl rfl (tinyPhys_pool (by decide)) [47]
          (List.forall_mem_nil _)).2 w' hcall
      exact ⟨w', hcall, hproc, hlock, href 0, hout⟩
  · cases hret

end Xv6.Ref.Sysfile.ExecCall
