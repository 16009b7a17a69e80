import Xv6.Ref.Syscall

/-!
# User pointers are confined

Every address the kernel dereferences for a system call's arguments has passed a
comparison with `sz`, and so has every region it hands on. What has to be seen is that the
comparisons mean what they say: they are made on 32-bit sums, and a sum that wraps passes
any of them. Below `KERNBASE` none does. An address that passes `addr >= sz` is below
`2^31`, and neither 4 nor an `int` that is not negative takes it past `2^32`.
-/

namespace Xv6.Ref.Syscall

open Xv6.Lib

/-- The bytes `[p, p + n)` are user memory, and `p + n` does not wrap. -/
def Curproc.region (u : Curproc) (p : Addr) (n : Nat) : Prop :=
  ∀ k < n, (p + BitVec.ofNat 32 k).toNat = p.toNat + k ∧ p.toNat + k < u.sz.toNat

/-- What is dereferenced lies in user memory. -/
def Curproc.inside (u : Curproc) : Access → Prop
  | .deref a => a.toNat < u.sz.toNat
  | _ => True

variable {u : Curproc}

/-! ## The comparisons -/

theorem region_of_le {p : Addr} {n : Nat} (hsz : u.sz.toNat ≤ Vm.KERNBASE)
    (h : p.toNat + n ≤ u.sz.toNat) : u.region p n := by
  intro k hk
  have hs : u.sz.toNat ≤ 0x80000000 := hsz
  have hlt : p.toNat + k < 2 ^ 32 := by omega
  refine ⟨?_, by omega⟩
  rw [BitVec.toNat_add, BitVec.toNat_ofNat, Nat.mod_eq_of_lt (a := k) (by omega),
    Nat.mod_eq_of_lt hlt]

/-- The check of `fetchint`. -/
theorem int_fits {addr : Addr} (hsz : u.sz.toNat ≤ Vm.KERNBASE)
    (h : ¬ (addr ≥ u.sz ∨ addr + 4 > u.sz)) : addr.toNat + 4 ≤ u.sz.toNat := by
  have hs : u.sz.toNat ≤ 0x80000000 := hsz
  bv_omega

/-- The check of `argptr`. -/
theorem block_fits {i size : BitVec 32} (hsz : u.sz.toNat ≤ Vm.KERNBASE)
    (h : ¬ (size.slt 0 ∨ i ≥ u.sz ∨ i + size > u.sz)) :
    i.toNat + size.toNat ≤ u.sz.toNat := by
  have hs : u.sz.toNat ≤ 0x80000000 := hsz
  have hpos : size.toNat < 2 ^ 31 := by
    have hslt : size.slt 0#32 = false := Bool.eq_false_iff.mpr fun hb => h (Or.inl hb)
    rw [BitVec.slt_zero_eq_msb] at hslt
    have := BitVec.msb_eq_false_iff_two_mul_lt.mp hslt
    omega
  have hlt : ¬ i ≥ u.sz := fun hi => h (Or.inr (Or.inl hi))
  have hle : ¬ i + size > u.sz := fun hi => h (Or.inr (Or.inr hi))
  bv_omega

/-! ## Fetching -/

theorem load_keeps {s : Addr} (hs : s.toNat < u.sz.toNat) :
    (load u s).Keeps u.inside fun c => c = u.mem s :=
  ⟨fun _ hi => List.mem_singleton.mp hi ▸ hs, fun _ h => (Except.ok.inj h).symm⟩

theorem loadInt_keeps {addr : Addr} (hsz : u.sz.toNat ≤ Vm.KERNBASE)
    (h : addr.toNat + 4 ≤ u.sz.toNat) : (loadInt u addr).Keeps u.inside fun _ => True := by
  have hreg := region_of_le hsz h
  have hload : ∀ k < 4, (load u (addr + BitVec.ofNat 32 k)).Keeps u.inside fun _ => True := by
    intro k hk
    obtain ⟨heq, hlt⟩ := hreg k hk
    exact ⟨(load_keeps (by omega)).1, fun _ _ => trivial⟩
  have h0 : (load u addr).Keeps u.inside fun _ => True := by simpa using hload 0 (by omega)
  refine h0.bind fun _ _ => (hload 1 (by omega)).bind fun _ _ => ?_
  refine (hload 2 (by omega)).bind fun _ _ => (hload 3 (by omega)).bind fun _ _ => ?_
  exact .pure trivial

theorem fetchint_keeps (hsz : u.sz.toNat ≤ Vm.KERNBASE) (addr : Addr) :
    (fetchint u addr).Keeps u.inside fun _ => addr.toNat + 4 ≤ u.sz.toNat := by
  refine Trail.Keeps.bind (.tell trivial) fun _ _ => .ite (fun _ => .fail ()) fun h => ?_
  have hfit := int_fits hsz h
  exact ⟨(loadInt_keeps hsz hfit).1, fun _ _ => hfit⟩

/-- What a `NUL`-terminated string at `p` of length `len` is. -/
structure Curproc.string (u : Curproc) (p : Addr) (len : Nat) : Prop where
  region : u.region p (len + 1)
  nul : u.mem (p + BitVec.ofNat 32 len) = 0
  first : ∀ k < len, u.mem (p + BitVec.ofNat 32 k) ≠ 0

/-- The loop of `fetchstr`, `k` bytes behind the start of the string. -/
theorem fetchstrLoop_keeps (hsz : u.sz.toNat ≤ Vm.KERNBASE) (p : Addr) :
    ∀ n k : Nat, p.toNat + k + n = u.sz.toNat →
      (∀ j < k, u.mem (p + BitVec.ofNat 32 j) ≠ 0) →
      (fetchstrLoop u n (p + BitVec.ofNat 32 k)).Keeps u.inside fun s =>
        ∃ len : Nat, s = p + BitVec.ofNat 32 len ∧ u.string p len := by
  intro n
  induction n with
  | zero => intro k _ _; exact .fail ()
  | succ n ih =>
      intro k hn hne
      have hreg : u.region p (k + 1) := region_of_le hsz (by omega)
      obtain ⟨heq, hlt⟩ := hreg k (Nat.lt_succ_self k)
      refine (load_keeps (by omega)).bind fun c hc => .ite (fun h0 => .pure ?_) fun h0 => ?_
      · exact ⟨k, rfl, hreg, by rw [← hc, h0], hne⟩
      · have hnext : p + BitVec.ofNat 32 k + 1 = p + BitVec.ofNat 32 (k + 1) := by
          bv_omega
        rw [hnext]
        refine ih (k + 1) (by omega) fun j hj => ?_
        rcases Nat.lt_succ_iff_lt_or_eq.mp hj with hjk | rfl
        · exact hne j hjk
        · rwa [← hc]

theorem fetchstr_keeps (hsz : u.sz.toNat ≤ Vm.KERNBASE) (addr : Addr) :
    (fetchstr u addr).Keeps u.inside fun r => u.string r.1 r.2.toNat := by
  refine Trail.Keeps.bind (.tell trivial) fun _ _ => .ite (fun _ => .fail ()) fun h => ?_
  have hlen : addr.toNat + 0 + (u.sz - addr).toNat = u.sz.toNat := by bv_omega
  have hloop := fetchstrLoop_keeps hsz addr (u.sz - addr).toNat 0 hlen (by omega)
  rw [show addr + BitVec.ofNat 32 0 = addr from BitVec.add_zero addr] at hloop
  refine hloop.bind fun s hs => .pure ?_
  obtain ⟨len, rfl, hstr⟩ := hs
  have hs : u.sz.toNat ≤ 0x80000000 := hsz
  have hlt : len < 2 ^ 32 := by have := (hstr.region len (Nat.lt_succ_self len)).2; omega
  have hsub : addr + BitVec.ofNat 32 len - addr = BitVec.ofNat 32 len := by
    rw [BitVec.add_comm, BitVec.add_sub_cancel]
  rw [hsub, BitVec.toNat_ofNat, Nat.mod_eq_of_lt hlt]
  exact hstr

theorem argptr_keeps (hsz : u.sz.toNat ≤ Vm.KERNBASE) (n size : BitVec 32) :
    (argptr u n size).Keeps u.inside fun p => u.region p size.toNat := by
  refine (fetchint_keeps hsz _).bind fun i _ => .ite (fun _ => .fail ()) fun h => .pure ?_
  exact region_of_le hsz (block_fits hsz h)

theorem argstr_keeps (hsz : u.sz.toNat ≤ Vm.KERNBASE) (n : BitVec 32) :
    (argstr u n).Keeps u.inside fun r => u.string r.1 r.2.toNat :=
  (fetchint_keeps hsz _).bind fun addr _ => fetchstr_keeps hsz addr

/-! ## The arguments of `sys_exec` -/

theorem execArgvLoop_keeps (hsz : u.sz.toNat ≤ Vm.KERNBASE) (uargv : Addr) :
    ∀ (n : Nat) (i : BitVec 32), (execArgvLoop u uargv n i).Keeps u.inside fun argv =>
      ∀ a ∈ argv, u.string a.1 a.2.toNat := by
  intro n
  induction n with
  | zero => intro i; exact .fail ()
  | succ n ih =>
      intro i
      refine (fetchint_keeps hsz _).bind fun uarg _ => .ite (fun _ => .pure ?_) fun _ => ?_
      · exact List.forall_mem_nil _
      · refine (fetchstr_keeps hsz uarg).bind fun arg harg => (ih (i + 1)).bind fun rest hrest => ?_
        exact .pure (List.forall_mem_cons.mpr ⟨harg, hrest⟩)

theorem sysExecArgs_keeps (hsz : u.sz.toNat ≤ Vm.KERNBASE) :
    (sysExecArgs u).Keeps u.inside fun r =>
      u.string r.1.1 r.1.2.toNat ∧ ∀ a ∈ r.2, u.string a.1 a.2.toNat := by
  refine (argstr_keeps hsz 0).bind fun path hpath => (fetchint_keeps hsz _).bind fun uargv _ => ?_
  exact (execArgvLoop_keeps hsz uargv _ 0).bind fun argv hargv => .pure ⟨hpath, hargv⟩

/-- The calls of `fetchint`. -/
def Access.isFetchint : Access → Bool
  | .fetchint _ => true
  | _ => false

/-- The calls of `fetchstr`. -/
def Access.isFetchstr : Access → Bool
  | .fetchstr _ => true
  | _ => false

section

variable {p : Access → Bool} (hp : ∀ a, p (.deref a) = false)

include hp

theorem countP_load (u : Curproc) (s : Addr) : (load u s).log.countP p = 0 := by
  rw [load, List.countP_singleton, hp]
  rfl

theorem countP_loadInt (u : Curproc) (addr : Addr) : (loadInt u addr).log.countP p ≤ 0 := by
  have hload : ∀ s, (load u s).log.countP p ≤ 0 := fun s => Nat.le_of_eq (countP_load hp u s)
  refine Trail.countP_log_bind_le p (n := 0) (hload _) fun _ => ?_
  refine Trail.countP_log_bind_le p (n := 0) (hload _) fun _ => ?_
  refine Trail.countP_log_bind_le p (n := 0) (hload _) fun _ => ?_
  exact Trail.countP_log_bind_le p (n := 0) (hload _) fun _ => Nat.le_refl _

theorem countP_fetchint (u : Curproc) (addr : Addr) :
    (fetchint u addr).log.countP p ≤ (p (.fetchint addr)).toNat := by
  refine Trail.countP_log_bind_le p (n := 0) ?_ fun _ => ?_
  · rw [Trail.tell, List.countP_singleton]
    exact Nat.le_of_eq (Bool.cond_eq_ite ..).symm
  · split
    · exact Nat.le_refl _
    · exact countP_loadInt hp u addr

theorem countP_fetchstrLoop (u : Curproc) :
    ∀ (n : Nat) (s : Addr), (fetchstrLoop u n s).log.countP p ≤ 0 := by
  intro n
  induction n with
  | zero => intro s; exact Nat.le_refl _
  | succ n ih =>
      intro s
      refine Trail.countP_log_bind_le p (n := 0) (Nat.le_of_eq (countP_load hp u s)) fun c => ?_
      split
      · exact Nat.le_refl _
      · exact ih (s + 1)

theorem countP_fetchstr (u : Curproc) (addr : Addr) :
    (fetchstr u addr).log.countP p ≤ (p (.fetchstr addr)).toNat := by
  refine Trail.countP_log_bind_le p (n := 0) ?_ fun _ => ?_
  · rw [Trail.tell, List.countP_singleton]
    exact Nat.le_of_eq (Bool.cond_eq_ite ..).symm
  · split
    · exact Nat.le_refl _
    · exact Trail.countP_log_bind_le p (n := 0) (countP_fetchstrLoop hp u _ addr)
        fun _ => Nat.le_refl _

/-- A round of the loop calls each of the two once at most. -/
theorem countP_execArgvLoop (u : Curproc) (uargv : Addr)
    (hone : ∀ a b, (p (.fetchint a)).toNat + (p (.fetchstr b)).toNat ≤ 1) :
    ∀ (n : Nat) (i : BitVec 32), (execArgvLoop u uargv n i).log.countP p ≤ n := by
  intro n
  induction n with
  | zero => intro i; exact Nat.le_refl _
  | succ n ih =>
      intro i
      have hround := hone (uargv + 4 * i)
      refine Nat.le_trans (Trail.countP_log_bind_le p
        (n := n + (1 - (p (.fetchint (uargv + 4 * i))).toNat))
        (countP_fetchint hp u (uargv + 4 * i)) fun uarg => ?_) ?_
      · split
        · exact Nat.zero_le _
        · refine Nat.le_trans (Trail.countP_log_bind_le p (n := n) (countP_fetchstr hp u uarg)
            fun arg => Trail.countP_log_bind_le p (n := 0) (ih (i + 1)) fun _ => Nat.le_refl _) ?_
          have := hround uarg
          omega
      · have := hround 0
        omega

end

/-! ## Everything together -/

/-- Whenever an argument is fetched, what was read for it and the region it names are user
memory. `sys_exec` reads nothing else either, whether or not it gets to `exec`, and its
loop calls each of the two fetching functions at most `MAXARG` times. -/
theorem user_pointers_confined {u : Curproc} (hsz : u.sz.toNat ≤ Vm.KERNBASE) :
    (∀ n v, (argint u n).result = .ok v →
      u.region (u.esp + 4 + 4 * n) 4 ∧ ∀ i ∈ (argint u n).log, u.inside i) ∧
    (∀ n size p, (argptr u n size).result = .ok p →
      u.region p size.toNat ∧ ∀ i ∈ (argptr u n size).log, u.inside i) ∧
    (∀ n p len, (argstr u n).result = .ok (p, len) →
      u.string p len.toNat ∧ ∀ i ∈ (argstr u n).log, u.inside i) ∧
    (∀ i ∈ (sysExecArgs u).log, u.inside i) ∧
    (∀ path argv, (sysExecArgs u).result = .ok (path, argv) →
      ∀ a ∈ path :: argv, u.string a.1 a.2.toNat) ∧
    ∀ uargv, (execArgvLoop u uargv Vm.MAXARG 0).log.countP Access.isFetchint ≤ Vm.MAXARG ∧
      (execArgvLoop u uargv Vm.MAXARG 0).log.countP Access.isFetchstr ≤ Vm.MAXARG := by
  refine ⟨fun n v h => ?_, fun n size p h => ?_, fun n p len h => ?_, ?_, fun path argv h => ?_,
    fun uargv => ⟨?_, ?_⟩⟩
  · have hk := fetchint_keeps hsz (u.esp + 4 + 4 * n)
    exact ⟨region_of_le hsz (hk.2 v h), hk.1⟩
  · have hk := argptr_keeps hsz n size
    exact ⟨hk.2 p h, hk.1⟩
  · have hk := argstr_keeps hsz n
    exact ⟨hk.2 (p, len) h, hk.1⟩
  · exact (sysExecArgs_keeps hsz).1
  · exact List.forall_mem_cons.mpr ((sysExecArgs_keeps hsz).2 (path, argv) h)
  · exact countP_execArgvLoop (fun _ => rfl) u uargv (fun _ _ => Nat.le_refl _) _ 0
  · exact countP_execArgvLoop (fun _ => rfl) u uargv (fun _ _ => Nat.le_refl _) _ 0

/-- A page of memory with the stack pointer at its start: the first argument is the word at
4, which points to the string `a` at 12. -/
def oneArgument : Curproc where
  sz := 4096
  esp := 0
  mem := fun a => if a = 4 then 12 else if a = 12 then 97 else 0

theorem user_pointers_confined_page :
    (argstr oneArgument 0).result = .ok (12, 1) ∧ oneArgument.string 12 1 ∧
      (argptr oneArgument 0 4084).result = .ok 12 ∧ oneArgument.region 12 4084 := by
  have h := user_pointers_confined (u := oneArgument) (by decide)
  have hs : (argstr oneArgument 0).result = .ok (12, 1) := by decide +kernel
  have hp : (argptr oneArgument 0 4084).result = .ok 12 := by decide +kernel
  exact ⟨hs, (h.2.2.1 0 12 1 hs).1, hp, (h.2.1 0 4084 12 hp).1⟩

end Xv6.Ref.Syscall
