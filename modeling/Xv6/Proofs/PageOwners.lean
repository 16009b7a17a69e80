import Xv6.Proofs.VmMap
import Xv6.Proofs.FtableRefs
import Xv6.Ref.Pages

/-!
# Every page has one owner

The conservation laws of `VmPages.lean`, carried through `exec` and the system
calls to the whole machine: the free list, the kernel's directory, the stacks of
the CPUs, what the processes hold and the pages of the pipes make up, at all
times, the pages `kinit1` and `kinit2` were given. These are distinct, so no page
is counted twice.

The laws for the files come from `FtableRefs.lean`: a pipe's page is freed by the
`fileclose` that makes its `freed` 1, and by no other.
-/

namespace Xv6.Ref.Vm

open Xv6.Lib

variable {k : Kernel} {m m' : Phys} {d d' : Pgdir} {pg va : Nat}

/-! ## `exec` -/

theorem free_write (m : Phys) (pg o : Nat) (bs : List UInt8) :
    (m.write pg o bs).free = m.free := rfl

theorem copyoutLoop_free : ∀ (n : Nat) {m m' : Phys} {va : Nat} {buf : List UInt8} {b : Bool},
    copyoutLoop d n m va buf = .ok (m', b) → m'.free = m.free
  | 0, m, m', va, buf, b, h => by
      cases h
      rfl
  | n + 1, m, m', va, buf, b, h => by
      rw [copyoutLoop] at h
      split at h
      · obtain ⟨r, hu, h⟩ := bind_eq_ok.mp h
        cases r with
        | none =>
            cases h
            rfl
        | some pa0 => exact (copyoutLoop_free n h).trans (free_write ..)
      · cases h
        rfl

theorem copyout_free {buf : List UInt8} {b : Bool} (h : copyout m d va buf = .ok (m', b)) :
    m'.free = m.free := copyoutLoop_free _ h

theorem loaduvmLoop_free {rd : Reader} {addr offset sz : Nat} :
    ∀ (n : Nat) {m m' : Phys} {i : Nat} {b : Bool},
    loaduvmLoop d rd addr offset sz n m i = .ok (m', b) → m'.free = m.free
  | 0, m, m', i, b, h => by
      cases h
      rfl
  | n + 1, m, m', i, b, h => by
      rw [loaduvmLoop] at h
      split at h
      · split at h
        · cases h
        · dsimp only at h
          split at h
          · cases h
            rfl
          · exact (loaduvmLoop_free n h).trans (free_write ..)
      · cases h
        rfl

theorem loaduvm_free {rd : Reader} {addr offset sz : Nat} {b : Bool}
    (h : loaduvm m d addr rd offset sz = .ok (m', b)) : m'.free = m.free := by
  rw [loaduvm] at h
  split at h
  · cases h
  · exact loaduvmLoop_free _ h

theorem loadSegments_loaded {rd : Reader} : ∀ (n : Nat) {off sz : Nat} {m m' : Phys}
    {d d' : Pgdir} {r : Option Nat},
    loadSegments k rd n off m d sz = .ok (m', d', r) → Loaded m d m' d'
  | 0, off, sz, m, m', d, d', r, h => by
      cases h
      exact Loaded.refl _ _
  | n + 1, off, sz, m, m', d, d', r, h => by
      rw [loadSegments] at h
      split at h
      · cases h
        exact Loaded.refl _ _
      · dsimp only at h
        split at h
        · exact loadSegments_loaded n h
        · split at h
          · cases h
            exact Loaded.refl _ _
          · split at h
            · cases h
              exact Loaded.refl _ _
            · obtain ⟨⟨m₁, d₁, sz₁⟩, ha, h⟩ := bind_eq_ok.mp h
              have hl := (allocuvm_spec ha).1
              dsimp only at h
              split at h
              · cases h
                exact hl
              · split at h
                · cases h
                  exact hl
                · obtain ⟨⟨m₂, b⟩, hu, h⟩ := bind_eq_ok.mp h
                  have hl₂ := hl.write (loaduvm_free hu)
                  cases b with
                  | true => exact hl₂.trans (loadSegments_loaded n h)
                  | false =>
                      cases h
                      exact hl₂

theorem clearpteu_loaded (h : clearpteu d va = .ok d') : Loaded m d m d' := by
  rw [clearpteu] at h
  split at h
  · cases h
  · next ht =>
      have ht : d.tab (PDX va) ≠ none := by rw [ht]; nofun
      split at h
      · cases h
        exact Loaded.refl _ _
      · next e he =>
          cases h
          refine ⟨?_, fun hd => hd.setPte ht fun _ e' h' => ?_⟩
          · have hp := setPte_pages ht (some { e with perm := { e.perm with u := false } })
            rw [he] at hp
            rw [add_right_cancel hp]
          · cases h'
            rfl

theorem pushArgs_free : ∀ (argv : List (List UInt8)) {argc sp : Nat} {m m' : Phys}
    {at_ : List Nat} {r : Option (Nat × List Nat)},
    pushArgs d argv argc m sp at_ = .ok (m', r) → m'.free = m.free
  | [], argc, sp, m, m', at_, r, h => by
      cases h
      rfl
  | s :: argv, argc, sp, m, m', at_, r, h => by
      rw [pushArgs] at h
      split at h
      · cases h
        rfl
      · obtain ⟨⟨m₁, b⟩, hc, h⟩ := bind_eq_ok.mp h
        cases b with
        | true => exact (pushArgs_free argv h).trans (copyout_free hc)
        | false =>
            cases h
            exact copyout_free hc

theorem pushStack_spec {path : List UInt8} {argv : List (List UInt8)} {entry sz : Nat}
    {r : Option Image} (h : pushStack k path argv entry m d sz = .ok (m', d', r)) :
    Loaded m d m' d' ∧ ∀ image, r = some image → image.pgdir = d' ∧ image.sz < KERNBASE := by
  obtain ⟨⟨m₁, d₁, sz₁⟩, ha, h⟩ := bind_eq_ok.mp h
  have hl : Loaded m d m₁ d₁ ∧ sz₁ < KERNBASE := by
    by_cases hup : PGROUNDUP sz < KERNBASE
    · obtain ⟨h1, h2⟩ := allocuvm_spec ha
      exact ⟨h1, h2 hup⟩
    · rw [allocuvm, if_pos (Nat.le_add_right_of_le (Nat.not_lt.mp hup))] at ha
      cases ha
      exact ⟨Loaded.refl _ _, by decide⟩
  dsimp only at h
  split at h
  · cases h
    exact ⟨hl.1, by rintro _ ⟨⟩⟩
  · obtain ⟨d₂, hc, h⟩ := bind_eq_ok.mp h
    have hl₂ := hl.1.trans (clearpteu_loaded (m := m₁) hc)
    obtain ⟨⟨m₃, r₃⟩, hp, h⟩ := bind_eq_ok.mp h
    have hl₃ := hl₂.write (pushArgs_free _ hp)
    cases r₃ with
    | none =>
        cases h
        exact ⟨hl₃, by rintro _ ⟨⟩⟩
    | some x =>
        obtain ⟨sp, at_⟩ := x
        obtain ⟨⟨m₄, b⟩, ho, h⟩ := bind_eq_ok.mp h
        have hl₄ := hl₃.write (copyout_free ho)
        cases b with
        | true =>
            cases h
            exact ⟨hl₄, by rintro _ ⟨⟩; exact ⟨rfl, hl.2⟩⟩
        | false =>
            cases h
            exact ⟨hl₄, by rintro _ ⟨⟩⟩

theorem execBad_free {r : Option Image} (h : execBad k m d = .ok (r, m')) :
    r = none ∧ m'.free = m.free + d.pages := by
  obtain ⟨m₁, hf, h⟩ := bind_eq_ok.mp h
  cases h
  exact ⟨rfl, freevm_free hf⟩

/-- The pages of the image `exec` returns. -/
def imagePages (r : Option Image) : Multiset Nat := dirPages (r.map (·.pgdir))

theorem exec_spec {ip : Option Reader} {path : List UInt8} {argv : List (List UInt8)}
    {r : Option Image} (h : exec k m ip path argv = .ok (r, m')) :
    m'.free + imagePages r = m.free ∧
      ∀ image, r = some image → image.pgdir.Guarded ∧ image.sz < KERNBASE := by
  have hnone : ∀ {m₁ : Phys}, m₁.free = m.free →
      (Except.ok (none, m₁) : Except Stop (Option Image × Phys)) = .ok (r, m') →
      m'.free + imagePages r = m.free ∧
        ∀ image, r = some image → image.pgdir.Guarded ∧ image.sz < KERNBASE := by
    rintro m₁ hm ⟨⟩
    exact ⟨by rw [imagePages, Option.map_none, dirPages, add_zero, hm], nofun⟩
  unfold Vm.exec at h
  split at h
  · exact hnone rfl h
  · split at h
    · exact hnone rfl h
    · dsimp only at h
      split at h
      · exact hnone rfl h
      · obtain ⟨⟨r₁, m₁⟩, hs, h⟩ := bind_eq_ok.mp h
        obtain ⟨hfree, hguard⟩ := setupkvm_free hs
        cases r₁ with
        | none => exact hnone (by rw [← hfree, dirPages, add_zero]) h
        | some d₁ =>
            rw [dirPages] at hfree
            obtain ⟨⟨m₂, d₂, r₂⟩, hl, h⟩ := bind_eq_ok.mp h
            have hload := loadSegments_loaded _ hl
            cases r₂ with
            | none =>
                obtain ⟨rfl, hf⟩ := execBad_free h
                exact hnone (by rw [hf, hload.pages, hfree]) rfl
            | some sz =>
                obtain ⟨⟨m₃, d₃, r₃⟩, hp, h⟩ := bind_eq_ok.mp h
                obtain ⟨hpush, himage⟩ := pushStack_spec hp
                have hall := hload.trans hpush
                cases r₃ with
                | none =>
                    obtain ⟨rfl, hf⟩ := execBad_free h
                    exact hnone (by rw [hf, hall.pages, hfree]) rfl
                | some image =>
                    cases h
                    obtain ⟨he, hlt⟩ := himage image rfl
                    refine ⟨?_, ?_⟩
                    · rw [imagePages, Option.map_some, dirPages, he, hall.pages, hfree]
                    · rintro _ ⟨⟩
                      exact ⟨he ▸ hall.guarded (hguard d₁ rfl).1, hlt⟩

/-- `inituvm` does not look at the result of `mappages`. With two free pages it
need not. -/
theorem inituvm_loaded {init : List UInt8} (hfree : 1 < m.freelist.length)
    (h : inituvm m d init = .ok (m', d')) : Loaded m d m' d' := by
  rw [inituvm] at h
  split at h
  · cases h
  · split at h
    · cases h
    · next pg m₁ hk =>
        obtain ⟨⟨m₂, d₂, b⟩, hm, h⟩ := bind_eq_ok.mp h
        cases h
        obtain ⟨hp, hg, hfull⟩ := mappages_page (by decide) (by decide) hm
        have hlen := kalloc_length hk
        cases b with
        | true =>
            refine ⟨?_, hg⟩
            rw [free_setPage, hp, if_pos rfl, kalloc_free hk]
            abel
        | false =>
            rw [hfull rfl, List.length_nil] at hlen
            omega

/-! ## The machine -/

variable {s s' : Machine} {p : Slot}

def Machine.heldBy (s : Machine) (p : Slot) : Multiset Nat :=
  if s.files.state p = .UNUSED then 0 else {(s.proc p).kstack} + (s.proc p).pgdir.pages

def Machine.pipePages (s : Machine) : Multiset Nat :=
  ∑ i ∈ Finset.range s.files.npipe, if (s.files.pipe i).freed = 0 then {s.page i} else 0

/-- All pages with an owner: the kernel's page table, the stacks of the CPUs, the
processes that are not unused, the pipes that have not been freed. -/
def Machine.owned (s : Machine) : Multiset Nat :=
  s.kpgdir.pages + s.cpuStacks + ∑ p, s.heldBy p + s.pipePages

/-- The balance, inside a call that holds the references `held`. -/
structure PageInv (all : Multiset Nat) (held : Ftable.Fidx → Nat) (s : Machine) : Prop where
  files : Ftable.Balanced s.files held
  total : s.phys.free + s.owned = all
  kernel : s.kpgdir.Guarded
  space : ∀ p, s.files.state p ≠ .UNUSED → (s.proc p).pgdir.Guarded ∧ (s.proc p).sz < KERNBASE

variable {all : Multiset Nat} {held held' : Ftable.Fidx → Nat}

/-- A step that leaves the address spaces alone. -/
theorem PageInv.pipes (h : PageInv all held s) (hk : s'.kpgdir = s.kpgdir)
    (hc : s'.cpuStacks = s.cpuStacks) (hp : s'.proc = s.proc)
    (hst : s'.files.state = s.files.state) (hf : Ftable.Balanced s'.files held')
    (hpipe : s'.phys.free + s'.pipePages = s.phys.free + s.pipePages) : PageInv all held' s' where
  files := hf
  total := by
    have hheld : s'.heldBy = s.heldBy := by
      funext q
      simp only [Machine.heldBy, hp, hst]
    rw [← h.total, Machine.owned, Machine.owned, hk, hc, hheld, add_comm _ s'.pipePages,
      ← add_assoc, hpipe]
    abel
  kernel := hk ▸ h.kernel
  space := by
    rw [hp, hst]
    exact h.space

/-- The balance with one process taken out. -/
theorem PageInv.move (h : PageInv all held s) (hk : s'.kpgdir = s.kpgdir)
    (hc : s'.cpuStacks = s.cpuStacks) (hother : ∀ q ≠ p, s'.heldBy q = s.heldBy q)
    (hpipe : s'.pipePages = s.pipePages)
    (hbal : s'.phys.free + s'.heldBy p = s.phys.free + s.heldBy p)
    (hf : Ftable.Balanced s'.files held')
    (hspace : ∀ q, s'.files.state q ≠ .UNUSED →
      (s'.proc q).pgdir.Guarded ∧ (s'.proc q).sz < KERNBASE) : PageInv all held' s' where
  files := hf
  total := by
    have hsum := sum_change (f := s'.heldBy) (g := s.heldBy) hother
    rw [← h.total, Machine.owned, Machine.owned, hk, hc, hpipe]
    refine add_right_cancel (b := s.heldBy p) ?_
    calc s'.phys.free + (s.kpgdir.pages + s.cpuStacks + ∑ q, s'.heldBy q + s.pipePages) +
          s.heldBy p
        = s'.phys.free + (s.kpgdir.pages + s.cpuStacks + s.pipePages) +
            (∑ q, s'.heldBy q + s.heldBy p) := by abel
      _ = s'.phys.free + s'.heldBy p + (s.kpgdir.pages + s.cpuStacks + s.pipePages) +
            ∑ q, s.heldBy q := by rw [hsum]; abel
      _ = _ := by rw [hbal]; abel
  kernel := hk ▸ h.kernel
  space := hspace

/-! ## Files -/

theorem close_freed_le (e : Ftable.PipeEnds) (w : Bool) :
    (e.close w).freed ≤ e.freed + 1 ∧ e.freed ≤ (e.close w).freed := by
  obtain ⟨r, wr, n⟩ := e
  cases w <;> cases r <;> cases wr <;> simp [Ftable.PipeEnds.close]

theorem fileclose_pipe {fs fs' : Ftable.Files} {f : Ftable.Fidx}
    (h : Ftable.fileclose fs f = some fs') :
    fs'.npipe = fs.npipe ∧ (∀ i ≠ (fs.file f).pipe, fs'.pipe i = fs.pipe i) ∧
      ((fs.file f).type ≠ .FD_PIPE → fs'.pipe = fs.pipe) ∧
      ((fs'.pipe (fs.file f).pipe).freed ≤ (fs.pipe (fs.file f).pipe).freed + 1 ∧
        (fs.pipe (fs.file f).pipe).freed ≤ (fs'.pipe (fs.file f).pipe).freed) := by
  simp only [Ftable.fileclose] at h
  split at h
  · cases h
  · split at h
    · cases h
      exact ⟨rfl, fun _ _ => rfl, fun _ => rfl, Nat.le_succ _, Nat.le_refl _⟩
    · split at h
      · next ht =>
          cases h
          rw [Ftable.pipeclose_eq]
          refine ⟨rfl, fun i hi => if_neg hi, fun hne => absurd ht hne, ?_⟩
          have hself : ∀ (fs : Ftable.Files) (i : Nat) (g : Ftable.PipeEnds → Ftable.PipeEnds),
              (fs.setPipe i g).pipe i = g (fs.pipe i) := fun _ _ _ => if_pos rfl
          rw [hself]
          exact close_freed_le _ _
      · cases h
        exact ⟨rfl, fun _ _ => rfl, fun _ => rfl, Nat.le_succ _, Nat.le_refl _⟩
      · cases h
        exact ⟨rfl, fun _ _ => rfl, fun _ => rfl, Nat.le_succ _, Nat.le_refl _⟩

theorem freed_le_one {fs : Ftable.Files} (h : Ftable.Balanced fs held) {i : Nat}
    (hi : i < fs.npipe) : (fs.pipe i).freed ≤ 1 := by
  rw [h.ends.freed i hi]
  split <;> omega

theorem fileclose_files {f : Ftable.Fidx} (hc : fileclose k s f = .ok s') :
    Ftable.fileclose s.files f = some s'.files := by
  rw [fileclose] at hc
  split at hc
  · cases hc
  · next fs₁ hf =>
      dsimp only at hc
      split at hc
      · cases hc
        exact hf
      · obtain ⟨m₁, hk, hc⟩ := bind_eq_ok.mp hc
        cases hc
        exact hf

/-- The last `fileclose` of a pipe's end gives its page back, and no other does. -/
theorem fileclose_inv {f : Ftable.Fidx} (h : PageInv all (Ftable.bump held f) s)
    (hc : fileclose k s f = .ok s') :
    PageInv all held s' ∧ s'.proc = s.proc := by
  obtain ⟨fs', hfc, hb, -, hst⟩ := Ftable.fileclose_spec h.files
  obtain ⟨hn, hother, htype, hle, hge⟩ := fileclose_pipe hfc
  simp only [fileclose, hfc] at hc
  split at hc
  · next heq =>
      cases hc
      refine ⟨h.pipes rfl rfl rfl hst hb ?_, rfl⟩
      have hsame : ∀ i, (fs'.pipe i).freed = (s.files.pipe i).freed := by
        intro i
        by_cases hi : i = (s.files.file f).pipe
        · rw [hi, heq]
        · rw [hother i hi]
      simp only [Machine.pipePages, hn, hsame]
  · next hne =>
      obtain ⟨m, hk, hc⟩ := bind_eq_ok.mp hc
      cases hc
      refine ⟨h.pipes rfl rfl rfl hst hb ?_, rfl⟩
      have ht : (s.files.file f).type = .FD_PIPE := by
        by_contra ht
        exact hne (by rw [htype ht])
      have hlt := (h.files.ends.pipe f _ _ ⟨ht, rfl, rfl⟩).1
      have hold := freed_le_one h.files hlt
      have hnew := freed_le_one hb (hn ▸ hlt)
      have hsum := sum_change_on (Finset.mem_range.mpr hlt)
        (f := fun i => if (fs'.pipe i).freed = 0 then ({s.page i} : Multiset Nat) else 0)
        (g := fun i => if (s.files.pipe i).freed = 0 then ({s.page i} : Multiset Nat) else 0)
        fun i hi => by rw [hother i hi]
      rw [if_pos (by omega), if_neg (by omega), add_zero] at hsum
      simp only [Machine.pipePages, hn]
      rw [kfree_free hk, ← hsum]
      abel

theorem PageInv.setOfile (h : PageInv all held s) {fs : Ftable.Files}
    (hf : Ftable.Balanced fs held') (hst : fs.state = s.files.state)
    (hn : fs.npipe = s.files.npipe) (hp : fs.pipe = s.files.pipe) :
    PageInv all held' { s with files := fs } :=
  h.pipes rfl rfl rfl hst hf (by simp only [Machine.pipePages, hn, hp])

theorem sysClose_inv {fd : Int} (h : PageInv all (fun _ => 0) s)
    (hc : sysClose k s p fd = .ok s') : PageInv all (fun _ => 0) s' := by
  rw [sysClose] at hc
  split at hc
  · cases hc
    exact h
  · next fd' f ha =>
      have hclear := h.files.clear (Ftable.argfd_some ha)
      exact (fileclose_inv (h.setOfile hclear rfl rfl rfl) hc).1

theorem sysPipeBad_inv (fd0 : Option Ftable.Fd) {rf wf : Ftable.Fidx}
    (h : PageInv all held s)
    (hb : Ftable.Balanced (match fd0 with
      | none => s.files
      | some fd0 => s.files.setOfile p fd0 none)
      (Ftable.bump (Ftable.bump (fun _ => 0) wf) rf))
    (hc : sysPipeBad k s p fd0 rf wf = .ok s') : PageInv all (fun _ => 0) s' := by
  cases fd0 with
  | none =>
      obtain ⟨s₁, hc₁, hc₂⟩ := bind_eq_ok.mp hc
      exact (fileclose_inv (fileclose_inv (h.setOfile hb rfl rfl rfl) hc₁).1 hc₂).1
  | some fd0 =>
      obtain ⟨s₁, hc₁, hc₂⟩ := bind_eq_ok.mp hc
      exact (fileclose_inv (fileclose_inv (h.setOfile hb rfl rfl rfl) hc₁).1 hc₂).1

/-- Closing files that are no pipes. -/
theorem pipeallocBad_pipe {fs fs' : Ftable.Files} {l : List Ftable.Fidx}
    (ht : ∀ f ∈ l, (fs.file f).type = .FD_NONE) (h : Ftable.pipeallocBad fs l = some fs') :
    fs'.npipe = fs.npipe ∧ fs'.pipe = fs.pipe := by
  induction l generalizing fs with
  | nil =>
      cases h
      exact ⟨rfl, rfl⟩
  | cons f l ih =>
      rw [Ftable.pipeallocBad] at h
      split at h
      · cases h
      · next fs₁ hc =>
          obtain ⟨hn, -, hp, -⟩ := fileclose_pipe hc
          have hpipe := hp (by rw [ht f List.mem_cons_self]; rintro ⟨⟩)
          have htype : ∀ g, (fs.file g).type = .FD_NONE → (fs₁.file g).type = .FD_NONE := by
            intro g hg
            simp only [Ftable.fileclose, ht f List.mem_cons_self] at hc
            split at hc
            · cases hc
            · split at hc <;> cases hc <;>
                simp only [Ftable.Files.setFile] <;> split
              · next he => rw [← he]; exact hg
              · exact hg
              · rfl
              · exact hg
          obtain ⟨h1, h2⟩ := ih (fun g hg => htype g (ht g (List.mem_cons_of_mem _ hg))) h
          exact ⟨h1.trans hn, h2.trans hpipe⟩

theorem pipealloc_pipe {fs fs' : Ftable.Files} {page : Bool}
    {r : Option (Ftable.Fidx × Ftable.Fidx)} (hi : Ftable.Settled fs)
    (h : Ftable.pipealloc fs page = some (r, fs')) :
    (r = none → fs'.npipe = fs.npipe ∧ fs'.pipe = fs.pipe) ∧
      (r ≠ none → page = true ∧ fs'.npipe = fs.npipe + 1 ∧
        ∀ i, fs'.pipe i = if i = fs.npipe then ⟨true, true, 0⟩ else fs.pipe i) := by
  rw [Ftable.pipealloc] at h
  split at h
  · cases h
    exact ⟨fun _ => ⟨rfl, rfl⟩, fun hr => absurd rfl hr⟩
  · next f₀ fs₁ h0 =>
      obtain ⟨hb₁, -, ht₀, hs₁⟩ := Ftable.filealloc_spec hi h0
      split at h
      · obtain ⟨fs₂, hbad, he⟩ := Option.map_eq_some_iff.mp h
        cases he
        obtain ⟨hn, hp⟩ := pipeallocBad_pipe (by simpa using ht₀) hbad
        exact ⟨fun _ => ⟨hn.trans (by rw [hs₁]; rfl), hp.trans (by rw [hs₁]; rfl)⟩,
          fun hr => absurd rfl hr⟩
      · next f₁ fs₂ h1 =>
          obtain ⟨-, -, ht₁, hs₂⟩ := Ftable.filealloc_spec hb₁ h1
          have ht₀' : (fs₂.file f₀).type = .FD_NONE := by
            rw [hs₂]
            simp only [Ftable.Files.setFile]
            split
            · next he => rw [← he]; exact ht₀
            · exact ht₀
          split at h
          · obtain ⟨fs₃, hbad, he⟩ := Option.map_eq_some_iff.mp h
            cases he
            obtain ⟨hn, hp⟩ := pipeallocBad_pipe (by simp [ht₀', ht₁]) hbad
            exact ⟨fun _ => ⟨hn.trans (by rw [hs₂, hs₁]; rfl), hp.trans (by rw [hs₂, hs₁]; rfl)⟩,
              fun hr => absurd rfl hr⟩
          · next hpage =>
              cases h
              refine ⟨by rintro ⟨⟩, fun _ => ⟨by simpa using hpage, ?_, fun i => ?_⟩⟩
              · rw [hs₂, hs₁]
                rfl
              · rw [hs₂, hs₁]
                rfl

theorem pipealloc_inv {r : Option (Ftable.Fidx × Ftable.Fidx)}
    (h : PageInv all (fun _ => 0) s) (hc : pipealloc s = .ok (r, s')) :
    PageInv all (Ftable.pipeHeld r) s' ∧ s'.files.state = s.files.state := by
  rw [pipealloc] at hc
  split at hc
  · obtain ⟨r₁, fs₁, hp, hb, hst⟩ := Ftable.pipealloc_spec h.files false
    rw [hp] at hc
    cases hc
    obtain ⟨hnone, hsome⟩ := pipealloc_pipe h.files hp
    have hr : r = none := by
      by_contra hr
      exact absurd (hsome hr).1 nofun
    obtain ⟨hn, hpi⟩ := hnone hr
    exact ⟨h.setOfile hb hst hn hpi, hst⟩
  · next pg m hk =>
      obtain ⟨r₁, fs₁, hp, hb, hst⟩ := Ftable.pipealloc_spec h.files true
      rw [hp] at hc
      obtain ⟨hnone, hsome⟩ := pipealloc_pipe h.files hp
      cases r₁ with
      | none =>
          cases hc
          obtain ⟨hn, hpi⟩ := hnone rfl
          exact ⟨h.setOfile hb hst hn hpi, hst⟩
      | some x =>
          cases hc
          obtain ⟨-, hn, hpi⟩ := hsome nofun
          refine ⟨h.pipes rfl rfl rfl hst hb ?_, hst⟩
          simp only [Machine.pipePages, hn, Finset.sum_range_succ, hpi, if_true]
          have hold : ∀ i ∈ Finset.range s.files.npipe,
              (if (if i = s.files.npipe then (⟨true, true, 0⟩ : Ftable.PipeEnds)
                  else s.files.pipe i).freed = 0 then
                ({if i = s.files.npipe then pg else s.page i} : Multiset Nat) else 0) =
              if (s.files.pipe i).freed = 0 then {s.page i} else 0 := by
            intro i hi
            have hne : i ≠ s.files.npipe := Nat.ne_of_lt (Finset.mem_range.mp hi)
            simp only [if_neg hne]
          rw [Finset.sum_congr rfl hold, kalloc_free hk]
          abel

theorem sysPipe_inv {ptr : Bool} (h : PageInv all (fun _ => 0) s)
    (hp : s.files.state p = .RUNNABLE) (hc : sysPipe k s p ptr = .ok s') :
    PageInv all (fun _ => 0) s' := by
  rw [sysPipe] at hc
  split at hc
  · cases hc
    exact h
  · obtain ⟨⟨r, s₁⟩, ha, hc⟩ := bind_eq_ok.mp hc
    obtain ⟨h₁, hst⟩ := pipealloc_inv h ha
    rw [← hst] at hp
    cases r with
    | none =>
        cases hc
        exact h₁
    | some x =>
        obtain ⟨rf, wf⟩ := x
        dsimp only at hc
        split at hc
        · exact sysPipeBad_inv none h₁ h₁.files hc
        · next fd0 fs₂ h0 =>
            obtain ⟨hfree, rfl⟩ := Ftable.fdalloc_some h0
            have hb₂ := Ftable.Balanced.store h₁.files hp hfree
            have h₂ := h₁.setOfile hb₂ rfl rfl rfl
            split at hc
            · -- The first descriptor is taken back.
              refine sysPipeBad_inv (some fd0) h₂ (hb₂.clear ?_) hc
              simp [Ftable.Files.setOfile]
            · next fd1 fs₃ h1 =>
                obtain ⟨hfree₁, rfl⟩ := Ftable.fdalloc_some h1
                cases hc
                exact h₁.setOfile (hb₂.store hp hfree₁) rfl rfl rfl

/-! ## Processes -/

theorem forkLoop_files {fs fs' : Ftable.Files} {np : Slot} {fds : List Ftable.Fd}
    (h : Ftable.forkLoop fs p np fds = some fs') :
    fs'.state = fs.state ∧ fs'.npipe = fs.npipe ∧ fs'.pipe = fs.pipe := by
  induction fds generalizing fs with
  | nil =>
      cases h
      exact ⟨rfl, rfl, rfl⟩
  | cons fd fds ih =>
      rw [Ftable.forkLoop] at h
      split at h
      · exact ih h
      · split at h
        · cases h
        · next f ho fs₁ hd =>
            obtain ⟨h1, h2, h3⟩ := ih h
            rw [Ftable.filedup] at hd
            split at hd
            · cases hd
            · cases hd
              exact ⟨h1, h2, h3⟩

theorem heldBy_unused (h : s.files.state p = .UNUSED) : s.heldBy p = 0 := if_pos h

theorem heldBy_live (h : s.files.state p ≠ .UNUSED) :
    s.heldBy p = {(s.proc p).kstack} + (s.proc p).pgdir.pages := if_neg h

/-- Changing the entry of a slot that is not in use. -/
theorem PageInv.setUnused (h : PageInv all held s) (hun : s.files.state p = .UNUSED)
    {g : Mproc → Mproc} (hm : m.free = s.phys.free) :
    PageInv all held { s.setProc p g with phys := m } := by
  refine h.move (p := p) rfl rfl (fun q hq => ?_) rfl ?_ h.files fun q hq => ?_
  · simp only [Machine.heldBy, Machine.setProc, if_neg hq]
  · rw [heldBy_unused hun, heldBy_unused (s := { s.setProc p g with phys := m }) hun, hm]
  · have hne : q ≠ p := by
      rintro rfl
      exact hq hun
    simp only [Machine.setProc, if_neg hne]
    exact h.space q hq

theorem fork_inv (h : PageInv all (fun _ => 0) s) (hp : s.files.state p = .RUNNABLE)
    (hc : fork k s p = .ok s') : PageInv all (fun _ => 0) s' := by
  obtain ⟨r, fs', hfs, hset⟩ := Ftable.fork_spec (p := p) h.files true
  rw [fork] at hc
  split at hc
  · cases hc
    exact h
  · next np hnp =>
      have hun : s.files.state np = .UNUSED := by simpa using List.find?_some hnp
      split at hc
      · cases hc
        exact h.setUnused (m := s.phys) (g := fun r => { r with kstack := 0 }) hun rfl
      · next kstack m₁ hk =>
          obtain ⟨⟨r₂, m₂⟩, hcopy, hc⟩ := bind_eq_ok.mp hc
          obtain ⟨hfree, hguard⟩ :=
            copyuvm_spec (h.space p (by rw [hp]; nofun)).2 hcopy
          cases r₂ with
          | none =>
              obtain ⟨m₃, hf, hc⟩ := bind_eq_ok.mp hc
              cases hc
              refine h.setUnused hun ?_
              rw [dirPages, add_zero] at hfree
              rw [kfree_free hf, hfree, kalloc_free hk]
          | some d =>
              dsimp only at hc
              simp only [Ftable.fork, hnp, Bool.true_eq_false, if_false] at hfs
              split at hc
              · cases hc
              · next files hl =>
                  cases hc
                  obtain ⟨hst, hn, hpi⟩ := forkLoop_files hl
                  rw [hl] at hfs
                  cases hfs
                  have hstate : ∀ q, (files.setState np .RUNNABLE).state q =
                      if q = np then .RUNNABLE else s.files.state q := by
                    intro q
                    rw [← hst]
                    rfl
                  refine h.move (p := np) rfl rfl (fun q hq => ?_) ?_ ?_ hset fun q hq => ?_
                  · simp only [Machine.heldBy, Machine.setProc, hstate, if_neg hq]
                  · simp only [Machine.pipePages, Ftable.Files.setState, hn, hpi,
                      Machine.setProc]
                  · rw [heldBy_unused hun, add_zero, Machine.heldBy, if_neg]
                    · simp only [Machine.setProc, if_true]
                      rw [dirPages] at hfree
                      rw [kalloc_free hk, ← hfree]
                      abel
                    · rw [hstate, if_pos rfl]
                      nofun
                  · have hq : (files.setState np .RUNNABLE).state q ≠ .UNUSED := hq
                    by_cases he : q = np
                    · simp only [Machine.setProc, if_pos he]
                      exact ⟨hguard d rfl, (h.space p (by rw [hp]; nofun)).2⟩
                    · simp only [Machine.setProc, if_neg he]
                      rw [hstate, if_neg he] at hq
                      exact h.space q hq

/-- A live process changes its address space, and what it drops is freed. -/
theorem PageInv.setSpace (h : PageInv all held s) (hp : s.files.state p = .RUNNABLE)
    {g : Mproc → Mproc} (hk : (g (s.proc p)).kstack = (s.proc p).kstack)
    (hbal : m.free + (g (s.proc p)).pgdir.pages = s.phys.free + (s.proc p).pgdir.pages)
    (hg : (g (s.proc p)).pgdir.Guarded) (hsz : (g (s.proc p)).sz < KERNBASE) :
    PageInv all held { s.setProc p g with phys := m } := by
  have hlive : s.files.state p ≠ .UNUSED := by rw [hp]; nofun
  refine h.move (p := p) rfl rfl (fun q hq => ?_) rfl ?_ h.files fun q hq => ?_
  · simp only [Machine.heldBy, Machine.setProc, if_neg hq]
  · rw [heldBy_live hlive, heldBy_live (s := { s.setProc p g with phys := m }) hlive]
    simp only [Machine.setProc, if_true, hk]
    rw [add_left_comm, hbal, add_left_comm]
  · by_cases he : q = p
    · simp only [Machine.setProc, if_pos he]
      exact ⟨hg, hsz⟩
    · simp only [Machine.setProc, if_neg he]
      exact h.space q hq

theorem sysExec_inv {ip : Option Reader} {path : List UInt8} {argv : List (List UInt8)}
    (h : PageInv all held s) (hp : s.files.state p = .RUNNABLE)
    (hc : sysExec k s p ip path argv = .ok s') : PageInv all held s' := by
  obtain ⟨⟨r, m₁⟩, he, hc⟩ := bind_eq_ok.mp hc
  obtain ⟨hfree, himage⟩ := exec_spec he
  cases r with
  | none =>
      cases hc
      rw [imagePages, Option.map_none, dirPages, add_zero] at hfree
      refine h.pipes rfl rfl rfl rfl h.files ?_
      show m₁.free + s.pipePages = _
      rw [hfree]
  | some image =>
      obtain ⟨m₂, hf, hc⟩ := bind_eq_ok.mp hc
      cases hc
      obtain ⟨hg, hsz⟩ := himage image rfl
      refine h.setSpace hp rfl ?_ hg hsz
      rw [imagePages, Option.map_some, dirPages] at hfree
      rw [freevm_free hf, ← hfree]
      abel

theorem growproc_inv {n : Int} (h : PageInv all held s) (hp : s.files.state p = .RUNNABLE)
    (hc : growproc k s p n = .ok s') : PageInv all held s' := by
  obtain ⟨hguard, hsz⟩ := h.space p (by rw [hp]; nofun)
  have hres : ∀ {sz' : Nat}, sz' < KERNBASE →
      (if sz' = 0 then (s.proc p).sz else sz') < KERNBASE := by
    intro sz' hlt
    split
    · exact hsz
    · exact hlt
  rw [growproc] at hc
  dsimp only at hc
  split at hc
  · obtain ⟨⟨m₁, d₁, sz'⟩, ha, hc⟩ := bind_eq_ok.mp hc
    cases hc
    obtain ⟨hl, hlt⟩ := allocuvm_spec ha
    exact h.setSpace hp rfl hl.pages (hl.guarded hguard) (hres (hlt hsz))
  · split at hc
    · obtain ⟨⟨m₁, d₁, sz'⟩, ha, hc⟩ := bind_eq_ok.mp hc
      cases hc
      obtain ⟨hl, hlt⟩ := deallocuvm_spec (Nat.le_of_lt hsz) ha
      refine h.setSpace hp rfl hl.pages (hl.guarded hguard) (hres ?_)
      rcases hlt with rfl | ⟨rfl, hlt⟩
      · exact hsz
      · exact Nat.lt_trans hlt hsz
    · cases hc
      exact h

/-- `fileclose` does not look at the descriptors. -/
theorem fileclose_setOfile (k : Kernel) (s : Machine) (f : Ftable.Fidx) (p : Slot)
    (fd : Ftable.Fd) (v : Option Ftable.Fidx) :
    fileclose k { s with files := s.files.setOfile p fd v } f =
      (fileclose k s f).map fun s => { s with files := s.files.setOfile p fd v } := by
  simp only [fileclose, Ftable.fileclose_setOfile]
  cases Ftable.fileclose s.files f with
  | none => rfl
  | some fs₁ =>
      show (if (fs₁.pipe (s.files.file f).pipe).freed = (s.files.pipe (s.files.file f).pipe).freed
        then _ else _) = _
      dsimp only
      split
      · rfl
      · show (kfree k s.phys (s.page (s.files.file f).pipe) >>= _) = _
        cases kfree k s.phys (s.page (s.files.file f).pipe) with
        | error e => rfl
        | ok m₁ => rfl

theorem exitLoop_inv {fds : List Ftable.Fd} (h : PageInv all (fun _ => 0) s)
    (hc : exitLoop k s p fds = .ok s') :
    PageInv all (fun _ => 0) s' ∧ s'.proc = s.proc ∧
      Ftable.exitLoop s.files p fds = some s'.files := by
  induction fds generalizing s with
  | nil =>
      cases hc
      exact ⟨h, rfl, rfl⟩
  | cons fd fds ih =>
      rw [exitLoop] at hc
      split at hc
      · next ho =>
          obtain ⟨h1, h2, h3⟩ := ih h hc
          exact ⟨h1, h2, by rw [Ftable.exitLoop, ho]; exact h3⟩
      · next f ho =>
          obtain ⟨s₁, hcl, hc⟩ := bind_eq_ok.mp hc
          -- the descriptor counts as cleared before the file is closed
          have hclear := h.files.clear ho
          have hcl' := fileclose_setOfile k s f p fd none
          rw [hcl] at hcl'
          obtain ⟨h₁, hpr⟩ := fileclose_inv (h.setOfile hclear rfl rfl rfl) hcl'
          obtain ⟨h2, h3, h4⟩ := ih h₁ hc
          refine ⟨h2, h3.trans hpr, ?_⟩
          rw [Ftable.exitLoop, ho]
          simp only [fileclose_files hcl]
          exact h4

theorem exit_inv (h : PageInv all (fun _ => 0) s) (hp : s.files.state p = .RUNNABLE)
    (hc : exit k s p = .ok s') : PageInv all (fun _ => 0) s' := by
  rw [exit] at hc
  split at hc
  · cases hc
  · next hne =>
      obtain ⟨s₁, hl, hc⟩ := bind_eq_ok.mp hc
      cases hc
      obtain ⟨h₁, hpr, hfl⟩ := exitLoop_inv h hl
      obtain ⟨fs, hfs, hset⟩ := Ftable.exit_spec h.files hne
      obtain ⟨fs', hfl', -, hst, -⟩ :=
        Ftable.exitLoop_spec (p := p) (List.nodup_finRange NOFILE) h.files
      simp only [Ftable.exit, if_neg hne, hfl, Option.map_some] at hfs
      cases hfs
      rw [hfl] at hfl'
      cases hfl'
      have hlive : s₁.files.state p ≠ .UNUSED := by rw [hst, hp]; rintro ⟨⟩
      have hstate : ∀ q, (s₁.files.setState p .ZOMBIE).state q = .UNUSED ↔
          s₁.files.state q = .UNUSED := by
        intro q
        simp only [Ftable.Files.setState]
        split
        · next he =>
            subst he
            exact ⟨by rintro ⟨⟩, fun h => absurd h hlive⟩
        · exact Iff.rfl
      have hproc : ∀ q, (if (s₁.proc q).parent = some p then
            { s₁.proc q with parent := some initproc } else s₁.proc q).pgdir = (s₁.proc q).pgdir ∧
          (if (s₁.proc q).parent = some p then
            { s₁.proc q with parent := some initproc } else s₁.proc q).kstack =
              (s₁.proc q).kstack ∧
          (if (s₁.proc q).parent = some p then
            { s₁.proc q with parent := some initproc } else s₁.proc q).sz = (s₁.proc q).sz := by
        intro q
        split <;> exact ⟨rfl, rfl, rfl⟩
      have hheld : ∀ q, Machine.heldBy { s₁ with
          proc := fun q => if (s₁.proc q).parent = some p then
            { s₁.proc q with parent := some initproc } else s₁.proc q
          files := s₁.files.setState p .ZOMBIE } q = s₁.heldBy q := by
        intro q
        obtain ⟨h1, h2, -⟩ := hproc q
        simp only [Machine.heldBy, h1, h2, hstate]
      refine h₁.move (p := p) rfl rfl (fun q _ => hheld q) rfl (by rw [hheld]) hset
        fun q hq => ?_
      have hq : (s₁.files.setState p .ZOMBIE).state q ≠ .UNUSED := hq
      obtain ⟨h1, -, h3⟩ := hproc q
      simp only [h1, h3]
      exact h₁.space q fun he => hq ((hstate q).mpr he)

theorem reap_inv (h : PageInv all (fun _ => 0) s) (hc : reap k s p = .ok s') :
    PageInv all (fun _ => 0) s' := by
  rw [reap] at hc
  split at hc
  · cases hc
    exact h
  · next q hq =>
      obtain ⟨-, hz⟩ : (s.proc q).parent = some p ∧ s.files.state q = .ZOMBIE := by
        simpa using List.find?_some hq
      obtain ⟨m₁, hk, hc⟩ := bind_eq_ok.mp hc
      obtain ⟨m₂, hf, hc⟩ := bind_eq_ok.mp hc
      cases hc
      have hlive : s.files.state q ≠ .UNUSED := by rw [hz]; nofun
      have hset : Ftable.Settled (s.files.setState q .UNUSED) :=
        h.files.setState .UNUSED fun fd => h.files.idle q (by rw [hz]; nofun) fd
      refine h.move (p := q) rfl rfl (fun q' hne => ?_) rfl ?_ hset fun q' hq' => ?_
      · simp only [Machine.heldBy, Machine.setProc, Ftable.Files.setState, if_neg hne]
      · rw [heldBy_live hlive, Machine.heldBy, if_pos]
        · show m₂.free + 0 = _
          rw [freevm_free hf, kfree_free hk]
          abel
        · exact if_pos rfl
      · have hq' : (s.files.setState q .UNUSED).state q' ≠ .UNUSED := hq'
        have hne : q' ≠ q := by
          rintro rfl
          exact hq' (if_pos rfl)
        simp only [Ftable.Files.setState, if_neg hne] at hq'
        simp only [Machine.setProc, if_neg hne]
        exact h.space q' hq'

theorem pageStep_inv {a : Slot × PageCall} (h : PageInv all (fun _ => 0) s)
    (hs : pageStep k s a = some s') : PageInv all (fun _ => 0) s' := by
  obtain ⟨p, c⟩ := a
  rw [pageStep] at hs
  split at hs
  · next hp =>
      have hc : call k s p c = .ok s' := by
        cases hcall : call k s p c with
        | error e =>
            rw [hcall] at hs
            cases hs
        | ok s₁ =>
            rw [hcall] at hs
            cases hs
            rfl
      cases c with
      | fork => exact fork_inv h hp hc
      | exec ip path argv => exact sysExec_inv h hp hc
      | exit => exact exit_inv h hp hc
      | wait => exact reap_inv h hc
      | waitx ptrs =>
          simp only [call, waitx] at hc
          split at hc
          · cases hc
            exact h
          · exact reap_inv h hc
      | sbrk n => exact growproc_inv h hp hc
      | pipe ptr => exact sysPipe_inv h hp hc
      | close fd => exact sysClose_inv h hc
  · cases hs

/-! ## Boot -/

theorem kfreeAll_free {l : List Nat} (h : kfreeAll k m l = .ok m') : m'.free = m.free + l := by
  induction l generalizing m with
  | nil =>
      cases h
      exact (add_zero _).symm
  | cons pg l ih =>
      obtain ⟨m₁, hf, h⟩ := bind_eq_ok.mp h
      rw [ih h, kfree_free hf, ← Multiset.cons_coe, ← Multiset.singleton_add, add_assoc]

theorem startothers_free : ∀ {n : Nat} {m m' : Phys} {l : List Nat},
    startothers n m = .ok (l, m') → m'.free + l = m.free
  | 0, m, m', l, h => by
      cases h
      exact add_zero _
  | n + 1, m, m', l, h => by
      rw [startothers] at h
      split at h
      · cases h
      · next pg m₁ hk =>
          obtain ⟨⟨l₁, m₂⟩, hs, h⟩ := bind_eq_ok.mp h
          cases h
          rw [kalloc_free hk, ← startothers_free hs, ← Multiset.cons_coe,
            ← Multiset.singleton_add]
          abel

/-- The pages `kinit1` and `kinit2` are given. -/
def handed (k : Kernel) : List Nat :=
  rangePages k.endAddr (P2V (4 * 1024 * 1024)) ++
    rangePages (P2V (4 * 1024 * 1024)) (P2V PHYSTOP)

theorem rangePages_nodup (vstart vend : Nat) : (rangePages vstart vend).Nodup := by
  refine List.Nodup.map (fun i j h => ?_) List.nodup_range
  exact Nat.eq_of_mul_eq_mul_right (by decide) (Nat.add_left_cancel h)

theorem mem_rangePages {vstart vend : Nat} (hlo : KERNBASE ≤ vstart)
    (h : pg ∈ rangePages vstart vend) :
    pg % PGSIZE = 0 ∧ vstart ≤ P2V pg ∧ P2V pg + PGSIZE ≤ vend := by
  obtain ⟨i, hi, rfl⟩ := List.mem_map.mp h
  rw [List.mem_range] at hi
  have hlo : 0x80000000 ≤ vstart := hlo
  have hi : i < (vend - (vstart + 4096 - 1) / 4096 * 4096) / 4096 := hi
  show ((vstart + 4096 - 1) / 4096 * 4096 - 0x80000000 + i * 4096) % 4096 = 0 ∧
    vstart ≤ (vstart + 4096 - 1) / 4096 * 4096 - 0x80000000 + i * 4096 + 0x80000000 ∧
    (vstart + 4096 - 1) / 4096 * 4096 - 0x80000000 + i * 4096 + 0x80000000 + 4096 ≤ vend
  omega

theorem Kernel.base_le (k : Kernel) : KERNBASE ≤ k.endAddr :=
  Nat.le_trans (Nat.le_trans (Nat.le_add_right _ _) (Nat.le_of_lt k.text)) k.bss

theorem handed_nodup (k : Kernel) : (handed k).Nodup := by
  rw [handed, List.nodup_append]
  refine ⟨rangePages_nodup _ _, rangePages_nodup _ _, ?_⟩
  rintro a ha b hb rfl
  have h1 := (mem_rangePages k.base_le ha).2.2
  have h2 := (mem_rangePages (by decide) hb).2.1
  have hpos : 0 < PGSIZE := by decide
  omega

theorem rangePages_length (vstart vend : Nat) :
    (rangePages vstart vend).length = (vend - PGROUNDUP vstart) / PGSIZE := by
  rw [rangePages, List.length_map, List.length_range]

theorem booted_owned (m : Phys) (kpgdir : Pgdir) (l : List Nat) (kstack : Nat) (d : Pgdir) :
    (Machine.booted m kpgdir l kstack d).owned = kpgdir.pages + l + ({kstack} + d.pages) := by
  have hheld : ∑ p, (Machine.booted m kpgdir l kstack d).heldBy p = {kstack} + d.pages := by
    rw [Finset.sum_eq_single initproc]
    · exact if_neg nofun
    · exact fun q _ hq => heldBy_unused (if_neg hq)
    · exact fun h => absurd (Finset.mem_univ _) h
  rw [Machine.owned, hheld]
  exact add_zero _

theorem boot_inv {ncpu : Nat} {initcode : List UInt8} (h : boot k ncpu initcode = .ok s) :
    PageInv (handed k) (fun _ => 0) s := by
  obtain ⟨m₁, hk1, h⟩ := bind_eq_ok.mp h
  obtain ⟨⟨r₁, m₂⟩, hs1, h⟩ := bind_eq_ok.mp h
  obtain ⟨hf1, hg1⟩ := setupkvm_free hs1
  cases r₁ with
  | none => cases h
  | some kpgdir =>
      obtain ⟨⟨l, m₃⟩, hso, h⟩ := bind_eq_ok.mp h
      obtain ⟨m₄, hk2, h⟩ := bind_eq_ok.mp h
      dsimp only at h
      split at h
      · cases h
      · next kstack m₅ hka =>
          obtain ⟨⟨r₂, m₆⟩, hs2, h⟩ := bind_eq_ok.mp h
          obtain ⟨hf2, hg2⟩ := setupkvm_free hs2
          cases r₂ with
          | none => cases h
          | some d =>
              obtain ⟨⟨m₇, d'⟩, hi, h⟩ := bind_eq_ok.mp h
              obtain ⟨hguard, hbare⟩ := hg2 d rfl
              have hkinit2 := kfreeAll_free hk2
              rw [dirPages] at hf1 hf2
              -- `kinit2` alone leaves more pages than `userinit` needs
              have hfree : 1 < m₆.freelist.length := by
                have h1 := congrArg Multiset.card hkinit2
                have h2 := kalloc_length hka
                have h3 := congrArg Multiset.card hf2
                have h4 := hbare.card_le
                have h5 : (rangePages (P2V (4 * 1024 * 1024)) (P2V PHYSTOP)).length = 56320 := by
                  rw [rangePages_length]
                  decide
                simp only [Multiset.card_add, card_free, Multiset.coe_card] at h1 h3
                omega
              have hl := inituvm_loaded hfree hi
              cases h
              refine ⟨Ftable.balanced_boot, ?_, (hg1 kpgdir rfl).1, fun p hp => ?_⟩
              · have hkinit1 := kfreeAll_free hk1
                have hstart := startothers_free hso
                have hempty : Phys.free ⟨[], fun _ _ => 0⟩ = 0 := rfl
                rw [hempty, zero_add] at hkinit1
                rw [booted_owned, handed, ← Multiset.coe_add, ← hkinit1, ← hf1, ← hstart]
                show m₇.free + _ = _
                calc m₇.free + (kpgdir.pages + l + ({kstack} + d'.pages))
                    = m₇.free + d'.pages + (kpgdir.pages + l + {kstack}) := by abel
                  _ = m₅.free + {kstack} + (kpgdir.pages + l) := by
                      rw [hl.pages, hf2]
                      abel
                  _ = _ := by
                      rw [← kalloc_free hka, hkinit2]
                      abel
              · have he : p = initproc := by
                  by_contra hne
                  exact hp (if_neg hne)
                subst he
                exact ⟨hl.guarded hguard, show PGSIZE < KERNBASE by decide⟩

theorem kfreeAll_ok {l : List Nat}
    (h : ∀ pg ∈ l, pg % PGSIZE = 0 ∧ k.endAddr ≤ P2V pg ∧ P2V pg + PGSIZE ≤ P2V PHYSTOP) :
    ∃ m', kfreeAll k m l = .ok m' := by
  induction l generalizing m with
  | nil => exact ⟨m, rfl⟩
  | cons pg l ih =>
      obtain ⟨h1, h2, h3⟩ := h pg List.mem_cons_self
      have h3 : pg + 0x80000000 + 4096 ≤ 0xE000000 + 0x80000000 := h3
      have hvalid : ¬ (pg % PGSIZE ≠ 0 ∨ P2V pg < k.endAddr ∨ pg ≥ PHYSTOP) := by
        rintro (hc | hc | hc)
        · exact hc h1
        · omega
        · have hc : 0xE000000 ≤ pg := hc
          omega
      obtain ⟨m', h'⟩ := ih (m := { m.setPage pg fun _ => 1 with
        freelist := pg :: (m.setPage pg fun _ => 1).freelist })
        fun pg' h' => h pg' (List.mem_cons_of_mem _ h')
      refine ⟨m', ?_⟩
      rw [kfreeAll, kfree, if_neg hvalid]
      exact h'

theorem startothers_ok : ∀ {n : Nat} {m : Phys}, n ≤ m.freelist.length →
    ∃ l m', startothers n m = .ok (l, m')
  | 0, m, _ => ⟨[], m, rfl⟩
  | n + 1, m, h => by
      cases hk : kalloc m with
      | none =>
          rw [kalloc_none hk] at h
          cases h
      | some x =>
          obtain ⟨pg, m₁⟩ := x
          obtain ⟨l, m', h'⟩ := startothers_ok (n := n) (m := m₁)
            (by have := kalloc_length hk; omega)
          refine ⟨pg :: l, m', ?_⟩
          rw [startothers, hk]
          simp only [h', ok_bind]

theorem inituvm_ok {init : List UInt8} (hd : d.Bare) (hi : init.length < PGSIZE)
    (h : 0 < m.freelist.length) : ∃ r, inituvm m d init = .ok r := by
  rw [inituvm, if_neg (Nat.not_le.mpr hi)]
  cases hk : kalloc m with
  | none =>
      rw [kalloc_none hk] at h
      cases h
  | some x =>
      obtain ⟨pg, m₁⟩ := x
      obtain ⟨⟨m₂, d₂, b⟩, hm⟩ : ∃ r, mappages m₁ d 0 PGSIZE pg ⟨true, true⟩ = .ok r := by
        rw [mappages_aligned m₁ d (by decide) (by decide) (by decide) (by decide)]
        refine mappagesLoop_ok _ (by decide) (by decide) fun va _ hva => ?_
        have hva : va < 4096 := hva
        have htab : d.tab (PDX va) = none := hd _ ((PDX_lt_iff (by omega)).mpr
          (show va < 0x80000000 by omega))
        rw [Pgdir.pte, htab]
      exact ⟨_, by simp only [hm, ok_bind]; rfl⟩

/-- The kernel boots if `kinit1` finds pages for its page table and the stacks. -/
theorem boot_ok {ncpu : Nat} {initcode : List UInt8}
    (hpages : 514 + ncpu ≤ (rangePages k.endAddr (P2V (4 * 1024 * 1024))).length)
    (hi : initcode.length < PGSIZE) : ∃ s, boot k ncpu initcode = .ok s := by
  have hsplit : KERNBASE ≤ P2V (4 * 1024 * 1024) := by decide
  obtain ⟨m₁, hk1⟩ := kfreeAll_ok (k := k) (m := ⟨[], fun _ _ => 0⟩)
    (l := rangePages k.endAddr (P2V (4 * 1024 * 1024))) fun pg hpg => by
      obtain ⟨h1, h2, h3⟩ := mem_rangePages k.base_le hpg
      exact ⟨h1, h2, Nat.le_trans h3 (by decide)⟩
  have hlen₁ : m₁.freelist.length = (rangePages k.endAddr (P2V (4 * 1024 * 1024))).length := by
    have := congrArg Multiset.card (kfreeAll_free hk1)
    simpa only [Multiset.card_add, card_free, Multiset.coe_card, List.length_nil,
      Nat.zero_add] using this
  obtain ⟨kpgdir, m₂, hs1⟩ := setupkvm_ok (k := k) (m := m₁) (by omega)
  obtain ⟨hf1, hb1⟩ := setupkvm_free hs1
  have hlen₂ : ncpu - 1 ≤ m₂.freelist.length := by
    have h1 := congrArg Multiset.card hf1
    have h2 := (hb1 kpgdir rfl).2.card_le
    simp only [dirPages, Multiset.card_add, card_free] at h1
    omega
  obtain ⟨l, m₃, hso⟩ := startothers_ok hlen₂
  have hend : k.endAddr ≤ P2V (4 * 1024 * 1024) := by
    by_contra hgt
    have hgt := Nat.not_le.mp hgt
    have hup : k.endAddr ≤ PGROUNDUP k.endAddr := by
      show k.endAddr ≤ (k.endAddr + 4096 - 1) / 4096 * 4096
      omega
    rw [rangePages_length, Nat.sub_eq_zero_of_le (by omega), Nat.zero_div] at hpages
    omega
  obtain ⟨m₄, hk2⟩ := kfreeAll_ok (k := k) (m := m₃)
    (l := rangePages (P2V (4 * 1024 * 1024)) (P2V PHYSTOP)) fun pg hpg => by
      obtain ⟨h1, h2, h3⟩ := mem_rangePages hsplit hpg
      exact ⟨h1, Nat.le_trans hend h2, h3⟩
  have hlen₄ : 56320 ≤ m₄.freelist.length := by
    have h1 := congrArg Multiset.card (kfreeAll_free hk2)
    have h2 : (rangePages (P2V (4 * 1024 * 1024)) (P2V PHYSTOP)).length = 56320 := by
      rw [rangePages_length]
      decide
    simp only [Multiset.card_add, card_free, Multiset.coe_card] at h1
    omega
  obtain ⟨kstack, m₅, hka⟩ : ∃ kstack m₅, kalloc m₄ = some (kstack, m₅) := by
    cases hk : kalloc m₄ with
    | none =>
        rw [kalloc_none hk] at hlen₄
        cases hlen₄
    | some x => exact ⟨x.1, x.2, rfl⟩
  have hlen₅ := kalloc_length hka
  obtain ⟨d, m₆, hs2⟩ := setupkvm_ok (k := k) (m := m₅) (by omega)
  obtain ⟨hf2, hb2⟩ := setupkvm_free hs2
  obtain ⟨⟨m₇, d'⟩, hin⟩ := inituvm_ok (m := m₆) (hb2 d rfl).2 hi (by
    have h1 := congrArg Multiset.card hf2
    have h2 := (hb2 d rfl).2.card_le
    simp only [dirPages, Multiset.card_add, card_free] at h1
    omega)
  refine ⟨Machine.booted m₇ kpgdir l kstack d', ?_⟩
  simp only [boot, freerange, hk1, hs1, hso, hk2, hka, hs2, hin, ok_bind]

-- nothing below may count the pages
attribute [irreducible] handed

/-! ## The partition -/

/-- Address `va` of process `p` is on page `pg`, and the user may use it. -/
def Machine.Accessible (s : Machine) (p : Slot) (va pg : Nat) : Prop :=
  s.files.state p ≠ .UNUSED ∧
    ∃ e, (s.proc p).pgdir.pte va = some e ∧ e.perm.u = true ∧ e.pa = pg

theorem accessible_held (h : PageInv all held s) (ha : s.Accessible p va pg) :
    pg ∈ s.heldBy p := by
  obtain ⟨hlive, e, he, hu, rfl⟩ := ha
  have hlt : (PDX va).val < 512 := by
    by_contra hge
    have := (h.space p hlive).1 va (Nat.not_lt.mp hge) e he
    rw [hu] at this
    cases this
  rw [heldBy_live hlive, Multiset.mem_add]
  exact Or.inr (mem_pages he hlt)

end Xv6.Ref.Vm
