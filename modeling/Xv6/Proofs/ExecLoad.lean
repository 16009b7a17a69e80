import Xv6.Proofs.Built

/-!
# Loading segments and copying out

What `exec` does to the picture it builds. A write of bytes that lie on one page is an
`overlay`; `loaduvm` and `copyout` make one after the other, page by page, and stop at the
first page that cannot be read or is not the user's. Whatever the headers say, the pages a
segment is read into are there, because `allocuvm` has just made or found them: nothing in
the file leads to a panic.
-/

namespace Xv6.Ref.Vm

open Xv6.Lib

variable {k : Kernel} {m m' m₀ : Phys} {d d' : Pgdir} {a pg top va : Nat}
  {perm : Nat → Perm} {img : Nat → UInt8}

/-! ## Writing to the picture -/

/-- `img` with the bytes `bs` from `a` on. -/
def overlay (img : Nat → UInt8) (a : Nat) (bs : List UInt8) (va : Nat) : UInt8 :=
  if a ≤ va ∧ va < a + bs.length then bs.getD (va - a) 0 else img va

theorem overlay_in {bs : List UInt8} (h1 : a ≤ va) (h2 : va < a + bs.length) :
    overlay img a bs va = bs.getD (va - a) 0 := if_pos ⟨h1, h2⟩

theorem overlay_out {bs : List UInt8} (h : va < a ∨ a + bs.length ≤ va) :
    overlay img a bs va = img va := if_neg (by omega)

theorem overlay_nil (img : Nat → UInt8) (a : Nat) : overlay img a [] = img := by
  funext va
  exact overlay_out (by simp; omega)

theorem overlay_append (img : Nat → UInt8) (a : Nat) (bs cs : List UInt8) :
    overlay (overlay img a bs) (a + bs.length) cs = overlay img a (bs ++ cs) := by
  funext va
  have hlen : (bs ++ cs).length = bs.length + cs.length := List.length_append
  rcases Nat.lt_or_ge va (a + bs.length) with hlt | hge
  · rw [overlay_out (Or.inl hlt)]
    rcases Nat.lt_or_ge va a with hlo | hlo
    · rw [overlay_out (Or.inl hlo), overlay_out (Or.inl hlo)]
    · rw [overlay_in hlo hlt, overlay_in hlo (by omega),
        List.getD_append _ _ _ _ (by omega)]
  · rcases Nat.lt_or_ge va (a + bs.length + cs.length) with hin | hout
    · rw [overlay_in hge hin, overlay_in (by omega) (by omega),
        List.getD_append_right _ _ _ _ (by omega)]
      congr 1
      omega
    · rw [overlay_out (Or.inr hout), overlay_out (by omega), overlay_out (by omega)]

theorem pte_samePage (d : Pgdir) {x : Nat} (hpage : x / PGSIZE = va / PGSIZE) :
    d.pte x = d.pte va := by
  have hdown : PGROUNDDOWN x = PGROUNDDOWN va := congrArg (· * PGSIZE) hpage
  rw [← pte_down d x, hdown, pte_down]

/-- Bytes on one page are written. -/
theorem Space.write {pr : Perm} {bs : List UInt8} (h : Space k m d top perm img) (hva : va < top)
    (hp : d.pte va = some ⟨pg, pr⟩) (hfit : va % PGSIZE + bs.length ≤ PGSIZE) :
    Space k (m.write pg (va % PGSIZE) bs) d top perm (overlay img va bs) := by
  refine ⟨h.le, fun x hx => ?_, h.unmapped, h.inj⟩
  obtain ⟨q, hq, hu, hf, hb⟩ := h.mapped x hx
  refine ⟨q, hq, hu, hf, ?_⟩
  have hfit : va % 4096 + bs.length ≤ 4096 := hfit
  show (if q = pg then fun i => if va % PGSIZE ≤ i ∧ i < va % PGSIZE + bs.length then
    bs.getD (i - va % PGSIZE) 0 else m.mem pg i else m.mem q) (x % PGSIZE) = _
  by_cases hpg : q = pg
  · have hpage : x / 4096 = va / 4096 := h.inj x va _ _ hx hva hq hp hpg
    rw [if_pos hpg]
    by_cases hin : va ≤ x ∧ x < va + bs.length
    · have hoff : x % PGSIZE - va % PGSIZE = x - va := by
        show x % 4096 - va % 4096 = x - va
        omega
      rw [overlay_in hin.1 hin.2, if_pos (by
        show va % 4096 ≤ x % 4096 ∧ x % 4096 < va % 4096 + bs.length
        omega), hoff]
    · rw [overlay_out (by omega), ← hb, if_neg (by
        show ¬ (va % 4096 ≤ x % 4096 ∧ x % 4096 < va % 4096 + bs.length)
        omega), hpg]
  · have hpage : x / 4096 ≠ va / 4096 := by
      intro hc
      rw [pte_samePage d hc, hp] at hq
      cases hq
      exact hpg rfl
    rw [if_neg hpg, overlay_out (by omega), hb]

theorem Built.write {pr : Perm} {bs : List UInt8} (h : Built k perm img m₀ top m d)
    (hva : va < top) (hp : d.pte va = some ⟨pg, pr⟩) (hfit : va % PGSIZE + bs.length ≤ PGSIZE) :
    Built k perm (overlay img va bs) m₀ top (m.write pg (va % PGSIZE) bs) d := by
  refine ⟨h.space.write hva hp hfit, h.suffix, h.fresh, fun q hq => ?_, h.kernel, h.pages⟩
  have hne : q ≠ pg := by
    rintro rfl
    exact hq (h.fresh va _ hva hp)
  show (if q = pg then _ else m.mem q) = _
  rw [if_neg hne, h.mem q hq]

/-- A picture is of what can be seen. -/
theorem Built.congr {perm' : Nat → Perm} {img' : Nat → UInt8} (h : Built k perm img m₀ top m d)
    (hperm : ∀ va, va < top → perm' va = perm va) (himg : ∀ va, va < top → img' va = img va) :
    Built k perm' img' m₀ top m d := by
  refine ⟨⟨h.space.le, fun va hva => ?_, h.space.unmapped, h.space.inj⟩, h.suffix, h.fresh, h.mem,
    h.kernel, h.pages⟩
  rw [hperm va hva, himg va hva]
  exact h.space.mapped va hva

/-! ## What a failure leaves behind -/

/-- The directory holds what was taken from the free list of `m₀`. -/
structure Taken (m₀ m : Phys) (d : Pgdir) : Prop where
  pages : m.free + d.pages = m₀.free
  mem : ∀ pg, pg ∉ m₀.freelist → m.mem pg = m₀.mem pg

theorem Built.taken (h : Built k perm img m₀ top m d) : Taken m₀ m d := ⟨h.pages, h.mem⟩

theorem execBad_returned (hpool : Pool k m₀) (h : Taken m₀ m d) :
    ∃ m', execBad k m d = .ok (none, m') ∧ Returned m₀ m' := by
  obtain ⟨m', hf, hr⟩ := freevm_returned hpool h.pages h.mem
  exact ⟨m', by rw [execBad, hf, ok_bind], hr⟩

/-- More memory for the picture, or not. -/
theorem Built.alloc {oldsz newsz : Nat} (h : Built k perm img m₀ (PGROUNDUP oldsz) m d)
    (hpool : Pool k m₀) (hle : oldsz ≤ newsz) (hsz : newsz < KERNBASE) :
    ∃ m' d' r, allocuvm k m d oldsz newsz = .ok (m', d', r) ∧
      (r = newsz ∧ Built k (upTo (PGROUNDUP oldsz) perm ⟨true, true⟩)
          (upTo (PGROUNDUP oldsz) img 0) m₀ (PGROUNDUP newsz) m' d' ∨
        r = 0 ∧ Taken m₀ m' d') := by
  have hpool' := hpool.suffix h.suffix
  obtain ⟨m', d', r, ha, hr⟩ := allocuvm_exact hpool' hle hsz h.space.unmapped
  have hpages : m'.free + d'.pages = m₀.free := (allocuvm_spec ha).1.pages.trans h.pages
  have htop := PGROUNDUP_le (Nat.le_of_lt hsz)
  refine ⟨m', d', r, ha, ?_⟩
  rcases hr with ⟨rfl, hx⟩ | ⟨rfl, hu⟩
  · refine Or.inl ⟨rfl, h.space.extended hpool' hx (PGROUNDUP_mono hle) htop,
      hx.suffix.trans h.suffix, fun va e hva he => ?_, fun pg hpg => ?_, fun va h1 h2 => ?_, hpages⟩
    · rcases Nat.lt_or_ge va (PGROUNDUP oldsz) with hlo | hlo
      · rw [hx.outside va (lt_of_user (Nat.lt_of_lt_of_le hva htop)) (Or.inl hlo)] at he
        exact h.fresh va e hlo he
      · obtain ⟨pg, hp, hin, -⟩ := hx.inside va hlo hva
        rw [hp] at he
        cases he
        exact h.suffix.subset hin
    · rw [hx.mem pg fun hin => hpg (h.suffix.subset hin), h.mem pg hpg]
    · rw [hx.outside va h2 (Or.inr (Nat.le_trans htop h1)), h.kernel va h1 h2]
  · refine Or.inr ⟨rfl, hpages, fun pg hpg => ?_⟩
    rw [hu.mem pg fun hin => hpg (h.suffix.subset hin), h.mem pg hpg]

/-! ## `loaduvm` -/

/-- The byte at `j` of a segment that is read from the file page by page. -/
def segByte (rd : Reader) (offset sz j : Nat) : UInt8 :=
  ((readAll rd ((offset + j / PGSIZE * PGSIZE) % 2 ^ 32)
    (min PGSIZE (sz - j / PGSIZE * PGSIZE))).getD []).getD (j % PGSIZE) 0

theorem readAll_length {rd : Reader} {off n : Nat} {bs : List UInt8}
    (h : readAll rd off n = some bs) : bs.length = n := by
  rw [readAll] at h
  split at h
  · cases h
  · split at h
    · next hlen =>
        cases h
        exact hlen
    · cases h

/-- The pages up to the end are read, or up to one that cannot be. -/
theorem loaduvmLoop_built (rd : Reader) {addr sz : Nat} (offset : Nat) (haddr : addr % PGSIZE = 0)
    (htop : addr + sz ≤ top) (n : Nat) : ∀ {m : Phys} {i : Nat} {img : Nat → UInt8},
      Built k perm img m₀ top m d → i % PGSIZE = 0 → sz ≤ i + n * PGSIZE →
      ∃ m' b img', loaduvmLoop d rd addr offset sz n m i = .ok (m', b) ∧
        Built k perm img' m₀ top m' d ∧
        (∀ va, va < addr + i ∨ addr + sz ≤ va → img' va = img va) ∧
        (b = true → (∀ j, i ≤ j → j < sz → img' (addr + j) = segByte rd offset sz j) ∧
          ∀ j, i ≤ j → j < sz → (readAll rd ((offset + j / PGSIZE * PGSIZE) % 2 ^ 32)
            (min PGSIZE (sz - j / PGSIZE * PGSIZE))).isSome) := by
  induction n with
  | zero =>
      intro m i img h _ hfuel
      rw [Nat.zero_mul, Nat.add_zero] at hfuel
      exact ⟨m, true, img, rfl, h, fun _ _ => rfl, fun _ => ⟨fun j h1 h2 => by omega,
        fun j h1 h2 => by omega⟩⟩
  | succ n ih =>
      intro m i img h hal hfuel
      rw [loaduvmLoop]
      split
      · next hlt =>
          have hal' : i % 4096 = 0 := hal
          have haddr' : addr % 4096 = 0 := haddr
          have hva : addr + i < top := by omega
          obtain ⟨pg, hp, -⟩ := h.space.mapped (addr + i) hva
          obtain ⟨t, ht⟩ := Option.ne_none_iff_exists'.mp (tab_of_pte hp)
          have hmin : (if sz - i < PGSIZE then sz - i else PGSIZE) = min PGSIZE (sz - i) := by
            show (if sz - i < 4096 then sz - i else 4096) = min 4096 (sz - i)
            split <;> omega
          simp only [ht, hp, Option.map_some, Option.getD_some, hmin]
          cases hr : readAll rd ((offset + i) % 2 ^ 32) (min PGSIZE (sz - i)) with
          | none => exact ⟨m, false, img, rfl, h, fun _ _ => rfl, by rintro ⟨⟩⟩
          | some bs =>
              have hlen := readAll_length hr
              have hlen' : bs.length = min 4096 (sz - i) := hlen
              have hoff : (addr + i) % PGSIZE = 0 := by
                show (addr + i) % 4096 = 0
                omega
              have hw := h.write hva hp (show (addr + i) % 4096 + bs.length ≤ 4096 by omega)
              rw [hoff] at hw
              obtain ⟨m', b, img', hl, hb, hout, hin⟩ := ih (i := i + PGSIZE) hw (by
                  show (i + 4096) % 4096 = 0
                  omega) (by
                  have hfuel : sz ≤ i + (n + 1) * 4096 := hfuel
                  show sz ≤ i + 4096 + n * 4096
                  omega)
              have hout : ∀ va, va < addr + (i + 4096) ∨ addr + sz ≤ va →
                img' va = overlay img (addr + i) bs va := hout
              refine ⟨m', b, img', hl, hb, fun va hva => ?_, fun htrue => ?_⟩
              · rw [hout va (by omega), overlay_out (by omega)]
              · obtain ⟨hbytes, hread⟩ := hin htrue
                -- the addresses of this page are read at its first
                have hpage : ∀ j, i ≤ j → j < i + 4096 → j / PGSIZE * PGSIZE = i := by
                  intro j h1 h2
                  show j / 4096 * 4096 = i
                  omega
                refine ⟨fun j h1 h2 => ?_, fun j h1 h2 => ?_⟩
                · rcases Nat.lt_or_ge j (i + 4096) with hj | hj
                  · have hmod : j % PGSIZE = addr + j - (addr + i) := by
                      show j % 4096 = _
                      omega
                    rw [hout (addr + j) (by omega), overlay_in (by omega) (by omega), segByte,
                      hpage j h1 hj, hr, Option.getD_some, hmod]
                  · exact hbytes j hj h2
                · rcases Nat.lt_or_ge j (i + 4096) with hj | hj
                  · rw [hpage j h1 hj, hr]
                    rfl
                  · exact hread j hj h2
      · next hge =>
          exact ⟨m, true, img, rfl, h, fun _ _ => rfl, fun _ => ⟨fun j h1 h2 => by omega,
            fun j h1 h2 => by omega⟩⟩

/-- `img` with a segment's bytes in place. -/
def loaded (rd : Reader) (img : Nat → UInt8) (ph : Proghdr) (va : Nat) : UInt8 :=
  if ph.vaddr ≤ va ∧ va < ph.vaddr + ph.filesz then segByte rd ph.off ph.filesz (va - ph.vaddr)
  else img va

/-- Every page of a segment can be read. -/
def Readable (rd : Reader) (offset sz : Nat) : Prop :=
  ∀ j, j < sz → (readAll rd ((offset + j / PGSIZE * PGSIZE) % 2 ^ 32)
    (min PGSIZE (sz - j / PGSIZE * PGSIZE))).isSome

theorem loaduvm_built (rd : Reader) {ph : Proghdr} (h : Built k perm img m₀ top m d)
    (haddr : ph.vaddr % PGSIZE = 0) (htop : ph.vaddr + ph.filesz ≤ top) :
    ∃ m' b, loaduvm m d ph.vaddr rd ph.off ph.filesz = .ok (m', b) ∧ Taken m₀ m' d ∧
      (b = true → Built k perm (loaded rd img ph) m₀ top m' d ∧ Readable rd ph.off ph.filesz) := by
  obtain ⟨m', b, img', hl, hb, hout, hin⟩ := loaduvmLoop_built rd ph.off haddr htop
    (ph.filesz / PGSIZE + 1) h (Nat.zero_mod _) (by
      show ph.filesz ≤ 0 + (ph.filesz / 4096 + 1) * 4096
      omega)
  refine ⟨m', b, by rw [loaduvm, if_neg (by simp [haddr]), hl], hb.taken, fun htrue => ?_⟩
  obtain ⟨hbytes, hread⟩ := hin htrue
  refine ⟨hb.congr (fun _ _ => rfl) fun va _ => ?_, fun j hj => hread j (Nat.zero_le _) hj⟩
  rw [loaded]
  split
  · next hva =>
      have hj : ph.vaddr + (va - ph.vaddr) = va := by omega
      rw [← hbytes (va - ph.vaddr) (Nat.zero_le _) (by omega), hj]
  · next hva => rw [hout va (by omega)]

/-! ## The program headers -/

/-- The program headers, if they can all be read. -/
def headers (rd : Reader) : Nat → Nat → Option (List Proghdr)
  | 0, _ => some []
  | n + 1, off =>
      match readAll rd off proghdrSize with
      | none => none
      | some bs => (headers rd n ((off + proghdrSize) % 2 ^ 32)).map (Proghdr.ofBytes bs :: ·)

/-- The segments among them. -/
def segments (phs : List Proghdr) : List Proghdr := phs.filter fun ph => ph.type = ELF_PROG_LOAD

/-- What `exec` checks of a segment. -/
structure Proghdr.Checked (rd : Reader) (ph : Proghdr) : Prop where
  filesz : ph.filesz ≤ ph.memsz
  top : ph.vaddr + ph.memsz < KERNBASE
  aligned : ph.vaddr % PGSIZE = 0
  readable : Readable rd ph.off ph.filesz

/-- Size and bytes of the picture when a segment has been loaded. -/
def place (rd : Reader) (x : Nat × (Nat → UInt8)) (ph : Proghdr) : Nat × (Nat → UInt8) :=
  (max x.1 (ph.vaddr + ph.memsz), loaded rd (upTo (PGROUNDUP x.1) x.2 0) ph)

/-- Everything is writable and the user's. -/
def allPerm (_ : Nat) : Perm := ⟨true, true⟩

theorem upTo_allPerm (lo : Nat) : upTo lo allPerm ⟨true, true⟩ = allPerm := by
  funext va
  rw [upTo]
  split <;> rfl

theorem word_lt (bs : List UInt8) (o : Nat) : word bs o < 2 ^ 32 := by
  have hb : ∀ i, (bs.getD i 0).toNat < 2 ^ 8 := fun i => (bs.getD i 0).toNat_lt
  have h0 := hb o
  have h1 := hb (o + 1)
  have h2 := hb (o + 2)
  have h3 := hb (o + 2 + 1)
  show _ + _ * 2 ^ 8 + (_ + _ * 2 ^ 8) * 2 ^ 16 < 2 ^ 32
  omega

/-- One segment: the memory is there when the bytes are read. -/
theorem segment_alloc (ph : Proghdr) {sz : Nat} (hpool : Pool k m₀)
    (h : Built k allPerm img m₀ (PGROUNDUP sz) m d) (hsz : sz < KERNBASE) :
    ∃ m' d' r, allocuvm k m d sz (ph.vaddr + ph.memsz) = .ok (m', d', r) ∧
      (r = 0 ∧ Taken m₀ m' d' ∨ r = max sz (ph.vaddr + ph.memsz) ∧ r < KERNBASE ∧
        Built k allPerm (upTo (PGROUNDUP sz) img 0) m₀ (PGROUNDUP r) m' d') := by
  rcases Nat.lt_or_ge (ph.vaddr + ph.memsz) KERNBASE with hlt | hge
  · rcases Nat.lt_or_ge (ph.vaddr + ph.memsz) sz with hless | hle
    · refine ⟨m, d, sz, ?_, Or.inr ⟨(Nat.max_eq_left (Nat.le_of_lt hless)).symm, hsz, ?_⟩⟩
      · rw [allocuvm, if_neg (Nat.not_le.mpr hlt), if_pos hless]
      · exact h.congr (fun _ _ => rfl) fun va hva => upTo_lt hva
    · obtain ⟨m', d', r, ha, hr⟩ := h.alloc hpool hle hlt
      refine ⟨m', d', r, ha, hr.symm.imp_right ?_⟩
      rintro ⟨hr, hb⟩
      rw [upTo_allPerm] at hb
      subst hr
      exact ⟨(Nat.max_eq_right hle).symm, hlt, hb⟩
  · exact ⟨m, d, 0, by rw [allocuvm, if_pos hge], Or.inl ⟨rfl, h.taken⟩⟩

theorem loadSegments_built (rd : Reader) (hpool : Pool k m₀) (n : Nat) :
    ∀ (off : Nat) {sz : Nat} {m : Phys} {d : Pgdir} {img : Nat → UInt8},
      Built k allPerm img m₀ (PGROUNDUP sz) m d → sz < KERNBASE →
      ∃ m' d' r, loadSegments k rd n off m d sz = .ok (m', d', r) ∧ Taken m₀ m' d' ∧
        ∀ sz', r = some sz' → sz' < KERNBASE ∧ ∃ phs, headers rd n off = some phs ∧
          (∀ ph ∈ segments phs, ph.Checked rd) ∧ sz' = ((segments phs).foldl (place rd) (sz, img)).1 ∧
          Built k allPerm ((segments phs).foldl (place rd) (sz, img)).2 m₀ (PGROUNDUP sz') m' d' := by
  induction n with
  | zero =>
      intro off sz m d img h hsz
      refine ⟨m, d, some sz, rfl, h.taken, ?_⟩
      rintro _ ⟨⟩
      exact ⟨hsz, [], rfl, by rintro _ ⟨⟩, rfl, h⟩
  | succ n ih =>
      intro off sz m d img h hsz
      rw [loadSegments, headers]
      cases hr : readAll rd off proghdrSize with
      | none => exact ⟨m, d, none, rfl, h.taken, by rintro _ ⟨⟩⟩
      | some bs =>
          dsimp only
          generalize hph : Proghdr.ofBytes bs = ph
          have hlt32 : ph.vaddr < 2 ^ 32 ∧ ph.memsz < 2 ^ 32 := by
            rw [← hph]
            exact ⟨word_lt bs 8, word_lt bs 20⟩
          by_cases htype : ph.type = ELF_PROG_LOAD
          · rw [if_neg (by simp [htype])]
            by_cases hmem : ph.memsz < ph.filesz
            · rw [if_pos hmem]
              exact ⟨m, d, none, rfl, h.taken, by rintro _ ⟨⟩⟩
            rw [if_neg hmem]
            by_cases hwrap : (ph.vaddr + ph.memsz) % 2 ^ 32 < ph.vaddr
            · rw [if_pos hwrap]
              exact ⟨m, d, none, rfl, h.taken, by rintro _ ⟨⟩⟩
            rw [if_neg hwrap]
            have hnowrap : (ph.vaddr + ph.memsz) % 2 ^ 32 = ph.vaddr + ph.memsz := by omega
            obtain ⟨m₁, d₁, r₁, ha, hr₁⟩ := segment_alloc ph hpool h hsz
            simp only [hnowrap, ha, ok_bind]
            rcases hr₁ with ⟨rfl, ht⟩ | ⟨hr₁, hr₁lt, hb₁⟩
            · exact ⟨m₁, d₁, none, rfl, ht, by rintro _ ⟨⟩⟩
            by_cases hzero : r₁ = 0
            · rw [if_pos hzero]
              exact ⟨m₁, d₁, none, rfl, hb₁.taken, by rintro _ ⟨⟩⟩
            rw [if_neg hzero]
            by_cases hal : ph.vaddr % PGSIZE = 0
            · rw [if_neg (by simp [hal])]
              obtain ⟨m₂, b, hl, ht, hb₂⟩ := loaduvm_built rd hb₁ hal (by
                refine Nat.le_trans ?_ (le_PGROUNDUP r₁)
                omega)
              simp only [hl, ok_bind]
              cases b with
              | false => exact ⟨m₂, d₁, none, rfl, ht, by rintro _ ⟨⟩⟩
              | true =>
                  obtain ⟨hb₂, hread⟩ := hb₂ rfl
                  obtain ⟨m', d', r, hload, ht', hres⟩ := ih ((off + proghdrSize) % 2 ^ 32) hb₂
                    hr₁lt
                  refine ⟨m', d', r, hload, ht', fun sz' hsz' => ?_⟩
                  obtain ⟨hlt', phs, hphs, hchk, hsz', hb'⟩ := hres sz' hsz'
                  have hseg : segments (ph :: phs) = ph :: segments phs := by
                    rw [segments, List.filter_cons_of_pos (by simp [htype])]
                    rfl
                  refine ⟨hlt', ph :: phs, by rw [hphs]; rfl, fun x hx => ?_, ?_, ?_⟩
                  · rw [hseg, List.mem_cons] at hx
                    rcases hx with rfl | hx
                    · exact ⟨by omega, by omega, hal, hread⟩
                    · exact hchk x hx
                  · rw [hseg, List.foldl_cons, place, ← hr₁]
                    exact hsz'
                  · rw [hseg, List.foldl_cons, place, ← hr₁]
                    exact hb'
            · rw [if_pos hal]
              exact ⟨m₁, d₁, none, rfl, hb₁.taken, by rintro _ ⟨⟩⟩
          · rw [if_pos htype]
            obtain ⟨m', d', r, hload, ht', hres⟩ := ih ((off + proghdrSize) % 2 ^ 32) h hsz
            refine ⟨m', d', r, hload, ht', fun sz' hsz' => ?_⟩
            obtain ⟨hlt', phs, hphs, hrest⟩ := hres sz' hsz'
            have hseg : segments (ph :: phs) = segments phs := by
              rw [segments, List.filter_cons_of_neg (by simp [htype])]
              rfl
            exact ⟨hlt', ph :: phs, by rw [hphs]; rfl, by rw [hseg]; exact hrest⟩

/-! ## `copyout` -/

/-- Bytes are copied to where the user may write, page by page; the copy stops at the first
page that is not the user's. -/
theorem copyoutLoop_built (htop : top % PGSIZE = 0) (n : Nat) :
    ∀ {m : Phys} {va : Nat} {buf : List UInt8} {img : Nat → UInt8}, Built k perm img m₀ top m d →
      va + buf.length ≤ top → buf.length ≤ n →
      ∃ m' b, copyoutLoop d n m va buf = .ok (m', b) ∧ Taken m₀ m' d ∧
        (b = true → Built k perm (overlay img va buf) m₀ top m' d ∧
          ∀ x, va ≤ x → x < va + buf.length → (perm x).u = true) := by
  induction n with
  | zero =>
      intro m va buf img h _ hn
      obtain rfl : buf = [] := List.length_eq_zero_iff.mp (Nat.le_zero.mp hn)
      refine ⟨m, true, rfl, h.taken, fun _ => ⟨?_, fun x h1 h2 => by simp at h2; omega⟩⟩
      rw [overlay_nil]
      exact h
  | succ n ih =>
      intro m va buf img h hle hn
      rw [copyoutLoop]
      split
      · next hpos =>
          have htop' : top % 4096 = 0 := htop
          have hva : va < top := by omega
          have hdown : PGROUNDDOWN va = va / 4096 * 4096 := rfl
          obtain ⟨pg, hp, -⟩ := h.space.mapped va hva
          have hp0 : d.pte (PGROUNDDOWN va) = some ⟨pg, perm va⟩ := by rw [pte_down, hp]
          obtain ⟨t, ht⟩ := Option.ne_none_iff_exists'.mp (tab_of_pte hp0)
          have hsame : ∀ x, x < top → x / PGSIZE = va / PGSIZE → perm x = perm va := by
            intro x hx hpage
            obtain ⟨q, hq, -⟩ := h.space.mapped x hx
            rw [pte_samePage d hpage, hp] at hq
            exact (Pte.mk.inj (Option.some.inj hq)).2.symm
          simp only [uva2ka, ht, hp0]
          by_cases hu : (perm va).u = false
          · rw [if_pos hu]
            exact ⟨m, false, rfl, h.taken, by rintro ⟨⟩⟩
          rw [if_neg hu]
          simp only [ok_bind]
          have hoff : va - PGROUNDDOWN va = va % PGSIZE := by
            show va - va / 4096 * 4096 = va % 4096
            omega
          have hnext : (PGROUNDDOWN va + PGSIZE) % 2 ^ 32 = PGROUNDDOWN va + PGSIZE := by
            have hk : top ≤ 0x80000000 := h.space.le
            show (va / 4096 * 4096 + 4096) % 2 ^ 32 = va / 4096 * 4096 + 4096
            omega
          rw [hoff, hnext]
          generalize hc : min (PGSIZE - va % PGSIZE) buf.length = c
          have hc' : c = min (4096 - va % 4096) buf.length := hc.symm
          have hlen : (buf.take c).length = c := by
            rw [List.length_take]
            omega
          have hlen' : (buf.drop c).length = buf.length - c := List.length_drop
          have hw := h.write hva hp (show va % PGSIZE + (buf.take c).length ≤ PGSIZE by
            rw [hlen]
            show va % 4096 + c ≤ 4096
            omega)
          have hend : PGROUNDDOWN va + PGSIZE + (buf.drop c).length ≤ top := by
            rw [hlen']
            show va / 4096 * 4096 + 4096 + (buf.length - c) ≤ top
            omega
          obtain ⟨m', b, hl, ht', hb⟩ := ih hw hend (by rw [hlen']; omega)
          refine ⟨m', b, hl, ht', fun htrue => ?_⟩
          obtain ⟨hb, hperm⟩ := hb htrue
          have hperm : ∀ x, va / 4096 * 4096 + 4096 ≤ x →
              x < va / 4096 * 4096 + 4096 + (buf.drop c).length → (perm x).u = true := hperm
          -- a copy that goes on does so where this page ends
          have hover : overlay (overlay img va (buf.take c)) (PGROUNDDOWN va + PGSIZE)
              (buf.drop c) = overlay img va buf := by
            rcases Nat.lt_or_ge c buf.length with hmore | hdone
            · have hend : PGROUNDDOWN va + PGSIZE = va + (buf.take c).length := by
                rw [hlen]
                show va / 4096 * 4096 + 4096 = va + c
                omega
              rw [hend, overlay_append, List.take_append_drop]
            · rw [List.drop_of_length_le hdone, overlay_nil, List.take_of_length_le hdone]
          refine ⟨hover ▸ hb, fun x h1 h2 => ?_⟩
          · rcases Nat.lt_or_ge x (va / 4096 * 4096 + 4096) with hx | hx
            · rw [hsame x (by omega) (by show x / 4096 = va / 4096; omega)]
              exact Bool.eq_true_of_not_eq_false hu
            · exact hperm x hx (by rw [hlen']; omega)
      · next hpos =>
          obtain rfl : buf = [] := List.length_eq_zero_iff.mp (by omega)
          refine ⟨m, true, rfl, h.taken, fun _ => ⟨?_, fun x h1 h2 => by simp at h2; omega⟩⟩
          rw [overlay_nil]
          exact h

theorem copyout_built {buf : List UInt8} (htop : top % PGSIZE = 0)
    (h : Built k perm img m₀ top m d) (hle : va + buf.length ≤ top) :
    ∃ m' b, copyout m d va buf = .ok (m', b) ∧ Taken m₀ m' d ∧
      (b = true → Built k perm (overlay img va buf) m₀ top m' d ∧
        ∀ x, va ≤ x → x < va + buf.length → (perm x).u = true) :=
  copyoutLoop_built htop buf.length h hle (Nat.le_refl _)

end Xv6.Ref.Vm
