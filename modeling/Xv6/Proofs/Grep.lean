import Xv6.Proofs.Memmove
import Xv6.Proofs.Regexp

/-!
# `grep` and the pieces of its input

Between two reads the buffer holds the beginning of a line. A round adds a piece, takes the
whole lines off the front and moves the rest to the front. This goes well if the piece brings
the end of a line; if it does not, the round throws the buffer away.
-/

namespace Xv6.Ref.Grep

open Xv6.Lib

variable {pattern : List UInt8} {b : Mem} {p fuel : Nat} {l r : List UInt8}

/-! ## Lines -/

/-- The lines with their ends. -/
def joined (ls : List (List UInt8)) : List UInt8 := (ls.map (· ++ [nl])).flatten

theorem joined_cons (l : List UInt8) (ls : List (List UInt8)) :
    joined (l :: ls) = l ++ nl :: joined ls := by
  rw [joined, List.map_cons, List.flatten_cons, List.append_assoc]
  rfl

theorem joined_append (ls ls' : List (List UInt8)) :
    joined (ls ++ ls') = joined ls ++ joined ls' := by
  rw [joined, List.map_append, List.flatten_append, joined, joined]

/-- A text is whole lines and the beginning of one. -/
theorem exists_lines (t : List UInt8) :
    ∃ ls r, t = joined ls ++ r ∧ (∀ l ∈ ls, nl ∉ l) ∧ nl ∉ r := by
  induction t with
  | nil => exact ⟨[], [], rfl, nofun, List.not_mem_nil⟩
  | cons c t ih =>
      obtain ⟨ls, r, rfl, hls, hr⟩ := ih
      by_cases hc : c = nl
      · refine ⟨[] :: ls, r, ?_, fun l hl => ?_, hr⟩
        · rw [joined_cons, hc]
          rfl
        · rcases List.mem_cons.mp hl with rfl | hl
          · exact List.not_mem_nil
          · exact hls l hl
      · cases ls with
        | nil =>
            refine ⟨[], c :: r, rfl, nofun, fun h => ?_⟩
            exact (List.mem_cons.mp h).elim (fun he => hc he.symm) hr
        | cons l ls =>
            refine ⟨(c :: l) :: ls, r, ?_, fun l' hl' => ?_, hr⟩
            · rw [joined_cons, joined_cons]
              rfl
            · rcases List.mem_cons.mp hl' with rfl | hl'
              · intro h
                exact (List.mem_cons.mp h).elim (fun he => hc he.symm) (hls l List.mem_cons_self)
              · exact hls l' (List.mem_cons_of_mem _ hl')

/-- The first end of a line is where it is. -/
theorem line_inj {l l' y y' : List UInt8} (hl : nl ∉ l) (hl' : nl ∉ l')
    (h : l ++ nl :: y = l' ++ nl :: y') : l = l' ∧ y = y' := by
  induction l generalizing l' with
  | nil =>
      cases l' with
      | nil => exact ⟨rfl, (List.cons.inj h).2⟩
      | cons c l' => exact absurd ((List.cons.inj h).1 ▸ List.mem_cons_self) hl'
  | cons c l ih =>
      cases l' with
      | nil => exact absurd ((List.cons.inj h).1.symm ▸ List.mem_cons_self) hl
      | cons c' l' =>
          obtain ⟨rfl, htail⟩ := List.cons.inj h
          obtain ⟨rfl, rfl⟩ := ih (fun hm => hl (List.mem_cons_of_mem _ hm))
            (fun hm => hl' (List.mem_cons_of_mem _ hm)) htail
          exact ⟨rfl, rfl⟩

/-- The lines of a beginning are the first lines. -/
theorem lines_of_append (ls : List (List UInt8)) : ∀ {lines : List (List UInt8)} {y : List UInt8},
    joined ls ++ y = joined lines → (∀ l ∈ ls, nl ∉ l) → (∀ l ∈ lines, nl ∉ l) →
    ∃ lines', lines = ls ++ lines' ∧ y = joined lines' := by
  induction ls with
  | nil => exact fun h _ _ => ⟨_, rfl, h⟩
  | cons l ls ih =>
      intro lines y h hls hlines
      cases lines with
      | nil =>
          rw [joined_cons] at h
          exact absurd h (by simp [joined])
      | cons l' lines =>
          rw [joined_cons, joined_cons, List.append_assoc, List.cons_append] at h
          obtain ⟨rfl, htail⟩ :=
            line_inj (hls l List.mem_cons_self) (hlines l' List.mem_cons_self) h
          obtain ⟨lines', rfl, rfl⟩ := ih htail (fun x hx => hls x (List.mem_cons_of_mem _ hx))
            fun x hx => hlines x (List.mem_cons_of_mem _ hx)
          exact ⟨lines', rfl, rfl⟩

/-! ## Strings in the buffer -/

theorem strchr_found (h : loads b p (l.length + 1) = l ++ [nl]) (hl : nl ∉ l) (hz : 0 ∉ l)
    (hf : l.length < fuel) : strchr b nl fuel p = some (p + l.length) := by
  induction l generalizing p fuel with
  | nil =>
      obtain ⟨fuel, rfl⟩ : ∃ f, fuel = f + 1 := ⟨fuel - 1, by omega⟩
      have hp : b p = nl := (List.cons.inj h).1
      rw [strchr, hp, if_neg (by decide), if_pos rfl]
      rfl
  | cons c l ih =>
      obtain ⟨fuel, rfl⟩ : ∃ f, fuel = f + 1 := ⟨fuel - 1, by omega⟩
      obtain ⟨hp, hrest⟩ := List.cons.inj h
      have hp : b p = c := hp
      have hcz : c ≠ 0 := fun he => hz (he ▸ List.mem_cons_self)
      have hcn : c ≠ nl := fun he => hl (he ▸ List.mem_cons_self)
      rw [strchr, hp, if_neg hcz, if_neg hcn,
        ih hrest (fun h => hl (List.mem_cons_of_mem _ h)) (fun h => hz (List.mem_cons_of_mem _ h))
          (by rw [List.length_cons] at hf; omega), List.length_cons]
      congr 1
      omega

theorem strchr_none (h : loads b p (r.length + 1) = r ++ [0]) (hr : nl ∉ r) :
    strchr b nl fuel p = none := by
  induction r generalizing p fuel with
  | nil =>
      cases fuel with
      | zero => rfl
      | succ fuel =>
          have hp : b p = 0 := (List.cons.inj h).1
          rw [strchr, if_pos hp]
  | cons c r ih =>
      cases fuel with
      | zero => rfl
      | succ fuel =>
          obtain ⟨hp, hrest⟩ := List.cons.inj h
          have hp : b p = c := hp
          rw [strchr]
          split
          · rfl
          · have hcn : b p ≠ nl := fun he => hr (hp.symm.trans he ▸ List.mem_cons_self)
            rw [if_neg hcn]
            exact ih hrest fun h => hr (List.mem_cons_of_mem _ h)

theorem cstr_eq (h : loads b p (l.length + 1) = l ++ [0]) (hz : 0 ∉ l) (hf : l.length < fuel) :
    cstr b fuel p = l := by
  induction l generalizing p fuel with
  | nil =>
      obtain ⟨fuel, rfl⟩ : ∃ f, fuel = f + 1 := ⟨fuel - 1, by omega⟩
      have hp : b p = 0 := (List.cons.inj h).1
      rw [cstr, if_pos hp]
  | cons c l ih =>
      obtain ⟨fuel, rfl⟩ : ∃ f, fuel = f + 1 := ⟨fuel - 1, by omega⟩
      obtain ⟨hp, hrest⟩ := List.cons.inj h
      have hp : b p = c := hp
      have hcz : c ≠ 0 := fun he => hz (he ▸ List.mem_cons_self)
      rw [cstr, hp, if_neg hcz,
        ih hrest (fun h => hz (List.mem_cons_of_mem _ h)) (by rw [List.length_cons] at hf; omega)]

/-! ## The inner loop -/

theorem loads_store8_apart {m : Mem} {a k q : Nat} (v : UInt8) (h : q < a ∨ a + k ≤ q) :
    loads (store8 m q v) a k = loads m a k := by
  refine loads_congr fun c h1 h2 => ?_
  rw [store8, if_neg (by omega)]

/-- The bytes of a string with another end. -/
theorem loads_end {m : Mem} {v w : UInt8} (h : loads m p (l.length + 1) = l ++ [w]) :
    loads (store8 m (p + l.length) v) p (l.length + 1) = l ++ [v] := by
  rw [loads_add] at h ⊢
  rw [loads_store8_apart v (Or.inr (Nat.le_refl _)),
    (List.append_inj h (loads_length m p l.length)).1, loads, loads, store8, if_pos rfl]

/-- The lines that the pattern matches are written, and `p` is behind the last line. -/
theorem scanLines_eq (pattern : List UInt8) (ls : List (List UInt8)) :
    ∀ {fuel p : Nat} {b : Mem} {r : List UInt8} (out : List UInt8),
      loads b p ((joined ls).length + (r.length + 1)) = joined ls ++ (r ++ [0]) →
      (∀ l ∈ ls, nl ∉ l ∧ 0 ∉ l) → nl ∉ r → (joined ls).length ≤ 1024 → ls.length < fuel →
      ∃ b', scanLines pattern fuel b p out =
          some (b', p + (joined ls).length, out ++ joined (ls.filter (matchRe pattern))) ∧
        loads b' (p + (joined ls).length) (r.length + 1) = r ++ [0] := by
  induction ls with
  | nil =>
      intro fuel p b r out h _ hr _ hf
      obtain ⟨fuel, rfl⟩ : ∃ f, fuel = f + 1 := ⟨fuel - 1, by omega⟩
      have h : loads b p (r.length + 1) = r ++ [0] := by simpa [joined] using h
      refine ⟨b, ?_, h⟩
      rw [scanLines, strchr_none h hr]
      simp [joined]
  | cons l ls ih =>
      intro fuel p b r out h hls hr hlen hf
      obtain ⟨fuel, rfl⟩ : ∃ f, fuel = f + 1 := ⟨fuel - 1, by omega⟩
      obtain ⟨hlnl, hlz⟩ := hls l List.mem_cons_self
      have hjlen : (joined (l :: ls)).length = l.length + 1 + (joined ls).length := by
        rw [joined_cons, List.length_append, List.length_cons]
        omega
      -- the line and what is behind it
      rw [hjlen, Nat.add_assoc (l.length + 1), loads_add, joined_cons, ← List.singleton_append,
        ← List.append_assoc l, List.append_assoc (l ++ [nl])] at h
      obtain ⟨hline, hrest⟩ := List.append_inj h (by
        rw [loads_length, List.length_append, List.length_singleton])
      have hz := loads_end (v := 0) hline
      have hfound := strchr_found hline hlnl hlz (show l.length < 1024 by omega)
      have hcstr := cstr_eq hz hlz (show l.length < 1024 by omega)
      have hnext : ∀ {b' : Mem} (out' : List UInt8),
          loads b' (p + (l.length + 1)) ((joined ls).length + (r.length + 1)) =
            joined ls ++ (r ++ [0]) →
          ∃ b'', scanLines pattern fuel b' (p + l.length + 1) out' =
              some (b'', p + (joined (l :: ls)).length,
                out' ++ joined (ls.filter (matchRe pattern))) ∧
            loads b'' (p + (joined (l :: ls)).length) (r.length + 1) = r ++ [0] := by
        intro b' out' hb'
        have hf' : ls.length < fuel := by
          rw [List.length_cons] at hf
          omega
        obtain ⟨b'', hscan, hend⟩ := ih out' hb' (fun x hx => hls x (List.mem_cons_of_mem _ hx)) hr
          (by omega) hf'
        rw [Nat.add_assoc p (l.length + 1), ← hjlen] at hscan hend
        exact ⟨b'', hscan, hend⟩
      rw [scanLines, hfound]
      simp only [hcstr]
      by_cases hm : matchRe pattern l = true
      · have hb' : loads (store8 (store8 b (p + l.length) 0) (p + l.length) nl)
            (p + (l.length + 1)) ((joined ls).length + (r.length + 1)) =
              joined ls ++ (r ++ [0]) := by
          rw [loads_store8_apart _ (by omega), loads_store8_apart _ (by omega), hrest]
        obtain ⟨b'', hscan, hend⟩ := hnext (out ++ (l ++ [nl])) hb'
        refine ⟨b'', ?_, hend⟩
        rw [if_pos hm, show p + l.length + 1 - p = l.length + 1 by omega, loads_end hz, hscan,
          List.filter_cons_of_pos hm, joined_cons l (ls.filter (matchRe pattern)),
          List.append_assoc, List.append_assoc]
        rfl
      · have hb' : loads (store8 b (p + l.length) 0) (p + (l.length + 1))
            ((joined ls).length + (r.length + 1)) = joined ls ++ (r ++ [0]) := by
          rw [loads_store8_apart _ (by omega), hrest]
        obtain ⟨b'', hscan, hend⟩ := hnext out hb'
        refine ⟨b'', ?_, hend⟩
        rw [if_neg hm, hscan, List.filter_cons_of_neg hm]

/-! ## Rounds -/

/-- The buffer holds the beginning `r` of a line. -/
def Holds (s : Buffer) (r : List UInt8) : Prop := loads s.buf 0 s.m = r ∧ s.m = r.length

/-- A round that gets the end of a line keeps what is behind the last one. -/
theorem grepRound_eq (pattern : List UInt8) {s : Buffer} {x : List UInt8} {ls : List (List UInt8)} {r' : List UInt8}
    (hs : Holds s r) (hcut : r ++ x = joined ls ++ r') (hls : ∀ l ∈ ls, nl ∉ l ∧ 0 ∉ l)
    (hne : ls ≠ []) (hr' : nl ∉ r') (hroom : s.m + x.length ≤ 1023) :
    ∃ s', grepRound pattern s x = some s' ∧ Holds s' r' ∧
      s'.out = s.out ++ joined (ls.filter (matchRe pattern)) := by
  obtain ⟨hbuf, hm⟩ := hs
  have hlen : s.m + x.length = (joined ls).length + r'.length := by
    rw [hm, ← List.length_append, hcut, List.length_append]
  have hpos : 0 < (joined ls).length := by
    cases ls with
    | nil => exact absurd rfl hne
    | cons l ls =>
        rw [joined_cons, List.length_append, List.length_cons]
        omega
  have hcount : ls.length ≤ (joined ls).length := by
    clear hcut hls hne hlen hpos
    induction ls with
    | nil => exact Nat.zero_le _
    | cons l ls ih =>
        rw [joined_cons, List.length_append, List.length_cons, List.length_cons]
        omega
  have hload : loads (store8 (stores s.buf s.m x) (s.m + x.length) 0) 0
      ((joined ls).length + (r'.length + 1)) = joined ls ++ (r' ++ [0]) := by
    rw [← Nat.add_assoc, ← hlen, loads_add, Nat.zero_add, loads, loads, store8, if_pos rfl,
      loads_add, Nat.zero_add, loads_store8_apart 0 (by omega), loads_store8_apart 0 (by omega),
      loads_stores, loads_congr fun c _ h => stores_below x (by omega), hbuf, hcut,
      List.append_assoc]
  obtain ⟨b', hscan, hend⟩ := scanLines_eq pattern ls s.out hload hls hr' (by omega)
    (show ls.length < 1025 by omega)
  rw [Nat.zero_add] at hscan hend
  have hkept : loads b' (joined ls).length r'.length = r' := by
    rw [loads_add] at hend
    exact (List.append_inj hend (loads_length _ _ _)).1
  refine ⟨⟨Ulib.memmove b' 0 (joined ls).length r'.length, r'.length, _⟩, ?_, ⟨?_, rfl⟩, rfl⟩
  · have hsub : s.m + x.length - (joined ls).length = r'.length := by omega
    simp only [grepRound, hscan, if_neg (Nat.ne_of_gt hpos), hsub]
    rw [if_pos (by omega)]
  · rw [Ulib.memmove, Int.toNat_natCast, Ulib.copyUp_eq (by omega) (by omega) (by omega)]
    have hmoved : ∀ k a, a + k ≤ r'.length →
        loads (Ulib.moved b' 0 (joined ls).length r'.length) a k =
          loads b' ((joined ls).length + a) k := by
      intro k
      induction k with
      | zero => exact fun _ _ => rfl
      | succ k ih =>
          intro a ha
          rw [loads, loads, ih (a + 1) (by omega), Ulib.moved, if_pos (by omega)]
          rfl
    rw [hmoved r'.length 0 (by omega)]
    exact hkept

/-- Each piece is not empty and fits into what is left of the buffer. -/
def delivered (pattern : List UInt8) : Buffer → List (List UInt8) → Bool
  | _, [] => true
  | s, x :: xs => !x.isEmpty && decide (x.length ≤ 1024 - s.m - 1) &&
      match grepRound pattern s x with
      | none => true
      | some s => delivered pattern s xs

theorem grepLoop_eq (pieces : List (List UInt8)) : ∀ {s : Buffer} {r : List UInt8}
    {lines : List (List UInt8)}, Holds s r → nl ∉ r →
    r ++ pieces.flatten = joined lines → (∀ l ∈ lines, nl ∉ l ∧ 0 ∉ l) →
    delivered pattern s pieces = true → (∀ x ∈ pieces, nl ∈ x) →
    (grepLoop pattern pieces s).map Buffer.out =
      some (s.out ++ joined (lines.filter (matchRe pattern))) := by
  induction pieces with
  | nil =>
      intro s r lines hs hr hcat hlines _ _
      cases lines with
      | nil =>
          rw [grepLoop]
          simp [joined]
      | cons l lines =>
          rw [joined_cons, List.flatten_nil, List.append_nil] at hcat
          refine absurd ?_ hr
          rw [hcat]
          exact List.mem_append_right _ List.mem_cons_self
  | cons x xs ih =>
      intro s r lines hs hr hcat hlines hdel hends
      rw [delivered, Bool.and_eq_true, Bool.and_eq_true, decide_eq_true_eq] at hdel
      obtain ⟨⟨hne, hfit⟩, hnext⟩ := hdel
      have hxpos : 0 < x.length := by
        rw [Bool.not_eq_true', List.isEmpty_eq_false_iff] at hne
        exact List.length_pos_iff.mpr hne
      -- the lines that the piece completes
      obtain ⟨ls, r', hcut, hls, hr'⟩ := exists_lines (r ++ x)
      rw [List.flatten_cons, ← List.append_assoc, hcut, List.append_assoc] at hcat
      obtain ⟨lines', rfl, hrest⟩ := lines_of_append ls hcat hls fun l hl => (hlines l hl).1
      have hlsne : ls ≠ [] := by
        rintro rfl
        refine hr' ?_
        rw [show r' = r ++ x from hcut.symm]
        exact List.mem_append_right _ (hends x List.mem_cons_self)
      obtain ⟨s', hround, hs', hout⟩ := grepRound_eq pattern hs hcut
        (fun l hl => hlines l (List.mem_append_left _ hl)) hlsne hr' (by omega)
      rw [hround] at hnext
      rw [grepLoop, if_neg (by omega), hround]
      simp only []
      rw [ih hs' hr' hrest (fun l hl => hlines l (List.mem_append_right _ hl)) hnext
        fun y hy => hends y (List.mem_cons_of_mem _ hy), hout, List.filter_append, joined_append,
        List.append_assoc]

end Xv6.Ref.Grep
