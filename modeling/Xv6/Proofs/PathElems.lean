import Xv6.Ref.Namex

/-!
# The elements of a path

`skipelem` is called again and again until the path is used up. What it yields are the
parts between the slashes that are not empty, cut to `DIRSIZ` bytes: how many slashes there
are, and whether they come first or last, makes no difference. The buffer it copies into
says the element, terminated or not, as long as it is read as `strncmp` does.
-/

namespace Xv6.Ref

/-- The maximal non-empty parts without a slash, cut to the first `DIRSIZ` bytes. -/
def elements (path : Path) : List Name :=
  ((path.splitOnP isSlash).filter fun s => !s.isEmpty).map (List.take DIRSIZ)

/-- A slash separates, and does nothing else. -/
theorem elements_slash (a b : Path) : elements (a ++ 47 :: b) = elements a ++ elements b := by
  rw [elements, List.splitOnP_append_cons a b (show isSlash 47 = true from rfl),
    List.filter_append, List.map_append]
  rfl

theorem elements_plain {s : Path} (hs : ∀ c ∈ s, isSlash c = false) (hne : s ≠ []) :
    elements s = [s.take DIRSIZ] := by
  rw [elements, List.splitOnP_eq_singleton hs, List.filter_cons_of_pos (by simpa using hne)]
  rfl

theorem elements_dropWhile (path : Path) : elements (path.dropWhile isSlash) = elements path := by
  induction path with
  | nil => rfl
  | cons c cs ih =>
      rw [List.dropWhile_cons]
      split
      · next hc =>
          have hslash : c = 47 := by simpa [isSlash] using hc
          rw [ih, hslash]
          exact (elements_slash [] cs).symm
      · rfl

/-- The first part, and what comes behind it. -/
theorem elements_append {s rest : Path} (hs : ∀ c ∈ s, isSlash c = false) (hne : s ≠ [])
    (hrest : ∀ c cs, rest = c :: cs → isSlash c = true) :
    elements (s ++ rest) = s.take DIRSIZ :: elements rest := by
  cases rest with
  | nil =>
      rw [List.append_nil, elements_plain hs hne]
      rfl
  | cons c cs =>
      have hslash : c = 47 := by simpa [isSlash] using hrest c cs rfl
      rw [hslash, elements_slash, elements_plain hs hne, ← List.nil_append (47 :: cs),
        elements_slash]
      rfl

theorem elements_eq_nil {path : Path} (hhead : ∀ c cs, path = c :: cs → isSlash c = false)
    (h : elements path = []) : path = [] := by
  cases path with
  | nil => rfl
  | cons c cs =>
      have happ := List.takeWhile_append_dropWhile (p := fun c => !isSlash c) (l := c :: cs)
      rw [← happ, elements_append] at h
      · cases h
      · intro x hx
        simpa using List.mem_takeWhile_imp hx
      · simp [hhead c cs rfl]
      · intro x xs hx
        have hd := List.head?_dropWhile_not (fun c => !isSlash c) (c :: cs)
        rw [hx] at hd
        simpa using hd

namespace Sysfile.Namex

open Xv6.Ref.Inodes (cname)

/-- What a buffer holds behind `skipelem`. -/
theorem cname_buffer {s name : List UInt8} (hs : ∀ c ∈ s, c ≠ 0) (hname : name.length = DIRSIZ) :
    cname (if s.length ≥ DIRSIZ then s.take DIRSIZ ++ name.drop DIRSIZ
      else s ++ 0 :: name.drop (s.length + 1)) = s.take DIRSIZ := by
  have hplain : ∀ l : List UInt8, (∀ c ∈ l, c ≠ 0) → l.takeWhile (· ≠ 0) = l := fun l hl =>
    List.takeWhile_eq_self_iff.mpr fun c hc => by simpa using hl c hc
  split
  · next hlen =>
      rw [cname, List.drop_of_length_le (Nat.le_of_eq hname), List.append_nil, List.take_take,
        Nat.min_self]
      exact hplain _ fun c hc => hs c (List.mem_of_mem_take hc)
  · next hlen =>
      have hlen : s.length < DIRSIZ := Nat.lt_of_not_le hlen
      obtain ⟨k, hk⟩ : ∃ k, DIRSIZ = s.length + (k + 1) := ⟨DIRSIZ - s.length - 1, by omega⟩
      rw [cname, hk, List.take_length_add_append, List.take_succ_cons,
        List.take_of_length_le (by rw [List.length_drop, hname]; omega),
        List.takeWhile_append_of_pos fun c hc => by
          simpa using hs c hc]
      simp

/-- The element that `skipelem` takes off the path. -/
theorem skipelem_spec {path name : List UInt8} (hpath : ∀ c ∈ path, c ≠ 0)
    (hname : name.length = DIRSIZ) :
    (skipelem path name = none ∧ elements path = []) ∨
    ∃ rest name', skipelem path name = some (rest, name') ∧
      elements path = cname name' :: elements rest ∧ name'.length = DIRSIZ ∧
      (rest = [] ↔ elements rest = []) ∧ rest.length < path.length ∧ ∀ c ∈ rest, c ≠ 0 := by
  rw [skipelem, ← elements_dropWhile path]
  have hsub : ∀ c ∈ path.dropWhile isSlash, c ≠ 0 := fun c hc =>
    hpath c ((List.dropWhile_suffix _).subset hc)
  have hle : (path.dropWhile isSlash).length ≤ path.length := (List.dropWhile_suffix _).length_le
  have hhead := List.head?_dropWhile_not isSlash path
  generalize path.dropWhile isSlash = q at *
  cases q with
  | nil => exact Or.inl ⟨rfl, rfl⟩
  | cons c cs =>
      right
      dsimp only
      have hc : isSlash c = false := hhead
      have happ := List.takeWhile_append_dropWhile (p := fun c => !isSlash c) (l := c :: cs)
      have hrest := List.head?_dropWhile_not (fun c => !isSlash c) (c :: cs)
      have hplain : ∀ x ∈ (c :: cs).takeWhile fun c => !isSlash c, isSlash x = false :=
        fun x hx => by simpa using List.mem_takeWhile_imp hx
      have hpos : 0 < ((c :: cs).takeWhile fun c => !isSlash c).length := by simp [hc]
      generalize (c :: cs).takeWhile (fun c => !isSlash c) = s at *
      generalize (c :: cs).dropWhile (fun c => !isSlash c) = r at *
      have hlen : s.length + r.length = (c :: cs).length := by rw [← happ, List.length_append]
      have hdrop : (r.dropWhile isSlash).length ≤ r.length := (List.dropWhile_suffix _).length_le
      have hs : ∀ x ∈ s, x ≠ 0 := fun x hx =>
        hsub x (happ ▸ List.mem_append_left r hx)
      refine ⟨_, _, rfl, ?_, ?_, ⟨fun h => by rw [h]; rfl, fun h => ?_⟩, by omega, fun x hx => ?_⟩
      · rw [cname_buffer hs hname, elements_dropWhile, ← happ]
        refine elements_append hplain (List.length_pos_iff.mp hpos) fun x xs hx => ?_
        rw [hx] at hrest
        simpa using hrest
      · split
        · next hge =>
            rw [List.length_append, List.length_take, List.length_drop, hname]
            omega
        · next hlt =>
            rw [List.length_append, List.length_cons, List.length_drop, hname]
            omega
      · refine elements_eq_nil (fun x xs hx => ?_) h
        have hd := List.head?_dropWhile_not isSlash r
        rw [hx] at hd
        exact hd
      · exact hsub x (happ ▸ List.mem_append_right s ((List.dropWhile_suffix _).subset hx))

/-- The function without a buffer. -/
theorem skipelem_eq (path : Path) {name : List UInt8} (hpath : ∀ c ∈ path, c ≠ 0)
    (hname : name.length = DIRSIZ) :
    Ref.skipelem path = (skipelem path name).map fun x => (cname x.2, x.1) := by
  rw [Ref.skipelem, skipelem]
  have hsub : ∀ c ∈ path.dropWhile isSlash, c ≠ 0 := fun c hc =>
    hpath c ((List.dropWhile_suffix _).subset hc)
  generalize path.dropWhile isSlash = q at *
  cases q with
  | nil => rfl
  | cons c cs =>
      dsimp only [Option.map_some]
      rw [cname_buffer (fun x hx => hsub x (List.takeWhile_subset _ hx)) hname]

end Sysfile.Namex

/-- The calls of `skipelem` yield the elements. -/
theorem elemsOf_eq (fuel : Nat) : ∀ path : Path, (∀ c ∈ path, c ≠ 0) → path.length ≤ fuel →
    elemsOf fuel path = elements path := by
  induction fuel with
  | zero =>
      intro path _ hle
      rw [List.length_eq_zero_iff.mp (Nat.le_zero.mp hle)]
      rfl
  | succ fuel ih =>
      intro path hpath hle
      have hbuf : (List.replicate DIRSIZ (0 : UInt8)).length = DIRSIZ := List.length_replicate
      rw [elemsOf, Sysfile.Namex.skipelem_eq path hpath hbuf]
      rcases Sysfile.Namex.skipelem_spec hpath hbuf with ⟨h, he⟩ | ⟨rest, name, h, he, -, -, hlt, hr⟩
      · rw [h, he]
        rfl
      · rw [h, he]
        exact congrArg _ (ih rest hr (by omega))

theorem elems_eq {path : Path} (hpath : ∀ c ∈ path, c ≠ 0) : elems path = elements path :=
  elemsOf_eq _ path hpath (Nat.le_refl _)

end Xv6.Ref
