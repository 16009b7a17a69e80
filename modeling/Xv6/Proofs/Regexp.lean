import Xv6.Ref.Grep

/-!
# The language of a pattern

A pattern is read into elements: one character, or any number of a character. Its language is
the product of the languages of the elements. What remains is where in the text the word may
stand: at the beginning if the pattern begins with `^`, at the end if it ends with `$`.
-/

namespace Xv6.Ref.Grep

open Computability

/-! ## Patterns -/

inductive Elem where
  | one (c : UInt8)
  | many (c : UInt8)

/-- The pattern character `c` stands for `t`. -/
def Fits (c t : UInt8) : Prop := c = '.'.toUInt8 ∨ c = t

/-- The words of one character. -/
def charLang (c : UInt8) : Language UInt8 := {w | ∃ t, w = [t] ∧ Fits c t}

def Elem.lang : Elem → Language UInt8
  | .one c => charLang c
  | .many c => (charLang c)∗

/-- The elements of a pattern without `^`, and whether it has the `$` for the end of the
text. -/
def elems : List UInt8 → List Elem × Bool
  | [] => ([], false)
  | [c] => if c = '$'.toUInt8 then ([], true) else ([.one c], false)
  | c :: d :: re =>
      if d = '*'.toUInt8 then (.many c :: (elems re).1, (elems re).2)
      else (.one c :: (elems (d :: re)).1, (elems (d :: re)).2)

def lang (re : List UInt8) : Language UInt8 := ((elems re).1.map Elem.lang).prod

theorem mem_many {c : UInt8} {w : List UInt8} :
    w ∈ (Elem.many c).lang ↔ ∀ t ∈ w, Fits c t := by
  rw [Elem.lang, Language.mem_kstar]
  constructor
  · rintro ⟨ws, rfl, hws⟩ t ht
    obtain ⟨y, hy, hty⟩ := List.mem_flatten.mp ht
    obtain ⟨t', rfl, hfit⟩ := hws y hy
    exact List.mem_singleton.mp hty ▸ hfit
  · intro h
    refine ⟨w.map fun t => [t], ?_, fun y hy => ?_⟩
    · induction w with
      | nil => rfl
      | cons t w ih => rw [List.map_cons, List.flatten_cons, ← ih fun x hx =>
          h x (List.mem_cons_of_mem _ hx)]; rfl
    · obtain ⟨t, ht, rfl⟩ := List.mem_map.mp hy
      exact ⟨t, rfl, h t ht⟩

/-! ## The loops -/

/-- A word of the pattern is at the beginning of the text; `L` and `eot` are its language and
whether it is bound to the end. -/
def Begins (L : Language UInt8) (eot : Bool) (text : List UInt8) : Prop :=
  ∃ w v, text = w ++ v ∧ w ∈ L ∧ (eot = true → v = [])

theorem begins_mul {K L : Language UInt8} {eot : Bool} {text : List UInt8} :
    Begins (K * L) eot text ↔ ∃ u v, text = u ++ v ∧ u ∈ K ∧ Begins L eot v := by
  constructor
  · rintro ⟨w, v, rfl, hw, heot⟩
    obtain ⟨a, ha, b, hb, rfl⟩ := Language.mem_mul.mp hw
    exact ⟨a, b ++ v, List.append_assoc .., ha, b, v, rfl, hb, heot⟩
  · rintro ⟨u, v, rfl, hu, w, v', rfl, hw, heot⟩
    exact ⟨u ++ w, v', (List.append_assoc ..).symm, Language.append_mem_mul hu hw, heot⟩

theorem matchone_iff {c : UInt8} {here : List UInt8 → Bool} {text : List UInt8} :
    matchone c here text = true ↔
      ∃ u v, text = u ++ v ∧ u ∈ (Elem.one c).lang ∧ here v = true := by
  constructor
  · intro h
    cases text with
    | nil => cases h
    | cons t text =>
        rw [matchone, Bool.and_eq_true, Bool.or_eq_true, beq_iff_eq, beq_iff_eq] at h
        exact ⟨[t], text, rfl, ⟨t, rfl, h.1⟩, h.2⟩
  · rintro ⟨u, v, rfl, ⟨t, rfl, hfit⟩, hv⟩
    show matchone c here (t :: v) = true
    rw [matchone, Bool.and_eq_true, Bool.or_eq_true, beq_iff_eq, beq_iff_eq]
    exact ⟨hfit, hv⟩

theorem starLoop_iff {c : UInt8} {here : List UInt8 → Bool} {text : List UInt8} :
    starLoop here c text = true ↔
      ∃ u v, text = u ++ v ∧ u ∈ (Elem.many c).lang ∧ here v = true := by
  simp only [mem_many]
  induction text with
  | nil =>
      rw [starLoop]
      constructor
      · exact fun h => ⟨[], [], rfl, nofun, h⟩
      · rintro ⟨u, v, huv, -, hv⟩
        obtain ⟨rfl, rfl⟩ := List.append_eq_nil_iff.mp huv.symm
        exact hv
  | cons t text ih =>
      rw [starLoop, Bool.or_eq_true, Bool.and_eq_true, Bool.or_eq_true, beq_iff_eq, beq_iff_eq, ih]
      constructor
      · rintro (h | ⟨hfit, u, v, rfl, hu, hv⟩)
        · exact ⟨[], t :: text, rfl, nofun, h⟩
        · refine ⟨t :: u, v, rfl, fun x hx => ?_, hv⟩
          rcases List.mem_cons.mp hx with rfl | hx
          · exact hfit.symm.imp id Eq.symm
          · exact hu x hx
      · rintro ⟨u, v, huv, hu, hv⟩
        cases u with
        | nil => exact Or.inl (huv ▸ hv)
        | cons x u =>
            obtain ⟨rfl, rfl⟩ := List.cons.inj huv
            exact Or.inr ⟨(hu t List.mem_cons_self).symm.imp Eq.symm id,
              u, v, rfl, fun y hy => hu y (List.mem_cons_of_mem _ hy), hv⟩

theorem searchLoop_iff {here : List UInt8 → Bool} {text : List UInt8} :
    searchLoop here text = true ↔ ∃ u v, text = u ++ v ∧ here v = true := by
  induction text with
  | nil =>
      rw [searchLoop]
      constructor
      · exact fun h => ⟨[], [], rfl, h⟩
      · rintro ⟨u, v, huv, hv⟩
        obtain ⟨rfl, rfl⟩ := List.append_eq_nil_iff.mp huv.symm
        exact hv
  | cons t text ih =>
      rw [searchLoop, Bool.or_eq_true, ih]
      constructor
      · rintro (h | ⟨u, v, rfl, hv⟩)
        · exact ⟨[], t :: text, rfl, h⟩
        · exact ⟨t :: u, v, rfl, hv⟩
      · rintro ⟨u, v, huv, hv⟩
        cases u with
        | nil => exact Or.inl (huv ▸ hv)
        | cons x u =>
            obtain ⟨rfl, rfl⟩ := List.cons.inj huv
            exact Or.inr ⟨u, v, rfl, hv⟩

/-! ## The matcher -/

theorem begins_one {eot : Bool} {text : List UInt8} :
    Begins 1 eot text ↔ (eot = true → text = []) := by
  constructor
  · rintro ⟨w, v, rfl, rfl, heot⟩
    exact heot
  · exact fun h => ⟨[], text, rfl, rfl, h⟩

theorem matchhere_iff : ∀ re text : List UInt8,
    matchhere re text = true ↔ Begins (lang re) (elems re).2 text
  | [], text => by
      rw [matchhere]
      exact iff_of_true rfl (begins_one.mpr nofun)
  | [c], text => by
      by_cases hc : c = '$'.toUInt8
      · have helems : elems [c] = ([], true) := by rw [elems, if_pos hc]
        rw [matchhere, if_pos hc, lang, helems]
        show text.isEmpty = true ↔ Begins 1 true text
        rw [begins_one, List.isEmpty_iff]
        exact ⟨fun h _ => h, fun h => h rfl⟩
      · have helems : elems [c] = ([.one c], false) := by rw [elems, if_neg hc]
        rw [matchhere, if_neg hc, matchone_iff, lang, helems]
        show _ ↔ Begins ((Elem.one c).lang * 1) false text
        simp only [begins_mul, matchhere_iff [], lang, elems, List.map_nil, List.prod_nil]
  | c :: d :: re, text => by
      by_cases hd : d = '*'.toUInt8
      · have helems : elems (c :: d :: re) = (.many c :: (elems re).1, (elems re).2) := by
          rw [elems, if_pos hd]
        rw [matchhere, if_pos hd, starLoop_iff, lang, helems]
        simp only [List.map_cons, List.prod_cons, begins_mul, matchhere_iff re, lang]
      · have helems : elems (c :: d :: re) =
            (.one c :: (elems (d :: re)).1, (elems (d :: re)).2) := by
          rw [elems, if_neg hd]
        rw [matchhere, if_neg hd, matchone_iff, lang, helems]
        simp only [List.map_cons, List.prod_cons, begins_mul, matchhere_iff (d :: re), lang]

/-- A pattern without its `^`. -/
def body (re : List UInt8) : List UInt8 := if re.head? = some '^'.toUInt8 then re.tail else re

/-- `match` finds a part of the text that is a word of the pattern, at the beginning if the
pattern begins with `^` and at the end if it ends with `$`. -/
theorem matchRe_iff (re text : List UInt8) :
    matchRe re text = true ↔
      ∃ u w v, text = u ++ w ++ v ∧ w ∈ lang (body re) ∧
        (re.head? = some '^'.toUInt8 → u = []) ∧ ((elems (body re)).2 = true → v = []) := by
  have hsearch : ∀ re : List UInt8, re.head? ≠ some '^'.toUInt8 →
      (searchLoop (matchhere re) text = true ↔
        ∃ u w v, text = u ++ w ++ v ∧ w ∈ lang (body re) ∧
          (re.head? = some '^'.toUInt8 → u = []) ∧ ((elems (body re)).2 = true → v = [])) := by
    intro re hre
    rw [searchLoop_iff, body, if_neg hre]
    simp only [matchhere_iff]
    constructor
    · rintro ⟨u, v, rfl, w, v', rfl, hw, heot⟩
      exact ⟨u, w, v', (List.append_assoc ..).symm, hw, fun h => absurd h hre, heot⟩
    · rintro ⟨u, w, v, rfl, hw, -, heot⟩
      exact ⟨u, w ++ v, List.append_assoc .., w, v, rfl, hw, heot⟩
  unfold matchRe
  split
  · exact hsearch [] nofun
  · next c re =>
      split
      · next hc =>
          have hhead : (c :: re).head? = some '^'.toUInt8 := congrArg some hc
          rw [matchhere_iff, body, if_pos hhead]
          constructor
          · rintro ⟨w, v, rfl, hw, heot⟩
            exact ⟨[], w, v, rfl, hw, fun _ => rfl, heot⟩
          · rintro ⟨u, w, v, rfl, hw, hu, heot⟩
            rw [hu hhead]
            exact ⟨w, v, rfl, hw, heot⟩
      · next hc => exact hsearch (c :: re) fun h => hc (Option.some.inj h)

example : matchRe ("^a*b.$".toList.map Char.toUInt8) ("aabc".toList.map Char.toUInt8) = true := by
  decide

end Xv6.Ref.Grep
