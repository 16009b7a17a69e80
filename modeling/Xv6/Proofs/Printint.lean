import Xv6.Ref.Printint
import Xv6.Ref.Ulib

/-!
# What `printint` puts out

The loop leaves the digits of Mathlib's `Nat.digits` in the buffer, which read backwards are
the numeral without leading zeros; 0 has the one digit 0. A 32-bit number has at most ten
decimal digits, so there is room for the sign. `atoi` is Horner's scheme.
-/

namespace Xv6.Ref.Printint

open Xv6.Ref.Ulib

/-! ## Numerals -/

/-- `ds` is a numeral of `n` without leading zeros, the first digit first. -/
structure Numeral (b n : Nat) (ds : List Nat) : Prop where
  digit : ∀ d ∈ ds, d < b
  nonempty : ds ≠ []
  lead : ds.head? = some 0 → ds = [0]
  value : Nat.ofDigits b ds.reverse = n

def numeral (b n : Nat) : List Nat := if n = 0 then [0] else (Nat.digits b n).reverse

variable {b n : Nat}

theorem numeral_numeral (hb : 1 < b) (n : Nat) : Numeral b n (numeral b n) := by
  unfold numeral
  split
  · next hn =>
      subst hn
      exact ⟨fun d hd => by rw [List.mem_singleton.mp hd]; omega, List.cons_ne_nil _ _,
        fun _ => rfl, by simp⟩
  · next hn =>
      refine ⟨fun d hd => Nat.digits_lt_base hb (List.mem_reverse.mp hd), ?_, fun h => ?_, ?_⟩
      · rw [Ne, List.reverse_eq_nil_iff]
        exact Nat.digits_ne_nil_iff_ne_zero.mpr hn
      · rw [List.head?_reverse, List.getLast?_eq_getLast_of_ne_nil
          (Nat.digits_ne_nil_iff_ne_zero.mpr hn)] at h
        exact absurd (Option.some.inj h) (Nat.getLast_digit_ne_zero b hn)
      · rw [List.reverse_reverse, Nat.ofDigits_digits]

/-- There is one. -/
theorem Numeral.eq {ds : List Nat} (hb : 1 < b) (h : Numeral b n ds) : ds = numeral b n := by
  by_cases hz : ds.head? = some 0
  · have hds := h.lead hz
    have hv := h.value
    rw [hds] at hv
    rw [hds, ← hv]
    simp [numeral]
  · have hdig : Nat.digits b n = ds.reverse := by
      rw [← h.value]
      refine Nat.digits_ofDigits b hb _ (fun d hd => h.digit d (List.mem_reverse.mp hd)) ?_
      intro hne hlast
      refine hz ?_
      rw [← List.reverse_reverse ds, List.head?_reverse, List.getLast?_eq_getLast_of_ne_nil hne,
        hlast]
    have hn : n ≠ 0 := by
      rintro rfl
      rw [Nat.digits_zero] at hdig
      exact h.nonempty (List.reverse_eq_nil_iff.mp hdig.symm)
    rw [numeral, if_neg hn, hdig, List.reverse_reverse]

theorem numeral_length {k : Nat} (hb : 1 < b) (hk : 0 < k) (h : n < b ^ k) :
    (numeral b n).length ≤ k := by
  unfold numeral
  split
  · exact hk
  · rw [List.length_reverse]
    exact (Nat.digits_length_le_iff hb n).mpr h

/-- The last digit, and the numeral before it. -/
theorem numeral_div (hb : 1 < b) (h : n / b ≠ 0) :
    numeral b n = numeral b (n / b) ++ [n % b] := by
  have hn : n ≠ 0 := by
    rintro rfl
    exact h (Nat.zero_div b)
  rw [numeral, numeral, if_neg hn, if_neg h, Nat.digits_def' hb (Nat.pos_of_ne_zero hn),
    List.reverse_cons]

theorem numeral_small (h : n < b) : numeral b n = [n] := by
  unfold numeral
  split
  · next hn => rw [hn]
  · next hn =>
      rw [Nat.digits_of_lt b n hn h]
      rfl

/-! ## The loop -/

def digitOf (digits : List Char) (d : Nat) : Char := digits.getD d '\x00'

theorem digitLoop_eq (digits : List Char) (hb : 1 < b) (fuel : Nat) : ∀ {x : Nat} {buf : List Char},
    x < b ^ fuel → 0 < fuel → buf.length + (numeral b x).length ≤ 16 →
    digitLoop digits b fuel x buf = some (buf ++ (numeral b x).reverse.map (digitOf digits)) := by
  induction fuel with
  | zero =>
      intro x buf _ hf
      omega
  | succ fuel ih =>
      intro x buf hx _ hroom
      have hput : put buf (digits.getD (x % b) '\x00') = some (buf ++ [digitOf digits (x % b)]) := by
        refine if_pos ?_
        have := List.length_pos_iff.mpr (numeral_numeral hb x).nonempty
        omega
      rw [digitLoop, hput]
      simp only []
      split
      · next hz =>
          have hlt : x < b := (Nat.div_eq_zero_iff_lt (by omega)).mp hz
          rw [numeral_small hlt, Nat.mod_eq_of_lt hlt]
          rfl
      · next hz =>
          rw [numeral_div hb hz, List.length_append, List.length_singleton] at hroom
          have hfuel : 0 < fuel := by
            refine Nat.pos_of_ne_zero fun hf => hz ?_
            rw [hf, Nat.pow_one] at hx
            exact Nat.div_eq_of_lt hx
          have hx' : x / b < b ^ fuel := Nat.div_lt_of_lt_mul (by rwa [Nat.pow_succ'] at hx)
          rw [ih hx' hfuel (by rw [List.length_append, List.length_singleton]; omega),
            numeral_div hb hz, List.reverse_append, List.append_assoc]
          rfl

/-- The characters of a number with its sign. -/
def shown (digits : List Char) (b n : Nat) (neg : Bool) : List Char :=
  (if neg then ['-'] else []) ++ (numeral b n).map (digitOf digits)

theorem putNumber_eq (digits : List Char) (x : BitVec 32) (neg : Bool) (hb : 10 ≤ b) :
    putNumber digits x b neg = some (shown digits b x.toNat neg) ∧
      (shown digits b x.toNat neg).length ≤ 16 := by
  have hx : x.toNat < b ^ 10 :=
    Nat.lt_of_lt_of_le (Nat.lt_trans x.isLt (by decide)) (Nat.pow_le_pow_left hb 10)
  have hlen := numeral_length (by omega) (by omega) hx
  have hx' : x.toNat < b ^ 32 :=
    Nat.lt_of_lt_of_le hx (Nat.pow_le_pow_right (by omega) (by omega))
  have hloop := digitLoop_eq digits (by omega) 32 hx' (by omega)
    (show ([] : List Char).length + _ ≤ 16 by rw [List.length_nil]; omega)
  rw [List.nil_append] at hloop
  rw [putNumber, hloop, shown]
  cases neg with
  | false =>
      refine ⟨?_, ?_⟩
      · simp [← List.map_reverse]
      · simp only [Bool.false_eq_true, if_false, List.nil_append, List.length_map]
        omega
  | true =>
      have hput : put ((numeral b x.toNat).reverse.map (digitOf digits)) '-' =
          some ((numeral b x.toNat).reverse.map (digitOf digits) ++ ['-']) := by
        refine if_pos ?_
        rw [List.length_map, List.length_reverse]
        omega
      refine ⟨?_, ?_⟩
      · simp only [if_true, hput, Option.map_some]
        simp [← List.map_reverse]
      · simp only [if_true, List.length_append, List.length_singleton, List.length_map]
        omega

/-! ## `atoi` -/

theorem digitOf_char {d : Nat} (hd : d < 10) : ('0' ≤ digitOf userDigits d ∧
    digitOf userDigits d ≤ '9') ∧ (digitOf userDigits d).toNat = d + 48 := by
  have hall : ∀ d < 10, ('0' ≤ digitOf userDigits d ∧ digitOf userDigits d ≤ '9') ∧
      (digitOf userDigits d).toNat = d + 48 := by decide
  exact hall d hd

/-- Horner's scheme. -/
theorem atoiLoop_eq (ds : List Nat) : ∀ {a : Nat}, (∀ d ∈ ds, d < 10) →
    atoiLoop (ds.map (digitOf userDigits)) (BitVec.ofNat 32 a) =
      BitVec.ofNat 32 (ds.foldl (fun a d => d + 10 * a) a) := by
  induction ds with
  | nil => exact fun _ => rfl
  | cons d ds ih =>
      intro a hds
      obtain ⟨hrange, hval⟩ := digitOf_char (hds d List.mem_cons_self)
      have hstep : BitVec.ofNat 32 a * 10 + BitVec.ofNat 32 (digitOf userDigits d).toNat - 48 =
          BitVec.ofNat 32 (d + 10 * a) := by
        have h10 : (10 : BitVec 32).toNat = 10 := rfl
        have h48 : (48 : BitVec 32).toNat = 48 := rfl
        rw [hval]
        apply BitVec.eq_of_toNat_eq
        simp only [BitVec.toNat_sub, BitVec.toNat_add, BitVec.toNat_mul, BitVec.toNat_ofNat, h10,
          h48]
        omega
      rw [List.map_cons, atoiLoop, if_pos hrange, hstep]
      exact ih fun d' hd' => hds d' (List.mem_cons_of_mem _ hd')

theorem atoi_numeral (n : Nat) :
    atoi ((numeral 10 n).map (digitOf userDigits)) = BitVec.ofNat 32 n := by
  have h := numeral_numeral (show 1 < 10 by omega) n
  have hv := h.value
  rw [Nat.ofDigits_eq_foldr, List.foldr_reverse] at hv
  rw [atoi, show (0 : BitVec 32) = BitVec.ofNat 32 0 from rfl, atoiLoop_eq _ h.digit]
  exact congrArg _ hv

/-! ## Both functions -/

/-- The absolute value is what the code takes it to be, the most negative number included. -/
theorem toNat_abs (xx : BitVec 32) :
    xx.slt 0 = decide (xx.toInt < 0) ∧
      (if xx.slt 0 then -xx else xx).toNat = xx.toInt.natAbs := by
  have hs : xx.slt 0 = decide (xx.toInt < 0) := rfl
  refine ⟨hs, ?_⟩
  rw [hs]
  split
  · next h =>
      have h := of_decide_eq_true h
      rw [BitVec.toNat_neg, BitVec.toInt_eq_toNat_cond] at *
      have := xx.isLt
      split at h <;> omega
  · next h =>
      have h := of_decide_eq_false (Bool.not_eq_true _ ▸ h)
      rw [BitVec.toInt_eq_toNat_cond] at *
      have := xx.isLt
      split at h <;> omega

theorem console_lower (b n : Nat) (neg : Bool) (hb : b ≤ 16) (h1 : 1 < b) :
    (shown userDigits b n neg).map Char.toLower = shown consoleDigits b n neg := by
  have hall : ∀ d < 16, (digitOf userDigits d).toLower = digitOf consoleDigits d := by decide
  rw [shown, shown, List.map_append, List.map_map]
  congr 1
  · cases neg <;> rfl
  · refine List.map_congr_left fun d hd => ?_
    exact hall d (Nat.lt_of_lt_of_le ((numeral_numeral h1 n).digit d hd) hb)

/-- What both functions put out for the number `n` with the sign `neg`: the numeral without
leading zeros, the same but for the case of the digits. -/
structure Prints (b n : Nat) (neg : Bool) (user console : Option (List Char)) : Prop where
  numeral : ∃ ds, Numeral b n ds ∧ (∀ ds', Numeral b n ds' → ds' = ds) ∧
    user = some ((if neg then ['-'] else []) ++ ds.map (digitOf userDigits)) ∧
    console = some ((if neg then ['-'] else []) ++ ds.map (digitOf consoleDigits))
  room : ∀ out, user = some out ∨ console = some out → out.length ≤ 16
  case : user.map (List.map Char.toLower) = console

theorem putNumber_prints (x : BitVec 32) (neg : Bool) (hb : 10 ≤ b) (hb' : b ≤ 16) :
    Prints b x.toNat neg (putNumber userDigits x b neg) (putNumber consoleDigits x b neg) := by
  obtain ⟨hu, hul⟩ := putNumber_eq userDigits x neg hb
  obtain ⟨hc, hcl⟩ := putNumber_eq consoleDigits x neg hb
  rw [hu, hc]
  refine ⟨⟨_, numeral_numeral (by omega) _, fun ds' h => h.eq (by omega), rfl, rfl⟩, ?_, ?_⟩
  · rintro out (h | h)
    · exact Option.some.inj h ▸ hul
    · exact Option.some.inj h ▸ hcl
  · exact congrArg some (console_lower b _ neg hb' (by omega))

/-- Both `printint` put out the numeral of the value, signed in base 10 and unsigned in base
16, and stay within their buffer; `atoi` reads a non-negative one back. -/
theorem printint_prints (xx : BitVec 32) :
    Prints 10 xx.toInt.natAbs (decide (xx.toInt < 0)) (user xx 10 true) (console xx 10 true) ∧
      Prints 16 xx.toNat false (user xx 16 false) (console xx 16 false) ∧
      ∀ out, user xx 10 true = some out → 0 ≤ xx.toInt → atoi out = xx := by
  obtain ⟨hs, habs⟩ := toNat_abs xx
  have huser : user xx 10 true =
      putNumber userDigits (if xx.slt 0 then -xx else xx) 10 (xx.slt 0) := by
    rw [user, Bool.true_and]
    cases xx.slt 0 <;> rfl
  have hconsole : console xx 10 true =
      putNumber consoleDigits (if xx.slt 0 then -xx else xx) 10 (xx.slt 0) := by
    simp only [console, Bool.true_and]
  refine ⟨?_, ?_, fun out hout hpos => ?_⟩
  · rw [huser, hconsole, ← habs, ← hs]
    exact putNumber_prints _ _ (by omega) (by omega)
  · exact putNumber_prints xx false (by omega) (by omega)
  · have hneg : xx.slt 0 = false := by rw [hs]; exact decide_eq_false (by omega)
    rw [huser, hneg, (putNumber_eq userDigits _ false (by omega)).1] at hout
    obtain rfl := Option.some.inj hout
    rw [shown]
    simp only [Bool.false_eq_true, if_false, List.nil_append]
    rw [atoi_numeral]
    exact BitVec.ofNat_toNat 32 xx ▸ rfl

example : user (BitVec.ofInt 32 (-2147483648)) 10 true = some "-2147483648".toList := by decide

end Xv6.Ref.Printint
