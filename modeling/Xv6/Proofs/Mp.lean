import Xv6.Ref.Mp

/-!
# The walk over the table of processors

The loop of `mpinit` has no increment of its own. An entry of a known type moves it on by
the size of the entry; at any other it stays for ever.
-/

namespace Xv6.Ref.Mp

open Xv6.Lib

variable {m : Mem} {e p : Nat} {s : Walk}

/-- The size of an entry of a known type. -/
def entrySize (m : Mem) (p : Nat) : Option Nat :=
  match (m p).toNat with
  | 0 => some 20
  | 1 | 2 | 3 | 4 => some 8
  | _ => none

/-- The entries from `p` on, one behind the other up to `e`. -/
inductive Entries (m : Mem) (e : Nat) : Nat → List Nat → Prop
  | done {p : Nat} : e ≤ p → Entries m e p []
  | entry {p k : Nat} {ps : List Nat} : p < e → entrySize m p = some k →
      Entries m e (p + k) ps → Entries m e p (p :: ps)

/-- Where the walk comes by. -/
inductive Visits (m : Mem) (e p : Nat) : Nat → Prop
  | start : Visits m e p p
  | next {q k : Nat} : Visits m e p q → q < e → entrySize m q = some k → Visits m e p (q + k)

/-- The `apicid`s of the processors among the entries. -/
def apicids (m : Mem) (ps : List Nat) : List UInt8 :=
  (ps.filter fun p => m p == 0).map fun p => m (p + 1)

theorem entrySize_pos {k : Nat} (h : entrySize m p = some k) : 0 < k := by
  unfold entrySize at h
  split at h
  all_goals cases h
  all_goals omega

theorem Visits.trans {q r : Nat} (h : Visits m e p q) (h' : Visits m e q r) : Visits m e p r := by
  induction h' with
  | start => exact h
  | next _ hlt hk ih => exact .next ih hlt hk

theorem Visits.le {q : Nat} (h : Visits m e p q) : p ≤ q := by
  induction h with
  | start => exact Nat.le_refl _
  | next _ _ _ ih => omega

theorem exists_entries {p : Nat} (h : ∀ q, Visits m e p q → q < e → (entrySize m q).isSome) :
    ∃ ps, Entries m e p ps := by
  induction hn : e - p using Nat.strongRecOn generalizing p with
  | _ n ih =>
    by_cases hlt : p < e
    · obtain ⟨k, hk⟩ := Option.isSome_iff_exists.mp (h p .start hlt)
      have hpos := entrySize_pos hk
      obtain ⟨ps, hps⟩ := ih (e - (p + k)) (by omega)
        (fun q hq hqe => h q ((Visits.next .start hlt hk).trans hq) hqe) rfl
      exact ⟨p :: ps, .entry hlt hk hps⟩
    · exact ⟨[], .done (by omega)⟩

/-- An entry of a known type is passed, and a processor recorded if there is room. -/
theorem mpEntry_known {k : Nat} (h : entrySize m s.p = some k) :
    (mpEntry m s).p = s.p + k ∧ (mpEntry m s).ismp = s.ismp ∧
      (s.cpus.length ≤ NCPU → (mpEntry m s).cpus = (s.cpus ++ apicids m [s.p]).take NCPU) := by
  have hother : (m s.p).toNat ≠ 0 → s.cpus.length ≤ NCPU →
      s.cpus = (s.cpus ++ apicids m [s.p]).take NCPU := by
    intro hne hle
    have hz : (m s.p == 0) = false := beq_eq_false_iff_ne.mpr fun he => hne (by rw [he]; rfl)
    rw [apicids, List.filter_cons_of_neg (by rw [hz]; exact Bool.false_ne_true), List.filter_nil,
      List.map_nil, List.append_nil, List.take_of_length_le hle]
  unfold entrySize at h
  unfold mpEntry
  split at h
  case h_1 hm =>
    cases h
    have hz : m s.p = 0 := UInt8.toNat_inj.mp hm
    rw [hm]
    refine ⟨rfl, rfl, fun hle => ?_⟩
    show (if _ then _ else _) = _
    rw [apicids, List.filter_cons_of_pos (by rw [hz]; rfl)]
    split
    · next hlt =>
        refine (List.take_of_length_le ?_).symm
        rw [List.length_append]
        exact hlt
    · next hge => rw [List.take_append_of_le_length (by omega), List.take_of_length_le hle]
  case h_6 => cases h
  all_goals
    next hm =>
      cases h
      rw [hm] at hother ⊢
      exact ⟨rfl, rfl, hother (by omega)⟩

/-- What is cut off once stays cut off. -/
theorem take_append_take {α : Type} (k : Nat) (l r : List α) :
    (l.take k ++ r).take k = (l ++ r).take k := by
  rcases Nat.lt_or_ge k l.length with hlt | hge
  · rw [List.take_append_of_le_length (by rw [List.length_take]; omega), List.take_take,
      Nat.min_self, List.take_append_of_le_length (Nat.le_of_lt hlt)]
  · rw [List.take_of_length_le hge]

theorem mpLoop_entries {ps : List Nat} (h : Entries m e p ps) : ∀ {s : Walk}, s.p = p →
    s.cpus.length ≤ NCPU → ∀ n,
      (mpLoop m e n s).cpus = (s.cpus ++ apicids m (ps.take n)).take NCPU ∧
      (mpLoop m e n s).ismp = s.ismp ∧
      (∀ q, ps[n]? = some q → (mpLoop m e n s).p = q) ∧
      (ps.length ≤ n → e ≤ (mpLoop m e n s).p) := by
  induction h with
  | @done p hle =>
      intro s hp hcpus n
      have hs : mpLoop m e n s = s := by
        cases n with
        | zero => rfl
        | succ n => rw [mpLoop, if_neg (by omega)]
      rw [hs]
      refine ⟨?_, rfl, nofun, fun _ => by omega⟩
      rw [List.take_nil, apicids, List.filter_nil, List.map_nil, List.append_nil,
        List.take_of_length_le hcpus]
  | @entry p k ps hlt hk _ ih =>
      intro s hp hcpus n
      cases n with
      | zero =>
          rw [mpLoop]
          refine ⟨?_, rfl, fun q hq => ?_, fun hl => ?_⟩
          · rw [List.take_zero, apicids, List.filter_nil, List.map_nil, List.append_nil,
              List.take_of_length_le hcpus]
          · exact hp.trans (Option.some.inj hq)
          · rw [List.length_cons] at hl
            omega
      | succ n =>
          subst hp
          obtain ⟨hp', hmp, hnew⟩ := mpEntry_known hk
          have hcpus' : (mpEntry m s).cpus.length ≤ NCPU := by
            rw [hnew hcpus, List.length_take]
            exact Nat.min_le_left _ _
          obtain ⟨h1, h2, h3, h4⟩ := ih hp' hcpus' n
          rw [mpLoop, if_pos hlt]
          refine ⟨?_, h2.trans hmp, fun q hq => h3 q hq, fun hl => h4 ?_⟩
          · have hone : apicids m (s.p :: ps.take n) = apicids m [s.p] ++ apicids m (ps.take n) := by
              unfold apicids
              rw [← List.map_append, ← List.filter_append, List.singleton_append]
            rw [h1, hnew hcpus, List.take_succ_cons, hone, ← List.append_assoc]
            exact take_append_take _ _ _
          · rw [List.length_cons] at hl
            omega

/-- A table with one entry behind its header: `type` is the byte at 44. The checksum is set
so that the bytes add up to 0. -/
def tinyTable (type : UInt8) : Mem := fun a =>
  match a with
  | 0 => 80
  | 1 => 67
  | 2 => 77
  | 3 => 80
  | 4 => 45
  | 6 => 1
  | 7 => 162 - type
  | 44 => type
  | _ => 0

end Xv6.Ref.Mp
