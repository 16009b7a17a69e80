import Mathlib

/-!
# Circular doubly linked lists

A ring of nodes with a head node: `none` is the head, the others are the values of `B`.
`Segment` says that the pointers lead from one node through a list to another, forwards
and backwards, so `Segment next prev none bs none` is the ring of `bs`. The operations
are those of code that takes a node out and puts it in behind the head, one assignment
after the other, and a loop that goes round until a test succeeds.
-/

namespace Xv6.Lib

variable {B : Type} {next prev next' prev' : Option B → Option B} {a c : Option B} {b : B}
  {bs cs : List B}

def Segment (next prev : Option B → Option B) : Option B → List B → Option B → Prop
  | a, [], c => next a = c ∧ prev c = a
  | a, b :: bs, c => next a = some b ∧ prev (some b) = a ∧ Segment next prev (some b) bs c

theorem Segment.congr (h : Segment next prev a bs c) (hna : next' a = next a)
    (hpc : prev' c = prev c) (hn : ∀ b ∈ bs, next' (some b) = next (some b))
    (hp : ∀ b ∈ bs, prev' (some b) = prev (some b)) : Segment next' prev' a bs c := by
  induction bs generalizing a with
  | nil => exact ⟨hna.trans h.1, hpc.trans h.2⟩
  | cons b bs ih =>
      refine ⟨hna.trans h.1, (hp b List.mem_cons_self).trans h.2.1, ih h.2.2 ?_ ?_ ?_⟩
      · exact hn b List.mem_cons_self
      · exact fun x hx => hn x (List.mem_cons_of_mem _ hx)
      · exact fun x hx => hp x (List.mem_cons_of_mem _ hx)

theorem Segment.append (h : Segment next prev a bs (some b))
    (h' : Segment next prev (some b) cs c) : Segment next prev a (bs ++ b :: cs) c := by
  induction bs generalizing a with
  | nil => exact ⟨h.1, h.2, h'⟩
  | cons x bs ih => exact ⟨h.1, h.2.1, ih h.2.2⟩

/-- The same nodes, seen from the other end. -/
theorem Segment.reverse (h : Segment next prev a bs c) : Segment prev next c bs.reverse a := by
  induction bs generalizing a with
  | nil => exact ⟨h.2, h.1⟩
  | cons b bs ih =>
      rw [List.reverse_cons]
      exact (ih h.2.2).append ⟨h.2.1, h.1⟩

theorem Segment.head (h : Segment next prev a bs none) : next a = bs.head? := by
  cases bs with
  | nil => exact h.1
  | cons b bs => exact h.1

theorem Segment.split (h : Segment next prev a (bs ++ b :: cs) c) :
    Segment next prev a bs (some b) ∧ Segment next prev (some b) cs c := by
  induction bs generalizing a with
  | nil => exact ⟨⟨h.1, h.2.1⟩, h.2.2⟩
  | cons x bs ih =>
      obtain ⟨h1, h2⟩ := ih h.2.2
      exact ⟨⟨h.1, h.2.1, h1⟩, h2⟩

/-- The last of `a` and `bs`. -/
def lastNode : Option B → List B → Option B
  | a, [] => a
  | _, b :: bs => lastNode (some b) bs

theorem Segment.last (h : Segment next prev a bs c) : prev c = lastNode a bs := by
  induction bs generalizing a with
  | nil => exact h.2
  | cons b bs ih => exact ih h.2.2

theorem lastNode_cases (a : Option B) (bs : List B) :
    lastNode a bs = a ∨ ∃ b ∈ bs, lastNode a bs = some b := by
  induction bs generalizing a with
  | nil => exact Or.inl rfl
  | cons b bs ih =>
      right
      rcases ih (some b) with h | ⟨x, hx, h⟩
      · exact ⟨b, List.mem_cons_self, h⟩
      · exact ⟨x, List.mem_cons_of_mem _ hx, h⟩

/-! ## A loop round the ring -/

/-- What a loop from a node on ends with: a node that passes the test, or the head.
`spins` is a loop that has not come to an end. -/
inductive Scan (B : Type) where
  | found (b : B)
  | missing
  | spins
  deriving DecidableEq

/-- `for(b = start; b != &head; b = b->next) if(test(b)) …`, as many rounds as there is
fuel. -/
def scan (next : Option B → Option B) (test : B → Bool) : Nat → Option B → Scan B
  | 0, _ => .spins
  | _ + 1, none => .missing
  | fuel + 1, some b => if test b then .found b else scan next test fuel (next (some b))

def Scan.ofOption : Option B → Scan B
  | some b => .found b
  | none => .missing

/-- On a ring with no more nodes than fuel, the loop is a search of the list. -/
theorem Segment.scan (h : Segment next prev a bs none) (test : B → Bool) {fuel : Nat}
    (hf : bs.length < fuel) :
    scan next test fuel (next a) = .ofOption (bs.find? test) := by
  induction bs generalizing a fuel with
  | nil =>
      obtain ⟨fuel, rfl⟩ : ∃ k, fuel = k + 1 := ⟨fuel - 1, by simp at hf; omega⟩
      rw [h.1]
      rfl
  | cons b bs ih =>
      obtain ⟨fuel, rfl⟩ : ∃ k, fuel = k + 1 := ⟨fuel - 1, by simp at hf; omega⟩
      rw [h.1, Lib.scan, List.find?_cons]
      cases ht : test b with
      | true => rfl
      | false => exact ih h.2.2 (by simp at hf; omega)

variable [DecidableEq B]

/-! ## Taking a node out -/

/-- `b->next->prev = b->prev; b->prev->next = b->next;` -/
def unlink (next prev : Option B → Option B) (b : B) :
    (Option B → Option B) × (Option B → Option B) :=
  let prev := Function.update prev (next (some b)) (prev (some b))
  let next := Function.update next (prev (some b)) (next (some b))
  (next, prev)

/-- The end of a segment is led to another node. -/
theorem Segment.relink (h : Segment next prev a bs c) (hnd : bs.Nodup)
    (ha : ∀ x ∈ bs, a ≠ some x) {y : Option B} (hy : ∀ x ∈ bs, y ≠ some x) :
    Segment (Function.update next (lastNode a bs) y) (Function.update prev y (lastNode a bs))
      a bs y := by
  induction bs generalizing a with
  | nil => exact ⟨Function.update_self .., Function.update_self ..⟩
  | cons e bs ih =>
      obtain ⟨hne, hnd⟩ := List.nodup_cons.mp hnd
      have hae : a ≠ lastNode (some e) bs := by
        rcases lastNode_cases (some e) bs with hl | ⟨x, hx, hl⟩
        · rw [hl]
          exact ha e List.mem_cons_self
        · rw [hl]
          exact ha x (List.mem_cons_of_mem _ hx)
      refine ⟨?_, ?_, ih h.2.2 hnd (fun x hx he => hne (Option.some.inj he ▸ hx))
        fun x hx => hy x (List.mem_cons_of_mem _ hx)⟩
      · exact (Function.update_of_ne hae ..).trans h.1
      · exact (Function.update_of_ne (hy e List.mem_cons_self).symm ..).trans h.2.1

theorem Segment.unlink (h : Segment next prev none (bs ++ b :: cs) none)
    (hnd : (bs ++ b :: cs).Nodup) :
    Segment (unlink next prev b).1 (unlink next prev b).2 none (bs ++ cs) none := by
  obtain ⟨h1, h2⟩ := h.split
  obtain ⟨hbs, hbcs, hdisj⟩ := List.nodup_append.mp hnd
  obtain ⟨hbc, hcs⟩ := List.nodup_cons.mp hbcs
  have hnext : next (some b) = cs.head? := h2.head
  have hlast : prev (some b) = lastNode none bs := h1.last
  have hne : cs.head? ≠ some b := by
    intro he
    exact hbc (List.mem_of_mem_head? he)
  have hun : Lib.unlink next prev b =
      (Function.update next (lastNode none bs) cs.head?,
        Function.update prev cs.head? (lastNode none bs)) := by
    rw [Lib.unlink, hnext, hlast, Function.update_of_ne hne.symm, hlast]
  rw [hun]
  have hfirst : Segment (Function.update next (lastNode none bs) cs.head?)
      (Function.update prev cs.head? (lastNode none bs)) none bs cs.head? := by
    refine h1.relink hbs (fun _ _ => nofun) fun x hx he => ?_
    exact hdisj x hx x (List.mem_cons_of_mem _ (List.mem_of_mem_head? he)) rfl
  cases cs with
  | nil => rw [List.append_nil]; exact hfirst
  | cons d cs =>
      refine hfirst.append (h2.2.2.congr ?_ ?_ (fun x hx => ?_) fun x hx => ?_)
      · refine Function.update_of_ne ?_ ..
        rcases lastNode_cases none bs with hl | ⟨x, hx, hl⟩
        · rw [hl]
          exact nofun
        · rw [hl]
          rintro he
          exact hdisj x hx d (by simp) (Option.some.inj he).symm
      · exact Function.update_of_ne (by simp) ..
      · refine Function.update_of_ne ?_ ..
        rcases lastNode_cases none bs with hl | ⟨z, hz, hl⟩
        · rw [hl]
          exact nofun
        · rw [hl]
          rintro he
          exact hdisj z hz x (by simp [hx]) (Option.some.inj he).symm
      · refine Function.update_of_ne ?_ ..
        rintro he
        cases he
        exact (List.nodup_cons.mp hcs).1 hx

/-! ## Putting a node in -/

/-- `b->next = head.next; b->prev = &head; head.next->prev = b; head.next = b;` -/
def pushFront (next prev : Option B → Option B) (b : B) :
    (Option B → Option B) × (Option B → Option B) :=
  let next := Function.update next (some b) (next none)
  let prev := Function.update prev (some b) none
  let prev := Function.update prev (next none) (some b)
  let next := Function.update next none (some b)
  (next, prev)

theorem Segment.pushFront (h : Segment next prev none bs none) (hnd : bs.Nodup) (hb : b ∉ bs) :
    Segment (pushFront next prev b).1 (pushFront next prev b).2 none (b :: bs) none := by
  have hhead : next none = bs.head? := h.head
  have hn : Function.update next (some b) (next none) none = bs.head? := by
    rw [Function.update_of_ne (by simp), hhead]
  have hne : bs.head? ≠ some b := fun he => hb (List.mem_of_mem_head? he)
  rw [Lib.pushFront, hn]
  dsimp only
  refine ⟨Function.update_self .., ?_, ?_⟩
  · rw [Function.update_of_ne hne.symm, Function.update_self]
  · have hb' : Function.update (Function.update next (some b) (next none)) none (some b) (some b) =
        bs.head? := by
      rw [Function.update_of_ne (by simp), Function.update_self, hhead]
    cases bs with
    | nil =>
        refine ⟨hb', ?_⟩
        exact Function.update_self ..
    | cons d bs =>
        obtain ⟨hdb, hnd⟩ := List.nodup_cons.mp hnd
        refine ⟨hb', Function.update_self .., h.2.2.congr ?_ ?_ (fun x hx => ?_) fun x hx => ?_⟩
        · rw [Function.update_of_ne (by simp), Function.update_of_ne]
          rintro he
          exact hb (by simp [Option.some.inj he])
        · rw [Function.update_of_ne (by simp), Function.update_of_ne (by simp)]
        · rw [Function.update_of_ne (by simp), Function.update_of_ne]
          rintro he
          exact hb (by simp [← Option.some.inj he, hx])
        · rw [Function.update_of_ne, Function.update_of_ne]
          · rintro he
            exact hb (by simp [← Option.some.inj he, hx])
          · rintro he
            exact hdb (Option.some.inj he ▸ hx)

end Xv6.Lib
