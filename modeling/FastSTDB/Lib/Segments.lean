import Mathlib.Data.Nat.ModEq

/- Segments with a number of places each that are filled one after the other. A
   `Fill` says how far: the segment that is being filled, and how many of its places
   are taken. The next place is never one that was taken before, and a taken place
   stays taken; so the places handed out are all different. -/
namespace Segments
open List

structure Fill where
  seg : Nat
  used : Nat
  deriving DecidableEq

namespace Fill
variable (cap : Nat → Nat)

/-- The next place: a segment and an index in it. -/
def place (c : Fill) : Nat × Nat := if c.used < cap c.seg then (c.seg, c.used) else (c.seg + 1, 0)

def advance (c : Fill) : Fill := ⟨(c.place cap).1, (c.place cap).2 + 1⟩

def places : Nat → Fill → List (Nat × Nat)
  | 0, _ => []
  | k + 1, c => c.place cap :: places k (c.advance cap)

def after : Nat → Fill → Fill
  | 0, c => c
  | k + 1, c => after k (c.advance cap)

def Taken (c : Fill) (p : Nat × Nat) : Prop := p.1 < c.seg ∨ p.1 = c.seg ∧ p.2 < c.used

variable {cap} {c : Fill}

theorem place_of_room (h : c.used < cap c.seg) : c.place cap = (c.seg, c.used) := if_pos h

theorem place_of_full (h : cap c.seg ≤ c.used) : c.place cap = (c.seg + 1, 0) :=
  if_neg (not_lt.mpr h)

/-- The next place is in the segment that is being filled, or the first one of the next. -/
theorem place_cases (cap : Nat → Nat) (c : Fill) : c.used < cap c.seg ∧ c.place cap = (c.seg, c.used) ∨
    cap c.seg ≤ c.used ∧ c.place cap = (c.seg + 1, 0) :=
  (lt_or_ge _ _).imp (fun h => ⟨h, place_of_room h⟩) fun h => ⟨h, place_of_full h⟩

theorem seg_le_place (cap : Nat → Nat) (c : Fill) : c.seg ≤ (c.place cap).1 := by
  rcases c.place_cases cap with ⟨-, hplace⟩ | ⟨-, hplace⟩ <;> rw [hplace]
  exact Nat.le_succ _

theorem place_lt (hpos : 0 < cap (c.place cap).1) : (c.place cap).2 < cap (c.place cap).1 := by
  rcases c.place_cases cap with ⟨hroom, hplace⟩ | ⟨-, hplace⟩ <;> rw [hplace] at hpos ⊢
  · exact hroom
  · exact hpos

variable {p : Nat × Nat}

theorem Taken.lt_place (cap : Nat → Nat) (h : c.Taken p) :
    p.1 < (c.place cap).1 ∨ p.1 = (c.place cap).1 ∧ p.2 < (c.place cap).2 := by
  rcases c.place_cases cap with ⟨-, hplace⟩ | ⟨-, hplace⟩ <;> rw [hplace]
  · exact h
  · apply Or.inl
    rcases h with h | ⟨h, -⟩
    · exact Nat.lt_succ_of_lt h
    · omega

theorem not_taken_place (cap : Nat → Nat) : ¬ c.Taken (c.place cap) := by
  intro ht
  rcases ht.lt_place cap with h | ⟨-, h⟩
  · exact lt_irrefl _ h
  · exact lt_irrefl _ h

theorem taken_place (cap : Nat → Nat) : (c.advance cap).Taken (c.place cap) :=
  .inr ⟨rfl, Nat.lt_succ_self _⟩

theorem Taken.advance (cap : Nat → Nat) (h : c.Taken p) : (c.advance cap).Taken p := by
  rcases h.lt_place cap with hlt | ⟨heq, hlt⟩
  · exact .inl hlt
  · exact .inr ⟨heq, Nat.lt_succ_of_lt hlt⟩

theorem Taken.after (cap : Nat → Nat) : ∀ (k : Nat) {c : Fill}, c.Taken p →
    (Fill.after cap k c).Taken p
  | 0, _, h => h
  | k + 1, _, h => .after cap k (h.advance cap)

theorem places_add (k : Nat) : ∀ (m : Nat) (c : Fill),
    places cap (m + k) c = places cap m c ++ places cap k (after cap m c)
  | 0, c => by rw [zero_add]; rfl
  | m + 1, c => by
    rw [Nat.succ_add, places, places_add k m]
    rfl

theorem after_of_room : ∀ (k : Nat) {c : Fill}, c.used + k ≤ cap c.seg →
    after cap k c = ⟨c.seg, c.used + k⟩ ∧ ∀ p ∈ places cap k c, p.1 = c.seg
  | 0, _, _ => ⟨rfl, fun _ h => (by cases h)⟩
  | k + 1, c, h => by
    have hplace : c.place cap = (c.seg, c.used) := place_of_room (by omega)
    have hadv : c.advance cap = ⟨c.seg, c.used + 1⟩ := by rw [advance, hplace]
    have hroom : (⟨c.seg, c.used + 1⟩ : Fill).used + k ≤ cap c.seg := by
      show c.used + 1 + k ≤ cap c.seg
      omega
    obtain ⟨hafter, hseg⟩ := after_of_room k hroom
    rw [after, places, hadv, hafter, hplace]
    refine ⟨?_, forall_mem_cons.mpr ⟨rfl, hseg⟩⟩
    rw [add_assoc, add_comm 1 k]

theorem taken_of_mem : ∀ {k : Nat} {c : Fill} {p : Nat × Nat}, p ∈ places cap k c →
    (after cap k c).Taken p
  | k + 1, c, p, h => by
    rcases mem_cons.mp h with rfl | h
    · exact (taken_place cap).after cap k
    · have ih := taken_of_mem h
      exact ih

theorem place_lt_of_mem (hpos : ∀ g, 0 < cap g) : ∀ {k : Nat} {c : Fill} {p : Nat × Nat},
    p ∈ places cap k c → p.2 < cap p.1
  | k + 1, c, p, h => by
    rcases mem_cons.mp h with rfl | h
    · exact c.place_lt (hpos _)
    · exact place_lt_of_mem hpos h

theorem not_taken_of_mem : ∀ {k : Nat} {c : Fill} {p : Nat × Nat}, p ∈ places cap k c → ¬ c.Taken p
  | k + 1, c, p, h => by
    rcases mem_cons.mp h with rfl | h
    · exact not_taken_place cap
    · intro ht
      exact not_taken_of_mem h (ht.advance cap)

end Fill

theorem eq_of_mod_eq {a b n : Nat} (h : a % n = b % n) (hab : a < b + n) (hba : b < a + n) :
    a = b := by
  apply Nat.ModEq.eq_of_abs_lt h
  rw [abs_lt]
  omega

end Segments
