import Mathlib.Order.Lattice
import Mathlib.Data.List.Forall2

/- Folding with a start value that is not quite a unit. `op e a` may lose a part
   of `a`, but combining with `e` on the right, or once more on the left, loses
   nothing else: on the values a fold from `e` can produce, `e` is a unit and the
   operation is that of a monoid.

   `obs` is what is observed of the values. Where the operation respects it, the
   total of summaries of consecutive pieces is, as far as one can observe, the
   total of the pieces put together (`Law.total_flatten`).

   A fold that keeps the least key finds it, with what belongs to it, if the start
   value is not itself the least (`foldl_least`). -/
namespace Folding
open List

section
variable {α γ : Type} {op : α → α → α} {e : α}

/-- The operation is associative and `e` is a unit for what a fold from it
produces. -/
structure Law (op : α → α → α) (e : α) : Prop where
  assoc : ∀ a b c, op (op a b) c = op a (op b c)
  unit : ∀ a, op (op e a) e = op e a
  idem : op e e = e

def total (op : α → α → α) (e : α) (l : List α) : α := l.foldl op e

theorem Law.foldl_eq (h : Law op e) (l : List α) (a : α) :
    l.foldl op (op e a) = op (op e a) (total op e l) := by
  induction l generalizing a with
  | nil => exact (h.unit a).symm
  | cons b l ih =>
    calc (b :: l).foldl op (op e a) = l.foldl op (op e (op a b)) := by rw [foldl_cons, h.assoc]
      _ = op (op e (op a b)) (total op e l) := ih (op a b)
      _ = op (op (op (op e a) e) b) (total op e l) := by rw [h.unit, h.assoc e a b]
      _ = op (op e a) (op (op e b) (total op e l)) := by rw [h.assoc (op e a), h.assoc]
      _ = op (op e a) (total op e (b :: l)) := by rw [← ih b]; rfl

theorem Law.total_cons (h : Law op e) (a : α) (l : List α) :
    total op e (a :: l) = op (op e a) (total op e l) := h.foldl_eq l a

theorem Law.total_sealed (h : Law op e) (l : List α) : op e (total op e l) = total op e l := by
  cases l with
  | nil => exact h.idem
  | cons a l => rw [h.total_cons, ← h.assoc, ← h.assoc, h.idem]

theorem Law.total_append (h : Law op e) (l l' : List α) :
    total op e (l ++ l') = op (total op e l) (total op e l') := by
  have heq : total op e (l ++ l') = l'.foldl op (op e (total op e l)) := by
    rw [h.total_sealed, total, total, foldl_append]
  rw [heq, h.foldl_eq, h.total_sealed]

theorem total_concat (l : List α) (a : α) : total op e (l ++ [a]) = op (total op e l) a := by
  rw [total, foldl_append]
  rfl

/-- The operation respects what is observed. -/
structure Respects (op : α → α → α) (obs : α → γ) : Prop where
  congr : ∀ {a a' b b'}, obs a = obs a' → obs b = obs b' → obs (op a b) = obs (op a' b')

/-- Summaries of consecutive pieces add up to a summary of the whole. -/
theorem Law.total_flatten (h : Law op e) {obs : α → γ} (hobs : Respects op obs)
    {ls : List (List α)} {as : List α}
    (hall : Forall₂ (fun l a => obs (op e a) = obs (total op e l)) ls as) :
    obs (total op e as) = obs (total op e ls.flatten) := by
  induction hall with
  | nil => rfl
  | cons ha _ ih =>
    rw [h.total_cons, flatten_cons, h.total_append]
    exact hobs.congr ha ih

end

/-! ## The leftmost least element -/

section
variable {κ τ : Type} [LinearOrder κ] [DecidableLT κ]

/-- Keeping the first of the least keys, with what belongs to it, is associative. -/
theorem least_assoc (x y z : κ) (u v w : τ) :
    (if z < (if y < x then y else x) then w else if y < x then v else u) =
      if (if z < y then z else y) < x then (if z < y then w else v) else u := by
  by_cases hyx : y < x
  · by_cases hzy : z < y
    · simp [hyx, hzy, hzy.trans hyx]
    · simp [hyx, hzy]
  · by_cases hzy : z < y
    · simp [hyx, hzy]
    · have hzx : ¬ z < x := fun h => hzy (h.trans_le (not_lt.mp hyx))
      simp [hyx, hzy, hzx]

theorem greatest_assoc (x y z : κ) (u v w : τ) :
    (if (if x < y then y else x) < z then w else if x < y then v else u) =
      if x < (if y < z then z else y) then (if y < z then w else v) else u :=
  least_assoc (OrderDual.toDual x) (OrderDual.toDual y) (OrderDual.toDual z) u v w

def least (acc x : κ × τ) : κ × τ := if x.1 < acc.1 then x else acc

def greatest (acc x : κ × τ) : κ × τ := if acc.1 < x.1 then x else acc

theorem least_le (acc x : κ × τ) : (least acc x).1 ≤ acc.1 ∧ (least acc x).1 ≤ x.1 := by
  unfold least
  by_cases h : x.1 < acc.1
  · rw [if_pos h]
    exact ⟨h.le, le_rfl⟩
  · rw [if_neg h]
    exact ⟨le_rfl, not_lt.mp h⟩

section
variable (xs : List (κ × τ)) (acc : κ × τ)

theorem foldl_least_le :
    (xs.foldl least acc).1 ≤ acc.1 ∧ ∀ x ∈ xs, (xs.foldl least acc).1 ≤ x.1 := by
  induction xs generalizing acc with
  | nil => exact ⟨le_rfl, forall_mem_nil _⟩
  | cons x xs ih =>
    obtain ⟨hstart, hall⟩ := ih (least acc x)
    obtain ⟨hacc, hx⟩ := least_le acc x
    exact ⟨hstart.trans hacc, forall_mem_cons.mpr ⟨hstart.trans hx, hall⟩⟩

theorem foldl_least_mem : xs.foldl least acc = acc ∨ xs.foldl least acc ∈ xs := by
  induction xs generalizing acc with
  | nil => exact .inl rfl
  | cons x xs ih =>
    rw [foldl_cons]
    rcases ih (least acc x) with h | h
    · rw [h, least]
      by_cases hlt : x.1 < acc.1
      · rw [if_pos hlt]
        exact .inr mem_cons_self
      · rw [if_neg hlt]
        exact .inl rfl
    · exact .inr (mem_cons_of_mem _ h)

/-- If a key is below the start value, the fold finds one of the least pairs. -/
theorem foldl_least (h : ∃ x ∈ xs, x.1 < acc.1) :
    xs.foldl least acc ∈ xs ∧ ∀ x ∈ xs, (xs.foldl least acc).1 ≤ x.1 := by
  obtain ⟨x, hx, hlt⟩ := h
  obtain ⟨-, hall⟩ := foldl_least_le xs acc
  refine ⟨?_, hall⟩
  rcases foldl_least_mem xs acc with heq | hmem
  · have hle := hall x hx
    rw [heq] at hle
    exact absurd hle (not_le.mpr hlt)
  · exact hmem

/-- If a key is above the start value, the fold finds one of the greatest pairs. -/
theorem foldl_greatest (h : ∃ x ∈ xs, acc.1 < x.1) :
    xs.foldl greatest acc ∈ xs ∧ ∀ x ∈ xs, x.1 ≤ (xs.foldl greatest acc).1 :=
  foldl_least (κ := κᵒᵈ) xs acc h

end

end
end Folding
