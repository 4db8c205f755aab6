import Mathlib.Data.List.Basic
import Mathlib.Data.List.TakeWhile

/- Binary search on sorted lists. A predicate `p` that holds on a front part of a
   list (`Front p l`: where it holds, it holds for all elements before) cuts the
   list in two: the front part is what `takeWhile`, and so `lower_bound` and
   `upper_bound`, find, and it is what `filter` keeps. Two such predicates, one
   implying the other, cut out a range. -/
namespace Bounds
open List
variable {α : Type} {l : List α} {p : α → Bool}

/-- Wherever `p` holds, it holds before. -/
def Front (p : α → Bool) (l : List α) : Prop := l.Pairwise (fun a b => p b = true → p a = true)

theorem Front.takeWhile_eq_filter (h : Front p l) : l.takeWhile p = l.filter p := by
  induction l with
  | nil => rfl
  | cons a l ih =>
    rw [Front, pairwise_cons] at h
    cases hp : p a with
    | true => simp [hp, ih h.2]
    | false =>
      have hnone : ∀ b ∈ l, ¬ p b = true := fun b hb hpb => by
        have := h.1 b hb hpb
        rw [hp] at this
        cases this
      simp [hp, filter_eq_nil_iff.mpr hnone]

theorem Front.drop_eq_filter (h : Front p l) :
    l.drop (l.takeWhile p).length = l.filter (fun a => !p a) := by
  induction l with
  | nil => rfl
  | cons a l ih =>
    rw [Front, pairwise_cons] at h
    cases hp : p a with
    | true => simp [hp, ih h.2]
    | false =>
      have hall : ∀ b ∈ l, (!p b) = true := fun b hb => by
        cases hpb : p b with
        | true =>
          have := h.1 b hb hpb
          rw [hp] at this
          cases this
        | false => rfl
      simp [hp, filter_eq_self.mpr hall]

theorem take_takeWhile_length : l.take (l.takeWhile p).length = l.takeWhile p :=
  (prefix_iff_eq_take.mp ( takeWhile_prefix p)).symm

theorem Front.filter (h : Front p l) (q : α → Bool) : Front p (l.filter q) := Pairwise.filter q h

theorem take_drop_eq_filter {q : α → Bool} (hp : Front p l) (hq : Front q l)
    (hpq : ∀ a, p a = true → q a = true) :
    (l.take (l.takeWhile q).length).drop (l.takeWhile p).length =
      l.filter (fun a => q a && !p a) := by
  have hsame : l.takeWhile p = (l.filter q).takeWhile p := by
    rw [hp.takeWhile_eq_filter, (hp.filter q).takeWhile_eq_filter, filter_filter]
    refine filter_congr (fun a _ => ?_)
    cases h : p a with
    | true => simp [hpq a h]
    | false => rfl
  rw [take_takeWhile_length, hq.takeWhile_eq_filter, hsame, (hp.filter q).drop_eq_filter,
    filter_filter]
  exact filter_congr (fun a _ => Bool.and_comm _ _)

theorem takeWhile_length_le (p : α → Bool) (l : List α) : (l.takeWhile p).length ≤ l.length :=
  ( takeWhile_prefix p).length_le

theorem takeWhile_length_mono {q : α → Bool} (hp : Front p l) (hq : Front q l)
    (hpq : ∀ a, p a = true → q a = true) : (l.takeWhile p).length ≤ (l.takeWhile q).length := by
  rw [hp.takeWhile_eq_filter, hq.takeWhile_eq_filter]
  exact (monotone_filter_right l (hpq)).length_le

/-- A range of the reversed list, with the bounds counted from its end. -/
theorem reverse_take_drop {i j : Nat} (hij : i ≤ j) (hj : j ≤ l.length) :
    (l.reverse.take (l.length - i)).drop (l.length - j) = ((l.take j).drop i).reverse := by
  rw [take_reverse, drop_reverse, length_drop]
  have h1 : l.length - (l.length - i) = i := by omega
  have h2 : l.length - i - (l.length - j) = j - i := by omega
  rw [h1, h2, drop_take]

end Bounds
