import Mathlib.Logic.Basic

/- Forward simulation of computations that may fail. `Refines R x y` says that `x` follows
   `y`: when `y` has a result, so has `x`, and the two results are related by `R`. Where `y`
   fails, nothing is said about `x`. -/
namespace Simulation

variable {α β γ δ : Type} {R : α → β → Prop} {Q : γ → δ → Prop}

def Refines (R : α → β → Prop) (x : Option α) (y : Option β) : Prop :=
  ∀ b, y = some b → ∃ a, x = some a ∧ R a b

theorem Refines.some {a : α} {b : β} (h : R a b) : Refines R (some a) (some b) := by
  intro b' hb
  cases hb
  exact ⟨a, rfl, h⟩

variable {x : Option α}

theorem Refines.none : Refines R x none := by
  intro b hb
  cases hb

theorem Refines.bind {y : Option β} {f : α → Option γ} {g : β → Option δ} (h : Refines R x y)
    (hf : ∀ a b, R a b → Refines Q (f a) (g b)) : Refines Q (x.bind f) (y.bind g) := by
  intro d hd
  obtain ⟨b, hb, hg⟩ := Option.bind_eq_some_iff.mp hd
  obtain ⟨a, rfl, hR⟩ := h b hb
  exact hf a b hR d hg

theorem Refines.map {y : Option β} {f : α → γ} {g : β → δ} (h : Refines R x y)
    (hf : ∀ a b, R a b → Q (f a) (g b)) : Refines Q (x.map f) (y.map g) := by
  intro d hd
  obtain ⟨b, hb, rfl⟩ := Option.map_eq_some_iff.mp hd
  obtain ⟨a, rfl, hR⟩ := h b hb
  exact ⟨f a, rfl, hf a b hR⟩

theorem Refines.ite {p : Prop} [Decidable p] {x1 x2 : Option α} {y1 y2 : Option β}
    (h1 : p → Refines R x1 y1) (h2 : ¬ p → Refines R x2 y2) :
    Refines R (if p then x1 else x2) (if p then y1 else y2) := by
  split
  next hp => exact h1 hp
  next hp => exact h2 hp

end Simulation
