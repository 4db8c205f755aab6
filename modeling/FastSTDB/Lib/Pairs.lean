import Mathlib.Data.List.Forall2

/- Lists related element by element: members have partners, and a pair can be
   split off at either end. -/
namespace Pairs
open List

variable {α β : Type} {R : α → β → Prop} {l : List α} {l' : List β} {b : β}

section
variable (h : Forall₂ R l l')
include h

theorem exists_left (hb : b ∈ l') : ∃ a ∈ l, R a b := by
  induction h with
  | nil => cases hb
  | cons hab _ ih =>
    rcases mem_cons.mp hb with rfl | hb
    · exact ⟨_, mem_cons_self, hab⟩
    · obtain ⟨a, ha, hr⟩ := ih hb
      exact ⟨a, mem_cons_of_mem _ ha, hr⟩

theorem exists_right {a : α} (ha : a ∈ l) : ∃ b ∈ l', R a b := exists_left h.flip ha

theorem append {m : List α} {m' : List β} (hm : Forall₂ R m m') :
    Forall₂ R (l ++ m) (l' ++ m') := rel_append h hm

theorem concat {a : α} (hab : R a b) : Forall₂ R (l ++ [a]) (l' ++ [b]) := append h (.cons hab .nil)

end

theorem split : ∀ {l1 l2 : List α} {l' : List β}, Forall₂ R (l1 ++ l2) l' →
    ∃ m1 m2, Forall₂ R l1 m1 ∧ Forall₂ R l2 m2 ∧ l' = m1 ++ m2
  | [], _, l', h => ⟨[], l', .nil, h, rfl⟩
  | _ :: _, _, _, .cons hab h => by
    obtain ⟨m1, m2, h1, h2, rfl⟩ := split h
    exact ⟨_ :: m1, m2, .cons hab h1, h2, rfl⟩

theorem mapM_pure {m : Type → Type} [Monad m] [LawfulMonad m] {γ : Type} {f : α → m γ} {g : β → γ}
    (h : Forall₂ (fun a b => f a = pure (g b)) l l') : l.mapM f = pure (l'.map g) := by
  induction h with
  | nil => rfl
  | cons ha _ ih => simp [ha, ih]

theorem at_index (h : Forall₂ R l l') {i : Nat} (hb : l'[i]? = some b) :
    ∃ a, l[i]? = some a ∧ R a b := by
  induction h generalizing i with
  | nil => simp at hb
  | cons hab _ ih =>
    cases i with
    | zero =>
      cases hb
      exact ⟨_, rfl, hab⟩
    | succ i => exact ih hb

theorem of_index (hlen : l.length = l'.length)
    (h : ∀ (i : Nat) (a : α), l[i]? = some a → ∃ b, l'[i]? = some b ∧ R a b) : Forall₂ R l l' := by
  induction l generalizing l' with
  | nil =>
    rw [length_eq_zero_iff.mp hlen.symm]
    exact .nil
  | cons a l ih =>
    cases l' with
    | nil => cases hlen
    | cons b l' =>
      obtain ⟨b', hb', hab⟩ := h 0 a rfl
      cases hb'
      exact .cons hab (ih (Nat.succ.inj hlen) fun i c hc => h (i + 1) c hc)

section
variable (h : Forall₂ R l l')
include h

theorem set_both {a : α} (hab : R a b) (i : Nat) : Forall₂ R (l.set i a) (l'.set i b) := by
  induction h generalizing i with
  | nil => exact .nil
  | cons hcd h ih =>
    cases i with
    | zero => exact .cons hab h
    | succ i => exact .cons hcd (ih i)

theorem imp_mem {S : α → β → Prop} (hS : ∀ a ∈ l, ∀ b ∈ l', R a b → S a b) : Forall₂ S l l' := by
  induction h with
  | nil => exact .nil
  | cons hab _ ih =>
    refine .cons (hS _ mem_cons_self _ mem_cons_self hab) (ih ?_)
    intro a ha b hb
    exact hS a (mem_cons_of_mem _ ha) b (mem_cons_of_mem _ hb)

theorem head (hne : l ≠ []) : ∃ a b m', l.head? = some a ∧ l' = b :: m' ∧ R a b := by
  cases h with
  | nil => exact absurd rfl hne
  | cons hab _ => exact ⟨_, _, _, rfl, rfl, hab⟩

theorem last (hne : l ≠ []) : ∃ a b m', l.getLast? = some a ∧ l' = m' ++ [b] ∧ R a b := by
  obtain ⟨a, b, m', ha, hb, hr⟩ := head (rel_reverse h) (by simpa using hne)
  refine ⟨a, b, m'.reverse, by rw [← head?_reverse, ha], ?_, hr⟩
  rw [← reverse_reverse l', hb, reverse_cons]

end

end Pairs
