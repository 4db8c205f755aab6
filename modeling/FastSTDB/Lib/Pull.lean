import Mathlib.Data.List.Basic

/- Pull operators. An operator is a state machine that is asked for at most `n`
   elements at a time; each answer carries a status, the elements produced and
   the next state, and may change an environment the operator shares with
   others. `none` stands for an abort of the whole program.

   `Serves s xs` says that the state `s` still has the items `xs` to deliver:
   whatever the environment and the buffer size, an answer delivers a front part
   of the items, in the form a `Format` prescribes, and either says `ok` and
   delivered something, or says `eod`, delivered everything and left room in the
   buffer. `Serves` is the largest relation with that property: it is proved by
   exhibiting an invariant (`Serves.coinduct`) and used one answer at a time
   (`Serves.step`). -/
namespace Pull
open Option

structure Reply (S β σ Φ : Type) where
  status : S
  out : List β
  next : σ
  env : Φ

/-- A read function: environment, state, buffer size. -/
abbrev Reader (S β σ Φ : Type) := Φ → σ → Nat → Option (Reply S β σ Φ)

/-- How items appear in the output: `Emits xs out` says that `out` stands for
`xs`, and an operator that has `xs` left is asked for more than `room xs`
elements at a time. -/
structure Format (α β : Type) where
  room : List α → Nat
  Emits : List α → List β → Prop

/-- Outputs of consecutive items may be put together, and what remains after some
outputs fits into what remains of the buffer. -/
structure Format.Lawful {α β : Type} (F : Format α β) : Prop where
  nil : F.Emits [] []
  append : ∀ {xs ys out out'}, F.Emits xs out → F.Emits ys out' →
    F.Emits (xs ++ ys) (out ++ out')
  front : ∀ xs ys, F.room xs ≤ F.room (xs ++ ys)
  rest : ∀ {xs ys out n}, F.Emits xs out → F.room (xs ++ ys) < n → out.length < n →
    F.room ys < n - out.length

def Format.same (α : Type) : Format α α where
  room _ := 0
  Emits xs out := out = xs

theorem Format.same_lawful (α : Type) : (Format.same α).Lawful where
  nil := rfl
  append h h' := congrArg₂ _ h h'
  front _ _ := Nat.le_refl 0
  rest _ _ h := Nat.sub_pos_of_lt h

/-- Asked for `n` elements, `I` stays true of the state and `P` is true of what is delivered. -/
def Keeps {S β σ Φ : Type} (rd : Reader S β σ Φ) (n : Nat) (I : σ → Prop) (P : β → Prop) : Prop :=
  ∀ φ s r, I s → rd φ s n = some r → I r.next ∧ ∀ b ∈ r.out, P b

section Contract
variable {S α β σ Φ : Type} (rd : Reader S β σ Φ) (ok eod : S) (F : Format α β)

/-- What one answer from state `s`, still to deliver `xs`, has to satisfy, with
`R` telling what the next state is to deliver. -/
def Answers (R : σ → List α → Prop) (s : σ) (xs : List α) : Prop :=
  ∀ (φ : Φ) (n : Nat), F.room xs < n → ∃ r xs₁ xs₂, rd φ s n = some r ∧
    xs = xs₁ ++ xs₂ ∧ F.Emits xs₁ r.out ∧ r.out.length ≤ n ∧ R r.next xs₂ ∧
    (r.status = ok ∧ r.out ≠ [] ∨ r.status = eod ∧ xs₂ = [] ∧ r.out.length < n)

/-- The state `s` delivers exactly the items `xs`. -/
def Serves (s : σ) (xs : List α) : Prop :=
  ∃ R : σ → List α → Prop, (∀ s xs, R s xs → Answers rd ok eod F R s xs) ∧ R s xs

variable {rd ok eod F}

variable {s : σ} {xs : List α}

theorem Answers.mono {R R' : σ → List α → Prop} (h : ∀ s xs, R s xs → R' s xs)
    (ha : Answers rd ok eod F R s xs) : Answers rd ok eod F R' s xs := by
  intro φ n hn
  obtain ⟨r, xs1, xs2, hc, hx, he, hl, hR, hs⟩ := ha φ n hn
  exact ⟨r, xs1, xs2, hc, hx, he, hl, h _ _ hR, hs⟩

theorem Serves.step (h : Serves rd ok eod F s xs) :
    Answers rd ok eod F (Serves rd ok eod F) s xs := by
  obtain ⟨R, hR, hs⟩ := h
  exact (hR s xs hs).mono (fun s' xs' h' => ⟨R, hR, h'⟩)

theorem Serves.coinduct (R : σ → List α → Prop)
    (hR : ∀ s xs, R s xs → Answers rd ok eod F R s xs) (h : R s xs) :
    Serves rd ok eod F s xs := ⟨R, hR, h⟩

theorem Serves.weaken {F' : Format α β} (hroom : ∀ xs, F.room xs ≤ F'.room xs)
    (hemits : ∀ xs out, F.Emits xs out → F'.Emits xs out) (h : Serves rd ok eod F s xs) :
    Serves rd ok eod F' s xs := by
  refine .coinduct (Serves rd ok eod F) ?_ h
  intro s xs h φ n hn
  obtain ⟨r, xs1, xs2, hr, hx, he, hrest⟩ := h.step φ n (Nat.lt_of_le_of_lt (hroom xs) hn)
  exact ⟨r, xs1, xs2, hr, hx, hemits _ _ he, hrest⟩

/-- An operator embedded into another type of states serves the same items. -/
theorem Serves.map_state {τ : Type} {rd' : Reader S β τ Φ} (f : σ → τ)
    (hf : ∀ φ s n, rd' φ (f s) n = (rd φ s n).map (fun r => ⟨r.status, r.out, f r.next, r.env⟩))
    (h : Serves rd ok eod F s xs) : Serves rd' ok eod F (f s) xs := by
  refine .coinduct (fun t xs => ∃ s, t = f s ∧ Serves rd ok eod F s xs) ?_ ⟨s, rfl, h⟩
  rintro _ xs ⟨s, rfl, h⟩ φ n hn
  obtain ⟨r, xs1, xs2, hr, hx, he, hl, hR, hs⟩ := h.step φ n hn
  refine ⟨⟨r.status, r.out, f r.next, r.env⟩, xs1, xs2, ?_, hx, he, hl, ⟨r.next, rfl, hR⟩, hs⟩
  rw [hf, hr, map_some]

end Contract

section Drain
variable {S β σ Φ : Type} [DecidableEq S] (rd : Reader S β σ Φ) (ok : S)

/-- Read with the successive buffer sizes `sizes 0`, `sizes 1`, ... until an
answer delivers nothing or has a status other than `ok`; the elements of all
answers, and the last status. At most `fuel` reads. -/
def drain : Nat → Φ → σ → (Nat → Nat) → Option (List β × S)
  | 0, _, _, _ => none
  | fuel + 1, φ, s, sizes =>
    (rd φ s (sizes 0)).bind fun r =>
      if r.status = ok ∧ r.out.length ≠ 0 then
        (drain fuel r.env r.next (fun i => sizes (i + 1))).map (fun p => (r.out ++ p.1, p.2))
      else some (r.out, r.status)

variable {rd ok} {eod : S}

theorem drain_mono {fuel fuel' : Nat} (hle : fuel ≤ fuel') :
    ∀ {φ : Φ} {s : σ} {sizes : Nat → Nat} {p : List β × S},
      drain rd ok fuel φ s sizes = some p → drain rd ok fuel' φ s sizes = some p := by
  induction fuel generalizing fuel' with
  | zero => intro φ s sizes p h; cases h
  | succ fuel ih =>
    intro φ s sizes p h
    obtain ⟨fuel', rfl⟩ : ∃ k, fuel' = k + 1 := ⟨fuel' - 1, by omega⟩
    rw [drain] at h ⊢
    cases hr : rd φ s (sizes 0) with
    | none =>
      rw [hr] at h
      cases h
    | some r =>
      rw [hr] at h
      rw [bind_some] at h ⊢
      split at h
      next hc =>
        obtain ⟨q, hq, hp⟩ := map_eq_some_iff.mp h
        rw [if_pos hc, ih (by omega) hq, map_some, hp]
      next hc => rw [if_neg hc, h]

theorem drain_unique {fuel fuel' : Nat} {φ : Φ} {s : σ} {sizes : Nat → Nat} {p q : List β × S}
    (hp : drain rd ok fuel φ s sizes = some p) (hq : drain rd ok fuel' φ s sizes = some q) :
    p = q := by
  have hp' := drain_mono (Nat.le_max_left fuel fuel') hp
  have hq' := drain_mono (Nat.le_max_right fuel fuel') hq
  exact some.inj (hp'.symm.trans hq')

/-- A state that serves `xs` drains to their outputs and ends with `eod`, whatever the
buffer sizes, in at most one read more than there are items. -/
theorem Serves.drain_map {α : Type} {F : Format α β} {f : α → β} {xs : List α} {s : σ}
    (h : Serves rd ok eod F s xs) (hF : ∀ xs out, F.Emits xs out → out = xs.map f) :
    ∀ (fuel : Nat) (φ : Φ) (sizes : Nat → Nat), xs.length < fuel →
      (∀ i ys, F.room ys < sizes i) → drain rd ok fuel φ s sizes = some (xs.map f, eod) := by
  intro fuel
  induction fuel generalizing xs s with
  | zero => intro φ sizes hf; omega
  | succ fuel ih =>
    intro φ sizes hf hs
    obtain ⟨r, xs1, xs2, hc, hx, he, -, hR, hst⟩ := h.step φ (sizes 0) (hs 0 xs)
    have hout := hF _ _ he
    simp only [drain, hc, bind_some]
    by_cases hmore : r.status = ok ∧ r.out.length ≠ 0
    · have hlt : xs2.length < fuel := by
        rw [hout, List.length_map] at hmore
        rw [hx, List.length_append] at hf
        omega
      rw [if_pos hmore, ih hR r.env _ hlt (fun i => hs (i + 1)), hx, hout, List.map_append]
      rfl
    · rw [if_neg hmore]
      rcases hst with ⟨hok, hne⟩ | ⟨heod, hnil, -⟩
      · exact absurd ⟨hok, fun h0 => hne (List.length_eq_zero_iff.mp h0)⟩ hmore
      · rw [hx, hnil, List.append_nil, hout, heod]

theorem Serves.drain_eq {xs : List β} {s : σ} (h : Serves rd ok eod (.same β) s xs)
    (fuel : Nat) (φ : Φ) (sizes : Nat → Nat) (hf : xs.length < fuel) (hs : ∀ i, 0 < sizes i) :
    drain rd ok fuel φ s sizes = some (xs, eod) := by
  rw [h.drain_map (fun ys out he => he.trans (List.map_id ys).symm) fuel φ
    sizes hf fun i _ => hs i, List.map_id]

end Drain
end Pull
