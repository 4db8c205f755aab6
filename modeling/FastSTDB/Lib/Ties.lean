import Mathlib.Data.List.Induction
import Mathlib.Data.List.Nodup
import Mathlib.Data.Nat.Find
import Mathlib.Data.Prod.Lex
import Mathlib.Order.Lattice

/- The order of a stable merge among elements of equal time. An element is a pair
   of the number of its series and its time. A merge puts out the elements of all
   series by time; among equal times it is first in, first out: of two series whose
   next elements have the same time, the one comes first that entered the queue
   first. A series enters the queue when its element before was put out, and every
   `period` elements all series enter it anew, in the order of their numbers.

   `stamp` is the rank in the queue after the elements `u` were put out, and `Fifo`
   the rule of the merge. `sorted_of_inOrder` and `inOrder_of_sorted` say for which
   series the result is sorted by time and then by series: `InOrder`, a condition on
   the elements as a set. -/
namespace Ties
open List

variable {τ : Type}

section Order
variable [LinearOrder τ]

/-- By time, then by series. -/
def Earlier (a b : Nat × τ) : Prop := a.2 < b.2 ∨ a.2 = b.2 ∧ a.1 < b.1

instance (a b : Nat × τ) : Decidable (Earlier a b) := inferInstanceAs (Decidable (_ ∨ _))

theorem earlier_iff {a b : Nat × τ} : Earlier a b ↔ toLex a.swap < toLex b.swap := by
  rw [Prod.Lex.toLex_lt_toLex]
  rfl

theorem Earlier.trans {a b c : Nat × τ} (hab : Earlier a b) (hbc : Earlier b c) : Earlier a c :=
  earlier_iff.mpr ((earlier_iff.mp hab).trans (earlier_iff.mp hbc))

theorem Earlier.irrefl (a : Nat × τ) : ¬ Earlier a a := fun h => lt_irrefl _ (earlier_iff.mp h)

theorem Earlier.asymm {a b : Nat × τ} (h : Earlier a b) : ¬ Earlier b a :=
  fun h' => Earlier.irrefl a (h.trans h')

theorem Earlier.time_le {a b : Nat × τ} (h : Earlier a b) : a.2 ≤ b.2 := by
  rcases h with h | ⟨h, -⟩
  · exact le_of_lt h
  · exact le_of_eq h

end Order

/-! ## Positions -/

/-- The position of the last element of a series. -/
def lastPos : List (Nat × τ) → Nat → Option Nat
  | [], _ => none
  | x :: u, i =>
    match lastPos u i with
    | some p => some (p + 1)
    | none => if x.1 = i then some 0 else none

theorem lastPos_concat (u : List (Nat × τ)) (x : Nat × τ) (i : Nat) :
    lastPos (u ++ [x]) i = if x.1 = i then some u.length else lastPos u i := by
  induction u with
  | nil => by_cases h : x.1 = i <;> simp [lastPos]
  | cons y u ih =>
    rw [cons_append, lastPos, ih]
    by_cases h : x.1 = i
    · simp [h]
    · simp [h, lastPos]

variable {i : Nat} {u : List (Nat × τ)} {t : τ} {p : Nat}

theorem lastPos_eq_none : lastPos u i = none ↔ ∀ x ∈ u, x.1 ≠ i := by
  induction u with
  | nil => simp [lastPos]
  | cons x u ih =>
    rw [lastPos, forall_mem_cons, ← ih]
    cases lastPos u i with
    | some p => simp
    | none => simp

theorem lastPos_split (h : lastPos u i = some p) :
    ∃ a s b, u = a ++ (i, s) :: b ∧ a.length = p ∧ ∀ x ∈ b, x.1 ≠ i := by
  induction u generalizing p with
  | nil => cases h
  | cons x u ih =>
    rw [lastPos] at h
    cases hu : lastPos u i with
    | some q =>
      rw [hu] at h
      cases h
      obtain ⟨a, s, b, rfl, hlen, hb⟩ := ih hu
      exact ⟨x :: a, s, b, rfl, by rw [length_cons, hlen], hb⟩
    | none =>
      rw [hu] at h
      dsimp only at h
      split at h
      next hx =>
        cases h
        refine ⟨[], x.2, u, ?_, rfl, lastPos_eq_none.mp hu⟩
        rw [← hx]
        rfl
      next => cases h

theorem lastPos_lt (h : lastPos u i = some p) : p < u.length := by
  obtain ⟨a, s, b, rfl, rfl, -⟩ := lastPos_split h
  simp

section Ranks
variable [LinearOrder τ]

/-- The number of elements before `q`. -/
def rank (K : List (Nat × τ)) (q : Nat × τ) : Nat := K.countP fun r => decide (Earlier r q)

/-- In a list whose front is in order and before the rest, the position of an element of the
front is its rank. -/
theorem rank_eq_length {a b : List (Nat × τ)} {q : Nat × τ} (ha : ∀ x ∈ a, Earlier x q)
    (hb : ∀ x ∈ b, ¬ Earlier x q) : rank (a ++ b) q = a.length := by
  rw [rank, countP_append, countP_eq_length.mpr, countP_eq_zero.mpr, Nat.add_zero]
  · intro x hx
    simpa using hb x hx
  · intro x hx
    simpa using ha x hx

variable {K : List (Nat × τ)}

theorem rank_lt {a b : Nat × τ} (ha : a ∈ K) (hab : Earlier a b) : rank K a < rank K b := by
  obtain ⟨l, r, rfl⟩ := append_of_mem ha
  have hmono : ∀ m : List (Nat × τ), rank m a ≤ rank m b := by
    intro m
    refine countP_mono_left fun x _ hx => ?_
    rw [decide_eq_true_eq] at hx ⊢
    exact hx.trans hab
  have hl := hmono l
  have hr := hmono r
  simp only [rank, countP_append, countP_cons, Earlier.irrefl, hab, decide_true,
    decide_false, if_true, Bool.false_eq_true, if_false] at hl hr ⊢
  omega

/-- `p` is the last time of the series `i` before `t`. -/
def IsPrev (K : List (Nat × τ)) (i : Nat) (t p : τ) : Prop :=
  (i, p) ∈ K ∧ p < t ∧ ∀ s, (i, s) ∈ K → s < t → s ≤ p

theorem IsPrev.unique {p q : τ} (hp : IsPrev K i t p) (hq : IsPrev K i t q) : p = q :=
  le_antisymm (hq.2.2 p hp.1 hp.2.1) (hp.2.2 q hq.1 hq.2.1)

end Ranks

/-! ## The rule of the merge -/

section Rule
variable (n period : Nat)

/-- The rank of a series in a queue that was built anew when `B` elements were put out, after `u`
was put out. -/
def stampSince (B : Nat) (u : List (Nat × τ)) (i : Nat) : Nat :=
  match lastPos u i with
  | some p => if p < B then i else n + p
  | none => i

/-- The rank when the queue is built anew every `period` elements. -/
def stamp (u : List (Nat × τ)) (i : Nat) : Nat := stampSince n (period * (u.length / period)) u i

/-- `y` is the next element of its series in `v`. -/
def Next (v : List (Nat × τ)) (y : Nat × τ) : Prop :=
  ∃ v₁ v₂, v = v₁ ++ y :: v₂ ∧ ∀ z ∈ v₁, z.1 ≠ y.1

/-- The rule for the elements that come after `u`: of two series whose next elements have the same
time, the one comes first that entered the queue first. -/
def Fifo (u w : List (Nat × τ)) : Prop :=
  ∀ u' x v, w = u' ++ x :: v → ∀ y, Next v y → y.1 ≠ x.1 → y.2 = x.2 →
    stamp n period (u ++ u') x.1 < stamp n period (u ++ u') y.1

/-- For two series with an element at the same time: the elements before are in order too, or
the queue is built anew between them. -/
def InOrder [LinearOrder τ] (K : List (Nat × τ)) : Prop :=
  ∀ i j t, i < j → (i, t) ∈ K → (j, t) ∈ K → ∀ p, IsPrev K i t p →
    (∃ q, IsPrev K j t q ∧ p ≤ q) ∨
      ∃ k, rank K (i, p) < period * k ∧ period * k ≤ rank K (i, t)

end Rule

section Sorted
variable {n period : Nat} {K u v : List (Nat × τ)}

variable {x : Nat × τ}

theorem Fifo.cons {w : List (Nat × τ)}
    (hx : ∀ y, Next w y → y.1 ≠ x.1 → y.2 = x.2 → stamp n period u x.1 < stamp n period u y.1)
    (h : Fifo n period (u ++ [x]) w) : Fifo n period u (x :: w) := by
  intro u' x' v heq
  cases u' with
  | nil =>
    cases heq
    rw [append_nil]
    exact hx
  | cons z u' =>
    rw [cons_append, cons.injEq] at heq
    obtain ⟨rfl, heq⟩ := heq
    have hlater := h u' x' v heq
    rwa [append_assoc] at hlater

theorem stamp_eq {k : Nat} (hle : period * k ≤ u.length) (hlt : u.length < period * k + period) :
    stamp n period u i = stampSince n (period * k) u i := by
  have hdiv : u.length / period = k := Nat.div_eq_of_lt_le (by rwa [Nat.mul_comm])
    (by rwa [Nat.mul_comm])
  rw [stamp, hdiv]

theorem stampSince_self : stampSince n u.length u i = i := by
  rw [stampSince]
  split
  next p hp => rw [if_pos (lastPos_lt hp)]
  next => rfl

theorem stampSince_lt {B : Nat} (hi : i < n) : stampSince n B u i < n + u.length := by
  rw [stampSince]
  split
  next p hp =>
    have := lastPos_lt hp
    split <;> omega
  next => omega

/-- The series of an element that is put out goes to the end of the queue. -/
theorem stampSince_concat_self {B : Nat} (h : B ≤ u.length) :
    stampSince n B (u ++ [x]) x.1 = n + u.length := by
  rw [stampSince, lastPos_concat, if_pos rfl]
  exact if_neg (not_lt.mpr h)

theorem stampSince_concat_ne {B : Nat} (h : x.1 ≠ i) :
    stampSince n B (u ++ [x]) i = stampSince n B u i := by
  rw [stampSince, stampSince, lastPos_concat, if_neg h]

theorem stampSince_of_lt {B : Nat} (h : lastPos u i = some p) (hp : p < B) :
    stampSince n B u i = i := by
  rw [stampSince, h]
  exact if_pos hp

theorem stampSince_of_ge {B : Nat} (h : lastPos u i = some p) (hp : ¬ p < B) :
    stampSince n B u i = n + p := by
  rw [stampSince, h]
  exact if_neg hp

/-- A series that entered the queue when it was built anew comes before later series. -/
theorem lt_stampSince {B j : Nat} (hij : i < j) (hj : j < n) : i < stampSince n B u j := by
  rw [stampSince]
  split
  · split
    · exact hij
    · omega
  · exact hij

variable [LinearOrder τ]

/-! A list in order up to `v`, in which nothing comes before the time `t`. -/

section Front
variable (hK : K = u ++ v) (hsorted : u.Pairwise Earlier)
  (hfront : ∀ a ∈ u, ∀ b ∈ v, Earlier a b) (hlater : ∀ y ∈ v, t ≤ y.2)
include hK hsorted hfront hlater

theorem prev_of_lastPos (ht : ∀ s, (i, s) ∈ u → s < t) (h : lastPos u i = some p) :
    ∃ s, IsPrev K i t s ∧ rank K (i, s) = p := by
  obtain ⟨a, s, b, hu, hlen, hb⟩ := lastPos_split h
  have hmem : (i, s) ∈ u := by rw [hu]; simp
  rw [hu] at hsorted
  obtain ⟨-, hsb, hab⟩ := pairwise_append.mp hsorted
  have hrest : ∀ x ∈ b ++ v, Earlier (i, s) x :=
    forall_mem_append.mpr ⟨(pairwise_cons.mp hsb).1, hfront _ hmem⟩
  have hsplit : K = a ++ (i, s) :: (b ++ v) := by rw [hK, hu, append_assoc, cons_append]
  refine ⟨s, ⟨?_, ht s hmem, ?_⟩, ?_⟩
  · rw [hsplit]
    simp
  · intro s' hs' hlt
    -- an element of the series before `t` stands at or before the last one
    rw [hsplit] at hs'
    rcases mem_append.mp hs' with hs' | hs'
    · exact (hab _ hs' _ mem_cons_self).time_le
    · rcases mem_cons.mp hs' with heq | hs'
      · cases heq
        exact le_rfl
      · rcases mem_append.mp hs' with hs' | hs'
        · exact absurd rfl (hb _ hs')
        · exact absurd hlt (not_lt.mpr (hlater _ hs'))
  · rw [hsplit, ← hlen]
    apply rank_eq_length
    · intro x hx
      exact hab x hx _ mem_cons_self
    · exact forall_mem_cons.mpr ⟨Earlier.irrefl _, fun x hx => (hrest x hx).asymm⟩

theorem IsPrev.lastPos {s : τ} (h : IsPrev K i t s) (ht : ∀ s, (i, s) ∈ u → s < t) :
    lastPos u i = some (rank K (i, s)) := by
  have hmem : (i, s) ∈ u := by
    have hsK := h.1
    rw [hK] at hsK
    rcases mem_append.mp hsK with hs | hs
    · exact hs
    · exact absurd h.2.1 (not_lt.mpr (hlater _ hs))
  cases hp : Ties.lastPos u i with
  | none => exact absurd rfl (lastPos_eq_none.mp hp _ hmem)
  | some p =>
    obtain ⟨s', hs', hrank⟩ := prev_of_lastPos hK hsorted hfront hlater ht hp
    rw [h.unique hs', hrank]

end Front

theorem exists_least {j : Nat} (h : ∃ i, (i, t) ∈ v ∧ i < j) :
    ∃ i, (i, t) ∈ v ∧ i < j ∧ ∀ k, (k, t) ∈ v → i ≤ k := by
  classical
  obtain ⟨hmem, hlt⟩ := Nat.find_spec h
  refine ⟨Nat.find h, hmem, hlt, fun k hk => ?_⟩
  rcases lt_or_ge k j with hkj | hkj
  · exact Nat.find_min' h ⟨hk, hkj⟩
  · omega

/-- An element of the least time is the next one of its series. -/
theorem next_of_mem (htime : v.Pairwise fun a b => a.2 ≤ b.2) (hnodup : v.Nodup)
    (hlater : ∀ y ∈ v, t ≤ y.2) (hi : (i, t) ∈ v) : Next v (i, t) := by
  obtain ⟨v1, v2, rfl⟩ := append_of_mem hi
  refine ⟨v1, v2, rfl, ?_⟩
  rintro ⟨k, s⟩ hz rfl
  -- an earlier element of the series would have the same time
  have h1 : t ≤ s := hlater _ (mem_append_left _ hz)
  have h2 : s ≤ t := (pairwise_append.mp htime).2.2 _ hz _ mem_cons_self
  obtain rfl : s = t := le_antisymm h2 h1
  exact (nodup_append.mp hnodup).2.2 _ hz _ mem_cons_self rfl

/-- In a list in order up to here, the series of equal time that come next do so in order. -/
theorem stamp_lt (hin : InOrder period K) {j : Nat} (hK : K = u ++ v) (hsorted : u.Pairwise Earlier)
    (hfront : ∀ a ∈ u, ∀ b ∈ v, Earlier a b) (hlater : ∀ y ∈ v, t ≤ y.2) (hi : (i, t) ∈ v)
    (hj : (j, t) ∈ v) (hij : i < j) (hjn : j < n)
    (hrank : rank K (i, t) = u.length) : stamp n period u i < stamp n period u j := by
  have hlt : i < stamp n period u j := lt_stampSince hij hjn
  have hbefore : ∀ {k : Nat}, (k, t) ∈ v → ∀ s, (k, s) ∈ u → s < t := by
    intro k hk s hs
    rcases hfront _ hs _ hk with h | ⟨-, h⟩
    · exact h
    · omega
  have hmem : ∀ {k : Nat}, (k, t) ∈ v → (k, t) ∈ K := fun hk => by
    rw [hK]
    exact mem_append_right _ hk
  rw [stamp] at hlt ⊢
  cases hp : lastPos u i with
  | none => rwa [stampSince, hp]
  | some p =>
    by_cases hpB : p < period * (u.length / period)
    · rwa [stampSince_of_lt hp hpB]
    · obtain ⟨s, hprev, hs⟩ := prev_of_lastPos hK hsorted hfront hlater (hbefore hi) hp
      rcases hin i j t hij (hmem hi) (hmem hj) s hprev with ⟨q, hq, hle⟩ | ⟨k, hk, hk'⟩
      · -- the element before `(j, t)` came after the one before `(i, t)`
        have hpj := hq.lastPos hK hsorted hfront hlater (hbefore hj)
        have hearlier : Earlier (i, s) (j, q) := (lt_or_eq_of_le hle).imp_right fun h => ⟨h, hij⟩
        have hppj := rank_lt hprev.1 hearlier
        rw [hs] at hppj
        rw [stampSince_of_ge hp hpB, stamp, stampSince_of_ge hpj fun h => hpB (hppj.trans h)]
        omega
      · -- the queue was built anew after the element before `(i, t)`
        rw [hs] at hk
        rw [hrank] at hk'
        have hpos : 0 < period := Nat.pos_of_mul_pos_right (Nat.zero_lt_of_lt hk)
        have hkle : k ≤ u.length / period := (Nat.le_div_iff_mul_le hpos).mpr
          (by rwa [Nat.mul_comm])
        exact absurd (hk.trans_le (Nat.mul_le_mul_left period hkle)) hpB

section
variable (hidx : ∀ x ∈ K, x.1 < n) (htime : K.Pairwise fun a b => a.2 ≤ b.2) (hnodup : K.Nodup)
  (hfifo : Fifo n period [] K) (hin : InOrder period K)
include hidx htime hnodup hfifo hin

/-- The next element is the earliest one, if the elements before came in order. -/
theorem next_earliest (hK : K = u ++ x :: v) (hsorted : u.Pairwise Earlier)
    (hfront : ∀ a ∈ u, ∀ b ∈ x :: v, Earlier a b) : ∀ y ∈ v, Earlier x y := by
  obtain ⟨j, t⟩ := x
  have htime' : ((j, t) :: v).Pairwise fun a b => a.2 ≤ b.2 := by
    rw [hK] at htime
    exact (pairwise_append.mp htime).2.1
  have hnodup' : ((j, t) :: v).Nodup := by
    rw [hK] at hnodup
    exact (nodup_append.mp hnodup).2.1
  have hlater : ∀ y ∈ (j, t) :: v, t ≤ y.2 :=
    forall_mem_cons.mpr ⟨le_rfl, (pairwise_cons.mp htime').1⟩
  by_contra hbad
  -- the least series that should have come first
  obtain ⟨⟨i, s⟩, hy, hnot⟩ : ∃ y ∈ v, ¬ Earlier (j, t) y := by
    by_contra h
    exact hbad fun y hy => by_contra fun hne => h ⟨y, hy, hne⟩
  have hst : s = t := le_antisymm (not_lt.mp fun h => hnot (.inl h))
    (hlater _ (mem_cons_of_mem _ hy))
  subst hst
  have hne : i ≠ j := by
    rintro rfl
    exact (nodup_cons.mp hnodup').1 hy
  have hle : ¬ j < i := fun h => hnot (.inr ⟨rfl, h⟩)
  have hlt : i < j := by omega
  obtain ⟨i, hi, hij, hleast⟩ := exists_least ⟨i, hy, hlt⟩
  have hrank : rank K (i, s) = u.length := by
    rw [hK]
    apply rank_eq_length
    · exact fun a ha => hfront a ha _ (mem_cons_of_mem _ hi)
    · rintro ⟨k, r⟩ hz (h | ⟨h, hk⟩)
      · exact absurd h (not_lt.mpr (hlater _ hz))
      · obtain rfl : r = s := h
        rcases mem_cons.mp hz with heq | hz
        · cases heq
          omega
        · have := hleast k hz
          omega
  have hnext : Next v (i, s) := next_of_mem (pairwise_cons.mp htime').2
    (nodup_cons.mp hnodup').2 (forall_mem_cons.mp hlater).2 hi
  have h1 := hfifo u (j, s) v hK (i, s) hnext hij.ne rfl
  have hjK : (j, s) ∈ K := by rw [hK]; simp
  have h2 := stamp_lt hin hK hsorted hfront hlater (mem_cons_of_mem _ hi)
    mem_cons_self hij (hidx _ hjK) hrank
  exact Nat.lt_asymm h1 h2

theorem sorted_of_inOrder : K.Pairwise Earlier := by
  -- front by front: what was put out is in order and before the rest
  have hfronts : ∀ u v, K = u ++ v → u.Pairwise Earlier ∧ ∀ a ∈ u, ∀ b ∈ v, Earlier a b := by
    intro u
    induction u using reverseRec with
    | nil => exact fun v _ => ⟨.nil, by simp⟩
    | append_singleton u x ih =>
      intro v hK
      have hK' : K = u ++ x :: v := by simpa using hK
      obtain ⟨hsorted, hfront⟩ := ih (x :: v) hK'
      have hx := next_earliest hidx htime hnodup hfifo hin hK' hsorted hfront
      refine ⟨pairwise_append.mpr ⟨hsorted, pairwise_singleton _ _, ?_⟩, ?_⟩
      · intro a ha b hb
        obtain rfl := mem_singleton.mp hb
        exact hfront a ha _ mem_cons_self
      · intro a ha b hb
        rcases mem_append.mp ha with ha | ha
        · exact hfront a ha b (mem_cons_of_mem _ hb)
        · obtain rfl := mem_singleton.mp ha
          exact hx b hb
  exact (hfronts K [] (by simp)).1

end

theorem inOrder_of_sorted (hfifo : Fifo n period [] K) (hidx : ∀ x ∈ K, x.1 < n)
    (hsorted : K.Pairwise Earlier) : InOrder period K := by
  intro i j t hij hi hj p hprev
  obtain ⟨u, v, hK⟩ := append_of_mem hi
  have hpw := hsorted
  rw [hK] at hpw
  obtain ⟨hu, hv, huv⟩ := pairwise_append.mp hpw
  have hxv := (pairwise_cons.mp hv).1
  have hlater : ∀ y ∈ (i, t) :: v, t ≤ y.2 :=
    forall_mem_cons.mpr ⟨le_rfl, fun y hy => (hxv y hy).time_le⟩
  have hbefore : ∀ {k : Nat}, i ≤ k → ∀ s, (k, s) ∈ u → s < t := by
    intro k hk s hs
    rcases huv _ hs _ mem_cons_self with h | ⟨-, h⟩
    · exact h
    · omega
  have hjv : (j, t) ∈ v := by
    rw [hK] at hj
    rcases mem_append.mp hj with h | h
    · exact absurd (hbefore hij.le t h) (lt_irrefl t)
    · rcases mem_cons.mp h with heq | h
      · cases heq
        omega
      · exact h
  have htv : v.Pairwise fun a b => a.2 ≤ b.2 := (pairwise_cons.mp hv).2.imp fun h => h.time_le
  have hnv : v.Nodup := by
    refine (pairwise_cons.mp hv).2.imp ?_
    rintro a _ h rfl
    exact Earlier.irrefl a h
  have hnext : Next v (j, t) :=
    next_of_mem htv hnv (forall_mem_cons.mp hlater).2 hjv
  have hstamp : stamp n period u i < stamp n period u j :=
    hfifo u (i, t) v hK (j, t) hnext hij.ne' rfl
  have hrank : rank K (i, t) = u.length := by
    rw [hK]
    apply rank_eq_length
    · exact fun a ha => huv a ha _ mem_cons_self
    · exact forall_mem_cons.mpr ⟨Earlier.irrefl _, fun y hy => (hxv y hy).asymm⟩
  have hpos := hprev.lastPos hK hu huv hlater (hbefore (le_refl i))
  by_cases hB : rank K (i, p) < period * (u.length / period)
  · refine .inr ⟨u.length / period, hB, ?_⟩
    rw [hrank]
    exact Nat.mul_div_le _ _
  · left
    rw [stamp, stamp, stampSince_of_ge hpos hB] at hstamp
    have hjn : j < n := hidx _ hj
    cases hposj : lastPos u j with
    | none =>
      rw [stampSince, hposj] at hstamp
      dsimp only at hstamp
      omega
    | some pj =>
      by_cases hBj : pj < period * (u.length / period)
      · rw [stampSince_of_lt hposj hBj] at hstamp
        omega
      · rw [stampSince_of_ge hposj hBj] at hstamp
        obtain ⟨q, hq, hrankq⟩ := prev_of_lastPos hK hu huv hlater (hbefore hij.le) hposj
        refine ⟨q, hq, ?_⟩
        by_contra hlt
        -- otherwise the one of series `j` would have been put out before
        have := rank_lt hq.1 (.inl (not_le.mp hlt) : Earlier (j, q) (i, p))
        omega

theorem InOrder.perm {K' : List (Nat × τ)} (hperm : K.Perm K') (h : InOrder period K) :
    InOrder period K' := by
  have hrank : ∀ q, rank K' q = rank K q := fun q => (hperm.countP_eq _).symm
  have hprev : ∀ i t p, IsPrev K' i t p ↔ IsPrev K i t p := by
    intro i t p
    simp only [IsPrev, hperm.mem_iff]
  intro i j t hij hi hj p hp
  have hK := h i j t hij (hperm.mem_iff.mpr hi) (hperm.mem_iff.mpr hj) p ((hprev i t p).mp hp)
  simp only [hrank, hprev]
  exact hK

end Sorted
end Ties
