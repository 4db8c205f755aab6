import Mathlib.Data.List.Sort
import Mathlib.Data.List.Dedup

/- Lists of keyed values, sorted by key, that are joined by key. `r` is a strict order
   of the keys. `joined r xss` has every key that occurs in one of the lists, in order,
   with the values at that key in the order of the lists.

   It can be computed from the front: if the key `t` comes first, its values are at the
   heads of the lists, and the rest is the join of the lists without these heads
   (`joined_step`). Two conditions say when all heads may be taken at once (`SameHead`):
   `AlignedAt` for one key, `Comparable` for all of them. -/
namespace Keyed
open List

variable {K α : Type}

/-- Each list is sorted by key, without repetition. -/
def SortedByKey (r : K → K → Prop) (xss : List (List (K × α))) : Prop :=
  ∀ xs ∈ xss, xs.Pairwise fun x y => r x.1 y.1

/-- The key `t` is at the head of a list, and no head comes before it. -/
structure First (r : K → K → Prop) (xss : List (List (K × α))) (t : K) : Prop where
  head : ∃ xs ∈ xss, ∃ x ∈ xs.head?, x.1 = t
  least : ∀ xs ∈ xss, ∀ x ∈ xs.head?, x.1 = t ∨ r t x.1

def SameHead (xss : List (List (K × α))) (t : K) : Prop := ∀ xs ∈ xss, ∀ x ∈ xs.head?, x.1 = t

/-- A list that goes on after the key `t` has it. -/
def AlignedAt (r : K → K → Prop) (xss : List (List (K × α))) (t : K) : Prop :=
  ∀ xs ∈ xss, (∃ x ∈ xs, r t x.1) → ∃ x ∈ xs, x.1 = t

/-- The keys of one list are the first keys of the other. -/
def Comparable (xss : List (List (K × α))) : Prop :=
  ∀ xs ∈ xss, ∀ ys ∈ xss, xs.map Prod.fst <+: ys.map Prod.fst ∨ ys.map Prod.fst <+: xs.map Prod.fst

section Defs
variable [DecidableEq K]

/-- The key `t` at the head of the list is taken. -/
def advance (t : K) : List (K × α) → List (K × α)
  | [] => []
  | x :: xs => if x.1 = t then xs else x :: xs

def valuesAt (t : K) (xss : List (List (K × α))) : List α :=
  xss.filterMap fun xs => (xs.find? fun x => x.1 = t).map Prod.snd

/-- The values at the heads with the key `t`. -/
def headsAt (t : K) (xss : List (List (K × α))) : List α :=
  xss.filterMap fun xs => (xs.head?.filter fun x => x.1 = t).map Prod.snd

variable (r : K → K → Prop) [DecidableRel r]

def keys (xss : List (List (K × α))) : List K :=
  (xss.flatMap fun xs => xs.map Prod.fst).dedup.insertionSort fun a b => ¬ r b a

/-- The keys in order, and the values at each of them. -/
def joined (xss : List (List (K × α))) : List (K × List α) :=
  (keys r xss).map fun t => (t, valuesAt t xss)

end Defs

variable {xss : List (List (K × α))} {t : K}

theorem SameHead.map_tail [DecidableEq K] (h : SameHead xss t) :
    xss.map tail = xss.map (advance t) := by
  apply map_congr_left
  intro xs hxs
  cases xs with
  | nil => rfl
  | cons x xs => exact (if_pos (h _ hxs x rfl)).symm

variable {r : K → K → Prop}

theorem SameHead.aligned (h : SameHead xss t) : AlignedAt r xss t := by
  intro xs hxs hex
  obtain ⟨x, hx, -⟩ := hex
  cases xs with
  | nil => cases hx
  | cons y ys => exact ⟨y, mem_cons_self, h _ hxs y rfl⟩

theorem SameHead.first (h : SameHead xss t)
    (hhead : ∃ xs ∈ xss, ∃ x ∈ xs.head?, x.1 = t) : First r xss t :=
  ⟨hhead, fun xs hxs x hx => .inl (h xs hxs x hx)⟩

theorem SortedByKey.map {f : List (K × α) → List (K × α)} (hs : SortedByKey r xss)
    (hf : ∀ xs, f xs <:+ xs) : SortedByKey r (xss.map f) := by
  intro ys hys
  obtain ⟨xs, hxs, rfl⟩ := mem_map.mp hys
  exact (hs xs hxs).sublist (hf xs).sublist

theorem advance_suffix [DecidableEq K] (xs : List (K × α)) : advance t xs <:+ xs := by
  cases xs with
  | nil => exact suffix_refl _
  | cons x xs =>
    rw [advance]
    split
    · exact suffix_cons x xs
    · exact suffix_refl _

theorem valuesAt_advance [DecidableEq K] {s : K} (hne : s ≠ t) :
    valuesAt t (xss.map (advance s)) = valuesAt t xss := by
  rw [valuesAt, filterMap_map]
  apply filterMap_congr
  intro xs _
  cases xs with
  | nil => rfl
  | cons x xs =>
    by_cases heq : x.1 = s
    · simp [advance, heq, hne]
    · simp [advance, heq]

theorem mem_keys [DecidableEq K] [DecidableRel r] :
    t ∈ keys r xss ↔ ∃ xs ∈ xss, ∃ x ∈ xs, x.1 = t := by simp [keys]

theorem joined_nil [DecidableEq K] [DecidableRel r]
    (h : ∀ xs ∈ xss, xs = []) : joined r xss = [] := by
  have hkeys : keys r xss = [] := by
    rw [eq_nil_iff_forall_not_mem]
    intro s hmem
    obtain ⟨xs, hxs, x, hx, -⟩ := mem_keys.mp hmem
    rw [h xs hxs] at hx
    cases hx
  rw [joined, hkeys]
  rfl

/-! ## Taking the first key -/

section Order
variable {r : K → K → Prop} [IsStrictTotalOrder K r] {xs : List (K × α)}

section
variable (hs : SortedByKey r xss)
include hs

theorem First.le (h : First r xss t) (hxs : xs ∈ xss) {x : K × α}
    (hx : x ∈ xs) : x.1 = t ∨ r t x.1 := by
  cases xs with
  | nil => cases hx
  | cons y ys =>
    have hy := h.least _ hxs y rfl
    rcases mem_cons.mp hx with rfl | hmem
    · exact hy
    · have hlt := (pairwise_cons.mp (hs _ hxs)).1 x hmem
      rcases hy with heq | hr
      · exact .inr (heq ▸ hlt)
      · exact .inr (IsTrans.trans _ _ _ hr hlt)

theorem First.level (h : First r xss t) (ha : AlignedAt r xss t) : SameHead xss t := by
  intro xs hxs x hx
  rcases h.least xs hxs x hx with heq | hlt
  · exact heq
  · cases xs with
    | nil => cases hx
    | cons y ys =>
      cases hx
      obtain ⟨z, hz, heq⟩ := ha _ hxs ⟨x, mem_cons_self, hlt⟩
      rcases mem_cons.mp hz with rfl | hz
      · exact heq
      · have := (pairwise_cons.mp (hs _ hxs)).1 z hz
        rw [heq] at this
        exact absurd this (asymm hlt)

variable [DecidableEq K]

omit hs in
theorem mem_advance (hs : xs.Pairwise fun x y => r x.1 y.1) (hle : ∀ x ∈ xs, x.1 = t ∨ r t x.1)
    {x : K × α} : x ∈ advance t xs ↔ x ∈ xs ∧ r t x.1 := by
  cases xs with
  | nil => simp [advance]
  | cons y ys =>
    obtain ⟨hy, -⟩ := pairwise_cons.mp hs
    rw [advance]
    split
    · next heq =>
      constructor
      · intro hx
        exact ⟨mem_cons_of_mem y hx, heq ▸ hy x hx⟩
      · intro hx
        rcases mem_cons.mp hx.1 with rfl | hmem
        · exact absurd (heq ▸ hx.2) (irrefl _)
        · exact hmem
    · next hne =>
      have hlt := (hle y mem_cons_self).resolve_left hne
      refine ⟨fun hx => ⟨hx, ?_⟩, And.left⟩
      rcases mem_cons.mp hx with rfl | hmem
      · exact hlt
      · exact IsTrans.trans _ _ _ hlt (hy x hmem)

/-- The condition at a later key does not see that the first one is taken. -/
theorem aligned_advance {s : K} (h : First r xss s) (hst : r s t) :
    AlignedAt r (xss.map (advance s)) t ↔ AlignedAt r xss t := by
  have hmem : ∀ xs ∈ xss, ∀ x : K × α, x.1 = t ∨ r t x.1 → (x ∈ advance s xs ↔ x ∈ xs) := by
    intro xs hxs x hx
    rw [mem_advance (hs xs hxs) (fun y hy => h.le hs hxs hy)]
    refine ⟨And.left, fun hin => ⟨hin, ?_⟩⟩
    rcases hx with heq | hlt
    · exact heq ▸ hst
    · exact IsTrans.trans _ _ _ hst hlt
  simp only [AlignedAt, forall_mem_map]
  refine forall_congr' fun xs => forall_congr' fun hxs => ?_
  constructor
  · intro ha hex
    obtain ⟨x, hx, hlt⟩ := hex
    obtain ⟨y, hy, heq⟩ := ha ⟨x, (hmem xs hxs x (.inr hlt)).mpr hx, hlt⟩
    exact ⟨y, (hmem xs hxs y (.inl heq)).mp hy, heq⟩
  · intro ha hex
    obtain ⟨x, hx, hlt⟩ := hex
    obtain ⟨y, hy, heq⟩ := ha ⟨x, (hmem xs hxs x (.inr hlt)).mp hx, hlt⟩
    exact ⟨y, (hmem xs hxs y (.inl heq)).mpr hy, heq⟩

theorem valuesAt_first (h : First r xss t) : valuesAt t xss = headsAt t xss := by
  apply filterMap_congr
  intro xs hxs
  cases xs with
  | nil => rfl
  | cons x xs =>
    by_cases heq : x.1 = t
    · simp [Option.filter, heq]
    · have hlt := (h.least _ hxs x rfl).resolve_left heq
      have hnone : xs.find? (fun y => y.1 = t) = none := by
        rw [find?_eq_none]
        intro y hy hyt
        have := (pairwise_cons.mp (hs _ hxs)).1 y hy
        rw [of_decide_eq_true hyt] at this
        exact asymm hlt this
      simp [heq, hnone]

variable [DecidableRel r]

omit hs in
theorem keys_pairwise (r : K → K → Prop) [IsStrictTotalOrder K r] [DecidableRel r]
    (xss : List (List (K × α))) : (keys r xss).Pairwise r := by
  have : Std.Total fun a b => ¬ r b a := ⟨fun a b => by
    by_cases hab : r a b
    · exact .inl (asymm hab)
    · exact .inr hab⟩
  have : IsTrans K fun a b => ¬ r b a := ⟨fun a b c hba hcb hca => by
    rcases trichotomous_of r a b with hab | rfl | hab
    · exact hcb (IsTrans.trans _ _ _ hca hab)
    · exact hcb hca
    · exact hba hab⟩
  have hsorted := pairwise_insertionSort (fun a b => ¬ r b a)
    (xss.flatMap fun xs => xs.map Prod.fst).dedup
  have hnodup : (keys r xss).Nodup :=
    (perm_insertionSort _ _).nodup_iff.mpr (nodup_dedup _)
  apply (hsorted.and hnodup).imp
  intro a b hab
  rcases trichotomous_of r a b with hlt | heq | hgt
  · exact hlt
  · exact absurd heq hab.2
  · exact absurd hgt hab.1

theorem mem_keys_advance (h : First r xss t) {s : K} :
    s ∈ keys r (xss.map (advance t)) ↔ s ∈ keys r xss ∧ r t s := by
  simp only [mem_keys]
  constructor
  · intro hex
    obtain ⟨ys, hys, x, hx, rfl⟩ := hex
    obtain ⟨xs, hxs, rfl⟩ := mem_map.mp hys
    rw [mem_advance (hs xs hxs) (fun y hy => h.le hs hxs hy)] at hx
    exact ⟨⟨xs, hxs, x, hx.1, rfl⟩, hx.2⟩
  · intro hex
    obtain ⟨⟨xs, hxs, x, hx, rfl⟩, hlt⟩ := hex
    refine ⟨_, mem_map_of_mem hxs, x, ?_, rfl⟩
    rw [mem_advance (hs xs hxs) (fun y hy => h.le hs hxs hy)]
    exact ⟨hx, hlt⟩

theorem keys_step (h : First r xss t) : keys r xss = t :: keys r (xss.map (advance t)) := by
  apply (keys_pairwise r xss).eq_of_mem_iff
  · rw [pairwise_cons]
    exact ⟨fun s hmem => ((mem_keys_advance hs h).mp hmem).2, keys_pairwise r _⟩
  · intro s
    rw [mem_cons, mem_keys_advance hs h]
    constructor
    · intro hin
      obtain ⟨xs, hxs, x, hx, rfl⟩ := mem_keys.mp hin
      rcases h.le hs hxs hx with heq | hlt
      · exact .inl heq
      · exact .inr ⟨hin, hlt⟩
    · intro hor
      rcases hor with rfl | hin
      · obtain ⟨xs, hxs, x, hx, heq⟩ := h.head
        exact mem_keys.mpr ⟨xs, hxs, x, mem_of_mem_head? hx, heq⟩
      · exact hin.1

theorem joined_step (h : First r xss t) :
    joined r xss = (t, headsAt t xss) :: joined r (xss.map (advance t)) := by
  rw [joined, keys_step hs h, map_cons, valuesAt_first hs h]
  congr 1
  apply map_congr_left
  intro s hmem
  rw [valuesAt_advance]
  intro heq
  exact irrefl _ (heq ▸ ((mem_keys_advance hs h).mp hmem).2)

end

end Order

/-! ## Lists with the same first keys -/

theorem Comparable.level (h : Comparable xss) (hhead : ∃ xs ∈ xss, ∃ x ∈ xs.head?, x.1 = t) :
    SameHead xss t := by
  obtain ⟨xs, hxs, x, hx, rfl⟩ := hhead
  intro ys hys y hy
  cases xs with
  | nil => cases hx
  | cons x' xs =>
    cases ys with
    | nil => cases hy
    | cons y' ys =>
      cases hx
      cases hy
      rcases h _ hxs _ hys with hp | hp
      · exact (cons_prefix_cons.mp hp).1.symm
      · exact (cons_prefix_cons.mp hp).1

theorem Comparable.tail (h : Comparable xss) : Comparable (xss.map tail) := by
  intro xs' hxs' ys' hys'
  obtain ⟨xs, hxs, rfl⟩ := mem_map.mp hxs'
  obtain ⟨ys, hys, rfl⟩ := mem_map.mp hys'
  cases xs with
  | nil => exact .inl nil_prefix
  | cons x xs =>
    cases ys with
    | nil => exact .inr nil_prefix
    | cons y ys =>
      rcases h _ hxs _ hys with hp | hp
      · exact .inl (cons_prefix_cons.mp hp).2
      · exact .inr (cons_prefix_cons.mp hp).2

theorem SameHead.comparable (hl : SameHead xss t) (h : Comparable (xss.map tail)) :
    Comparable xss := by
  intro xs hxs ys hys
  cases xs with
  | nil => exact .inl nil_prefix
  | cons x xs =>
    cases ys with
    | nil => exact .inr nil_prefix
    | cons y ys =>
      have hx := hl _ hxs x rfl
      have hy := hl _ hys y rfl
      rcases h _ (mem_map_of_mem hxs) _ (mem_map_of_mem hys) with hp | hp
      · exact .inl (cons_prefix_cons.mpr ⟨hx.trans hy.symm, hp⟩)
      · exact .inr (cons_prefix_cons.mpr ⟨hy.trans hx.symm, hp⟩)

end Keyed
