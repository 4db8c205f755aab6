import Mathlib.Data.List.Perm.Basic
import Mathlib.Data.List.Basic

/- Merging of several streams with a heap. `worse a b` says that `b` comes before `a`.

   `Takes` is one run of a merge: elements are taken one after the other, each time
   the head of some stream, such that no other head comes before it. If the streams
   are sorted, so is what is taken; and nothing is lost or taken twice.

   A heap is the list of its items in the order in which they were pushed.
   `LawfulPop` is what every heap promises: it gives out an item that no other one
   comes before. `stablePop` is the heap that gives out, of several such items, the
   one that was pushed first.

   Without a heap, the streams are looked through for the least key (`least`) each
   time an element is taken; `leastFirst` is the order that this gives. -/
namespace Merging
open List Option

variable {α : Type} {a : α}

theorem forall_mem_set {P : α → Prop} {l : List α} (h : ∀ a ∈ l, P a) (ha : P a) (i : Nat) :
    ∀ b ∈ l.set i a, P b := by
  intro b hb
  rcases mem_or_eq_of_mem_set hb with hb | rfl
  · exact h b hb
  · exact ha

/-! ## Runs of a merge -/

section Streams
variable {worse : α → α → Prop} {out : List α} {streams : List (List α)} {rest : List (List α)}

/-- Taking `out` from the streams leaves the streams at the end. -/
inductive Takes (worse : α → α → Prop) : List (List α) → List α → List (List α) → Prop
  | refl (streams : List (List α)) : Takes worse streams [] streams
  | cons {streams rest : List (List α)} {i : Nat} {a : α} {s out : List α}
      (head : streams[i]? = some (a :: s))
      (best : ∀ t ∈ streams, ∀ b ∈ t.head?, ¬ worse a b)
      (tail : Takes worse (streams.set i s) out rest) : Takes worse streams (a :: out) rest

theorem Takes.trans {mid : List (List α)} {out' : List α} (h : Takes worse streams out mid)
    (h' : Takes worse mid out' rest) : Takes worse streams (out ++ out') rest := by
  induction h with
  | refl => exact h'
  | cons head best _ ih => exact .cons head best (ih h')

theorem flatten_perm_set {i : Nat} {u s : List α} (h : streams[i]? = some (u ++ s)) :
    streams.flatten.Perm (u ++ (streams.set i s).flatten) := by
  induction streams generalizing i with
  | nil => simp at h
  | cons t streams ih =>
    cases i with
    | zero =>
      obtain rfl : t = u ++ s := by simpa using h
      rw [set_cons_zero, flatten_cons, flatten_cons, append_assoc]
    | succ i =>
      have hperm := ih h
      exact (hperm.append_left t).trans (perm_append_comm_assoc _ _ _)

theorem flatten_set_perm {i : Nat} (hi : i < streams.length) (u : List α) :
    (streams.set i u).flatten.Perm (u ++ (streams.set i []).flatten) := by
  have hset : (streams.set i u)[i]? = some (u ++ []) := by rw [getElem?_set_self hi, append_nil]
  simpa using flatten_perm_set hset

theorem Takes.perm
    (h : Takes worse streams out rest) : streams.flatten.Perm (out ++ rest.flatten) := by
  induction h with
  | refl => exact Perm.refl _
  | cons head _ _ ih =>
    have hperm := flatten_perm_set (u := [_]) head
    exact hperm.trans (ih.cons _)

/-- When nothing remains, every stream stands in what was taken. -/
theorem Takes.sublist (h : Takes worse streams out rest) (hrest : rest.flatten = []) :
    ∀ s ∈ streams, s <+ out := by
  induction h with
  | refl =>
    intro s hs
    rw [flatten_eq_nil_iff.mp hrest s hs]
  | @cons streams rest i a s out head _ tail ih =>
    intro t ht
    obtain ⟨j, hj⟩ := mem_iff_getElem?.mp ht
    rcases eq_or_ne i j with rfl | hne
    · cases head.symm.trans hj
      refine (ih hrest s ?_).cons_cons a
      exact mem_of_getElem? (getElem?_set_self (List.getElem?_eq_some_iff.mp head).1)
    · exact (ih hrest t (mem_of_getElem? ((getElem?_set_ne hne).trans hj))).cons a

/-- What is taken from sorted streams is sorted, and comes before what remains. -/
theorem Takes.sorted (htrans : ∀ a b c, ¬ worse a b → ¬ worse b c → ¬ worse a c)
    (h : Takes worse streams out rest) (hs : ∀ s ∈ streams, s.Pairwise fun a b => ¬ worse a b) :
    out.Pairwise fun a b => ¬ worse a b := by
  induction h with
  | refl => exact Pairwise.nil
  | @cons streams rest i a s out head best tail ih =>
    have hmem : a :: s ∈ streams := mem_of_getElem? head
    have hset := forall_mem_set hs (pairwise_cons.mp (hs _ hmem)).2 i
    refine Pairwise.cons ?_ (ih hset)
    -- every later element stands in some stream, behind a head that was there too
    intro b hb
    have hb' : b ∈ (streams.set i s).flatten := tail.perm.mem_iff.mpr (mem_append_left _ hb)
    obtain ⟨t, ht, hbt⟩ := mem_flatten.mp hb'
    rcases mem_or_eq_of_mem_set ht with ht | rfl
    · cases t with
      | nil => cases hbt
      | cons c t =>
        have hac : ¬ worse a c := best _ ht c rfl
        rcases mem_cons.mp hbt with rfl | hbt
        · exact hac
        · exact htrans a c b hac ((pairwise_cons.mp (hs _ ht)).1 b hbt)
    · exact (pairwise_cons.mp (hs _ hmem)).1 b hbt

/-- If every stream has a key of its own elements, the next element of a key stands at the head
of a stream. -/
theorem Takes.next {β : Type} {key : α → β} (h : Takes worse streams out rest)
    (hkey : ∀ s ∈ streams, ∀ a ∈ s, ∀ b ∈ s, key a = key b) {v1 v2 : List α} {y : α}
    (heq : out = v1 ++ y :: v2) (hne : ∀ z ∈ v1, key z ≠ key y) :
    ∃ s ∈ streams, s.head? = some y := by
  induction h generalizing v1 with
  | refl => simp at heq
  | @cons streams rest i a s out head best tail ih =>
    have hmem : a :: s ∈ streams := mem_of_getElem? head
    cases v1 with
    | nil =>
      cases heq
      exact ⟨_, hmem, rfl⟩
    | cons z v1 =>
      rw [cons_append, cons.injEq] at heq
      obtain ⟨rfl, heq⟩ := heq
      have hset : ∀ t ∈ streams.set i s, ∀ b ∈ t, ∀ c ∈ t, key b = key c := by
        intro t ht b hb c hc
        rcases mem_or_eq_of_mem_set ht with ht | rfl
        · exact hkey t ht b hb c hc
        · exact hkey _ hmem b (mem_cons_of_mem _ hb) c (mem_cons_of_mem _ hc)
      obtain ⟨t, ht, hhead⟩ := ih hset heq (forall_mem_cons.mp hne).2
      rcases mem_or_eq_of_mem_set ht with ht | rfl
      · exact ⟨t, ht, hhead⟩
      · -- the stream that was taken from has another key
        have hy : y ∈ a :: t := mem_cons_of_mem _ (mem_of_mem_head? hhead)
        exact absurd (hkey _ hmem a mem_cons_self y hy) (hne a mem_cons_self)

end Streams

/-! ## Heaps -/

section Heaps

/-- What a heap promises: the item given out is one that no other comes before. -/
structure LawfulPop (worse : α → α → Bool) (pop : List α → Option (α × List α)) : Prop where
  none : ∀ {items}, pop items = none → items = []
  some : ∀ {items a rest}, pop items = some (a, rest) →
    items.Perm (a :: rest) ∧ ∀ b ∈ rest, worse a b = false

/-- Take out the first item with a property. -/
def popFirst (p : α → Bool) : List α → Option (α × List α)
  | [] => none
  | a :: items =>
    if p a then some (a, items) else (popFirst p items).map fun r => (r.1, a :: r.2)

/-- The heap that keeps items of equal rank in the order of insertion. -/
def stablePop (worse : α → α → Bool) (items : List α) : Option (α × List α) :=
  popFirst (fun a => items.all fun b => !worse a b) items

variable {items : List α} {worse : α → α → Bool}

theorem popFirst_some {p : α → Bool} {rest : List α} (h : popFirst p items = some (a, rest)) :
    ∃ before after, items = before ++ a :: after ∧ rest = before ++ after ∧ p a = true ∧
      ∀ b ∈ before, p b = false := by
  induction items generalizing rest with
  | nil => cases h
  | cons c items ih =>
    rw [popFirst] at h
    split at h
    next hp =>
      cases h
      exact ⟨[], items, rfl, rfl, hp, by simp⟩
    next hp =>
      obtain ⟨⟨a', rest'⟩, hpop, heq⟩ := map_eq_some_iff.mp h
      cases heq
      obtain ⟨before, after, hitems, hrest, ha, hbefore⟩ := ih hpop
      refine ⟨c :: before, after, ?_, ?_, ha, ?_⟩
      · rw [hitems, cons_append]
      · simp [hrest]
      · intro b hb
        rcases mem_cons.mp hb with rfl | hb
        · simpa using hp
        · exact hbefore b hb

theorem popFirst_none {p : α → Bool} (h : popFirst p items = none) : ∀ a ∈ items, p a = false := by
  induction items with
  | nil => simp
  | cons c items ih =>
    rw [popFirst] at h
    split at h
    next => cases h
    next hp =>
      intro a ha
      rcases mem_cons.mp ha with rfl | ha
      · simpa using hp
      · exact ih (map_eq_none_iff.mp h) a ha

section
variable (hirrefl : ∀ a, worse a a = false)
  (htrans : ∀ a b c, worse a b = false → worse b c = false → worse a c = false)
  (htotal : ∀ a b, worse a b = true → worse b a = false)
include hirrefl htrans htotal

theorem exists_best :
    ∀ items : List α, items ≠ [] → ∃ a ∈ items, ∀ b ∈ items, worse a b = false := by
  intro items
  induction items with
  | nil => exact absurd rfl
  | cons c items ih =>
    intro _
    by_cases hnil : items = []
    · subst hnil
      exact ⟨c, mem_cons_self, by simpa using hirrefl c⟩
    · obtain ⟨a, ha, hbest⟩ := ih hnil
      cases hac : worse a c with
      | false =>
        refine ⟨a, mem_cons_of_mem _ ha, ?_⟩
        exact forall_mem_cons.mpr ⟨hac, hbest⟩
      | true =>
        refine ⟨c, mem_cons_self, ?_⟩
        intro b hb
        rcases mem_cons.mp hb with rfl | hb
        · exact hirrefl b
        · exact htrans c a b (htotal a c hac) (hbest b hb)

theorem stablePop_lawful : LawfulPop worse (stablePop worse) where
  none := by
    intro items h
    by_contra hne
    obtain ⟨a, ha, hbest⟩ := exists_best hirrefl htrans htotal items hne
    have hp := popFirst_none h a ha
    simp only [List.all_eq_false, Bool.not_eq_true'] at hp
    obtain ⟨b, hb, hbad⟩ := hp
    exact hbad (hbest b hb)
  some := by
    intro items a rest h
    obtain ⟨before, after, hitems, hrest, ha, -⟩ := popFirst_some h
    refine ⟨?_, ?_⟩
    · rw [hitems, hrest]
      exact perm_middle
    · intro b hb
      have hb' : b ∈ items := by
        rw [hitems]
        rw [hrest] at hb
        rcases mem_append.mp hb with hb | hb
        · exact mem_append_left _ hb
        · exact mem_append_right _ (mem_cons_of_mem _ hb)
      simpa using all_eq_true.mp ha b hb'

end

theorem stablePop_some {rest : List α} (h : stablePop worse items = some (a, rest)) :
    ∃ before after, items = before ++ a :: after ∧ rest = before ++ after ∧
      (∀ c ∈ items, worse a c = false) ∧ ∀ b ∈ before, ∃ c ∈ items, worse b c = true := by
  obtain ⟨before, after, hitems, hrest, ha, hbefore⟩ := popFirst_some h
  refine ⟨before, after, hitems, hrest, ?_, ?_⟩
  · intro c hc
    simpa using all_eq_true.mp ha c hc
  · intro b hb
    have hbad := hbefore b hb
    rw [List.all_eq_false] at hbad
    obtain ⟨c, hc, hworse⟩ := hbad
    exact ⟨c, hc, by simpa using hworse⟩

end Heaps

/-! ## The least key -/

section Least

/-- The place of the first least key among those from place `ix` on and the best one
before, which is given with its place. -/
def leastFrom : Option (Nat × Nat) → Nat → List (Option Nat) → Option Nat
  | best, _, [] => best.map Prod.fst
  | best, ix, none :: ks => leastFrom best (ix + 1) ks
  | none, ix, some k :: ks => leastFrom (some (ix, k)) (ix + 1) ks
  | some (i, b), ix, some k :: ks =>
    leastFrom (if k < b then some (ix, k) else some (i, b)) (ix + 1) ks

def least (ks : List (Option Nat)) : Option Nat := leastFrom none 0 ks

theorem leastFrom_best (ks : List (Option Nat)) : ∀ i b ix : Nat, ∃ j k,
    leastFrom (some (i, b)) ix ks = some j ∧ k ≤ b ∧ (∀ k', some k' ∈ ks → k ≤ k') ∧
      ((j, k) = (i, b) ∨ ∃ m, j = ix + m ∧ ks[m]? = some (some k)) := by
  induction ks with
  | nil => exact fun i b _ => ⟨i, b, rfl, Nat.le_refl b, fun _ h => (by cases h), .inl rfl⟩
  | cons k? ks ih =>
    intro i b ix
    cases k? with
    | none =>
      obtain ⟨j, k, hj, hle, hall, hplace⟩ := ih i b (ix + 1)
      refine ⟨j, k, hj, hle, ?_, ?_⟩
      · intro k' hk'
        exact hall k' ((mem_cons.mp hk').resolve_left (fun h => (by cases h)))
      · refine hplace.imp id ?_
        rintro ⟨m, rfl, hm⟩
        exact ⟨m + 1, by omega, hm⟩
    | some c =>
      rw [leastFrom]
      split
      · next hlt =>
        obtain ⟨j, k, hj, hle, hall, hplace⟩ := ih ix c (ix + 1)
        refine ⟨j, k, hj, Nat.le_of_lt (Nat.lt_of_le_of_lt hle hlt), ?_, .inr ?_⟩
        · intro k' hk'
          rcases mem_cons.mp hk' with heq | hk'
          · cases heq
            exact hle
          · exact hall k' hk'
        · rcases hplace with heq | ⟨m, rfl, hm⟩
          · cases heq
            exact ⟨0, rfl, rfl⟩
          · exact ⟨m + 1, by omega, hm⟩
      · next hge =>
        obtain ⟨j, k, hj, hle, hall, hplace⟩ := ih i b (ix + 1)
        refine ⟨j, k, hj, hle, ?_, ?_⟩
        · intro k' hk'
          rcases mem_cons.mp hk' with heq | hk'
          · cases heq
            omega
          · exact hall k' hk'
        · refine hplace.imp id ?_
          rintro ⟨m, rfl, hm⟩
          exact ⟨m + 1, by omega, hm⟩

theorem leastFrom_none (ks : List (Option Nat)) : ∀ ix : Nat,
    leastFrom none ix ks = none ∧ (∀ k ∈ ks, k = none) ∨
      ∃ m k, leastFrom none ix ks = some (ix + m) ∧ ks[m]? = some (some k) ∧
        ∀ k', some k' ∈ ks → k ≤ k' := by
  induction ks with
  | nil => exact fun _ => .inl ⟨rfl, forall_mem_nil _⟩
  | cons k? ks ih =>
    intro ix
    cases k? with
    | none =>
      rcases ih (ix + 1) with ⟨hnone, hall⟩ | ⟨m, k, hsome, hm, hall⟩
      · refine .inl ⟨hnone, ?_⟩
        intro k hk
        exact (mem_cons.mp hk).elim id (hall k)
      · refine .inr ⟨m + 1, k, ?_, hm, ?_⟩
        · rw [leastFrom, hsome, Nat.add_assoc, Nat.add_comm 1 m]
        · intro k' hk'
          exact hall k' ((mem_cons.mp hk').resolve_left (fun h => (by cases h)))
    | some c =>
      obtain ⟨j, k, hj, hle, hall, hplace⟩ := leastFrom_best ks ix c (ix + 1)
      have hleast : ∀ k', some k' ∈ some c :: ks → k ≤ k' := by
        intro k' hk'
        rcases mem_cons.mp hk' with heq | hk'
        · cases heq
          exact hle
        · exact hall k' hk'
      rcases hplace with heq | ⟨m, rfl, hm⟩
      · cases heq
        exact .inr ⟨0, c, hj, rfl, hleast⟩
      · refine .inr ⟨m + 1, k, ?_, hm, hleast⟩
        rw [leastFrom, hj, Nat.add_assoc, Nat.add_comm 1 m]

theorem least_cases (ks : List (Option Nat)) : least ks = none ∧ (∀ k ∈ ks, k = none) ∨
      ∃ i k, least ks = some i ∧ ks[i]? = some (some k) ∧ ∀ k', some k' ∈ ks → k ≤ k' := by
  have h := leastFrom_none ks 0
  simp only [Nat.zero_add] at h
  exact h

variable (key : α → Nat)

def headKeys (streams : List (List α)) : List (Option Nat) := streams.map fun s => s.head?.map key

/-- At most `fuel` elements, each the one with the least key at the time. -/
def takeLeast : Nat → List (List α) → List α
  | 0, _ => []
  | fuel + 1, streams =>
    match least (headKeys key streams) with
    | none => []
    | some i =>
      match streams[i]? with
      | some (a :: s) => a :: takeLeast fuel (streams.set i s)
      | _ => []

/-- All elements, each the one with the least key at the time. -/
def leastFirst (streams : List (List α)) : List α := takeLeast key streams.flatten.length streams

variable {key} {streams : List (List α)}

theorem flatten_length_set {i : Nat} {s : List α} (h : streams[i]? = some (a :: s)) :
    streams.flatten.length = (streams.set i s).flatten.length + 1 :=
  (flatten_perm_set (u := [a]) h).length_eq

theorem leastFirst_cons {i : Nat} {s : List α} (hleast : least (headKeys key streams) = some i)
    (h : streams[i]? = some (a :: s)) :
    leastFirst key streams = a :: leastFirst key (streams.set i s) := by
  rw [leastFirst, flatten_length_set h, takeLeast, hleast]
  simp only [h]
  rfl

theorem headKeys_cases (key : α → Nat) :
    least (headKeys key streams) = none ∧ streams.flatten = [] ∨
      ∃ i a s, least (headKeys key streams) = some i ∧ streams[i]? = some (a :: s) ∧
        ∀ t ∈ streams, ∀ b ∈ t.head?, key a ≤ key b := by
  rcases least_cases (headKeys key streams) with ⟨hnone, hall⟩ | ⟨i, k, hsome, hi, hall⟩
  · refine .inl ⟨hnone, ?_⟩
    rw [flatten_eq_nil_iff]
    intro s hs
    have hkey := hall _ (mem_map_of_mem hs)
    exact head?_eq_none_iff.mp (map_eq_none_iff.mp hkey)
  · rw [headKeys, getElem?_map, map_eq_some_iff] at hi
    obtain ⟨t, ht, hhead⟩ := hi
    obtain ⟨a, ha, rfl⟩ := map_eq_some_iff.mp hhead
    obtain ⟨s, rfl⟩ := head?_eq_some_iff.mp ha
    refine .inr ⟨i, a, s, hsome, ht, ?_⟩
    intro t ht b hb
    apply hall
    rw [headKeys, List.mem_map]
    exact ⟨t, ht, by rw [hb, map_some]⟩

theorem takes_takeLeast (key : α → Nat) (fuel : Nat) : ∀ streams : List (List α),
    streams.flatten.length ≤ fuel → ∃ rest,
      Takes (fun a b => key b < key a) streams (takeLeast key fuel streams) rest ∧
        rest.flatten = [] := by
  induction fuel with
  | zero =>
    intro streams hle
    exact ⟨streams, .refl streams, length_eq_zero_iff.mp (Nat.le_zero.mp hle)⟩
  | succ fuel ih =>
    intro streams hle
    rw [takeLeast]
    rcases headKeys_cases key with ⟨hnone, hnil⟩ | ⟨i, a, s, hsome, hi, hbest⟩
    · rw [hnone]
      exact ⟨streams, .refl streams, hnil⟩
    · have hlen := flatten_length_set hi
      obtain ⟨rest, htakes, hrest⟩ := ih (streams.set i s) (by omega)
      simp only [hsome, hi]
      exact ⟨rest, .cons hi (fun t ht b hb => Nat.not_lt.mpr (hbest t ht b hb)) htakes, hrest⟩

theorem leastFirst_perm (key : α → Nat) (streams : List (List α)) :
    (leastFirst key streams).Perm streams.flatten := by
  obtain ⟨rest, htakes, hrest⟩ := takes_takeLeast key _ streams (Nat.le_refl _)
  have hperm := htakes.perm
  rw [hrest, append_nil] at hperm
  exact hperm.symm

theorem leastFirst_singleton (key : α → Nat) (s : List α) : leastFirst key [s] = s := by
  induction s with
  | nil => rfl
  | cons a s ih =>
    have hleast : least (headKeys key [a :: s]) = some 0 := rfl
    calc leastFirst key [a :: s] = a :: leastFirst key [s] := leastFirst_cons hleast rfl
      _ = a :: s := by rw [ih]

theorem leastFirst_sorted (h : ∀ s ∈ streams, s.Pairwise fun a b => key a ≤ key b) :
    (leastFirst key streams).Pairwise fun a b => key a ≤ key b := by
  obtain ⟨rest, htakes, -⟩ := takes_takeLeast key _ streams (Nat.le_refl _)
  have htrans : ∀ a b c : α, ¬ key b < key a → ¬ key c < key b → ¬ key c < key a := by
    omega
  have hstreams : ∀ s ∈ streams, s.Pairwise fun a b => ¬ key b < key a :=
    fun s hs => (h s hs).imp Nat.not_lt.mpr
  exact (htakes.sorted htrans hstreams).imp Nat.not_lt.mp

end Least
end Merging
