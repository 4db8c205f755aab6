import FastSTDB.FanIn
import FastSTDB.IteratorSpec
import Mathlib.Algebra.BigOperators.Intervals
import Mathlib.Algebra.Order.BigOperators.Group.Finset

/-
  Draining a fan-in operator

  The results of all inputs are combined timestamp by timestamp, in order
  (`Keyed.joined`), as long as no buffer ends where looked-ahead results are lost:

    forward   at the last timestamp of each full buffer every input that goes on has
              a result (`Keyed.AlignedAt`);
    backward  the operator takes the smallest timestamp first, so the inputs have to
              have the same timestamps as long as they go (`Keyed.Comparable`).

  No result may be at `MAX_TS`, which stands for the end of an input. The condition is
  also necessary if no result is empty: the number of points that are put out is at
  most the number of points in the results that were not lost.

  What is proved:
    1. `fanIn_drain` — draining gives the combined results under this condition, and
       only then.
    2. `fanIn_loses` — a buffer of one element loses a result.
-/
namespace FastSTDB
open List Pull Keyed AggregationResult

variable {V σ Φ : Type} [DoubleArith V]
variable {sizes : Nat → Nat} {iter : List σ} {fuel : Nat} {status : Status}

namespace FanInAggregateOperator

variable {rd : Reader Status (AggOut V) σ Φ} {xss : List (List (AggOut V))}

/-! ## In order -/

/-- `a` comes before `b` in the direction of the operator. -/
def ahead (forward : Bool) (a b : Timestamp) : Prop := if forward then a < b else b < a

instance (forward : Bool) : DecidableRel (ahead forward) :=
  fun a b => inferInstanceAs (Decidable (if forward then a < b else b < a))

instance (forward : Bool) : IsStrictTotalOrder Timestamp (ahead forward) := by
  cases forward with
  | false => exact inferInstanceAs (IsStrictTotalOrder Timestamp (· > ·))
  | true => exact inferInstanceAs (IsStrictTotalOrder Timestamp (· < ·))

/-- A read loses nothing: it puts out the first results and leaves the others. -/
structure Cut (forward : Bool) (k : Nat) (xss : List (List (AggOut V))) : Prop where
  out : (taken k xss).1 = (joined (ahead forward) xss).take k
  rest : joined (ahead forward) (taken k xss).2 = (joined (ahead forward) xss).drop k
  sorted : SortedByKey (ahead forward) (taken k xss).2

variable {forward : Bool}

omit [DoubleArith V] in
theorem map_fst_joined (xss : List (List (AggOut V))) :
    (joined (ahead forward) xss).map Prod.fst = keys (ahead forward) xss := by
  rw [joined, map_map]
  exact map_id _

theorem Cut.keys_rest {k : Nat} (h : Cut forward k xss) :
    keys (ahead forward) (taken k xss).2 = (keys (ahead forward) xss).drop k := by
  rw [← map_fst_joined, h.rest, map_drop, map_fst_joined]

theorem cut_zero (hs : SortedByKey (ahead forward) xss) : Cut forward 0 xss := ⟨rfl, rfl, hs⟩

theorem cut_end (hs : SortedByKey (ahead forward) xss) (hfin : BelowMax xss)
    (hmax : tsminOf xss = maxTimestamp) (room : Nat) : Cut forward (room + 1) xss := by
  have hnil := hfin.nil_of_tsminOf hmax
  have htail : ∀ xs ∈ xss.map tail, xs = [] := by
    intro ys hys
    obtain ⟨xs, hxs, rfl⟩ := mem_map.mp hys
    rw [hnil xs hxs]
    rfl
  refine ⟨?_, ?_, ?_⟩
  · rw [hfin.taken_end hmax, joined_nil hnil]
    rfl
  · rw [hfin.taken_end hmax, joined_nil hnil, joined_nil htail]
    rfl
  · rw [hfin.taken_end hmax]
    exact hs.map tail_suffix

variable {room : Nat} {t : Timestamp} {φ : Φ}

/-- A step after which nothing is lost: if it is the last one, all heads are taken. -/
theorem taken_step (hmax : tsminOf xss ≠ maxTimestamp)
    (hlevel : room = 0 → SameHead xss (tsminOf xss)) : taken (room + 1) xss =
      ((tsminOf xss, headsAt (tsminOf xss) xss) :: (taken room (xss.map (advance (tsminOf xss)))).1,
        (taken room (xss.map (advance (tsminOf xss)))).2) := by
  cases room with
  | zero =>
    rw [taken_last hmax, (hlevel rfl).map_tail]
    rfl
  | succ room => exact taken_more hmax room

theorem Cut.step (hs : SortedByKey (ahead forward) xss)
    (hmax : tsminOf xss ≠ maxTimestamp) (hfirst : First (ahead forward) xss (tsminOf xss))
    (hlevel : room = 0 → SameHead xss (tsminOf xss))
    (h : Cut forward room (xss.map (advance (tsminOf xss)))) : Cut forward (room + 1) xss := by
  have htaken := taken_step hmax hlevel
  refine ⟨?_, ?_, ?_⟩
  · rw [htaken, joined_step hs hfirst, take_succ_cons, ← h.out]
  · rw [htaken, joined_step hs hfirst, drop_succ_cons, ← h.rest]
  · rw [htaken]
    exact h.sorted

theorem first_tsminOf (hmax : tsminOf xss ≠ maxTimestamp) :
    First (ahead true) xss (tsminOf xss) := by
  refine ⟨tsminOf_head hmax, ?_⟩
  intro xs hxs x hx
  rcases eq_or_lt_of_le (tsminOf_le hxs hx) with heq | hlt
  · exact .inl heq.symm
  · exact .inr hlt

/-- Forward: nothing is lost if the inputs are aligned at the last timestamp. -/
theorem cut_forward : ∀ {k : Nat} {xss : List (List (AggOut V))}, SortedByKey (ahead true) xss →
    BelowMax xss →
    (∀ j t, k = j + 1 → (keys (ahead true) xss)[j]? = some t → AlignedAt (ahead true) xss t) →
    Cut true k xss ∧ ∀ t ∈ keys (ahead true) (taken k xss).2,
      (AlignedAt (ahead true) (taken k xss).2 t ↔ AlignedAt (ahead true) xss t)
  | 0, _, hs, _, _ => ⟨cut_zero hs, fun _ _ => Iff.rfl⟩
  | room + 1, xss, hs, hfin, ha => by
    by_cases hmax : tsminOf xss = maxTimestamp
    · have hcut := cut_end hs hfin hmax room
      refine ⟨hcut, ?_⟩
      intro t ht
      have hnil : keys (ahead true) xss = [] := by
        have := joined_nil (r := ahead true) (hfin.nil_of_tsminOf hmax)
        exact map_eq_nil_iff.mp this
      rw [hcut.keys_rest, hnil] at ht
      cases ht
    · have hfirst := first_tsminOf hmax
      have hkeys := keys_step hs hfirst
      have hafter {t : Timestamp} (ht : t ∈ keys (ahead true) (xss.map (advance (tsminOf xss)))) :=
        aligned_advance hs hfirst ((mem_keys_advance hs hfirst).mp ht).2
      obtain ⟨hcut, halign⟩ := cut_forward (hs.map advance_suffix)
        (hfin.map advance_suffix) (by
          intro j t hj ht
          rw [hafter (mem_of_getElem? ht)]
          apply ha (j + 1) t (congrArg (· + 1) hj)
          rw [hkeys]
          exact ht)
      have hlevel : room = 0 → SameHead xss (tsminOf xss) := by
        intro hroom
        apply hfirst.level hs
        apply ha 0 _ (congrArg (· + 1) hroom)
        rw [hkeys]
        rfl
      refine ⟨.step hs hmax hfirst hlevel hcut, ?_⟩
      rw [taken_step hmax hlevel]
      intro t ht
      have hmem : t ∈ keys (ahead true) (xss.map (advance (tsminOf xss))) := by
        rw [hcut.keys_rest] at ht
        exact mem_of_mem_drop ht
      rw [halign t ht, hafter hmem]

/-- Backward: nothing is lost if the inputs have the same timestamps as long as they go. -/
theorem cut_comparable : ∀ {k : Nat} {xss : List (List (AggOut V))},
    SortedByKey (ahead forward) xss → BelowMax xss → Comparable xss →
      Cut forward k xss ∧ Comparable (taken k xss).2
  | 0, _, hs, _, hc => ⟨cut_zero hs, hc⟩
  | room + 1, xss, hs, hfin, hc => by
    by_cases hmax : tsminOf xss = maxTimestamp
    · refine ⟨cut_end hs hfin hmax room, ?_⟩
      rw [hfin.taken_end hmax]
      exact hc.tail
    · have hlevel := hc.level (tsminOf_head hmax)
      have hrest : Comparable (xss.map (advance (tsminOf xss))) := by
        rw [← hlevel.map_tail]
        exact hc.tail
      obtain ⟨hcut, hcomp⟩ := cut_comparable (hs.map advance_suffix)
        (hfin.map advance_suffix) hrest
      refine ⟨.step hs hmax (hlevel.first (tsminOf_head hmax)) (fun _ => hlevel) hcut, ?_⟩
      rw [taken_step hmax fun _ => hlevel]
      exact hcomp

/-- The buffers `sizes 0`, `sizes 1`, ... end where nothing is lost. -/
def KeepsAll (forward : Bool) (xss : List (List (AggOut V))) (sizes : Nat → Nat) : Prop :=
  if forward then
    ∀ m t, (keys (ahead true) xss)[∑ i ∈ Finset.range (m + 1), sizes i - 1]? = some t →
      AlignedAt (ahead true) xss t
  else Comparable xss

theorem boundary_succ (hpos : ∀ i, 0 < sizes i) (m : Nat) :
    ∑ i ∈ Finset.range (m + 1 + 1), sizes i - 1 =
      sizes 0 + (∑ i ∈ Finset.range (m + 1), sizes (i + 1) - 1) := by
  have hone : 0 < ∑ i ∈ Finset.range (m + 1), sizes (i + 1) :=
    Finset.sum_pos (fun i _ => hpos (i + 1)) ⟨0, Finset.mem_range.mpr (Nat.succ_pos m)⟩
  rw [Finset.sum_range_succ']
  omega

theorem KeepsAll.cut (h : KeepsAll forward xss sizes) (hs : SortedByKey (ahead forward) xss)
    (hfin : BelowMax xss) (hpos : ∀ i, 0 < sizes i) : Cut forward (sizes 0) xss ∧
      KeepsAll forward (taken (sizes 0) xss).2 fun i => sizes (i + 1) := by
  cases forward with
  | false => exact cut_comparable hs hfin h
  | true =>
    obtain ⟨hcut, halign⟩ := cut_forward (k := sizes 0) hs hfin (by
      intro j t hj ht
      apply h 0 t
      rw [Finset.sum_range_one, hj]
      exact ht)
    refine ⟨hcut, ?_⟩
    intro m t ht
    rw [halign t (mem_of_getElem? ht)]
    apply h (m + 1) t
    rw [hcut.keys_rest, getElem?_drop] at ht
    rw [boundary_succ hpos, ht]

theorem drain_succ (hyields : Forall₂ (Yields rd) iter xss) (hfin : BelowMax xss)
    (hpos : ∀ i, 0 < sizes i) : ∃ iter' φ', Forall₂ (Yields rd) iter' (taken (sizes 0) xss).2 ∧
      drain (read rd) .ok (fuel + 1) φ ⟨iter⟩ sizes =
        if (taken (sizes 0) xss).1.length = sizes 0 then
          (drain (read rd) .ok fuel φ' ⟨iter'⟩ fun i => sizes (i + 1)).map fun p =>
            (combined (taken (sizes 0) xss).1 ++ p.1, p.2)
        else some (combined (taken (sizes 0) xss).1, .noData) := by
  obtain ⟨iter', φ', hread, hyields'⟩ := read_spec hyields hfin φ (hpos 0)
  refine ⟨iter', φ', hyields', ?_⟩
  rw [drain, hread, Option.bind_some]
  by_cases hfull : (taken (sizes 0) xss).1.length = sizes 0
  · have hlen : (combined (taken (sizes 0) xss).1).length ≠ 0 := by
      rw [combined, length_map, hfull]
      exact ne_of_gt (hpos 0)
    simp only [if_pos hfull]
    rw [if_pos ⟨trivial, hlen⟩]
  · simp only [if_neg hfull]
    rw [if_neg (fun hc => absurd hc.1 (by decide))]

theorem drain_kept (fuel : Nat) (φ : Φ) (hyields : Forall₂ (Yields rd) iter xss)
    (hs : SortedByKey (ahead forward) xss) (hfin : BelowMax xss)
    (hkept : KeepsAll forward xss sizes) (hpos : ∀ i, 0 < sizes i)
    (hlt : (joined (ahead forward) xss).length < fuel) : drain (read rd) .ok fuel φ ⟨iter⟩ sizes =
    some (combined (joined (ahead forward) xss), .noData) := by
  induction fuel generalizing xss iter φ sizes with
  | zero => omega
  | succ fuel ih =>
    obtain ⟨hcut, hkept'⟩ := hkept.cut hs hfin hpos
    obtain ⟨iter', φ', hyields', hdrain⟩ := drain_succ hyields hfin hpos
    rw [hdrain]
    by_cases hfull : (taken (sizes 0) xss).1.length = sizes 0
    · -- a full buffer: the rest comes with the next reads
      have hrest : (joined (ahead forward) (taken (sizes 0) xss).2).length < fuel := by
        have := hpos 0
        rw [hcut.rest, length_drop]
        rw [hcut.out, length_take] at hfull
        omega
      have hnext := ih φ' hyields' hcut.sorted (hfin.taken _) hkept' (fun i => hpos (i + 1)) hrest
      rw [if_pos hfull, hnext, Option.map_some, hcut.rest, hcut.out, combined, combined, combined,
        ← map_append, take_append_drop]
    · have hall : (joined (ahead forward) xss).take (sizes 0) = joined (ahead forward) xss := by
        apply take_of_length_le
        rw [hcut.out, length_take] at hfull
        omega
      rw [if_neg hfull, hcut.out, hall]

/-! ## Points that are lost -/

def points (out : List (AggOut V)) : Nat := (out.map fun x => x.2.cnt).sum

def pointsLeft (xss : List (List (AggOut V))) : Nat := (xss.map points).sum

theorem cnt_joinAll (results : List (AggregationResult V)) :
    (joinAll results).cnt = (results.map cnt).sum := by
  have key : ∀ (results : List (AggregationResult V)) (res : AggregationResult V),
      (results.foldl .combine res).cnt = res.cnt + (results.map cnt).sum := by
    intro results
    induction results with
    | nil => exact fun res => rfl
    | cons x results ih =>
      intro res
      rw [foldl_cons, ih, map_cons, sum_cons, ← add_assoc]
      rfl
  rw [joinAll, key]
  exact zero_add _

theorem points_combined_cons (results : List (AggregationResult V))
    (out : List (Timestamp × List (AggregationResult V))) :
    points (combined ((t, results) :: out)) = (results.map cnt).sum + points (combined out) := by
  rw [combined, map_cons, points, map_cons, cnt_joinAll]
  rfl

omit [DoubleArith V] in
theorem pointsLeft_advance (t : Timestamp) (xss : List (List (AggOut V))) :
    pointsLeft xss = ((headsAt t xss).map cnt).sum +
      pointsLeft (xss.map (advance t)) := by
  induction xss with
  | nil => rfl
  | cons xs xss ih =>
    have hcons : pointsLeft (xs :: xss) = points xs + pointsLeft xss := sum_cons
    have hcons' : pointsLeft ((xs :: xss).map (advance t)) =
        points (advance t xs) + pointsLeft (xss.map (advance t)) := sum_cons
    rw [hcons, hcons', ih]
    cases xs with
    | nil =>
      have hnil : headsAt t ([] :: xss) = headsAt t xss := rfl
      rw [hnil, advance]
      omega
    | cons x xs =>
      have hx : points (x :: xs) = x.2.cnt + points xs := sum_cons
      by_cases heq : x.1 = t
      · have hheads : headsAt t ((x :: xs) :: xss) = x.2 :: headsAt t xss := by
          simp [headsAt, heq, Option.filter]
        rw [hheads, advance, if_pos heq, map_cons, sum_cons]
        omega
      · have hheads : headsAt t ((x :: xs) :: xss) = headsAt t xss := by
          simp [headsAt, heq, Option.filter]
        rw [hheads, advance, if_neg heq]
        omega

omit [DoubleArith V] in
theorem points_tail_le (xs : List (AggOut V)) : points xs.tail ≤ points (advance t xs) := by
  cases xs with
  | nil => exact le_rfl
  | cons x xs =>
    rw [advance]
    split
    · exact le_rfl
    · exact le_add_self

omit [DoubleArith V] in
theorem pointsLeft_tail_le (t : Timestamp) (xss : List (List (AggOut V))) :
    pointsLeft (xss.map tail) ≤ pointsLeft (xss.map (advance t)) := by
  rw [pointsLeft, pointsLeft, map_map, map_map]
  exact sum_le_sum fun xs _ => points_tail_le xs

omit [DoubleArith V] in
/-- A head with points that is not taken is lost. -/
theorem pointsLeft_tail_lt {xs : List (AggOut V)} (hxs : xs ∈ xss) {x : AggOut V}
    (hx : x ∈ xs.head?) (hne : x.1 ≠ t) (hcnt : 0 < x.2.cnt) :
    pointsLeft (xss.map tail) < pointsLeft (xss.map (advance t)) := by
  rw [pointsLeft, pointsLeft, map_map, map_map]
  apply sum_lt_sum
  · exact fun ys _ => points_tail_le ys
  · refine ⟨xs, hxs, ?_⟩
    cases xs with
    | nil => cases hx
    | cons y ys =>
      cases hx
      show points ys < points (advance t (x :: ys))
      rw [advance, if_neg hne]
      exact Nat.lt_add_of_pos_left hcnt

theorem points_taken : ∀ (k : Nat) (xss : List (List (AggOut V))),
    points (combined (taken k xss).1) + pointsLeft (taken k xss).2 ≤ pointsLeft xss
  | 0, xss => le_of_eq (zero_add _)
  | k + 1, xss => by
    by_cases hmax : tsminOf xss = maxTimestamp
    · rw [taken]
      simp only [if_pos hmax]
      exact le_of_eq (zero_add _)
    · have hsplit := pointsLeft_advance (tsminOf xss) xss
      cases k with
      | zero =>
        have htail := pointsLeft_tail_le (tsminOf xss) xss
        rw [taken_last hmax, points_combined_cons]
        show _ + 0 + pointsLeft (xss.map tail) ≤ _
        omega
      | succ k =>
        have hrest := points_taken (k + 1) (xss.map (advance (tsminOf xss)))
        rw [taken_more hmax, points_combined_cons]
        dsimp only
        omega

theorem tsminOf_ne (hfin : BelowMax xss) (ht : t ∈ keys (ahead forward) xss) :
    tsminOf xss ≠ maxTimestamp := by
  intro hmax
  obtain ⟨xs, hxs, x, hx, -⟩ := mem_keys.mp ht
  rw [hfin.nil_of_tsminOf hmax xs hxs] at hx
  cases hx

/-- If the inputs are not aligned at the last timestamp, points are lost. -/
theorem points_taken_lt {k : Nat} (hs : SortedByKey (ahead true) xss) (hfin : BelowMax xss)
    (hcnt : ∀ xs ∈ xss, ∀ x ∈ xs, 0 < x.2.cnt) (ht : (keys (ahead true) xss)[k]? = some t)
    (hnot : ¬ AlignedAt (ahead true) xss t) :
    points (combined (taken (k + 1) xss).1) + pointsLeft (taken (k + 1) xss).2 <
    pointsLeft xss := by
  induction k generalizing xss t with
  | zero =>
    have hmax := tsminOf_ne hfin (mem_of_getElem? ht)
    rw [keys_step hs (first_tsminOf hmax)] at ht
    obtain rfl : tsminOf xss = t := Option.some.inj ht
    -- a head that is not taken
    have hex : ∃ xs ∈ xss, ∃ x ∈ xs.head?, x.1 ≠ tsminOf xss := by
      by_contra hnone
      push Not at hnone
      exact hnot (SameHead.aligned hnone)
    obtain ⟨xs, hxs, x, hx, hne⟩ := hex
    have hlt := pointsLeft_tail_lt hxs hx hne (hcnt xs hxs x (mem_of_mem_head? hx))
    rw [taken_last hmax, points_combined_cons, pointsLeft_advance (tsminOf xss) xss]
    show _ + 0 + pointsLeft (xss.map tail) < _
    omega
  | succ k ih =>
    have hmax := tsminOf_ne hfin (mem_of_getElem? ht)
    have hfirst := first_tsminOf hmax
    rw [keys_step hs hfirst] at ht
    have hafter := ((mem_keys_advance hs hfirst).mp (mem_of_getElem? ht)).2
    have hrest := ih (hs.map advance_suffix) (hfin.map advance_suffix) (by
        intro ys hys y hy
        obtain ⟨xs, hxs, rfl⟩ := mem_map.mp hys
        exact hcnt xs hxs y ((advance_suffix xs).subset hy))
      ht (fun ha => hnot ((aligned_advance hs hfirst hafter).mp ha))
    rw [taken_more hmax, points_combined_cons, pointsLeft_advance (tsminOf xss) xss]
    dsimp only
    omega

/-- Draining puts out no more points than the first read puts out and leaves. -/
theorem points_drain {out : List (AggOut V)}
    (hyields : Forall₂ (Yields rd) iter xss) (hfin : BelowMax xss) (hpos : ∀ i, 0 < sizes i)
    (hdrain : drain (read rd) .ok fuel φ ⟨iter⟩ sizes = some (out, status)) : points out ≤
    points (combined (taken (sizes 0) xss).1) + pointsLeft (taken (sizes 0) xss).2 := by
  induction fuel generalizing xss iter φ sizes out status with
  | zero =>
    cases hdrain
  | succ fuel ih =>
    obtain ⟨iter', φ', hyields', hstep⟩ := drain_succ hyields hfin hpos
    rw [hstep] at hdrain
    split at hdrain
    · obtain ⟨q, hq, heq⟩ := Option.map_eq_some_iff.mp hdrain
      obtain ⟨rfl, -⟩ := Prod.mk.inj heq
      have hrest := ih hyields' (hfin.taken _) (fun i => hpos (i + 1)) hq
      rw [points, map_append, sum_append]
      exact Nat.add_le_add_left (hrest.trans (points_taken _ _)) _
    · obtain ⟨rfl, -⟩ := Prod.mk.inj (Option.some.inj hdrain)
      exact le_self_add

theorem points_joined (n : Nat) (hs : SortedByKey (ahead true) xss)
    (hfin : BelowMax xss) (hlen : (joined (ahead true) xss).length = n) :
    points (combined (joined (ahead true) xss)) = pointsLeft xss := by
  induction n generalizing xss with
  | zero =>
    have hmax : tsminOf xss = maxTimestamp := by
      by_contra hne
      rw [joined_step hs (first_tsminOf hne)] at hlen
      cases hlen
    have hnil := hfin.nil_of_tsminOf hmax
    rw [joined_nil hnil]
    symm
    apply sum_eq_zero
    intro m hm
    obtain ⟨xs, hxs, rfl⟩ := mem_map.mp hm
    rw [hnil xs hxs]
    rfl
  | succ n ih =>
    have hmax : tsminOf xss ≠ maxTimestamp := by
      intro heq
      rw [joined_nil (hfin.nil_of_tsminOf heq)] at hlen
      cases hlen
    have hstep := joined_step hs (first_tsminOf hmax)
    rw [hstep, length_cons, Nat.add_right_cancel_iff] at hlen
    rw [hstep, points_combined_cons, pointsLeft_advance (tsminOf xss) xss,
      ih (hs.map advance_suffix) (hfin.map advance_suffix) hlen]

/-! ## The condition is necessary -/

/-- A run that puts out all results in order. -/
structure Complete (rd : Reader Status (AggOut V) σ Φ) (forward : Bool) (sizes : Nat → Nat)
    (iter : List σ) (xss : List (List (AggOut V))) : Prop where
  yields : Forall₂ (Yields rd) iter xss
  below : BelowMax xss
  pos : ∀ i, 0 < sizes i
  drains : ∃ fuel φ status, drain (read rd) .ok fuel φ ⟨iter⟩ sizes =
    some (combined (joined (ahead forward) xss), status)

theorem Complete.aligned_first (h : Complete rd true sizes iter xss)
    (hs : SortedByKey (ahead true) xss) (hcnt : ∀ xs ∈ xss, ∀ x ∈ xs, 0 < x.2.cnt) :
    ∀ j t, sizes 0 = j + 1 → (keys (ahead true) xss)[j]? = some t →
      AlignedAt (ahead true) xss t := by
  intro j t hj ht
  by_contra hnot
  have hlost := points_taken_lt hs h.below hcnt ht hnot
  obtain ⟨fuel, φ, status, hdrain⟩ := h.drains
  have hout := points_drain h.yields h.below h.pos hdrain
  rw [points_joined _ hs h.below rfl, hj] at hout
  omega

/-- What comes after a first read that has lost nothing. -/
theorem Cut.drain_rest (hcut : Cut forward (sizes 0) xss) (h : Complete rd forward sizes iter xss) :
    (joined (ahead forward) xss).length < sizes 0 ∨ sizes 0 ≤ (joined (ahead forward) xss).length ∧
      ∃ iter', Complete rd forward (fun i => sizes (i + 1)) iter' (taken (sizes 0) xss).2 := by
  obtain ⟨hyields, hfin, hpos, fuel, φ, status, hdrain⟩ := h
  cases fuel with
  | zero => cases hdrain
  | succ fuel =>
    obtain ⟨iter', φ', hyields', hstep⟩ := drain_succ hyields hfin hpos
    rw [hstep] at hdrain
    by_cases hfull : (taken (sizes 0) xss).1.length = sizes 0
    · rw [if_pos hfull] at hdrain
      obtain ⟨q, hq, heq⟩ := Option.map_eq_some_iff.mp hdrain
      obtain ⟨hout, rfl⟩ := Prod.mk.inj heq
      have hle : sizes 0 ≤ (joined (ahead forward) xss).length := by
        rw [hcut.out, length_take] at hfull
        omega
      refine .inr ⟨hle, iter', hyields', hfin.taken _, fun i => hpos (i + 1), fuel, φ', q.2, ?_⟩
      have hsplit := congrArg combined (take_append_drop (sizes 0) (joined (ahead forward) xss))
      rw [combined, map_append] at hsplit
      rw [hcut.out, ← hsplit] at hout
      rw [hcut.rest, combined, ← append_cancel_left hout]
      exact hq
    · rw [hcut.out, length_take] at hfull
      omega

theorem Complete.aligned (m : Nat) (h : Complete rd true sizes iter xss)
    (hs : SortedByKey (ahead true) xss) (hcnt : ∀ xs ∈ xss, ∀ x ∈ xs, 0 < x.2.cnt)
    (ht : (keys (ahead true) xss)[∑ i ∈ Finset.range (m + 1), sizes i - 1]? = some t) :
    AlignedAt (ahead true) xss t := by
  induction m generalizing xss iter sizes t with
  | zero => exact h.aligned_first hs hcnt _ t (Nat.sub_add_cancel (h.pos 0)).symm ht
  | succ m ih =>
    obtain ⟨hcut, halign⟩ := cut_forward hs h.below (h.aligned_first hs hcnt)
    rw [boundary_succ h.pos] at ht
    rcases hcut.drain_rest h with hlen | ⟨-, iter', hrest⟩
    · rw [joined, length_map] at hlen
      rw [getElem?_eq_none (by omega)] at ht
      cases ht
    · have ht' := ht
      rw [← getElem?_drop, ← hcut.keys_rest] at ht'
      rw [← halign t (mem_of_getElem? ht')]
      have hcnt' : ∀ xs ∈ (taken (sizes 0) xss).2, ∀ x ∈ xs, 0 < x.2.cnt := by
        intro xs hxs x hx
        obtain ⟨ys, hys, hsuf⟩ := taken_suffix _ xss xs hxs
        exact hcnt ys hys x (hsuf.subset hx)
      exact ih hrest hcut.sorted hcnt' ht'

/-- Backward: as long as the first timestamp is the smallest at the heads, all heads
have it. -/
theorem level_of_keys {rest : List Timestamp}
    (h : keys (ahead false) xss = tsminOf xss :: rest) : SameHead xss (tsminOf xss) := by
  intro xs hxs x hx
  have hpw := keys_pairwise (ahead false) xss
  have hmem : x.1 ∈ keys (ahead false) xss := mem_keys.mpr ⟨xs, hxs, x, mem_of_mem_head? hx, rfl⟩
  rw [h] at hpw hmem
  rcases mem_cons.mp hmem with heq | hrest
  · exact heq
  · have hlt : x.1 < tsminOf xss := (pairwise_cons.mp hpw).1 _ hrest
    exact absurd (tsminOf_le hxs hx) (not_le.mpr hlt)

theorem taken_head (hmax : tsminOf xss ≠ maxTimestamp) :
    ∃ out, (taken (room + 1) xss).1 = (tsminOf xss, headsAt (tsminOf xss) xss) :: out := by
  cases room with
  | zero => exact ⟨[], by rw [taken_last hmax]⟩
  | succ room => exact ⟨_, by rw [taken_more hmax]⟩

theorem Complete.taken_keys (h : Complete rd forward sizes iter xss) :
    (taken (sizes 0) xss).1.map Prod.fst <+: keys (ahead forward) xss := by
  obtain ⟨hyields, hfin, hpos, fuel, φ, status, hdrain⟩ := h
  have hfst : ∀ out : List (Timestamp × List (AggregationResult V)),
      (combined out).map Prod.fst = out.map Prod.fst := by
    intro out
    rw [combined, map_map]
    rfl
  have hkeys : keys (ahead forward) xss = (combined (joined (ahead forward) xss)).map Prod.fst := by
    rw [hfst, map_fst_joined]
  cases fuel with
  | zero => cases hdrain
  | succ fuel =>
    obtain ⟨iter', φ', -, hstep⟩ := drain_succ hyields hfin hpos
    rw [hstep] at hdrain
    split at hdrain
    · obtain ⟨q, -, heq⟩ := Option.map_eq_some_iff.mp hdrain
      rw [hkeys, ← (Prod.mk.inj heq).1, map_append, hfst]
      exact prefix_append _ _
    · rw [hkeys, ← (Prod.mk.inj (Option.some.inj hdrain)).1, hfst]

/-- A read that puts out the first timestamps in order has taken all heads each time. -/
theorem cut_of_keys : ∀ {k : Nat} {xss : List (List (AggOut V))}, SortedByKey (ahead false) xss →
    BelowMax xss → (taken k xss).1.map Prod.fst <+: keys (ahead false) xss →
    Cut false k xss ∧ (Comparable (taken k xss).2 → Comparable xss)
  | 0, _, hs, _, _ => ⟨cut_zero hs, id⟩
  | room + 1, xss, hs, hfin, hp => by
    by_cases hmax : tsminOf xss = maxTimestamp
    · refine ⟨cut_end hs hfin hmax room, fun _ => ?_⟩
      intro xs hxs ys hys
      rw [hfin.nil_of_tsminOf hmax xs hxs]
      exact .inl nil_prefix
    · have hlevel : SameHead xss (tsminOf xss) := by
        obtain ⟨out, hout⟩ := taken_head hmax
        rw [hout] at hp
        obtain ⟨rest, hkeys⟩ := hp
        exact level_of_keys hkeys.symm
      have hfirst : First (ahead false) xss (tsminOf xss) := hlevel.first (tsminOf_head hmax)
      rw [taken_step hmax fun _ => hlevel] at hp ⊢
      rw [keys_step hs hfirst] at hp
      obtain ⟨hcut, hcomp⟩ := cut_of_keys (hs.map advance_suffix)
        (hfin.map advance_suffix) (cons_prefix_cons.mp hp).2
      refine ⟨.step hs hmax hfirst (fun _ => hlevel) hcut, fun hc => ?_⟩
      apply hlevel.comparable
      rw [hlevel.map_tail]
      exact hcomp hc

theorem Complete.comparable (n : Nat) (hlt : (joined (ahead false) xss).length < n)
    (h : Complete rd false sizes iter xss) (hs : SortedByKey (ahead false) xss) :
    Comparable xss := by
  induction n generalizing xss iter sizes with
  | zero => omega
  | succ n ih =>
    obtain ⟨hcut, hcomp⟩ := cut_of_keys hs h.below h.taken_keys
    apply hcomp
    rcases hcut.drain_rest h with hlen | ⟨hle, iter', hrest⟩
    · -- nothing is left
      intro xs hxs ys _
      have hkeys : keys (ahead false) (taken (sizes 0) xss).2 = [] := by
        rw [joined, length_map] at hlen
        rw [hcut.keys_rest]
        exact drop_eq_nil_of_le (le_of_lt hlen)
      cases xs with
      | nil => exact .inl nil_prefix
      | cons x xs =>
        have hmem : x.1 ∈ keys (ahead false) (taken (sizes 0) xss).2 :=
          mem_keys.mpr ⟨_, hxs, x, mem_cons_self, rfl⟩
        rw [hkeys] at hmem
        cases hmem
    · refine ih ?_ hrest hcut.sorted
      have := h.pos 0
      rw [hcut.rest, length_drop]
      omega

/-! ## Results at `MAX_TS` -/

theorem readLoop_out_ne {tsmin : Timestamp} {ins : List (σ × AggOut V)}
    {dest : List (AggOut V)} {r : Reply (AggOut V) (FanInAggregateOperator σ) Φ}
    (hdest : ∀ x ∈ dest, x.1 ≠ maxTimestamp) (hr : readLoop rd room tsmin φ ins dest = some r) :
    ∀ x ∈ r.out, x.1 ≠ maxTimestamp := by
  induction room generalizing tsmin φ ins dest r with
  | zero =>
    obtain rfl := Option.some.inj hr
    exact hdest
  | succ room ih =>
    rw [readLoop, Option.bind_eq_some_iff] at hr
    obtain ⟨⟨status, ins', φ'⟩, -, hr⟩ := hr
    dsimp only at hr
    split at hr
    · obtain rfl := Option.some.inj hr
      exact hdest
    · obtain rfl := Option.some.inj hr
      exact forall_mem_nil _
    · split at hr
      · obtain rfl := Option.some.inj hr
        exact hdest
      · next hne =>
        refine ih ?_ hr
        rw [forall_mem_append]
        exact ⟨hdest, forall_mem_singleton.mpr hne⟩

theorem drain_out_ne {op : FanInAggregateOperator σ} {out : List (AggOut V)}
    (hdrain : drain (read rd) .ok fuel φ op sizes = some (out, status)) :
    ∀ x ∈ out, x.1 ≠ maxTimestamp := by
  induction fuel generalizing φ op sizes out status with
  | zero =>
    cases hdrain
  | succ fuel ih =>
    rw [drain, Option.bind_eq_some_iff] at hdrain
    obtain ⟨r, hr, hdrain⟩ := hdrain
    have hout : ∀ x ∈ r.out, x.1 ≠ maxTimestamp := by
      rw [read] at hr
      split at hr
      · obtain rfl := Option.some.inj hr
        exact forall_mem_nil _
      · split at hr
        · obtain rfl := Option.some.inj hr
          exact forall_mem_nil _
        · exact readLoop_out_ne (forall_mem_nil _) hr
    split at hdrain
    · obtain ⟨q, hq, heq⟩ := Option.map_eq_some_iff.mp hdrain
      rw [← (Prod.mk.inj heq).1, forall_mem_append]
      exact ⟨hout, ih hq⟩
    · rw [← (Prod.mk.inj (Option.some.inj hdrain)).1]
      exact hout

theorem finite_of_drain
    (hdrain : drain (read rd) .ok fuel φ ⟨iter⟩ sizes = some (combined (joined (ahead forward) xss), status)) :
    BelowMax xss := by
  intro xs hxs x hx hmax
  have hmem : x.1 ∈ keys (ahead forward) xss := mem_keys.mpr ⟨xs, hxs, x, hx, rfl⟩
  have hout : (x.1, joinAll (valuesAt x.1 xss)) ∈ combined (joined (ahead forward) xss) :=
    mem_map.mpr ⟨_, mem_map.mpr ⟨x.1, hmem, rfl⟩, rfl⟩
  exact drain_out_ne hdrain _ hout hmax

end FanInAggregateOperator

open FanInAggregateOperator in
/-- The inputs have the results `xss`, in the order of the direction, and are drained
with buffers of any sizes. All results are put out, combined at each timestamp and in
order, if no result is at `MAX_TS` and the buffers end where nothing is lost; and only
then, if no result is empty. -/
theorem fanIn_drain {rd : Reader Status (AggOut V) σ Φ} {iter : List σ}
    {xss : List (List (AggOut V))} (forward : Bool) (hyields : Forall₂ (Yields rd) iter xss)
    (hsorted : SortedByKey (ahead forward) xss) {sizes : Nat → Nat} (hpos : ∀ i, 0 < sizes i)
    (φ : Φ) :
    (BelowMax xss → KeepsAll forward xss sizes → ∃ fuel, drain (read rd) .ok fuel φ ⟨iter⟩ sizes =
        some (combined (joined (ahead forward) xss), .noData)) ∧
    ((∀ xs ∈ xss, ∀ x ∈ xs, 0 < x.2.cnt) → ∀ fuel, drain (read rd) .ok fuel φ ⟨iter⟩ sizes =
        some (combined (joined (ahead forward) xss), .noData) →
      BelowMax xss ∧ KeepsAll forward xss sizes) := by
  constructor
  · intro hfin hkept
    exact ⟨_, drain_kept _ φ hyields hsorted hfin hkept hpos (lt_add_one _)⟩
  · intro hcnt fuel hdrain
    have hfin := finite_of_drain hdrain
    have hrun : Complete rd forward sizes iter xss := ⟨hyields, hfin, hpos, fuel, φ, _, hdrain⟩
    refine ⟨hfin, ?_⟩
    cases forward with
    | false => exact hrun.comparable _ (lt_add_one _) hsorted
    | true =>
      intro m t ht
      exact hrun.aligned m hsorted hcnt ht

def onePoint (ts : Timestamp) : AggOut Rat := (ts, initAggres.add ⟨ts, 0⟩ true)

open FanInAggregateOperator in
theorem fanIn_drain_two : ∃ fuel, drain (read listRead) .ok fuel ()
    ⟨[[onePoint 1, onePoint 2], [onePoint 1, onePoint 2]]⟩ (fun _ => 1) =
      some (combined (joined (ahead true) [[onePoint 1, onePoint 2], [onePoint 1, onePoint 2]]),
        .noData) := by
  have hyields : Forall₂ (Yields listRead)
      [[onePoint 1, onePoint 2], [onePoint 1, onePoint 2]]
      [[onePoint 1, onePoint 2], [onePoint 1, onePoint 2]] :=
    forall₂_listRead.imp fun _ _ h => .inl h
  refine (fanIn_drain true hyields ?_ (fun _ => one_pos) ()).1 ?_ ?_
  · simp [SortedByKey, ahead, onePoint]
  · intro xs hxs
    simp only [mem_cons, not_mem_nil, or_false, or_self] at hxs
    subst hxs
    exact forall_mem_cons.mpr ⟨by decide, forall_mem_singleton.mpr (by decide)⟩
  · -- all inputs have all timestamps
    intro m t ht
    obtain ⟨xs, hxs, hx⟩ := mem_keys.mp (mem_of_getElem? ht)
    simp only [mem_cons, not_mem_nil, or_false, or_self] at hxs
    subst hxs
    intro ys hys _
    simp only [mem_cons, not_mem_nil, or_false, or_self] at hys
    subst hys
    exact hx

open FanInAggregateOperator in
/-- Forward, with results at 1 and 3 and at 2, and a buffer of one result: the result
at 2 is looked at in the first read and lost. Backward the results at 3 and 1 and at 2
are put out in the order 2, 3, 1. -/
theorem fanIn_loses :
    (drain (read listRead) .ok 4 () ⟨[[onePoint 1, onePoint 3], [onePoint 2]]⟩ (fun _ => 1)).map
        (fun (out, status) => (out.map Prod.fst, status)) = some ([1, 3], .noData) ∧
      keys (ahead true) [[onePoint 1, onePoint 3], [onePoint 2]] = [1, 2, 3] ∧
    (drain (read listRead) .ok 2 () ⟨[[onePoint 3, onePoint 1], [onePoint 2]]⟩ (fun _ => 10)).map
        (fun (out, status) => (out.map Prod.fst, status)) = some ([2, 3, 1], .noData) ∧
      keys (ahead false) [[onePoint 3, onePoint 1], [onePoint 2]] = [3, 2, 1] := by
  decide +kernel

end FastSTDB
