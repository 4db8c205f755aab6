import FastSTDB.AggregateSpec
import FastSTDB.TreeSearch
import Mathlib.Algebra.Order.BigOperators.Group.List

/-
  Aggregating a tree

  `aggregate` on a tree combines one result per extent. Forward, the result of a
  tree that was filled by appends with increasing timestamps is what adding the
  points of the search one by one gives, unless the only point of the range has
  timestamp 0 and there is more than one extent (`aggregate_feed`).

  Backward, the extents above the open leaf are aggregated with the ends of the range
  swapped. Points at the end of the range are counted then and points at its begin are
  not, and so the result is that of the search exactly if the ones make up for the
  others (`aggregate_backward`).

  The timestamp that comes with a result is that of the open leaf; the extents above
  it have the timestamp 0 (`SumsAtZero`), so it may belong to no point at all
  (`aggregate_timestamp`).
-/
namespace FastSTDB
open List Option Pull SBlockIter AggregationResult Folding AggOp

variable {b e : Timestamp} {depth n fuel : Nat} {sizes : Nat → Nat} {xss : List (List Point)}
  {V : Type} {leaves : List StoredLeaf} {tail : List Point}

/-! ## Extents -/

section Extents
variable {γ : Type} {obs : AggregationResult Rat → γ} {P : List Point → Prop}
  {bs : BlockStore Rat} {id : ParamId} {fuel : Nat}

/-- The operator over an extent delivers the points its references have between the
ends of the range. -/
theorem aggregateInner_delivers (M : Measure obs P) (hkeep : bs.removedBelow = 0)
    (hfuel : 2 ≤ fuel) {k : Nat} {l : Level Rat} {groups : List (List StoredLeaf)}
    (hall : Forall₂ (Sub bs id k) l.refs groups) (hs : Sorted (points groups.flatten))
    (hP : P (points groups.flatten)) (hbe : b ≠ e) (hd : k < depth) :
    Delivers (read bs fuel (depth + 1)) (results (SumsAtZero obs))
      (NBTreeExtentsList.aggregateInner (l.extent id k) b e)
      (whole (scan (min b e) (max b e) (points groups.flatten))) := by
  have hlt : min b e < max b e := min_lt_max.mpr hbe
  obtain ⟨hne, hlen⟩ := whole_scan_items groups
  rw [← flatten_whole_scan hlt]
  refine sblockTop_delivers M.respects hne ?_ hfuel _ (left_ofNode ?_)
  · have : l.refs.length = groups.length := hall.length_eq
    have := l.fits
    have hf : nbtreeFanout < szbuf := by decide
    omega
  · refine forall₂_opens hall (fun _ g hg hsub => ?_)
    exact hsub.opens_aggregate M hkeep hfuel hlt (hs.sublist (points_sublist_flatten hg))
      (M.sublist hP (points_sublist_flatten hg)) hd

theorem Stores.aggregates (M : Measure obs P) (hkeep : bs.removedBelow = 0) (hfuel : 2 ≤ fuel)
    (hbe : b ≠ e) (depth : Nat) :
    ∀ {ls : List (Level Rat)} {k : Nat} {leaves : List StoredLeaf}, Stores bs id k ls leaves →
      Sorted (points leaves) → P (points leaves) → k + ls.length ≤ depth →
      ∃ pieces : List (List StoredLeaf), leaves = pieces.reverse.flatten ∧
        Forall₂ (Delivers (read bs fuel (depth + 1)) (results (SumsAtZero obs)))
          ((extentsOf id k ls).map (NBTreeExtentsList.aggregateInner · b e))
          (pieces.map (fun g => whole (scan (min b e) (max b e) (points g))))
  | [], _, leaves, hst, _, _, _ => by
    obtain rfl : leaves = [] := hst
    exact ⟨[], rfl, .nil⟩
  | l :: ls, k, _, ⟨upper, groups, rfl, hall, hup⟩, hs, hP, hd => by
    rw [points_append] at hs hP
    have hlow := sublist_append_right (points upper) (points groups.flatten)
    have hhigh := sublist_append_left (points upper) (points groups.flatten)
    simp only [length_cons] at hd
    obtain ⟨pieces, rfl, hpieces⟩ := Stores.aggregates M hkeep hfuel hbe depth hup
      (hs.sublist hhigh) (M.sublist hP hhigh) (by omega)
    refine ⟨groups.flatten :: pieces, by simp, .cons ?_ hpieces⟩
    exact aggregateInner_delivers M hkeep hfuel hall (hs.sublist hlow) (M.sublist hP hlow) hbe
      (by omega)

end Extents

/-! ## Draining the combined operator -/

section Draining
variable {V : Type} [DoubleArith V] {R : List Point → AggOut V → Prop}
  {bs : BlockStore V} {fuel : Nat}

/-- The first read puts out everything. -/
def Once {S β σ Φ : Type} (rd : Reader S β σ Φ) (φ : Φ) (s : σ) (sizes : Nat → Nat)
    (out : List β) : Prop :=
  ∃ r r', rd φ s (sizes 0) = some r ∧ r.out = out ∧ rd r.env r.next (sizes 1) = some r' ∧ r'.out = []

theorem Once.drain {S β σ Φ : Type} [DecidableEq S] {rd : Reader S β σ Φ} {ok : S} {φ : Φ} {s : σ}
    {out : List β} (h : Once rd φ s sizes out) (hn : 2 ≤ n) :
    ∃ st, drain rd ok n φ s sizes = some (out, st) := by
  obtain ⟨n, rfl⟩ : ∃ m, n = m + 2 := ⟨n - 2, by omega⟩
  obtain ⟨r, r', hr, rfl, hr', hout⟩ := h
  rw [drain, hr, bind_some]
  split
  · simp [drain, hr', hout]
  · exact ⟨r.status, rfl⟩

theorem leaf_once {it : LeafAggregator V} {xs : List (List Point)} (h : it.Has R xs)
    (bs : BlockStore V) (fuel depth : Nat) (φ : Bool) (hsizes : ∀ i, 0 < sizes i) :
    ∃ own, Forall₂ R xs own ∧ Once (read bs fuel (depth + 1)) φ (.leaf it) sizes own := by
  obtain ⟨own, it', hread, he, hit'⟩ := it.read_spec h (hsizes 0).ne'
  obtain ⟨out', it'', hread', he', -⟩ := it'.read_spec hit' (hsizes 1).ne'
  exact ⟨own, he, _, _, LeafAggregator.read_leaf hread, rfl, LeafAggregator.read_leaf hread',
    forall₂_nil_left_iff.mp he'⟩

/-- What the combining operator puts out for all results of its operators. -/
def putOut (os : List (AggOut V)) : List (AggOut V) :=
  if os = [] then [] else [combinedOut 0 initAggres os]

theorem combined_once {iters : List (AggOp V)} {shares : List (Share V)}
    (hall : Forall₂ (fun it share => Delivers (read bs fuel depth) (results share.Rel) it share.items)
      iters shares) (hlen : ∀ x ∈ shares, x.items.length ≤ 1) (hne : iters ≠ [])
    (hfuel : 2 * iters.length + 2 ≤ fuel) (hsizes : ∀ i, 0 < sizes i) : ∃ outs,
      Forall₂ (fun share => Forall₂ share.Rel share.items) shares outs ∧
      Once (read bs fuel (depth + 1)) false (.combine iters 0) sizes (putOut outs.flatten) := by
  have hitems : (shares.map (·.items.length)).sum ≤ iters.length := by
    refine (sum_le_card_nsmul _ 1 (forall_mem_map.mpr hlen)).trans ?_
    rw [length_map, ← hall.length_eq]
    exact (mul_one _).le
  obtain ⟨r, outs, hr, -, hnext, houts, hout⟩ := combineLoop_spec fuel false iters 0 0 initAggres 0
    shares hall zero_le (fun x hx => (hlen x hx).trans_lt (by decide)) (by omega)
  have hread : read bs fuel (depth + 1) false (.combine iters 0) (sizes 0) =
      some ⟨r.status, r.out, .combine r.next.1 r.next.2, r.env⟩ := by
    have h0 : ¬ 0 = iters.length := fun h => hne (eq_nil_of_length_eq_zero h.symm)
    simp [AggOp.read, (hsizes 0).ne', h0, hr]
  have hread' : read bs fuel (depth + 1) r.env (.combine r.next.1 r.next.2) (sizes 1) =
      some ⟨.noData, [], .combine r.next.1 r.next.2, r.env⟩ := by
    simp [AggOp.read, (hsizes 1).ne', hnext]
  refine ⟨outs, houts, _, _, hread, hout.trans ?_, hread', rfl⟩
  simp only [true_and, putOut]

theorem combineOf_once {R' : List Point → AggOut V → Prop} {leaf : AggOp V} {inner : List (AggOp V)}
    {xs : List (List Point)} {yss : List (List (List Point))}
    (hleaf : Delivers (read bs fuel depth) (results R) leaf xs) (hlen : xs.length ≤ 1)
    (hinner : Forall₂ (Delivers (read bs fuel depth) (results R')) inner yss)
    (hlens : ∀ ys ∈ yss, ys.length ≤ 1) (hne : inner ≠ []) (forward : Bool)
    (hfuel : 2 * (inner.length + 1) + 2 ≤ fuel) (hsizes : ∀ i, 0 < sizes i) : ∃ own upper,
      Forall₂ R xs own ∧ Forall₂ R' (if forward then yss.reverse else yss).flatten upper ∧
      Once (read bs fuel (depth + 1)) false (NBTreeExtentsList.combineOf leaf inner forward) sizes
        (putOut (if forward then upper ++ own else own ++ upper)) := by
  obtain ⟨op, ops, rfl⟩ := exists_cons_of_ne_nil hne
  let shares : List (Share V) := ⟨R, xs⟩ :: yss.map (⟨R', ·⟩)
  have hall : Forall₂ (fun it share => Delivers (read bs fuel depth) (results share.Rel) it share.items)
      (leaf :: op :: ops) shares := .cons hleaf (forall₂_map_right_iff.mpr hinner)
  have hshares : ∀ x ∈ shares, x.items.length ≤ 1 :=
    forall_mem_cons.mpr ⟨hlen, forall_mem_map.mpr hlens⟩
  cases forward with
  | true =>
    obtain ⟨outs, houts, honce⟩ := combined_once (rel_reverse hall)
      (fun x hx => hshares x (mem_reverse.mp hx)) (by simp) (by simpa using hfuel) hsizes
    obtain ⟨own, uppers, hown, hup, heq⟩ := forall₂_cons_left_iff.mp
      (by simpa using rel_reverse houts)
    obtain rfl : outs = uppers.reverse ++ [own] := by rw [← reverse_reverse outs, heq, reverse_cons]
    have hup' : Forall₂ (Forall₂ R') yss uppers := (forall₂_map_left_iff (f := Share.mk R')).mp hup
    refine ⟨own, uppers.reverse.flatten, hown, rel_flatten (rel_reverse hup'), ?_⟩
    rw [flatten_append, flatten_singleton] at honce
    exact honce
  | false =>
    obtain ⟨_, houts, honce⟩ := combined_once hall hshares (by simp) hfuel hsizes
    obtain ⟨own, uppers, hown, hup, rfl⟩ := forall₂_cons_left_iff.mp houts
    have hup' : Forall₂ (Forall₂ R') yss uppers := (forall₂_map_left_iff (f := Share.mk R')).mp hup
    exact ⟨own, uppers.flatten, hown, rel_flatten hup', honce⟩

end Draining

/-! ## The whole tree -/

namespace NBTreeExtentsList

/-- Levels of operators of an aggregation. -/
def aggDepth {V : Type} (bs : BlockStore V) : Nat := bs.blocks.length + 3

/-- Drain `aggregate(begin, end)`, reading with the given buffer sizes; `fuel` bounds
the loops. -/
def drainAggregate {V : Type} [DoubleArith V] (t : NBTreeExtentsList V)
    (beginTs endTs : Timestamp) (fuel : Nat) (sizes : Nat → Nat) :
    Option (List (AggOut V) × Status) :=
  (t.aggregate beginTs endTs).bind fun (op, t) =>
    drain (read t.bstore fuel (aggDepth t.bstore)) .ok fuel false op sizes

end NBTreeExtentsList

namespace OpenTree

variable {γ : Type} {obs : AggregationResult Rat → γ} {bs : BlockStore Rat}

theorem putOut_obs (hobs : Respects combine obs) {os : List (AggOut Rat)}
    (h : Forall₂ (Sums obs) xss os) (hne : ∀ g ∈ xss, g ≠ []) :
    if xss.flatten = [] then putOut os = []
    else ∃ ts a, putOut os = [(ts, a)] ∧ obs a = obs (summary xss.flatten) := by
  split
  · next hflat =>
    obtain rfl : xss = [] := by
      cases xss with
      | nil => rfl
      | cons g gs => exact absurd (append_eq_nil_iff.mp hflat).1 (hne g mem_cons_self)
    rw [forall₂_nil_left_iff.mp h]
    rfl
  · next hflat =>
    have hos : os ≠ [] := by
      rintro rfl
      rw [forall₂_nil_right_iff.mp h] at hflat
      exact hflat rfl
    refine ⟨_, _, if_neg hos, ?_⟩
    have htotal := obs_total hobs (forall₂_map_right_iff.mpr h)
    rw [← htotal, total, foldl_map]

theorem size_list [DoubleArith V] (s : OpenTree V) : s.list.size = s.levels.length + 1 := by
  simp [NBTreeExtentsList.size, list]

theorem Holds.nil_of_size [DoubleArith V] {s : OpenTree V} (h : s.Holds leaves tail)
    (hsize : s.list.size = 1) : leaves = [] := by
  rw [size_list] at hsize
  have hst := h.levels
  rw [eq_nil_of_length_eq_zero (Nat.succ.inj hsize)] at hst
  exact hst

theorem aggregate_list [DoubleArith V] {s : OpenTree V} {it : LeafAggregator V}
    (hit : LeafAggregator.ofLeaf b e s.leaf.leaf = some it) :
    s.list.aggregate b e = some (NBTreeExtentsList.combineOf (.leaf it)
      ((extentsOf s.id 0 s.levels).map (NBTreeExtentsList.aggregateInner · b e)) (decide (b < e)),
      s.list) := by
  show ((some s.list).bind _) = _
  simp [NBTreeExtentsList.aggregateExtents, list, hit]

/-- Draining `aggregate` combines what the operator of the open leaf has put out (`own`) with
the results of the extents above (`upper`); without such extents it puts out the former. -/
theorem Holds.drainAggregate {P : List Point → Prop} (M : Measure obs P) {s : OpenTree Rat}
    (h : s.Holds leaves tail) {it : LeafAggregator Rat} {R : List Point → AggOut Rat → Prop}
    {xs : List (List Point)} (hit : LeafAggregator.ofLeaf b e s.leaf.leaf = some it)
    (hhas : it.Has R xs) (hlen : xs.length ≤ 1) (hkeep : s.bstore.removedBelow = 0)
    (hs : Sorted (points leaves)) (hP : P (points leaves)) (hbe : b ≠ e)
    (hfuel : 2 * s.list.size + 2 ≤ fuel) (hsizes : ∀ i, 0 < sizes i) : ∃ own ups upper st,
      Forall₂ R xs own ∧ Forall₂ (SumsAtZero obs) ups upper ∧ (∀ g ∈ ups, g ≠ []) ∧
      ups.flatten.Perm (scan (min b e) (max b e) (points leaves)) ∧
      (b < e → ups.flatten = scan b e (points leaves)) ∧
      s.list.drainAggregate b e fuel sizes = some (if 1 < s.list.size then
        putOut (if b < e then upper ++ own else own ++ upper) else own, st) := by
  have hlevels := h.levels_le
  have hsize := s.size_list
  have hdrain : ∀ {outs}, Once (read s.bstore fuel (NBTreeExtentsList.aggDepth s.bstore)) false
      (NBTreeExtentsList.combineOf (.leaf it) ((extentsOf s.id 0 s.levels).map
        (NBTreeExtentsList.aggregateInner · b e)) (decide (b < e))) sizes outs →
      ∃ st, s.list.drainAggregate b e fuel sizes = some (outs, st) := by
    intro outs honce
    rw [NBTreeExtentsList.drainAggregate, aggregate_list hit]
    exact honce.drain (by omega)
  by_cases hl : s.levels = []
  · -- the operator of the open leaf stands alone
    have hsize1 : s.list.size = 1 := by rw [hsize, hl]; rfl
    obtain ⟨own, hown, honce⟩ := leaf_once hhas s.bstore fuel (s.bstore.blocks.length + 2) false
      hsizes
    obtain ⟨st, hst⟩ := hdrain (by rw [hl]; exact honce)
    refine ⟨own, [], [], st, hown, .nil, forall_mem_nil _, ?_, fun _ => ?_, ?_⟩
    · rw [h.nil_of_size hsize1]
      exact .of_eq scan_nil.symm
    · rw [h.nil_of_size hsize1]
      exact scan_nil.symm
    · rw [hst, if_neg (by omega)]
  · have hlt : min b e < max b e := min_lt_max.mpr hbe
    obtain ⟨pieces, rfl, hall⟩ := Stores.aggregates M hkeep (by omega : 2 ≤ fuel) hbe
      (s.bstore.blocks.length + 1) h.levels hs hP (by omega)
    have hext : (extentsOf s.id 0 s.levels).length = s.levels.length := length_extentsOf ..
    have hpos : s.levels.length ≠ 0 := fun h0 => hl (eq_nil_of_length_eq_zero h0)
    have hne : (extentsOf s.id 0 s.levels).map (NBTreeExtentsList.aggregateInner · b e) ≠ [] := by
      rw [ne_eq, map_eq_nil_iff, ← length_eq_zero_iff, hext]
      exact hpos
    obtain ⟨own, upper, hown, hupper, honce⟩ := combineOf_once
      (LeafAggregator.delivers hhas s.bstore fuel (s.bstore.blocks.length + 1)) hlen hall
      (forall_mem_map.mpr fun g _ => whole_length_le _) hne (decide (b < e))
      (by rw [length_map, hext, ← hsize]; exact hfuel) hsizes
    obtain ⟨st, hst⟩ := hdrain honce
    have hflat : (pieces.map fun g => whole (scan (min b e) (max b e) (points g))).reverse.flatten.flatten
        = scan (min b e) (max b e) (points pieces.reverse.flatten) := by
      rw [← flatten_whole_scan hlt, scanOrder, if_pos hlt, map_reverse]
    refine ⟨own, _, upper, st, hown, hupper, ?_, ?_, fun hlt' => ?_, ?_⟩
    · intro g hg
      obtain ⟨ys, hys, hg⟩ := mem_flatten.mp hg
      have hys : ys ∈ pieces.map fun g => whole (scan (min b e) (max b e) (points g)) := by
        split at hys
        · exact mem_reverse.mp hys
        · exact hys
      obtain ⟨x, -, rfl⟩ := mem_map.mp hys
      exact ne_nil_of_mem_whole hg
    · rw [← hflat]
      split
      · exact .refl _
      · exact (reverse_perm _).symm.flatten.flatten
    · rw [if_pos (decide_eq_true hlt'), hflat, min_eq_left hlt'.le, max_eq_right hlt'.le]
    · have hsize1 : 1 < s.list.size := by omega
      simpa only [if_pos hsize1, decide_eq_true_eq] using hst

/-- `aggregate` gives no result when nothing is counted. Else it gives one, which
adds the points of the open leaf one by one if there is no other extent, and is
known as far as the extents above are measured. -/
theorem Shows.drainAggregate {P : List Point → Prop} (M : Measure obs P)
    {t : NBTreeExtentsList Rat} {s : OpenTree Rat} (hsh : Shows t s) (h : s.Holds leaves tail)
    (hopen : t = s.list → tail ≠ []) (hkeep : s.bstore.removedBelow = 0) (hs : Sorted (points leaves ++ tail))
    (hP : P (points leaves ++ tail)) (hbe : b ≠ e)
    (hscan : obs (ofPoints (scan b e tail) (decide (b < e))).sealed = obs (summary (scan b e tail)))
    (hfuel : 2 * t.size + 2 ≤ fuel) (hsizes : ∀ i, 0 < sizes i) : ∃ outs st counted,
      t.drainAggregate b e fuel sizes = some (outs, st) ∧
      counted.Perm (leafCounted b e tail ++ scan (min b e) (max b e) (points leaves)) ∧
      (b < e → counted = scan b e (points leaves ++ tail)) ∧
      if counted = [] then outs = []
      else ∃ ts a, outs = [(ts, a)] ∧ if 1 < t.size then obs a = obs (summary counted)
        else ∃ forward, (b < e → forward = true) ∧ a = ofPoints counted forward := by
  rcases hsh with rfl | ⟨hfresh, i, rfl⟩
  · have hne := hopen rfl
    have htail := sublist_append_right (points leaves) tail
    have hstored := sublist_append_left (points leaves) tail
    obtain ⟨it, hit, hhas⟩ := LeafAggregator.ofLeaf_spec (R := fun g o =>
        Sums obs g o ∧ ∃ forward, (b < e → forward = true) ∧ o.2 = ofPoints g forward)
      h.leaf.has.reads (hs.sublist htail) hne
      (fun _ _ => ⟨M.added (M.sublist hP htail), true, fun _ => rfl, rfl⟩)
      (fun _ _ => ⟨hscan, decide (b < e), decide_eq_true, rfl⟩)
    obtain ⟨own, ups, upper, st, hown, hupper, hups, hperm, hforward, hdrain⟩ := h.drainAggregate M
      hit hhas (whole_length_le _) hkeep (hs.sublist hstored) (M.sublist hP hstored) hbe hfuel hsizes
    have hown' : Forall₂ (Sums obs) (whole (leafCounted b e tail)) own := hown.imp fun _ _ h => h.1
    have hupper' : Forall₂ (Sums obs) ups upper := hupper.imp fun _ _ h => h.2
    refine ⟨_, st, (if b < e then ups ++ whole (leafCounted b e tail)
      else whole (leafCounted b e tail) ++ ups).flatten, hdrain, ?_, fun hlt => ?_, ?_⟩
    · split
      · rw [flatten_append, whole_flatten]
        exact perm_append_comm.trans (hperm.append_left _)
      · rw [flatten_append, whole_flatten]
        exact hperm.append_left _
    · rw [if_pos hlt, flatten_append, whole_flatten, hforward hlt, leafCounted_forward hlt,
        scan_append, if_pos hlt]
    · by_cases hsize : 1 < s.list.size
      · simp only [if_pos hsize]
        refine putOut_obs M.respects ?_ ?_
        · split
          · exact Pairs.append hupper' hown'
          · exact Pairs.append hown' hupper'
        · intro g hg
          have hg : g ∈ ups ∨ g ∈ whole (leafCounted b e tail) := by
            split at hg
            · exact mem_append.mp hg
            · exact (mem_append.mp hg).symm
          exact hg.elim (hups g) ne_nil_of_mem_whole
      · have hups0 : ups.flatten = [] := by
          rw [h.nil_of_size (by rw [s.size_list] at hsize ⊢; omega)] at hperm
          exact (hperm.trans (.of_eq scan_nil)).eq_nil
        have hcounted : (if b < e then ups ++ whole (leafCounted b e tail)
            else whole (leafCounted b e tail) ++ ups).flatten = leafCounted b e tail := by
          split <;> simp only [flatten_append, whole_flatten, hups0, nil_append, append_nil]
        simp only [hcounted]
        unfold whole at hown
        split
        · next h0 =>
          rw [if_pos h0] at hown
          exact forall₂_nil_left_iff.mp hown
        · next h0 =>
          rw [if_neg h0] at hown
          obtain ⟨⟨ts, a⟩, _, ⟨-, ha⟩, hrest, rfl⟩ := forall₂_cons_left_iff.mp hown
          rw [forall₂_nil_left_iff.mp hrest]
          exact ⟨ts, a, rfl, ha⟩
  · rw [hfresh] at h
    obtain ⟨rfl, rfl⟩ := h.eq_nil_of_fresh
    obtain ⟨fuel, rfl⟩ : ∃ f, fuel = f + 1 := ⟨fuel - 1, by omega⟩
    refine ⟨[], .noData, [], by cases i <;> rfl, ?_, ?_, rfl⟩
    · simp [leafCounted, points, scan_nil]
    · simp [points, scan_nil]

/-! ## Forward -/

/-- Forward, `aggregate` gives what adding the points of the range gives, sealed if
there are several extents. -/
theorem Shows.aggregate_forward {t : NBTreeExtentsList Rat} {s : OpenTree Rat} (hsh : Shows t s)
    (h : s.Holds leaves tail) (hopen : t = s.list → tail ≠ []) (hkeep : s.bstore.removedBelow = 0)
    (ha : Along true (points leaves ++ tail)) (hbe : b < e) (hfuel : 2 * t.size + 2 ≤ fuel)
    (hsizes : ∀ i, 0 < sizes i) : ∃ outs st, t.drainAggregate b e fuel sizes = some (outs, st) ∧
      outs.map Prod.snd = if scan b e (points leaves ++ tail) = [] then []
        else [if 1 < t.size then summary (scan b e (points leaves ++ tail))
          else ofPoints (scan b e (points leaves ++ tail)) true] := by
  have hs : Sorted (points leaves ++ tail) := Pairwise.imp (le_of_lt) ha
  have hscan : (ofPoints (scan b e tail) (decide (b < e))).sealed = summary (scan b e tail) := by
    rw [decide_eq_true hbe]
    refine exactMeasure.added (exactMeasure.sublist ha ?_)
    rw [scan_forward hbe]
    exact filter_sublist.trans (sublist_append_right _ _)
  obtain ⟨outs, st, _, hdrain, -, hcounted, hout⟩ := hsh.drainAggregate exactMeasure h hopen hkeep
    hs ha hbe.ne hscan hfuel hsizes
  rw [hcounted hbe] at hout
  refine ⟨outs, st, hdrain, ?_⟩
  split
  · next h0 =>
    rw [if_pos h0] at hout
    rw [hout]
    rfl
  · next h0 =>
    rw [if_neg h0] at hout
    obtain ⟨ts, a, rfl, ha⟩ := hout
    rw [map_singleton]
    split at ha
    · next h1 => rw [if_pos h1, ha]
    · next h1 =>
      obtain ⟨forward, hforward, rfl⟩ := ha
      rw [if_neg h1, hforward hbe]

/-! ## Backward -/

/-- Backward, the points at the end of the range that are counted: those of the stored leaves,
and those of the open leaf if it is taken whole. -/
def countedAtEnd (b e : Timestamp) (stored tail : List Point) : List Point :=
  stored.filter (fun p => decide (p.ts = e)) ++
    if tail.all (fun p => decide (e ≤ p.ts ∧ p.ts < b)) then tail.filter (fun p => decide (p.ts = e))
    else []

/-- The points at its begin that are left out: those of the stored leaves. -/
def missedAtBegin (b : Timestamp) (stored : List Point) : List Point :=
  stored.filter (fun p => decide (p.ts = b))

/-- The other points of the range. -/
def countedInside (b e : Timestamp) (stored tail : List Point) : List Point :=
  stored.filter (fun p => decide (e < p.ts ∧ p.ts < b)) ++
    tail.filter (fun p => decide (e < p.ts ∧ p.ts ≤ b))

theorem filter_split {l : List Point} {p q r : Point → Prop} [DecidablePred p] [DecidablePred q]
    [DecidablePred r] (h : ∀ x ∈ l, (p x ↔ q x ∨ r x) ∧ ¬ (q x ∧ r x)) :
    (l.filter (fun x => decide (p x))).Perm
      (l.filter (fun x => decide (q x)) ++ l.filter (fun x => decide (r x))) := by
  refine (filter_append_perm (fun x => decide (q x)) _).symm.trans (.of_eq (congrArg₂ _ ?_ ?_))
  all_goals
    rw [List.filter_filter]
    refine filter_congr fun x hx => ?_
    grind

theorem searched_perm (heb : e < b) (stored tail : List Point) : (scan b e (stored ++ tail)).Perm
    (countedInside b e stored tail ++ missedAtBegin b stored) := by
  have hstored : (stored.filter fun p => decide (e < p.ts ∧ p.ts ≤ b)).Perm
      (stored.filter (fun p => decide (e < p.ts ∧ p.ts < b)) ++ missedAtBegin b stored) :=
    filter_split fun p _ => ⟨by grind, by grind⟩
  rw [scan_backward heb.not_gt, filter_append]
  refine (reverse_perm _).trans ?_
  simp only [← Bool.decide_and]
  refine (hstored.append_right _).trans ?_
  rw [append_assoc, countedInside, append_assoc]
  exact perm_append_comm.append_left _

theorem counted_perm (heb : e < b) (stored tail : List Point) :
    (leafCounted b e tail ++ scan e b stored).Perm
      (countedInside b e stored tail ++ countedAtEnd b e stored tail) := by
  have hstored : (scan e b stored).Perm (stored.filter (fun p => decide (e < p.ts ∧ p.ts < b)) ++
      stored.filter fun p => decide (p.ts = e)) := by
    rw [scan_forward heb]
    simp only [← Bool.decide_and]
    exact filter_split fun p _ => ⟨by grind, by grind⟩
  have htail : (leafCounted b e tail).Perm (tail.filter (fun p => decide (e < p.ts ∧ p.ts ≤ b)) ++
      if tail.all (fun p => decide (e ≤ p.ts ∧ p.ts < b)) then
        tail.filter (fun p => decide (p.ts = e)) else []) := by
    rw [leafCounted, min_eq_right heb.le, max_eq_left heb.le]
    split
    · next hall =>
      have hall := fun p hp => of_decide_eq_true (all_eq_true.mp hall p hp)
      refine .trans (.of_eq (filter_eq_self.mpr fun p hp => decide_eq_true (hall p hp)).symm)
        (filter_split fun p hp => ?_)
      grind
    · rw [scan_backward heb.not_gt, append_nil]
      simp only [← Bool.decide_and]
      exact reverse_perm _
  refine (htail.append hstored).trans ?_
  rw [countedInside]
  refine perm_append_comm.trans ?_
  rw [append_assoc, append_assoc]
  exact (perm_append_comm_assoc _ _ _).append_left _

theorem missedAtBegin_nil {stored : List Point} (h : ∀ p ∈ stored, p.ts ≠ b) :
    missedAtBegin b stored = [] :=
  filter_eq_nil_iff.mpr fun p hp hts => h p hp (of_decide_eq_true hts)

theorem countedAtEnd_nil {stored : List Point} (h : ∀ p ∈ stored ++ tail, p.ts ≠ e) :
    countedAtEnd b e stored tail = [] := by
  have hnone : (stored ++ tail).filter (fun p => decide (p.ts = e)) = [] := missedAtBegin_nil h
  rw [filter_append, append_eq_nil_iff] at hnone
  rw [countedAtEnd, hnone.1, hnone.2, ite_self]
  rfl

theorem length_at_le {pts : List Point} (h : pts.Pairwise fun p q => p.ts < q.ts) (t : Timestamp) :
    (pts.filter fun p => decide (p.ts = t)).length ≤ 1 := by
  have hnone : (pts.filter fun p => decide (p.ts = t)).Pairwise fun _ _ => False := by
    refine (h.sublist filter_sublist).imp_of_mem fun hp hq hlt => ?_
    have hp' := of_decide_eq_true (mem_filter.mp hp).2
    have hq' := of_decide_eq_true (mem_filter.mp hq).2
    exact hlt.ne (hp'.trans hq'.symm)
  generalize pts.filter (fun p => decide (p.ts = t)) = at_t at hnone
  match at_t, hnone with
  | [], _ => exact Nat.zero_le 1
  | [_], _ => exact Nat.le_refl 1
  | _ :: _ :: _, hnone => exact absurd ((pairwise_cons.mp hnone).1 _ mem_cons_self) not_false

theorem missedAtBegin_le {stored : List Point}
    (h : (stored ++ tail).Pairwise fun p q => p.ts < q.ts) : (missedAtBegin b stored).length ≤ 1 :=
  length_at_le (h.sublist (sublist_append_left _ _)) b

theorem countedAtEnd_le {stored : List Point}
    (h : (stored ++ tail).Pairwise fun p q => p.ts < q.ts) :
    (countedAtEnd b e stored tail).length ≤ 1 := by
  refine le_trans ?_ (length_at_le h e)
  rw [countedAtEnd, filter_append]
  split
  · exact le_rfl
  · exact (Sublist.append_left (nil_sublist _) _).length_le

end OpenTree

/-- On a tree that was filled by appends with increasing timestamps, an aggregation
gives what adding the points of the search one by one gives, unless the range has a
lonely point at time 0 and there is more than one extent: combined from
`INIT_AGGRES`, whose `_end` is 0 too, the result does not take over the value of
this point as its `last`. -/
theorem aggregate_feed (bs : BlockStore Rat) (hkeep : bs.removedBelow = 0) (id : ParamId)
    (ops : List (Point × Bool)) : ∃ acc t, feed ops (.new id [] bs) = some (acc, t) ∧
      (acc.Pairwise (fun p q => p.ts < q.ts) →
        ∀ (b e : Timestamp), b < e → ∀ (sizes : Nat → Nat), (∀ i, 0 < sizes i) →
        ∀ fuel, acc.length + 2 * t.size + 2 ≤ fuel → ∃ pts,
          t.drainSearch b e fuel sizes = some (pts, .noData) ∧
          pts = acc.filter (fun p => decide (b ≤ p.ts) && decide (p.ts < e)) ∧
          ((∃ outs st, t.drainAggregate b e fuel sizes = some (outs, st) ∧
            outs.map Prod.snd = if pts = [] then [] else [ofPoints pts true]) ↔
            ¬ (1 < t.size ∧ Lonely pts))) := by
  obtain ⟨acc, t, s, leaves, tail, hfeed, hsh, h, hf, hopen, rfl⟩ := OpenTree.feed_filled bs id ops
  have hkeep' : s.bstore.removedBelow = 0 := hf.expired.trans hkeep
  refine ⟨_, t, hfeed, fun ha b e hbe sizes hsizes fuel hfuel => ?_⟩
  obtain ⟨outs, st, hdrain, hout⟩ := hsh.aggregate_forward h hopen hkeep' ha hbe
    (by omega : 2 * t.size + 2 ≤ fuel) hsizes
  refine ⟨scan b e (points leaves ++ tail), ?_, scan_forward hbe, ?_⟩
  · exact hsh.drainSearch_kept h hkeep' hf.sorted hsizes (by omega)
  · have hscan : ∀ p ∈ scan b e (points leaves ++ tail), p.ts < maxTimestamp := by
      intro p hp
      rw [scan_forward hbe] at hp
      have hin := (mem_filter.mp hp).2
      rw [Bool.and_eq_true, decide_eq_true_eq, decide_eq_true_eq] at hin
      exact hin.2.trans_le (le_maxTimestamp e)
    have halong : Along true (scan b e (points leaves ++ tail)) := by
      rw [scan_forward hbe]
      exact ha.sublist filter_sublist
    generalize scan b e (points leaves ++ tail) = pts at hout hscan halong
    constructor
    · rintro ⟨outs', st', hdrain', hout'⟩ ⟨hsize, hlonely⟩
      rw [hdrain, some.injEq, Prod.mk.injEq] at hdrain'
      have hne : pts ≠ [] := by
        obtain ⟨p, rfl, -⟩ := hlonely
        exact cons_ne_nil p []
      rw [← hdrain'.1, hout, if_neg hne, if_neg hne, if_pos hsize, cons.injEq] at hout'
      exact summary_ne_of_lonely hlonely (congrArg last hout'.1)
    · intro hcond
      refine ⟨outs, st, hdrain, ?_⟩
      rw [hout]
      by_cases hne : pts = []
      · rw [if_pos hne, if_pos hne]
      · by_cases hsize : 1 < t.size
        · rw [if_pos hsize, summary_eq_ofPoints hne halong hscan (fun h => hcond ⟨hsize, h⟩)]
        · rw [if_neg hsize]

theorem OpenTree.Holds.one_lt_size {s : OpenTree Rat} (h : s.Holds leaves tail) (hne : leaves ≠ []) :
    1 < s.list.size := by
  have hsize := s.size_list
  by_contra hle
  exact hne (h.nil_of_size (by omega))

/-- More points than a leaf holds, all of them in the range. -/
theorem aggregate_feed_ticks : ∃ t : NBTreeExtentsList Rat,
    feed ((ticks 10 (leafBound + 1)).map (·, true)) (.new 7 [] (memStore Rat)) =
      some (ticks 10 (leafBound + 1), t) ∧ 1 < t.size ∧
    ∀ fuel, leafBound + 1 + 2 * t.size + 2 ≤ fuel → ∃ pts outs st,
      t.drainSearch 0 maxTimestamp fuel (fun _ => 1) = some (pts, .noData) ∧
      t.drainAggregate 0 maxTimestamp fuel (fun _ => 1) = some (outs, st) ∧
      outs.map Prod.snd = if pts = [] then [] else [ofPoints pts true] := by
  have hle : 10 + (leafBound + 1) ≤ 2 ^ 64 := by decide
  obtain ⟨acc, t, hfeed, h⟩ := aggregate_feed (memStore Rat) rfl 7
    ((ticks 10 (leafBound + 1)).map (·, true))
  obtain ⟨s, leaves, tail, hticks, hholds, -, hne, -, -⟩ := OpenTree.feed_ticks (memStore Rat) 7 hle
  obtain ⟨rfl, rfl⟩ := Prod.mk.inj (some.inj (hfeed.symm.trans hticks))
  refine ⟨s.list, hticks, hholds.one_lt_size hne, fun fuel hfuel => ?_⟩
  obtain ⟨pts, hsearch, hpts, hiff⟩ := h (ticks_increase hle) 0 maxTimestamp (by decide) (fun _ => 1)
    (fun _ => one_pos) fuel (by simpa [ticks] using hfuel)
  have hlonely : ¬ Lonely pts := by
    rintro ⟨p, rfl, hzero, -⟩
    have hmem := filter_sublist.mem (hpts ▸ mem_singleton_self p)
    have hpos := (ticks_range hle hmem).1
    rw [hzero] at hpos
    exact absurd hpos (by decide)
  obtain ⟨outs, st, hdrain, hout⟩ := hiff.mpr fun hcond => hlonely hcond.2
  exact ⟨pts, outs, st, hsearch, hdrain, hout⟩

/-- Points at the times 0, 1, 2 and so on, more than a leaf holds: between 0 and 1 the
aggregation gives another result than the one point found there. -/
theorem aggregate_loses_last : ∃ (acc : List Point) (t : NBTreeExtentsList Rat) (p : Point),
    feed (acc.map (·, true)) (.new 7 [] (memStore Rat)) = some (acc, t) ∧
    acc.Pairwise (fun p q => p.ts < q.ts) ∧
    ∀ sizes : Nat → Nat, (∀ i, 0 < sizes i) → ∀ fuel, acc.length + 2 * t.size + 2 ≤ fuel →
      t.drainSearch 0 1 fuel sizes = some ([p], .noData) ∧
      ∃ outs st a, t.drainAggregate 0 1 fuel sizes = some (outs, st) ∧ outs.map Prod.snd = [a] ∧
        a.last ≠ (ofPoints [p] true).last := by
  let first : Point := ⟨0, 0x3ff0000000000000⟩
  have hle : 0 + (leafBound + 1) ≤ 2 ^ 64 := by decide
  have hlt := ticks_increase hle
  obtain ⟨s, leaves, tail, hfeed, h, hf, hne, hopen, hacc⟩ :=
    OpenTree.feed_ticks (memStore Rat) 7 hle
  have hkeep : s.bstore.removedBelow = 0 := hf.expired
  have hscan : scan 0 1 (points leaves ++ tail) = [first] := by
    obtain ⟨rest, hrest⟩ : ∃ rest, ticks 0 (leafBound + 1) = first :: rest :=
      ⟨_, by rw [ticks, range_succ_eq_map]; rfl⟩
    rw [hrest] at hlt
    rw [← hacc, hrest, scan_forward (by decide), filter_cons_of_pos (by decide),
      filter_eq_nil_iff.mpr fun p hp => ?_]
    have hpos : 0 < p.ts := (pairwise_cons.mp hlt).1 p hp
    rw [Bool.and_eq_true, decide_eq_true_eq, decide_eq_true_eq]
    rintro ⟨-, hone⟩
    exact absurd hone (not_lt.mpr (UInt64.le_iff_toNat_le.mpr (UInt64.lt_iff_toNat_lt.mp hpos)))
  refine ⟨_, s.list, first, hfeed, hlt, fun sizes hsizes fuel hfuel => ⟨?_, ?_⟩⟩
  · rw [OpenTree.Shows.drainSearch_kept (.inl rfl) h hkeep hf.sorted hsizes
      (by rw [← hacc]; omega), hscan]
  · obtain ⟨outs, st, hdrain, hout⟩ := OpenTree.Shows.aggregate_forward (.inl rfl) h
      (fun _ => hopen) hkeep (hacc ▸ hlt) (by decide : (0 : Timestamp) < 1)
      (by omega : 2 * s.list.size + 2 ≤ fuel) hsizes
    rw [hscan, if_pos (h.one_lt_size hne)] at hout
    refine ⟨outs, st, _, hdrain, hout, summary_ne_of_lonely ⟨first, rfl, rfl, ?_⟩⟩
    simp [val, DoubleArith.ofBits, ratOfBits, first]

/-- There is one result, with number, sum, minimum and maximum of the points, or there are no
points and no result. -/
def SameCore (outs : List (AggOut Rat)) (pts : List Point) : Prop :=
  outs.map (fun o => o.2.core) = if pts = [] then [] else [(ofPoints pts false).core]

theorem sameCore_iff {outs : List (AggOut Rat)} {counted pts : List Point}
    (h : outs.map (fun o => o.2.core) = if counted = [] then [] else [(summary counted).core]) :
    SameCore outs pts ↔ (summary counted).core = (summary pts).core := by
  have hnil : (summary counted).core = (summary pts).core → (counted = [] ↔ pts = []) := by
    intro hcore
    rw [core_summary, core_summary, Prod.mk.injEq] at hcore
    rw [← length_eq_zero_iff, ← length_eq_zero_iff, hcore.1]
  rw [SameCore, h, core_ofPoints]
  constructor
  · intro heq
    split at heq
    · next h0 =>
      split at heq
      · next h0' => rw [h0, h0']
      · cases heq
    · split at heq
      · cases heq
      · exact (cons.inj heq).1
  · intro hcore
    simp only [hnil hcore, hcore]

/-- Backward, an aggregation has number, sum, minimum and maximum of the points of the search
exactly if the points at the end of the range that are counted make up for those at its begin that
are left out: the extents and a whole leaf are aggregated with the end of the range and without its
begin. With increasing timestamps there is at most one such point at each end. -/
theorem aggregate_backward (bs : BlockStore Rat) (hkeep : bs.removedBelow = 0) (id : ParamId)
    (ops : List (Point × Bool)) : ∃ stored t,
      feed ops (.new id [] bs) = some (stored ++ t.openPoints, t) ∧
      ∀ b e : Timestamp, e < b → ∀ sizes : Nat → Nat, (∀ i, 0 < sizes i) →
        ∀ fuel, (stored ++ t.openPoints).length + 2 * t.size + 2 ≤ fuel → ∃ pts outs st,
          t.drainSearch b e fuel sizes = some (pts, .noData) ∧
          pts = ((stored ++ t.openPoints).filter
            (fun p => decide (e < p.ts) && decide (p.ts ≤ b))).reverse ∧
          t.drainAggregate b e fuel sizes = some (outs, st) ∧
          (SameCore outs pts ↔ Alike (OpenTree.countedInside b e stored t.openPoints)
            (OpenTree.countedAtEnd b e stored t.openPoints) (OpenTree.missedAtBegin b stored)) ∧
          ((stored ++ t.openPoints).Pairwise (fun p q => p.ts < q.ts) → (SameCore outs pts ↔
            (OpenTree.countedAtEnd b e stored t.openPoints).map val =
              (OpenTree.missedAtBegin b stored).map val)) := by
  obtain ⟨acc, t, s, leaves, tail, hfeed, hsh, h, hf, hopen, rfl⟩ := OpenTree.feed_filled bs id ops
  have hkeep' : s.bstore.removedBelow = 0 := hf.expired.trans hkeep
  refine ⟨points leaves, t, by rw [hsh.openPoints h]; exact hfeed, ?_⟩
  rw [hsh.openPoints h]
  intro b e heb sizes hsizes fuel hfuel
  obtain ⟨outs, st, counted, hdrain, hperm, -, hout⟩ := hsh.drainAggregate coreMeasure h hopen hkeep'
    hf.sorted trivial heb.ne' core_sealed (by omega : 2 * t.size + 2 ≤ fuel) hsizes
  rw [min_eq_right heb.le, max_eq_left heb.le] at hperm
  have hcore : outs.map (fun o => o.2.core) =
      if counted = [] then [] else [(summary counted).core] := by
    split
    · next h0 =>
      rw [if_pos h0] at hout
      rw [hout]
      rfl
    · next h0 =>
      rw [if_neg h0] at hout
      obtain ⟨ts, a, rfl, ha⟩ := hout
      refine congrArg (fun c => [c]) ?_
      split at ha
      · exact ha
      · obtain ⟨forward, -, rfl⟩ := ha
        exact core_ofPoints
  have hiff : SameCore outs (scan b e (points leaves ++ tail)) ↔
      Alike (OpenTree.countedInside b e (points leaves) tail)
        (OpenTree.countedAtEnd b e (points leaves) tail)
        (OpenTree.missedAtBegin b (points leaves)) := by
    rw [sameCore_iff hcore, core_perm (hperm.trans (OpenTree.counted_perm heb _ _)),
      core_perm (OpenTree.searched_perm heb _ _), core_append_iff]
  refine ⟨_, outs, st, hsh.drainSearch_kept h hkeep' hf.sorted hsizes (by omega),
    scan_backward heb.not_gt, hdrain, hiff, fun hlt => hiff.trans ?_⟩
  exact alike_iff_of_le_one (OpenTree.countedAtEnd_le hlt) (OpenTree.missedAtBegin_le hlt)

/-- More points than a leaf holds, with none at the ends of the range. -/
theorem aggregate_backward_ticks : ∃ (stored : List Point) (t : NBTreeExtentsList Rat),
    feed ((ticks 10 (leafBound + 1)).map (·, true)) (.new 7 [] (memStore Rat)) =
      some (stored ++ t.openPoints, t) ∧ 1 < t.size ∧
    ∀ fuel, leafBound + 1 + 2 * t.size + 2 ≤ fuel → ∃ pts outs st,
      t.drainSearch maxTimestamp 0 fuel (fun _ => 1) = some (pts, .noData) ∧
      t.drainAggregate maxTimestamp 0 fuel (fun _ => 1) = some (outs, st) ∧ SameCore outs pts := by
  have hle : 10 + (leafBound + 1) ≤ 2 ^ 64 := by decide
  obtain ⟨stored, t, hfeed, h⟩ := aggregate_backward (memStore Rat) rfl 7
    ((ticks 10 (leafBound + 1)).map (·, true))
  obtain ⟨s, leaves, tail, hticks, hholds, -, hne, -, -⟩ := OpenTree.feed_ticks (memStore Rat) 7 hle
  obtain ⟨hacc, rfl⟩ := Prod.mk.inj (some.inj (hfeed.symm.trans hticks))
  refine ⟨stored, s.list, hfeed, hholds.one_lt_size hne, fun fuel hfuel => ?_⟩
  have hlen : (stored ++ s.list.openPoints).length = leafBound + 1 := by rw [hacc]; simp [ticks]
  obtain ⟨pts, outs, st, hsearch, -, hdrain, -, hiff⟩ := h maxTimestamp 0 (by decide) (fun _ => 1)
    (fun _ => one_pos) fuel (by rw [hlen]; exact hfuel)
  refine ⟨pts, outs, st, hsearch, hdrain, (hiff (by rw [hacc]; exact ticks_increase hle)).mpr ?_⟩
  have hends : ∀ p ∈ stored ++ s.list.openPoints, p.ts ≠ maxTimestamp ∧ p.ts ≠ 0 := by
    intro p hp
    rw [hacc] at hp
    obtain ⟨hlo, hhi⟩ := ticks_range hle hp
    constructor
    · intro hts
      rw [hts] at hhi
      exact absurd hhi (by decide)
    · intro hts
      rw [hts] at hlo
      exact absurd hlo (by decide)
  rw [OpenTree.countedAtEnd_nil fun p hp => (hends p hp).2,
    OpenTree.missedAtBegin_nil fun p hp => (hends p (mem_append_left _ hp)).1]

/-- Points at the times 10 and 15: backward from 20 to 10 the open leaf is taken whole. -/
theorem aggregate_backward_whole :
    (feed [(⟨10, 1⟩, true), (⟨15, 1⟩, true)] (.new 7 [] (memStore Rat))).bind (fun (_, t) =>
      (t.drainAggregate 20 10 6 fun _ => 1).map fun (outs, _) =>
        (outs.map (·.2.cnt), t.drainSearch 20 10 6 fun _ => 1)) =
      some ([2], some ([⟨15, 1⟩], .noData)) := by decide +kernel

theorem anyMeasure : Measure (fun _ => ()) (fun _ => True) where
  respects := ⟨fun _ _ => rfl⟩
  sublist _ _ := trivial
  added _ := rfl
  ref _ _ := rfl

/-- The timestamp that comes with a result, by the points of the open leaf: it has none if its
tree was just opened, and is asked for the first one in the range else. -/
def resultStamp (b e : Timestamp) (tail : List Point) : Timestamp :=
  if tail = [] then maxTimestamp
  else (((tail.filter fun p => decide (b ≤ p.ts) && decide (p.ts < e)).head?).map Point.ts).getD 0

theorem putOut_stamp {os : List (AggOut Rat)} {o : AggOut Rat} (h : os.getLast? = some o) :
    ∃ a, putOut os = [(o.1, a)] := by
  have hne : os ≠ [] := by rintro rfl; cases h
  exact ⟨_, by rw [putOut, if_neg hne, combinedOut, h]; rfl⟩

/-- The timestamp belongs to a point of the range if the open leaf has one there, or by chance if
it has points and one of the stored points has time 0. -/
theorem resultStamp_iff (hbe : b < e) (stored tail : List Point) :
    (∃ p ∈ stored ++ tail, (b ≤ p.ts ∧ p.ts < e) ∧ resultStamp b e tail = p.ts) ↔
      (∃ p ∈ tail, b ≤ p.ts ∧ p.ts < e) ∨ tail ≠ [] ∧ b = 0 ∧ ∃ p ∈ stored, p.ts = 0 := by
  by_cases hin : ∃ p ∈ tail, b ≤ p.ts ∧ p.ts < e
  · refine iff_of_true ?_ (.inl hin)
    obtain ⟨q, hq, hr⟩ := hin
    have hne : tail.filter (fun p => decide (b ≤ p.ts) && decide (p.ts < e)) ≠ [] :=
      ne_nil_of_mem (mem_filter.mpr ⟨hq, by simpa using hr⟩)
    obtain ⟨p, ps, hps⟩ := exists_cons_of_ne_nil hne
    have hp : p ∈ tail.filter fun p => decide (b ≤ p.ts) && decide (p.ts < e) := by
      rw [hps]; exact mem_cons_self
    refine ⟨p, mem_append_right _ (mem_filter.mp hp).1, by simpa using (mem_filter.mp hp).2, ?_⟩
    rw [resultStamp, if_neg (ne_nil_of_mem hq), hps]
    rfl
  · have hnone : (tail.filter fun p => decide (b ≤ p.ts) && decide (p.ts < e)) = [] := by
      rw [filter_eq_nil_iff]
      intro p hp hr
      exact hin ⟨p, hp, by simpa using hr⟩
    rw [resultStamp, hnone]
    constructor
    · rintro ⟨p, hp, hr, hts⟩
      have hstored : p ∈ stored := (mem_append.mp hp).resolve_right fun hp => hin ⟨p, hp, hr⟩
      split at hts
      · exact absurd (hts ▸ hr.2) (not_lt.mpr (le_maxTimestamp e))
      · next hne =>
        have hzero : p.ts = 0 := hts.symm
        exact .inr ⟨hne, le_antisymm (hzero ▸ hr.1) (minTimestamp_le b), p, hstored, hzero⟩
    · rintro (h | ⟨hne, rfl, p, hp, hzero⟩)
      · exact absurd h hin
      · refine ⟨p, mem_append_left _ hp, ⟨minTimestamp_le _, hzero ▸ hbe⟩, ?_⟩
        rw [if_neg hne, hzero]
        rfl

/-- An aggregation forward over a range with points returns the timestamp of the first point of the
range in the open leaf. Without one it returns 0, and the largest timestamp if the open leaf is
empty, which are timestamps of the range only if it has a point at time 0 and the open leaf is not
empty. -/
theorem OpenTree.Holds.aggregate_timestamp {s : OpenTree Rat} (h : s.Holds leaves tail)
    (hkeep : s.bstore.removedBelow = 0) (hs : Sorted (points leaves ++ tail)) (hbe : b < e)
    (hin : ∃ p ∈ points leaves ++ tail, b ≤ p.ts ∧ p.ts < e) (hsizes : ∀ i, 0 < sizes i)
    (hfuel : 2 * s.list.size + 2 ≤ fuel) : ∃ ts a st,
      s.list.drainAggregate b e fuel sizes = some ([(ts, a)], st) ∧ ts = resultStamp b e tail ∧
      ((∃ p ∈ points leaves ++ tail, (b ≤ p.ts ∧ p.ts < e) ∧ ts = p.ts) ↔
        (∃ p ∈ tail, b ≤ p.ts ∧ p.ts < e) ∨ tail ≠ [] ∧ b = 0 ∧ ∃ p ∈ points leaves, p.ts = 0) := by
  suffices hstamp : ∃ a st, s.list.drainAggregate b e fuel sizes =
      some ([(resultStamp b e tail, a)], st) by
    obtain ⟨a, st, hdrain⟩ := hstamp
    exact ⟨_, a, st, hdrain, rfl, resultStamp_iff hbe (points leaves) tail⟩
  have hstored := hs.sublist (sublist_append_left (points leaves) tail)
  have hsize : scan b e tail = [] → 1 < s.list.size ∧ scan b e (points leaves) ≠ [] := by
    intro hnone
    obtain ⟨p, hp, hr⟩ := hin
    have hscan : p ∈ scan b e (points leaves ++ tail) := by
      rw [scan_forward hbe]
      exact mem_filter.mpr ⟨hp, by simpa using hr⟩
    rw [scan_append, if_pos hbe, hnone, append_nil] at hscan
    refine ⟨h.one_lt_size ?_, ne_nil_of_mem hscan⟩
    rintro rfl
    rw [points, flatMap_nil, scan_nil] at hscan
    cases hscan
  -- the last operator is that of the open leaf
  have hown : ∀ {own upper o st}, s.list.drainAggregate b e fuel sizes = some (if 1 < s.list.size then
      putOut (if b < e then upper ++ own else own ++ upper) else own, st) → own = [o] →
      o.1 = resultStamp b e tail → ∃ a st, s.list.drainAggregate b e fuel sizes =
        some ([(resultStamp b e tail, a)], st) := by
    rintro own upper o st hdrain rfl ho
    rw [hdrain, ← ho]
    obtain ⟨a, ha⟩ := putOut_stamp (getLast?_concat)
    split
    · exact ⟨a, st, by rw [ha]⟩
    · exact ⟨o.2, st, rfl⟩
  by_cases hne : tail = []
  · subst hne
    obtain ⟨it, hit, hhas⟩ := LeafAggregator.ofLeaf_empty (R := fun _ o => o.1 = maxTimestamp)
      h.leaf.has.reads hbe rfl
    obtain ⟨own, ups, upper, st, hall, -, -, -, -, hdrain⟩ := h.drainAggregate anyMeasure hit hhas
      le_rfl hkeep hstored trivial hbe.ne hfuel hsizes
    obtain ⟨o, _, ho, hrest, rfl⟩ := forall₂_cons_left_iff.mp hall
    exact hown hdrain (congrArg _ (forall₂_nil_left_iff.mp hrest)) ho
  · have hhead : ∀ g : List Point, ∀ p ∈ g.head?, ∀ q ∈ g.head?, p.ts = q.ts :=
      fun g p hp q hq => congrArg Point.ts (some.inj (hp.symm.trans hq))
    obtain ⟨it, hit, hhas⟩ := LeafAggregator.ofLeaf_spec
      (R := fun g o => ∀ p ∈ g.head?, o.1 = p.ts) h.leaf.has.reads
      (hs.sublist (sublist_append_right _ _)) hne (hhead _)
      (hhead _)
    rw [leafCounted_forward hbe] at hhas
    obtain ⟨own, ups, upper, st, hall, hupper, -, -, hflat, hdrain⟩ := h.drainAggregate anyMeasure hit
      hhas (whole_length_le _) hkeep hstored trivial hbe.ne hfuel hsizes
    have hstamp : resultStamp b e tail = ((scan b e tail).head?.map Point.ts).getD 0 := by
      rw [resultStamp, if_neg hne, scan_forward hbe]
    by_cases hscan : scan b e tail = []
    · obtain ⟨hsize, hup⟩ := hsize hscan
      rw [hscan] at hall
      obtain rfl := forall₂_nil_left_iff.mp hall
      rw [if_pos hsize, if_pos hbe, append_nil] at hdrain
      -- all results are those of the extents above
      have hups : ups ≠ [] := by
        rintro rfl
        exact hup (hflat hbe).symm
      obtain ⟨g, o, os, -, rfl, ho, -⟩ := Pairs.last hupper hups
      obtain ⟨a, ha⟩ := putOut_stamp (getLast?_concat)
      refine ⟨a, st, ?_⟩
      rw [hdrain, ha, ho, hstamp, hscan]
      rfl
    · obtain ⟨p, ps, hps⟩ := exists_cons_of_ne_nil hscan
      rw [whole, if_neg hscan] at hall
      obtain ⟨o, _, ho, hrest, rfl⟩ := forall₂_cons_left_iff.mp hall
      refine hown hdrain (congrArg _ (forall₂_nil_left_iff.mp hrest)) ?_
      rw [hstamp, hps]
      exact ho p (by rw [hps]; rfl)

/-- More points than a leaf holds: the timestamp is that of a point of the open leaf. -/
theorem aggregate_timestamp_ticks : ∃ (s : OpenTree Rat) (leaves : List StoredLeaf)
    (tail : List Point), s.Holds leaves tail ∧ leaves ≠ [] ∧
    points leaves ++ tail = ticks 10 (leafBound + 1) ∧
    ∀ fuel, 2 * s.list.size + 2 ≤ fuel → ∃ ts a st, ∃ p ∈ ticks 10 (leafBound + 1),
      s.list.drainAggregate 0 maxTimestamp fuel (fun _ => 1) = some ([(ts, a)], st) ∧ ts = p.ts := by
  have hle : 10 + (leafBound + 1) ≤ 2 ^ 64 := by decide
  obtain ⟨s, leaves, tail, hfeed, h, hf, hne, hopen, hacc⟩ :=
    OpenTree.feed_ticks (memStore Rat) 7 hle
  have hin : ∀ p ∈ points leaves ++ tail, 0 ≤ p.ts ∧ p.ts < maxTimestamp := by
    intro p hp
    rw [← hacc] at hp
    refine ⟨minTimestamp_le _, UInt64.lt_iff_toNat_lt.mpr ((ticks_range hle hp).2.trans ?_)⟩
    decide
  obtain ⟨q, hq⟩ := exists_mem_of_ne_nil tail hopen
  have hq' : q ∈ points leaves ++ tail := mem_append_right _ hq
  refine ⟨s, leaves, tail, h, hne, hacc.symm, fun fuel hfuel => ?_⟩
  obtain ⟨ts, a, st, hdrain, -, hiff⟩ := h.aggregate_timestamp hf.expired hf.sorted (by decide)
    ⟨q, hq', hin q hq'⟩ (fun _ => one_pos) hfuel
  obtain ⟨p, hp, -, hts⟩ := hiff.mpr (.inl ⟨q, hq, hin q hq'⟩)
  exact ⟨ts, a, st, p, hacc ▸ hp, hdrain, hts⟩

/-- A point at time 10 in a tree that was closed and opened again: the empty open leaf is in every
range, and its metadata give the result the largest timestamp. -/
theorem aggregate_timestamp_reopened :
    (feed [(⟨10, 1⟩, true)] (.new 7 [] (memStore Rat))).bind (fun (_, t) =>
      t.close.bind fun (addrs, t) =>
        (NBTreeExtentsList.drainAggregate (.new 7 addrs t.bstore) 0 15 6 fun _ => 1).map
          fun (outs, _) => outs.map Prod.fst) = some [maxTimestamp] := by decide +kernel

end FastSTDB
