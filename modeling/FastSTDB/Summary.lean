import FastSTDB.Lib.Folding
import FastSTDB.Operator
import FastSTDB.Subtree
import Mathlib.Algebra.BigOperators.Group.List.Basic

/-
  Summaries — what an aggregate of points is

  `combine` over exact numbers is associative, and `INIT_AGGRES` is a unit for all
  results that were themselves combined from it. It is not one for every result:
  `combine` takes over `last` only if `_end` grows, and the `_end` of
  `INIT_AGGRES` is a timestamp a point may have.

  `summary pts` is the combination of the results of the single points. The
  functions that make results from points (`add`, `do_the_math`) and the metadata
  of nodes give it, up to combining with `INIT_AGGRES`, when the timestamps are
  strictly monotone; number, sum, minimum and maximum (`core`) they give in any
  case.
-/
namespace FastSTDB
open List Option Folding DoubleArith

variable {a : AggregationResult Rat} {pts : List Point} {refs : List (SubtreeRef Rat)}
  {forward : Bool}

/-! ## Combining exact results -/

theorem lt_rat (a b : Rat) : (DoubleArith.lt a b = true) ↔ a < b := decide_eq_true_iff

theorem least_eq_inf (a b : Rat) : (if b < a then b else a) = a ⊓ b := by rw [min_comm, min_def_lt]

theorem greatest_eq_sup (a b : Rat) : (if a < b then b else a) = a ⊔ b := (max_def_lt _ _).symm

variable {p : Point}

namespace AggregationResult

def sealed {V : Type} [DoubleArith V] (a : AggregationResult V) : AggregationResult V :=
  initAggres.combine a

theorem combine_assoc (a b c : AggregationResult Rat) :
    (a.combine b).combine c = a.combine (b.combine c) := by
  simp only [combine, lt_rat, mk.injEq]
  exact ⟨add_assoc _ _ _, add_assoc a.sum b.sum c.sum, least_assoc .., greatest_assoc ..,
    least_assoc .., greatest_assoc .., least_assoc .., greatest_assoc .., least_assoc ..,
    greatest_assoc ..⟩

/-- Minimum and maximum are within the range of finite doubles. -/
def Bounded (a : AggregationResult Rat) : Prop := a.min ≤ dblMax ∧ -dblMax ≤ a.max

theorem combine_init (h : a.Bounded) : a.combine initAggres = a := by
  have hbegin : ¬ maxTimestamp < a._begin := not_lt.mpr (le_maxTimestamp _)
  have hend : ¬ a._end < 0 := not_lt.mpr (minTimestamp_le _)
  have hmin : ¬ dblMax < a.min := not_lt.mpr h.1
  have hmax : ¬ a.max < -dblMax := not_lt.mpr h.2
  have hsum : a.sum + 0 = a.sum := add_zero _
  cases a
  simp only [combine, lt_rat, mk.injEq]
  exact ⟨rfl, hsum, if_neg hmin, if_neg hmax, if_neg hbegin, if_neg hend, if_neg hmin, if_neg hmax,
    if_neg hbegin, if_neg hend⟩

theorem bounded_init : (initAggres : AggregationResult Rat).Bounded := ⟨le_rfl, le_rfl⟩

theorem Bounded.combine (h : a.Bounded) (b : AggregationResult Rat) : (a.combine b).Bounded := by
  simp only [AggregationResult.combine, lt_rat, least_eq_inf, greatest_eq_sup]
  exact ⟨inf_le_left.trans h.1, h.2.trans le_sup_left⟩

theorem combine_law : Law (combine (V := Rat)) initAggres where
  assoc := combine_assoc
  unit a := combine_init (bounded_init.combine a)
  idem := combine_init bounded_init

/-! ## Summaries of points -/

section
variable {V : Type} [DoubleArith V]

def single (p : Point) : AggregationResult V := initAggres.add p true

theorem ofPoints_concat : (ofPoints (pts ++ [p]) forward : AggregationResult V) =
      (ofPoints pts forward).add p forward := by simp [ofPoints]

theorem ofPoints_cnt : (ofPoints pts forward : AggregationResult V).cnt = pts.length := by
  induction pts using reverseRecOn with
  | nil => rfl
  | append_singleton pts p ih =>
    rw [ofPoints_concat, length_append, ← ih]
    rfl

theorem add_init : (initAggres.add p forward : AggregationResult V) = single p := by
  cases forward <;> rfl

theorem ofPoints_ends (hne : pts ≠ []) (forward : Bool) :
    (∃ q ∈ pts, (ofPoints pts forward : AggregationResult V)._begin = q.ts) ∧
      ∃ q ∈ pts, (ofPoints pts forward : AggregationResult V)._end = q.ts := by
  induction pts using reverseRecOn with
  | nil => exact absurd rfl hne
  | append_singleton pts p ih =>
    have hp : p ∈ pts ++ [p] := mem_append_right pts (mem_singleton.mpr rfl)
    rw [ofPoints_concat]
    by_cases h0 : pts = []
    · subst h0
      exact ⟨⟨p, hp, by cases forward <;> rfl⟩, p, hp, by cases forward <;> rfl⟩
    · obtain ⟨⟨q, hq, hbegin⟩, q', hq', hend⟩ := ih h0
      have hcnt : (ofPoints pts forward : AggregationResult V).cnt ≠ 0 := by
        rw [ofPoints_cnt]
        exact fun h => h0 (eq_nil_of_length_eq_zero h)
      cases forward with
      | true =>
        refine ⟨⟨q, mem_append_left _ hq, ?_⟩, p, hp, ?_⟩
        · simp [add, hcnt, accumulate, hbegin]
        · simp [add]
      | false =>
        refine ⟨⟨p, hp, ?_⟩, q', mem_append_left _ hq', ?_⟩
        · simp [add]
        · simp [add, hcnt, accumulate, hend]

theorem ofPoints_cons (rest : List Point) : (ofPoints (p :: rest) forward : AggregationResult V) =
      let q := rest.getLastD p
      let a : AggregationResult V := (p :: rest).foldl accumulate initAggres
      { a with
        cnt := rest.length + 1
        first := ofBits (if forward then p.value else q.value)
        last := ofBits (if forward then q.value else p.value)
        _begin := if forward then p.ts else q.ts
        _end := if forward then q.ts else p.ts } := by
  induction rest using reverseRecOn with
  | nil => cases forward <;> rfl
  | append_singleton rest q ih =>
    rw [← cons_append, ofPoints_concat, ih]
    simp only [foldl_append, length_append,
      getLastD_concat]
    cases forward <;> rfl

theorem foldl_accumulate_cnt (a : AggregationResult V) (n : Nat) :
    pts.foldl accumulate { a with cnt := n } = { pts.foldl accumulate a with cnt := n } := by
  induction pts generalizing a with
  | nil => rfl
  | cons p pts ih => exact ih (a.accumulate p)

theorem doTheMath_eq (hne : pts ≠ []) (inverted : Bool) :
    (initAggres.doTheMath pts inverted : AggregationResult V) = ofPoints pts (!inverted) := by
  cases pts with
  | nil => exact absurd rfl hne
  | cons p rest =>
    rw [ofPoints_cons]
    simp only [doTheMath, foldl_accumulate_cnt]
    cases inverted with
    | true => simp [initAggres]
    | false => simp [initAggres]

end

/-! ## Metadata -/

section
variable {V : Type} [DoubleArith V]

theorem copyFrom_leafMeta (id : ParamId) (fanout : Nat) (pts : List Point) :
    (copyFrom (leafMeta id fanout pts) : AggregationResult V) = ofPoints pts true := by
  induction pts using reverseRecOn with
  | nil => rfl
  | append_singleton pts p ih =>
    rw [leafMeta_append, ofPoints_concat, ← ih]
    generalize (leafMeta id fanout pts : SubtreeRef V) = m
    by_cases h0 : m.count = 0
    · simp [copyFrom, SubtreeRef.addPoint, add, accumulate, h0]
    · simp only [copyFrom, SubtreeRef.addPoint, add, h0]
      rfl

theorem minStep_eq (acc : V × Timestamp) (r : SubtreeRef V) : minStep acc r =
    (if DoubleArith.lt r.min acc.1 then r.min else acc.1,
      if DoubleArith.lt r.min acc.1 then r.minTime else acc.2) := by
  unfold minStep
  split <;> rfl

theorem maxStep_eq (acc : V × Timestamp) (r : SubtreeRef V) : maxStep acc r =
    (if DoubleArith.lt acc.1 r.max then r.max else acc.1,
      if DoubleArith.lt acc.1 r.max then r.maxTime else acc.2) := by
  unfold maxStep
  split <;> rfl

/-- The metadata of a superblock joins those of its references: the first of them
gives one end of the time range, the last the other. -/
theorem copyFrom_innerMeta_concat (id : ParamId) (level fanout : Nat) {refs : List (SubtreeRef V)}
    (hne : refs ≠ []) (r : SubtreeRef V) :
    (copyFrom (innerMeta id level fanout (refs ++ [r])) : AggregationResult V) =
      let a := copyFrom (innerMeta id level fanout refs)
      { a.combine (copyFrom r) with
        first := a.first
        _begin := a._begin
        last := r.last
        _end := r.endTs } := by
  obtain ⟨r0, rest, rfl⟩ := exists_cons_of_ne_nil hne
  have hlast : (r0 :: (rest ++ [r])).getLast? = some r := by
    rw [← cons_append, getLast?_append, getLast?_singleton, some_or]
  simp [copyFrom, innerMeta, combine, hlast, minStep_eq, maxStep_eq]

end

/-! ## Exact summaries -/

/-- The combination of the results of single points. -/
def summary (pts : List Point) : AggregationResult Rat :=
  total combine initAggres (pts.map single)

theorem summary_concat : summary (pts ++ [p]) = (summary pts).combine (single p) := by
  rw [summary, map_append]
  exact total_concat _ _

theorem sealed_combine (a b : AggregationResult Rat) :
    (a.combine b).sealed = a.sealed.combine b := (combine_assoc _ _ _).symm

theorem sealed_sealed : a.sealed.sealed = a.sealed := by
  rw [sealed, sealed, ← combine_assoc, combine_law.idem]

/-- A minimum or maximum that no value has changed carries the time it had at the
start. -/
def Tidy (a : AggregationResult Rat) : Prop :=
  a.Bounded ∧ (¬ a.min < dblMax → a.mints = maxTimestamp) ∧ (¬ -dblMax < a.max → a.maxts = 0)

theorem Tidy.add (h : a.Tidy) (p : Point) (forward : Bool) : (a.add p forward).Tidy := by
  obtain ⟨⟨hlow, hhigh⟩, hmin, hmax⟩ := h
  have hacc : (a.accumulate p).Tidy := by
    simp only [accumulate, lt_rat, least_eq_inf, greatest_eq_sup]
    refine ⟨⟨inf_le_left.trans hlow, hhigh.trans le_sup_left⟩, fun hn => ?_, fun hn => ?_⟩
    · rw [if_neg fun hlt => hn (inf_le_right.trans_lt (hlt.trans_le hlow))]
      exact hmin fun hlt => hn (inf_le_left.trans_lt hlt)
    · rw [if_neg fun hlt => hn ((hhigh.trans_lt hlt).trans_le le_sup_right)]
      exact hmax fun hlt => hn (hlt.trans_le le_sup_left)
  unfold AggregationResult.add
  by_cases h0 : a.cnt = 0 <;> cases forward <;> simp only [h0] <;> exact hacc

theorem tidy_ofPoints (pts : List Point) (forward : Bool) :
    (ofPoints pts forward : AggregationResult Rat).Tidy := by
  induction pts using reverseRecOn with
  | nil => exact ⟨bounded_init, fun _ => rfl, fun _ => rfl⟩
  | append_singleton pts p ih => rw [ofPoints_concat]; exact ih.add p forward

/-- Comparing with a bounded minimum, it makes no difference that the value of a
single point has been compared with the largest double before. -/
theorem least_clamped {τ : Type} {m top : Rat} (h : m ≤ top) (v : Rat) (x y z : τ) :
    (if v < m then x else y) =
      if (if v < top then v else top) < m then (if v < top then x else z) else y := by
  by_cases hv : v < top
  · simp [hv]
  · have hvm : ¬ v < m := fun hlt => hv (hlt.trans_le h)
    simp [hv, hvm, not_lt.mpr h]

theorem greatest_clamped {τ : Type} {m low : Rat} (h : low ≤ m) (v : Rat) (x y z : τ) :
    (if m < v then x else y) =
      if m < (if low < v then v else low) then (if low < v then x else z) else y := by
  by_cases hv : low < v
  · simp [hv]
  · have hvm : ¬ m < v := fun hlt => hv (h.trans_lt hlt)
    simp [hv, hvm, not_lt.mpr h]

theorem combine_single (hb : a.Bounded) : a.combine (single p) = { a.accumulate p with
      cnt := a.cnt + 1
      first := if p.ts < a._begin then ofBits p.value else a.first
      last := if a._end < p.ts then ofBits p.value else a.last
      _begin := if p.ts < a._begin then p.ts else a._begin
      _end := if a._end < p.ts then p.ts else a._end } := by
  have hsum : a.sum + (0 + (ofBits p.value)) = a.sum + ofBits p.value := by rw [zero_add]
  have hmin := fun {τ : Type} x y z => (@least_clamped τ _ _ hb.1 (ofBits p.value) x y z).symm
  have hmax := fun {τ : Type} x y z => (@greatest_clamped τ _ _ hb.2 (ofBits p.value) x y z).symm
  simp only [add, combine, single, accumulate, initAggres, lt_rat, if_true,
    mk.injEq, true_and, and_true]
  exact ⟨hsum, hmin _ _ _, hmax _ _ _, hmin _ _ _, hmax _ _ _⟩

/-- Adding a point beyond the others is combining with its result. -/
theorem add_eq_combine (hb : a.Bounded) (hcnt : a.cnt ≠ 0)
    (h : if forward then a._begin < p.ts ∧ a._end < p.ts else p.ts < a._begin ∧ p.ts < a._end) :
    a.add p forward = a.combine (single p) := by
  rw [combine_single hb]
  cases forward with
  | true => simp only [add, accumulate, hcnt, if_true, if_false, h.1.not_gt, h.2]
  | false => simp [add, accumulate, hcnt, h.1, h.2.not_gt]

end AggregationResult

/-- The timestamps are strictly monotone in the direction of the scan. -/
def Along (forward : Bool) (pts : List Point) : Prop :=
  pts.Pairwise (fun p q => if forward then p.ts < q.ts else q.ts < p.ts)

namespace AggregationResult

theorem sealed_ofPoints (h : Along forward pts) : (ofPoints pts forward).sealed = summary pts := by
  induction pts using reverseRecOn with
  | nil => exact combine_law.idem
  | append_singleton pts p ih =>
    obtain ⟨hpts, -, hlast⟩ := pairwise_append.mp h
    have hlast' : ∀ q ∈ pts, if forward then q.ts < p.ts else p.ts < q.ts :=
      fun q hq => hlast q hq p (mem_singleton.mpr rfl)
    rw [ofPoints_concat, summary_concat, ← ih hpts, ← sealed_combine]
    by_cases hne : pts = []
    · subst hne
      show (initAggres.add p forward).sealed = (initAggres.combine (single p)).sealed
      rw [add_init]
      exact sealed_sealed.symm
    · obtain ⟨⟨q, hq, hbegin⟩, q', hq', hend⟩ := ofPoints_ends (V := Rat) hne forward
      have hcnt : (ofPoints pts forward : AggregationResult Rat).cnt ≠ 0 := by
        rw [ofPoints_cnt]
        exact fun h0 => hne (eq_nil_of_length_eq_zero h0)
      rw [add_eq_combine (tidy_ofPoints pts forward).1 hcnt]
      rw [hbegin, hend]
      have h1 := hlast' q hq
      have h2 := hlast' q' hq'
      cases forward with
      | true => exact ⟨h1, h2⟩
      | false => exact ⟨h1, h2⟩

/-! ## What sealing loses -/

def val (p : Point) : Rat := ofBits p.value

/-- One point only, which has the timestamp of `INIT_AGGRES._end` and another value
than `INIT_AGGRES.last`. -/
def Lonely (pts : List Point) : Prop := ∃ p, pts = [p] ∧ p.ts = 0 ∧ val p ≠ 0

/-- The values at the ends are lost when their timestamps are those of `INIT_AGGRES`. -/
theorem sealed_ofPoints_eq (pts : List Point) (forward : Bool) :
    (ofPoints pts forward).sealed = { (ofPoints pts forward : AggregationResult Rat) with
      first := if (ofPoints pts forward : AggregationResult Rat)._begin < maxTimestamp
        then (ofPoints pts forward).first else 0
      last := if 0 < (ofPoints pts forward : AggregationResult Rat)._end
        then (ofPoints pts forward).last else 0 } := by
  obtain ⟨⟨hmin, hmax⟩, hmints, hmaxts⟩ := tidy_ofPoints pts forward
  generalize (ofPoints pts forward : AggregationResult Rat) = a at hmin hmax hmints hmaxts
  simp only [sealed, combine, lt_rat, mk.injEq]
  refine ⟨zero_add _, zero_add a.sum, ?_, ?_, rfl, rfl, ?_, ?_, ?_, ?_⟩
  · exact ite_eq_left_iff.mpr (fun hn => le_antisymm (not_lt.mp hn) hmin)
  · exact ite_eq_left_iff.mpr (fun hn => le_antisymm hmax (not_lt.mp hn))
  · exact ite_eq_left_iff.mpr (fun hn => (hmints hn).symm)
  · exact ite_eq_left_iff.mpr (fun hn => (hmaxts hn).symm)
  · exact ite_eq_left_iff.mpr (fun hn => le_antisymm (not_lt.mp hn) (le_maxTimestamp _))
  · exact ite_eq_left_iff.mpr (fun hn => (le_antisymm (not_lt.mp hn) (Nat.zero_le _)).symm)

theorem le_summary_end (h : p ∈ pts) : p.ts ≤ (summary pts)._end := by
  induction pts using reverseRecOn with
  | nil => cases h
  | append_singleton pts q ih =>
    rw [summary_concat]
    simp only [combine]
    rcases mem_append.mp h with h | h
    · split
      · next hlt => exact (ih h).trans hlt.le
      · exact ih h
    · rw [mem_singleton.mp h]
      split
      · exact le_rfl
      · next hn => exact not_lt.mp hn

theorem summary_eq_ofPoints (hne : pts ≠ []) (ha : Along forward pts)
    (h : ∀ p ∈ pts, p.ts < maxTimestamp) (hl : ¬ Lonely pts) :
    summary pts = ofPoints pts forward := by
  have hseal := sealed_ofPoints_eq pts forward
  obtain ⟨⟨q, hq, hbegin⟩, -⟩ := ofPoints_ends (V := Rat) hne forward
  rw [sealed_ofPoints ha, if_pos (by rw [hbegin]; exact h q hq)] at hseal
  have hend : (summary pts)._end = (ofPoints pts forward : AggregationResult Rat)._end := by
    rw [hseal]
  rw [hseal]
  by_cases hpos : 0 < (ofPoints pts forward : AggregationResult Rat)._end
  · rw [if_pos hpos]
  · -- all timestamps are 0, so there is one point only
    have hzero : ∀ p ∈ pts, p.ts = 0 := by
      intro p hp
      refine le_antisymm ?_ (Nat.zero_le _)
      exact (le_summary_end hp).trans (hend.trans_le (not_lt.mp hpos))
    obtain ⟨p, rest, rfl⟩ := exists_cons_of_ne_nil hne
    have hrest : rest = [] := by
      cases rest with
      | nil => rfl
      | cons q rest =>
        have hpq := (pairwise_cons.mp ha).1 q mem_cons_self
        rw [hzero p mem_cons_self, hzero q (by simp)] at hpq
        cases forward <;> simp at hpq
    subst hrest
    have hval : val p = 0 := by
      by_contra hv
      exact hl ⟨p, rfl, hzero p mem_cons_self, hv⟩
    have hlast : (ofPoints [p] forward).last = val p := by
      cases forward <;> rfl
    rw [if_neg hpos, ← hval, ← hlast]

theorem summary_ne_of_lonely (h : Lonely pts) :
    (summary pts).last ≠ (ofPoints pts forward).last := by
  obtain ⟨⟨ts, v⟩, rfl, rfl, hv⟩ := h
  have hlast : (ofPoints [⟨0, v⟩] forward).last = val ⟨0, v⟩ := by
    cases forward <;> rfl
  rw [hlast]
  exact hv.symm

/-! ## Pieces of a sequence -/

/-- Sum, minimum and maximum of a piece may be combined with those of the points before it. -/
theorem foldl_accumulate (h : a.Bounded) : let b := a.combine (pts.foldl accumulate initAggres)
    pts.foldl accumulate a = { a with
      sum := b.sum, min := b.min, mints := b.mints, max := b.max, maxts := b.maxts } := by
  induction pts using reverseRecOn with
  | nil =>
    intro b
    rw [foldl_nil, show b = a from combine_init h]
  | append_singleton pts p ih =>
    simp only [foldl_append, foldl_cons, foldl_nil] at ih ⊢
    rw [ih]
    simp only [accumulate, combine, lt_rat, mk.injEq, true_and, and_true]
    exact ⟨add_assoc _ _ _, least_assoc .., greatest_assoc .., least_assoc .., greatest_assoc ..⟩

/-- Combining the results of two pieces loses the last value if both end at the same time. -/
theorem ofPoints_append {xs ys : List Point} (hxs : xs ≠ []) (hys : ys ≠ [])
    (hle : ∀ p ∈ xs, ∀ q ∈ ys, p.ts ≤ q.ts) : (ofPoints (xs ++ ys) true : AggregationResult Rat) =
      { (ofPoints xs true).combine (ofPoints ys true) with last := (ofPoints ys true).last } := by
  obtain ⟨p, xs, rfl⟩ := exists_cons_of_ne_nil hxs
  obtain ⟨q, ys, rfl⟩ := exists_cons_of_ne_nil hys
  have hb : ((p :: xs).foldl accumulate initAggres).Bounded := by
    have hb := (tidy_ofPoints (p :: xs) true).1
    rw [ofPoints_cons] at hb
    exact hb
  have hlast : (xs ++ q :: ys).getLastD p = ys.getLastD q := by
    rw [getLastD_eq_getLast?, getLast?_append, getLast?_cons, some_or, getD_some,
      getLastD_eq_getLast?]
  have hmem : ∀ (z : Point) (zs : List Point), zs.getLastD z ∈ z :: zs := by
    intro z zs
    rw [getLastD_eq_getLast?]
    exact mem_of_getLast? getLast?_cons
  have hbegin := not_lt.mpr (hle p mem_cons_self q mem_cons_self)
  have hend := hle _ (hmem p xs) _ (hmem q ys)
  rw [cons_append, ofPoints_cons, ofPoints_cons, ofPoints_cons, hlast, ← cons_append, foldl_append,
    foldl_accumulate hb]
  simp only [combine, if_true, mk.injEq, true_and, hbegin, if_false, length_append,
    length_cons]
  refine ⟨by omega, ?_⟩
  split
  · rfl
  · next hlt => exact le_antisymm (not_lt.mp hlt) hend

/-- The ends of the pieces, behind that of `INIT_AGGRES`. -/
def ends (pieces : List (List Point)) : List (Timestamp × Rat) :=
  (0, 0) :: pieces.filterMap fun piece => piece.getLast?.map fun q => (q.ts, val q)

theorem ofPoints_last {q : Point} (h : pts.getLast? = some q) :
    (ofPoints pts true : AggregationResult Rat)._end = q.ts ∧
      (ofPoints pts true : AggregationResult Rat).last = val q := by
  obtain ⟨pts, rfl⟩ := getLast?_eq_some_iff.mp h
  rw [ofPoints_concat]
  exact ⟨rfl, rfl⟩

theorem ofPoints_first (h : pts.head? = some p) :
    (ofPoints pts true : AggregationResult Rat)._begin = p.ts ∧
      (ofPoints pts true : AggregationResult Rat).first = val p := by
  obtain ⟨pts, rfl⟩ := head?_eq_some_iff.mp h
  rw [ofPoints_cons]
  exact ⟨rfl, rfl⟩

def ofPieces (pieces : List (List Point)) : AggregationResult Rat :=
  total combine initAggres (pieces.map (ofPoints · true))

theorem ofPieces_concat (pieces : List (List Point)) (piece : List Point) :
    ofPieces (pieces ++ [piece]) = (ofPieces pieces).combine (ofPoints piece true) := by
  rw [ofPieces, map_append]
  exact total_concat _ _

section
variable {pieces : List (List Point)} (hne : ∀ piece ∈ pieces, piece ≠ [])
include hne

theorem flatten_ne_nil (hpieces : pieces ≠ []) : pieces.flatten ≠ [] := by
  obtain ⟨piece, rest, rfl⟩ := exists_cons_of_ne_nil hpieces
  exact append_ne_nil_of_left_ne_nil (hne piece mem_cons_self) _

theorem ofPieces_last : (ends pieces).lookup (ofPieces pieces)._end = some (ofPieces pieces).last ∧
    ∀ x ∈ ends pieces, x.1 ≤ (ofPieces pieces)._end := by
  induction pieces using reverseRecOn with
  | nil => exact ⟨rfl, forall_mem_singleton.mpr le_rfl⟩
  | append_singleton pieces piece ih =>
    obtain ⟨hpieces, hpiece⟩ := forall_mem_append.mp hne
    have hq := getLast?_eq_some_getLast (hpiece piece (mem_singleton_self _))
    generalize piece.getLast (hpiece piece (mem_singleton_self _)) = q at hq
    obtain ⟨hend, hlast⟩ := ofPoints_last hq
    have hends : ends (pieces ++ [piece]) = ends pieces ++ [(q.ts, val q)] := by simp [ends, hq]
    obtain ⟨hlookup, hle⟩ := ih hpieces
    simp only [ofPieces_concat, combine, hend, hlast, hends, lookup_append, forall_mem_append,
      forall_mem_singleton]
    by_cases hlt : (ofPieces pieces)._end < q.ts
    · have hnone : (ends pieces).lookup q.ts = none := by
        rw [lookup_eq_none_iff]
        intro x hx
        exact bne_iff_ne.mpr ((hle x hx).trans_lt hlt).ne'
      simp only [hlt, if_true, hnone, none_or, lookup_cons, beq_self_eq_true, le_refl, and_true,
        true_and]
      exact fun x hx => (hle x hx).trans hlt.le
    · simp only [hlt, if_false, hlookup, some_or, true_and]
      exact ⟨hle, not_lt.mp hlt⟩

/-- Everything else is what adding the points one by one gives, but for the first value if all
points are at the end of time. -/
theorem ofPieces_eq (hsorted : pieces.flatten.Pairwise fun p q => p.ts ≤ q.ts) :
    let a : AggregationResult Rat := ofPoints pieces.flatten true
    ofPieces pieces = { a with
      first := if a._begin < maxTimestamp then a.first else 0
      last := (ofPieces pieces).last } := by
  induction pieces using reverseRecOn with
  | nil => rfl
  | append_singleton pieces piece ih =>
    obtain ⟨hpieces, hpiece⟩ := forall_mem_append.mp hne
    have hpiece := hpiece piece (mem_singleton_self _)
    have hflat : (pieces ++ [piece]).flatten = pieces.flatten ++ piece := by simp
    rw [hflat] at hsorted ⊢
    obtain ⟨hsorted, -, hcross⟩ := pairwise_append.mp hsorted
    have hih := ih hpieces hsorted
    by_cases hnil : pieces = []
    · subst hnil
      intro a
      have hseal : ofPieces ([] ++ [piece]) = { a with
        first := if a._begin < maxTimestamp then a.first else 0
        last := if 0 < a._end then a.last else 0 } := sealed_ofPoints_eq piece true
      rw [hseal]
    · have hflat' := flatten_ne_nil hpieces hnil
      obtain ⟨⟨p, hp, hbegin⟩, -⟩ := ofPoints_ends (V := Rat) hflat' true
      obtain ⟨⟨q, hq, hbegin'⟩, -⟩ := ofPoints_ends (V := Rat) hpiece true
      have hnot : ¬ q.ts < p.ts := not_lt.mpr (hcross p hp q hq)
      intro a
      rw [ofPieces_concat, show a = _ from ofPoints_append hflat' hpiece hcross]
      rw [hih]
      simp [combine, hbegin, hbegin', hnot]

/-- **Pieces of a sequence.** Combining the results of its pieces gives what adding all points
gives exactly if the first value is not lost, which it is at the end of time, and the first
piece that ends at the last timestamp ends with the last value. -/
theorem ofPieces_iff (hsorted : pieces.flatten.Pairwise fun p q => p.ts ≤ q.ts) :
    ofPieces pieces = ofPoints pieces.flatten true ↔
      (∀ p, pieces.flatten.head? = some p → p.ts = maxTimestamp → val p = 0) ∧
        ∀ q, pieces.flatten.getLast? = some q → (ends pieces).lookup q.ts = some (val q) := by
  by_cases hnil : pieces = []
  · subst hnil
    exact ⟨fun _ => ⟨nofun, nofun⟩, fun _ => rfl⟩
  · have hflat := flatten_ne_nil hne hnil
    have hp := head?_eq_some_head hflat
    have hq := getLast?_eq_some_getLast hflat
    obtain ⟨hbegin, hfirst⟩ := ofPoints_first hp
    obtain ⟨hend, hlast⟩ := ofPoints_last hq
    have heq := ofPieces_eq hne hsorted
    have hlookup := (ofPieces_last hne).1
    rw [(congrArg _end heq).trans hend] at hlookup
    rw [hp, hq]
    simp only [some.injEq, forall_eq', hlookup]
    generalize (ofPoints pieces.flatten true : AggregationResult Rat) = a at *
    constructor
    · intro h
      refine ⟨fun hmax => ?_, by rw [h, hlast]⟩
      rw [← hfirst, ← h, heq]
      refine if_neg ?_
      rw [hbegin, hmax]
      exact lt_irrefl _
    · rintro ⟨hmax, hval⟩
      have hkept : (if a._begin < maxTimestamp then a.first else 0) = a.first := by
        rw [hbegin, hfirst]
        refine ite_eq_left_iff.mpr fun hlt => ?_
        exact (hmax (le_antisymm (le_maxTimestamp _) (not_lt.mp hlt))).symm
      rw [heq, hkept, hval, ← hlast]

end

/-- Two pieces of one point each, with different timestamps. -/
theorem ofPieces_two :
    let pieces : List (List Point) := [[⟨1, 0⟩], [⟨2, 0x3FF0000000000000⟩]]
    ofPieces pieces = ofPoints pieces.flatten true := by
  refine (ofPieces_iff (by decide) (by decide)).mpr ⟨?_, ?_⟩
  · intro p hp hmax
    cases hp
    cases hmax
  · intro q hq
    cases hq
    rfl

/-- Two points with the same timestamp, and values 0 and 1: the last value of the whole is 1, that
of the pieces combined is 0. -/
theorem ofPieces_ne : (ofPieces [[⟨1, 0⟩], [⟨1, 0x3FF0000000000000⟩]]).last = 0 ∧
    (ofPoints [⟨1, 0⟩, ⟨1, 0x3FF0000000000000⟩] true : AggregationResult Rat).last = 1 := by
  decide +kernel

/-! ## Number, sum, minimum and maximum -/

/-- The part of a result that does not depend on the order of the points. -/
def core (a : AggregationResult Rat) : Nat × Rat × Rat × Rat := (a.cnt, a.sum, a.min, a.max)

theorem core_combine (a b : AggregationResult Rat) : (a.combine b).core =
    (a.cnt + b.cnt, a.sum + b.sum, a.min ⊓ b.min, a.max ⊔ b.max) := by
  simp only [combine, lt_rat, least_eq_inf, greatest_eq_sup]
  rfl

theorem core_respects : Respects combine core where
  congr {a a' b b'} ha hb := by
    simp only [core, Prod.mk.injEq] at ha hb
    rw [core_combine, core_combine, ha.1, ha.2.1, ha.2.2.1, ha.2.2.2, hb.1, hb.2.1, hb.2.2.1,
      hb.2.2.2]

theorem core_add (hb : a.Bounded) : (a.add p forward).core = (a.combine (single p)).core := by
  rw [combine_single hb]
  by_cases h0 : a.cnt = 0 <;> cases forward <;> simp [core, add, h0]

/-- In whatever order points are added, their number, sum, minimum and maximum
are those of the summary. -/
theorem core_ofPoints : (ofPoints pts forward).core = (summary pts).core := by
  induction pts using reverseRecOn with
  | nil => rfl
  | append_singleton pts p ih =>
    rw [ofPoints_concat, summary_concat, core_add (tidy_ofPoints pts forward).1]
    exact core_respects.congr ih rfl

theorem core_sealed : (ofPoints pts forward).sealed.core = (summary pts).core := by
  rw [summary, ← combine_law.total_sealed]
  exact core_respects.congr rfl core_ofPoints

/-- Smallest and largest value of points. -/
def leastVal (pts : List Point) : Rat := (pts.map val).foldr (· ⊓ ·) dblMax
def greatestVal (pts : List Point) : Rat := (pts.map val).foldr (· ⊔ ·) (-dblMax)

theorem core_single (p : Point) :
    (single p).sealed.core = (1, val p, dblMax ⊓ val p, -dblMax ⊔ val p) := by
  rw [sealed, core_combine]
  simp only [single, add, accumulate, initAggres, lt_rat, Prod.mk.injEq,
    true_and]
  refine ⟨?_, ?_, ?_⟩
  · exact (zero_add _).trans (zero_add _)
  · exact (congrArg (dblMax ⊓ ·) (least_eq_inf _ _)).trans (inf_left_idem _ _)
  · exact (congrArg (-dblMax ⊔ ·) (greatest_eq_sup _ _)).trans (sup_left_idem _ _)

theorem leastVal_le : leastVal pts ≤ dblMax := by
  induction pts with
  | nil => exact le_rfl
  | cons p pts ih => exact inf_le_right.trans ih

theorem le_greatestVal : -dblMax ≤ greatestVal pts := by
  induction pts with
  | nil => exact le_rfl
  | cons p pts ih => exact ih.trans le_sup_right

theorem core_summary : (summary pts).core =
    (pts.length, (pts.map val).sum, leastVal pts, greatestVal pts) := by
  induction pts with
  | nil => rfl
  | cons p pts ih =>
    have hcons : summary (p :: pts) = (single p).sealed.combine (summary pts) :=
      combine_law.total_cons _ _
    have hp := core_single p
    simp only [core, Prod.mk.injEq] at hp ih
    have hmin : dblMax ⊓ val p ⊓ leastVal pts = leastVal (p :: pts) := by
      rw [inf_right_comm, inf_eq_right.mpr leastVal_le, inf_comm]
      rfl
    have hmax : -dblMax ⊔ val p ⊔ greatestVal pts = greatestVal (p :: pts) := by
      rw [sup_right_comm, sup_eq_right.mpr le_greatestVal, sup_comm]
      rfl
    rw [hcons, core_combine, hp.1, hp.2.1, hp.2.2.1, hp.2.2.2, ih.1, ih.2.1, ih.2.2.1, ih.2.2.2,
      hmin, hmax, length_cons, add_comm, map_cons, sum_cons]

theorem core_perm {pts' : List Point} (h : pts.Perm pts') :
    (summary pts).core = (summary pts').core := by
  rw [core_summary, core_summary, h.length_eq, (h.map val).sum_eq, leastVal, greatestVal,
    (h.map val).foldr_op_eq, (h.map val).foldr_op_eq]
  rfl

/-- Beside the points `m`, the points `g` have the number, sum, minimum and maximum of `g'`. -/
def Alike (m g g' : List Point) : Prop :=
  g.length = g'.length ∧ (g.map val).sum = (g'.map val).sum ∧
    leastVal (m ++ g) = leastVal (m ++ g') ∧ greatestVal (m ++ g) = greatestVal (m ++ g')

theorem core_append_iff {m g g' : List Point} :
    (summary (m ++ g)).core = (summary (m ++ g')).core ↔ Alike m g g' := by
  simp only [core_summary, Alike, Prod.mk.injEq, length_append, map_append, sum_append,
    add_right_inj]

/-- Of single points the value decides. -/
theorem alike_iff_of_le_one {m g g' : List Point} (hg : g.length ≤ 1) (hg' : g'.length ≤ 1) :
    Alike m g g' ↔ g.map val = g'.map val := by
  constructor
  · rintro ⟨hlen, hsum, -⟩
    match g, g' with
    | [], [] => rfl
    | [p], [q] => simpa using hsum
  · intro h
    simp only [Alike, leastVal, greatestVal, map_append, h]
    simpa using congrArg length h

/-! ## Metadata of a superblock -/

/-- References in the order of time: each begins and ends after the ones before. -/
def Ordered (refs : List (SubtreeRef Rat)) : Prop :=
  refs.Pairwise (fun r r' => r.beginTs ≤ r'.beginTs ∧ r.endTs < r'.endTs)

section
variable (id : ParamId) (level fanout : Nat)

theorem sealed_innerMeta_singleton (r : SubtreeRef Rat) :
    (copyFrom (innerMeta id level fanout [r])).sealed = (copyFrom r).sealed := by
  have hmin := fun {τ : Type} => @least_clamped τ _ _ (le_refl dblMax) r.min
  have hmax := fun {τ : Type} => @greatest_clamped τ _ _ (le_refl (-dblMax)) r.max
  simp only [sealed, combine, copyFrom, innerMeta, lt_rat, mk.injEq,
    foldl_cons, foldl_nil, minStep_eq, maxStep_eq, zero_add, true_and]
  exact ⟨congrArg (0 + ·) (zero_add r.sum), (hmin _ _ _).symm, (hmax _ _ _).symm, rfl, rfl,
    (hmin _ _ _).symm, (hmax _ _ _).symm, rfl, rfl⟩

theorem innerMeta_ends (hne : refs ≠ []) {r : SubtreeRef Rat}
    (h : ∀ r' ∈ refs, r'.beginTs ≤ r.beginTs ∧ r'.endTs < r.endTs) :
    (innerMeta id level fanout refs).beginTs ≤ r.beginTs ∧
      (innerMeta id level fanout refs).endTs < r.endTs := by
  constructor
  · simp only [innerMeta, head?_eq_some_head hne]
    exact (h _ (head_mem hne)).1
  · simp only [innerMeta, getLast?_eq_some_getLast hne]
    exact (h _ (getLast_mem hne)).2

/-- The metadata of a superblock is the combination of those of its references. -/
theorem sealed_innerMeta (hne : refs ≠ []) (h : Ordered refs) :
    (copyFrom (innerMeta id level fanout refs)).sealed =
      total combine initAggres (refs.map copyFrom) := by
  induction refs using reverseRecOn with
  | nil => exact absurd rfl hne
  | append_singleton refs r ih =>
    obtain ⟨hrefs, -, hlast⟩ := pairwise_append.mp h
    by_cases h0 : refs = []
    · subst h0
      exact sealed_innerMeta_singleton id level fanout r
    · rw [map_append, map_singleton, total_concat, ← ih h0 hrefs, ← sealed_combine,
        copyFrom_innerMeta_concat id level fanout h0]
      obtain ⟨hbegin, hend⟩ := innerMeta_ends id level fanout h0 (fun r' hr' =>
        hlast r' hr' r (mem_singleton.mpr rfl))
      simp [combine, copyFrom, hend, not_lt.mpr hbegin]

theorem core_innerMeta (hne : refs ≠ []) : (copyFrom (innerMeta id level fanout refs)).sealed.core =
      (total combine initAggres (refs.map copyFrom)).core := by
  induction refs using reverseRecOn with
  | nil => exact absurd rfl hne
  | append_singleton refs r ih =>
    by_cases h0 : refs = []
    · subst h0
      exact congrArg core (sealed_innerMeta_singleton id level fanout r)
    · rw [map_append, map_singleton, total_concat, copyFrom_innerMeta_concat id level fanout h0,
        ← core_respects.congr (ih h0) rfl, ← sealed_combine]
      exact core_respects.congr rfl rfl

end

/-! ## Subtrees -/

theorem obs_total {γ : Type} {obs : AggregationResult Rat → γ} (hobs : Respects combine obs)
    {gs : List (List Point)} {as : List (AggregationResult Rat)}
    (h : Forall₂ (fun g a => obs (sealed a) = obs (summary g)) gs as) :
    obs (total combine initAggres as) = obs (summary gs.flatten) := by
  rw [summary, map_flatten]
  apply combine_law.total_flatten hobs
  rw [forall₂_map_left_iff]
  exact h

theorem eq_respects : Respects (combine (V := Rat)) (fun a => a) where
  congr ha hb := congrArg₂ combine ha hb

end AggregationResult

section Subtrees
variable {bs : BlockStore Rat} {id : ParamId} {k : Nat}

open AggregationResult

theorem ordered_of_along {groups : List (List StoredLeaf)}
    (hall : Forall₂ (Sub bs id k) refs groups) (hs : Along true (points groups.flatten)) :
    Ordered refs := by
  induction hall with
  | nil => exact .nil
  | @cons r g refs groups hsub hrest ih =>
    rw [flatten_cons, points_append] at hs
    obtain ⟨-, hs', hcross⟩ := pairwise_append.mp hs
    refine pairwise_cons.mpr ⟨fun r' hr' => ?_, ih hs'⟩
    obtain ⟨g', hg', hsub'⟩ := Pairs.exists_right hrest hr'
    obtain ⟨p, q, hp, hq, hb, he⟩ := hsub.range
    obtain ⟨p', q', hp', hq', hb', he'⟩ := hsub'.range
    have hmem : ∀ x ∈ points g', x ∈ points groups.flatten := by
      intro x hx
      rw [points_flatten]
      exact mem_flatten_of_mem (mem_map_of_mem hg') hx
    rw [hb, he, hb', he']
    exact ⟨le_of_lt (hcross p (mem_of_mem_head? hp) p' (hmem p' (mem_of_mem_head? hp'))),
      hcross q (mem_of_getLast? hq) q' (hmem q' (mem_of_getLast? hq'))⟩

/-- The metadata in a reference shows what is observed of the points below it, if those of
points added one by one and of a superblock do. -/
theorem Sub.observed {γ : Type} {obs : AggregationResult Rat → γ} {P : List Point → Prop}
    (hobs : Respects combine obs) (hsub : ∀ {g pts : List Point}, P pts → g.Sublist pts → P g)
    (hadded : ∀ {g : List Point}, P g → obs (ofPoints g true).sealed = obs (summary g))
    (hinner : ∀ {k : Nat} {refs : List (SubtreeRef Rat)} {groups : List (List StoredLeaf)} fanout,
      refs ≠ [] → Forall₂ (Sub bs id k) refs groups → P (points groups.flatten) →
      obs (AggregationResult.copyFrom (innerMeta id (k + 1) fanout refs)).sealed =
        obs (total combine initAggres (refs.map .copyFrom)))
    {ref : SubtreeRef Rat} {leaves : List StoredLeaf} (h : Sub bs id k ref leaves)
    (hP : P (points leaves)) :
    obs (AggregationResult.copyFrom ref).sealed = obs (summary (points leaves)) := by
  induction k generalizing ref leaves with
  | zero =>
    obtain ⟨i, fanout, link, pts, -, -, rfl, rfl⟩ := h
    have hpts : points [⟨bs.alloc i, pts⟩] = pts := append_nil pts
    rw [hpts] at hP ⊢
    have hmeta := copyFrom_leafMeta (V := Rat) id fanout pts
    exact (congrArg (fun a => obs a.sealed) hmeta).trans (hadded hP)
  | succ k ih =>
    obtain ⟨i, fanout, link, refs, groups, -, hne, -, rfl, -, hall, rfl⟩ := h
    refine (hinner fanout hne hall hP).trans ?_
    rw [points_flatten] at hP ⊢
    apply obs_total hobs
    rw [forall₂_map_left_iff, forall₂_map_right_iff]
    refine Pairs.imp_mem hall.flip fun g hg r _ hr => ih hr (hsub hP ?_)
    exact sublist_flatten_of_mem (mem_map_of_mem hg)

end Subtrees
end FastSTDB
