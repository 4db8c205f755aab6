import FastSTDB.Lib.Pull
import FastSTDB.Types
import Mathlib.Tactic.Linarith

/-
  Operators — aggregation results and filters (`operators/operator.cc`)

  Correspondence (C++ ↔ Lean):
    `AggregationResult`, `INIT_AGGRES`  ↔ `AggregationResult`, `initAggres`
    `copy_from / do_the_math / add / combine` ↔ the functions of the same names
    `ValueFilter` (bit mask, thresholds) ↔ `ValueFilter`, the mask as a predicate

  `cnt` is a double that only ever holds a number of points; it is a `Nat` here.
-/
namespace FastSTDB
open DoubleArith

variable {V : Type} [DoubleArith V]

/-- The answers of all operators carry these statuses. -/
abbrev Reply (β σ Φ : Type) := Pull.Reply Status β σ Φ

/-! ## Aggregation results -/

structure AggregationResult (V : Type) where
  cnt : Nat
  sum : V
  min : V
  max : V
  first : V
  last : V
  mints : Timestamp
  maxts : Timestamp
  _begin : Timestamp
  _end : Timestamp
  deriving DecidableEq, Repr

def initAggres : AggregationResult V where
  cnt := 0
  sum := zero
  min := DoubleArith.max
  max := lowest
  first := zero
  last := zero
  mints := maxTimestamp
  maxts := 0
  _begin := maxTimestamp
  _end := 0

namespace AggregationResult

def copyFrom (r : SubtreeRef V) : AggregationResult V where
  cnt := r.count
  sum := r.sum
  min := r.min
  max := r.max
  first := r.first
  last := r.last
  mints := r.minTime
  maxts := r.maxTime
  _begin := r.beginTs
  _end := r.endTs

section
variable (a : AggregationResult V)

/-- The loop of `do_the_math`: sum, minimum and maximum. -/
def accumulate (p : Point) : AggregationResult V :=
  let x : V := ofBits p.value
  { a with
    sum := DoubleArith.add a.sum x
    min := if lt x a.min then x else a.min
    mints := if lt x a.min then p.ts else a.mints
    max := if lt a.max x then x else a.max
    maxts := if lt a.max x then p.ts else a.maxts }

/-- `do_the_math`; the source asserts that there are points. -/
def doTheMath (pts : List Point) (inverted : Bool) : AggregationResult V :=
  match pts with
  | [] => a
  | p :: rest =>
    let q := rest.getLastD p
    let a := pts.foldl accumulate { a with cnt := a.cnt + pts.length }
    if inverted then
      { a with last := ofBits p.value, first := ofBits q.value, _end := p.ts, _begin := q.ts }
    else
      { a with first := ofBits p.value, last := ofBits q.value, _begin := p.ts, _end := q.ts }

def add (p : Point) (forward : Bool) : AggregationResult V :=
  let x : V := ofBits p.value
  let a₁ := a.accumulate p
  let a₂ :=
    if a.cnt = 0 then
      if forward then { a₁ with first := x, _begin := p.ts } else { a₁ with last := x, _end := p.ts }
    else a₁
  let a₃ :=
    if forward then { a₂ with last := x, _end := p.ts } else { a₂ with first := x, _begin := p.ts }
  { a₃ with cnt := a.cnt + 1 }

end

def combine (a other : AggregationResult V) : AggregationResult V where
  sum := DoubleArith.add a.sum other.sum
  cnt := a.cnt + other.cnt
  min := if lt other.min a.min then other.min else a.min
  mints := if lt other.min a.min then other.mints else a.mints
  max := if lt a.max other.max then other.max else a.max
  maxts := if lt a.max other.max then other.maxts else a.maxts
  first := if other._begin < a._begin then other.first else a.first
  _begin := if other._begin < a._begin then other._begin else a._begin
  last := if a._end < other._end then other.last else a.last
  _end := if a._end < other._end then other._end else a._end

/-- Fold of `add` over points in reading order. -/
def ofPoints (pts : List Point) (forward : Bool) : AggregationResult V :=
  pts.foldl (fun a p => a.add p forward) initAggres

end AggregationResult

/-! ## Value filters -/

/-- Indexes of the thresholds of a filter, and bits of its mask. -/
inductive Cmp where
  | lt | le | gt | ge
  deriving DecidableEq, Repr

inductive RangeOverlap where
  | noOverlap | fullOverlap | partialOverlap
  deriving DecidableEq, Repr

structure ValueFilter (V : Type) where
  mask : Cmp → Bool
  thresholds : Cmp → V

namespace ValueFilter

def empty : ValueFilter V := ⟨fun _ => false, fun _ => zero⟩

section
variable (f : ValueFilter V)

def set (c : Cmp) (value : V) : ValueFilter V where
  mask c' := if c' = c then true else f.mask c'
  thresholds c' := if c' = c then value else f.thresholds c'

section
variable (value : V)

def lessThan : ValueFilter V := f.set .lt value
def lessOrEqual : ValueFilter V := f.set .le value
def greaterThan : ValueFilter V := f.set .gt value
def greaterOrEqual : ValueFilter V := f.set .ge value

def matchValue : Bool :=
  (if f.mask .lt then DoubleArith.lt value (f.thresholds .lt)
   else if f.mask .le then DoubleArith.le value (f.thresholds .le) else true) &&
  (if f.mask .gt then DoubleArith.lt (f.thresholds .gt) value
   else if f.mask .ge then DoubleArith.le (f.thresholds .ge) value else true)

end

def getRank : Nat :=
  (f.mask .lt).toNat + (f.mask .le).toNat + (f.mask .gt).toNat + (f.mask .ge).toNat

/-- Upper and lower threshold in use. -/
def hi : V := if f.mask .lt then f.thresholds .lt else f.thresholds .le
def lo : V := if f.mask .gt then f.thresholds .gt else f.thresholds .ge

def isOrdered : Bool :=
  if f.getRank = 2 then DoubleArith.lt f.lo f.hi else true

/-- `get_overlap`, from the smallest and the largest value of a subtree. -/
def getOverlap (ref : SubtreeRef V) : RangeOverlap :=
  let beginMatch := f.matchValue ref.min
  let endMatch := f.matchValue ref.max
  if f.getRank < 2 then
    if beginMatch && endMatch then .fullOverlap
    else if beginMatch || endMatch then .partialOverlap
    else .noOverlap
  else
    let min := if DoubleArith.lt f.lo ref.min then f.lo else ref.min
    let max := if DoubleArith.lt ref.max f.hi then f.hi else ref.max
    let w1 := sub ref.max ref.min
    let w2 := sub f.hi f.lo
    let inclusive := f.mask .le && f.mask .ge
    let overlap :=
      if inclusive then DoubleArith.le (sub max min) (DoubleArith.add w1 w2)
      else DoubleArith.lt (sub max min) (DoubleArith.add w1 w2)
    if overlap then if beginMatch && endMatch then .fullOverlap else .partialOverlap
    else .noOverlap

def validate : Bool :=
  if !(f.mask .lt || f.mask .le || f.mask .gt || f.mask .ge) then false
  else if f.mask .lt && f.mask .le then false
  else if f.mask .gt && f.mask .ge then false
  else f.isOrdered

end

variable {f : ValueFilter Rat} {ref : SubtreeRef Rat} {v : Rat}

section
variable (f : ValueFilter Rat) (ref : SubtreeRef Rat)

/-- What `get_overlap` says of a subtree is true of every value between its bounds. -/
def OverlapSound : Prop :=
  ∀ v, ref.min ≤ v → v ≤ ref.max →
    (f.getOverlap ref = .fullOverlap → f.matchValue v = true) ∧
    (f.getOverlap ref = .noOverlap → f.matchValue v = false)

/-- Two bounds that are not both inclusive, and a single value that the subtree and the filter
have in common: the subtree is constant, or it begins or ends at a bound. -/
def MeetsAtPoint : Prop :=
  f.getRank = 2 ∧ ¬ (f.mask .le && f.mask .ge) ∧
    ((ref.min = ref.max ∨ ref.min = f.hi) ∧ f.matchValue ref.min = true ∨
      ref.max = f.lo ∧ f.matchValue ref.max = true)

end

theorem matchValue_iff : f.matchValue v = true ↔ (f.mask .lt → v < f.hi) ∧ (f.mask .le → v ≤ f.hi) ∧
      (f.mask .gt → f.lo < v) ∧ (f.mask .ge → f.lo ≤ v) := by
  simp only [matchValue, hi, lo, lt, le]
  cases f.mask .lt <;> cases f.mask .le <;> cases f.mask .gt <;> cases f.mask .ge <;>
    simp +contextual [le_of_lt]

theorem matchValue_between {a b : Rat} (ha : f.matchValue a = true) (hb : f.matchValue b = true)
    (hav : a ≤ v) (hvb : v ≤ b) : f.matchValue v = true := by
  rw [matchValue_iff] at ha hb ⊢
  exact ⟨fun h => lt_of_le_of_lt hvb (hb.1 h), fun h => hvb.trans (hb.2.1 h),
    fun h => lt_of_lt_of_le (ha.2.2.1 h) hav, fun h => (ha.2.2.2 h).trans hav⟩

theorem one_sided (h : f.getRank < 2) :
    (f.mask .lt = false ∧ f.mask .le = false) ∨ (f.mask .gt = false ∧ f.mask .ge = false) := by
  revert h
  unfold getRank
  cases f.mask .lt <;> cases f.mask .le <;> cases f.mask .gt <;> cases f.mask .ge <;> decide

theorem two_sided (hf : f.validate = true) (hrank : ¬ f.getRank < 2) :
    f.getRank = 2 ∧ f.lo < f.hi ∧ (f.matchValue v = true → f.lo ≤ v ∧ v ≤ f.hi) := by
  rw [matchValue_iff]
  unfold validate isOrdered getRank at hf
  unfold getRank at hrank ⊢
  cases hlt : f.mask .lt <;> cases hle : f.mask .le <;> cases hgt : f.mask .gt <;>
    cases hge : f.mask .ge <;> simp [hlt, hle, hgt, hge, lt] at hf hrank <;>
    refine ⟨rfl, hf, ?_⟩ <;> simp +contextual [le_of_lt]

/-- The interval around two intervals is narrower than both together exactly if they have more
than a point in common. -/
theorem width_iff (a b lo hi : Rat) :
    (max b hi - min a lo < b - a + (hi - lo) ↔ max a lo < min b hi) ∧
      (max b hi - min a lo ≤ b - a + (hi - lo) ↔ max a lo ≤ min b hi) := by
  have hmin := min_add_max a lo
  have hmax := min_add_max b hi
  constructor <;> constructor <;> intro h <;> linarith

theorem getOverlap_two (hrank : f.getRank = 2) : f.getOverlap ref = .noOverlap ↔
    if f.mask .le && f.mask .ge then min ref.max f.hi < max ref.min f.lo
    else min ref.max f.hi ≤ max ref.min f.lo := by
  simp only [getOverlap, lt, le, add, sub]
  cases f.mask .le && f.mask .ge <;> simp
  · grind
  · grind

theorem getOverlap_ends : (f.getOverlap ref = .fullOverlap →
      f.matchValue ref.min = true ∧ f.matchValue ref.max = true) ∧
    (f.getRank < 2 → f.getOverlap ref = .noOverlap →
      f.matchValue ref.min = false ∧ f.matchValue ref.max = false) := by
  unfold getOverlap
  grind

/-- `get_overlap` is wrong exactly about subtrees that have a single value in common with a filter
of which a bound is exclusive: it does not see the value. -/
theorem overlap_sound_iff (hf : f.validate = true) (href : ref.min ≤ ref.max) :
    f.OverlapSound ref ↔ ¬ f.MeetsAtPoint ref := by
  constructor
  · rintro h ⟨hrank, hopen, hpoint⟩
    have hnone : f.getOverlap ref = .noOverlap := by
      rw [getOverlap_two hrank]
      grind
    rcases hpoint with ⟨-, hmatch⟩ | ⟨-, hmatch⟩
    · rw [(h _ le_rfl href).2 hnone] at hmatch
      cases hmatch
    · rw [(h _ href le_rfl).2 hnone] at hmatch
      cases hmatch
  · intro hmeets v hmin hmax
    refine ⟨fun hfull => ?_, fun hnone => ?_⟩
    · obtain ⟨hfirst, hlast⟩ := getOverlap_ends.1 hfull
      exact matchValue_between hfirst hlast hmin hmax
    · by_contra hmatch
      rw [Bool.not_eq_false] at hmatch
      by_cases hrank : f.getRank < 2
      · -- the end of the subtree on the open side matches as well
        obtain ⟨hfirst, hlast⟩ := getOverlap_ends.2 hrank hnone
        rw [matchValue_iff] at hmatch
        rcases one_sided hrank with ⟨hlt, hle⟩ | ⟨hgt, hge⟩
        · refine absurd (matchValue_iff.mpr ?_) (Bool.eq_false_iff.mp hlast)
          rw [hlt, hle]
          exact ⟨nofun, nofun, fun h => lt_of_lt_of_le (hmatch.2.2.1 h) hmax,
            fun h => (hmatch.2.2.2 h).trans hmax⟩
        · refine absurd (matchValue_iff.mpr ?_) (Bool.eq_false_iff.mp hfirst)
          rw [hgt, hge]
          exact ⟨fun h => lt_of_le_of_lt hmin (hmatch.1 h), fun h => hmin.trans (hmatch.2.1 h),
            nofun, nofun⟩
      · obtain ⟨htwo, hlt, hbounds⟩ := two_sided hf hrank
        obtain ⟨hlo, hhi⟩ := hbounds hmatch
        have hlow : max ref.min f.lo ≤ v := max_le hmin hlo
        have hhigh : v ≤ min ref.max f.hi := le_min hmax hhi
        rw [getOverlap_two htwo] at hnone
        split at hnone
        · exact absurd (hlow.trans hhigh) (not_le.mpr hnone)
        next hopen =>
          -- `v` is all they have in common
          refine hmeets ⟨htwo, hopen, ?_⟩
          grind

/-- Values from 10 to 12, and a filter for 0 to 10 with both bounds. -/
theorem overlap_sound_closed :
    let f : ValueFilter Rat := (empty.greaterOrEqual 0).lessOrEqual 10
    f.OverlapSound { initSubtreeRef Rat with min := 10, max := 12 } := by
  refine (overlap_sound_iff (by decide +kernel) (by decide)).mpr fun h => ?_
  exact h.2.1 rfl

/-- A subtree of values 5, and a filter for values between 0 and 10: all match, but the answer is
that none does. -/
theorem overlap_misses_constant :
    let f : ValueFilter Rat := (empty.greaterThan 0).lessThan 10
    let ref : SubtreeRef Rat := { initSubtreeRef Rat with min := 5, max := 5 }
    f.validate = true ∧ f.getOverlap ref = .noOverlap ∧ f.matchValue 5 = true := by decide +kernel

end ValueFilter

/-! ## Aggregate filters -/

/-- The components an aggregate filter looks at, in the order of their bits. -/
inductive AggFn where
  | avg | min | max | first | last
  deriving DecidableEq, Repr

inductive FilterMode where
  | all | any
  deriving DecidableEq, Repr

structure AggregateFilter (V : Type) where
  filters : AggFn → ValueFilter V
  bitmap : AggFn → Bool
  mode : FilterMode

end FastSTDB
