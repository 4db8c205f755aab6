import FastSTDB.Types
import Mathlib.Algebra.Order.Field.Rat
import Mathlib.Algebra.BigOperators.Group.List.Basic
import Mathlib.Tactic.Ring
import Mathlib.Tactic.Linarith

/-
  Nodes with a state for every field of every series (`rate.cc`, `sliding_window.cc`)

  `SimpleRate`, `CMAPrediction` and `SMAPrediction` go through the fields of a sample,
  replace each value by one that depends on the values the field of this series had
  before, and hand the sample on. Values are exact numbers.

  Correspondence (C++ ↔ Lean):
    `MutableSample`                  ↔ `Row`; `size_`, `bitmap_` ↔ `Row.size`, `Row.bitmap`
    `operator[]`                     ↔ `Row.index`, the place of a field among the values
    a table with `KeyHash`           ↔ `Table τ`, with `init` where there is no entry
    the loop of `put`                ↔ `FieldNode.fields`
    `SimpleRate::put`                ↔ `simpleRate`
    `CMAPrediction::put`             ↔ `cmaPrediction`
    `SMA`, `SMAPrediction::put`      ↔ `SMA`, `smaPrediction`, `SMAPrediction.run`

  A tuple has values for the fields of its bitmap only, and the place of a field is the
  number of fields before it (`Row.field`). `operator[]` takes the bit length of the bitmap
  before the field, cut off to 32 bits; where this is another number (`Row.Found`), a value
  that it does not find is left as it was (`FieldNode.Misses`).

  However series are interleaved, the values of a field become the trace of the node on
  them, if they are found (`column_run`). The rate is wrong when time runs backwards
  (`rate_iff`), the cumulative average counts every value twice (`cma_iff`), and the moving
  average has a window of one value and no next node (`sma_iff`).
-/
namespace FastSTDB
open List

/-! ## Samples -/

structure Row where
  id : ParamId
  ts : Timestamp
  regular : Bool
  istuple : Bool
  flags : UInt64
  data : Nat → Rat

/-- The number of the highest bit, from 1. -/
def countOnes (value : Nat) : Nat := if value = 0 then 0 else value.log2 + 1

namespace Row
variable {r : Row} {ix jx place : Nat}

def size (r : Row) : Nat := if r.istuple then (r.flags >>> 58).toNat else 1

/-- The 58 bits of the tuple are cut off to 32. -/
def bitmap (r : Row) : Nat := if r.istuple then r.flags.toNat % 2 ^ 58 % 2 ^ 32 else 1

/-- `operator[]`; the processor takes the count of a 32 bit shift modulo 32. -/
def index (r : Row) (ix : Nat) : Option Nat :=
  if r.istuple then
    let bit := 2 ^ (ix % 32)
    if r.bitmap &&& bit ≠ 0 then some (countOnes (r.bitmap &&& (bit - 1))) else none
  else if ix = 0 then some 0 else none

/-- The sample has a value for the field. -/
def has (r : Row) (ix : Nat) : Bool :=
  decide (ix < r.size) && if r.istuple then (r.flags.toNat % 2 ^ 58).testBit ix else true

/-- The place of a field: the values of the fields before it come first. -/
def field (r : Row) (ix : Nat) : Option Nat :=
  if r.has ix then some ((range ix).countP r.has) else none

/-- `operator[]` finds every field at its place. -/
def Found (r : Row) : Prop := ∀ ix < r.size, r.index ix = r.field ix

instance : Decidable r.Found := inferInstanceAs (Decidable (∀ ix < r.size, _))

theorem has_lt (h : r.has ix) : ix < r.size := by
  rw [has, Bool.and_eq_true] at h
  exact of_decide_eq_true h.1

theorem count_lt_count (hlt : ix < jx) (h : r.has ix) :
    (range ix).countP r.has < (range jx).countP r.has := by
  have hsub : range (ix + 1) <+ range jx := range_sublist.mpr hlt
  have hle := hsub.countP_le (p := r.has)
  rw [range_succ, countP_append, countP_singleton, if_pos h] at hle
  omega

theorem field_inj (h : r.field ix = some place) (h' : r.field jx = some place) : ix = jx := by
  obtain ⟨hix, hplace⟩ := Option.ite_none_right_eq_some.mp h
  obtain ⟨hjx, hplace'⟩ := Option.ite_none_right_eq_some.mp h'
  cases hplace
  rcases lt_trichotomy ix jx with hlt | heq | hlt
  · exact absurd (Option.some.inj hplace') (count_lt_count hlt hix).ne'
  · exact heq
  · exact absurd (Option.some.inj hplace') (count_lt_count hlt hjx).ne

end Row

def Row.scalar (id : ParamId) (ts : Timestamp) (x : Rat) : Row :=
  ⟨id, ts, true, false, 0, fun _ => x⟩

/-- The value of a field of a series, with its timestamp. -/
def Row.value (key : ParamId × Nat) (r : Row) : Option (Timestamp × Rat) :=
  if r.id = key.1 then (r.field key.2).map fun place => (r.ts, r.data place) else none

def column (key : ParamId × Nat) (rows : List Row) : List (Timestamp × Rat) :=
  rows.filterMap (·.value key)

/-- All fields of the series are found. -/
def AllFound (id : ParamId) (rows : List Row) : Prop := ∀ r ∈ rows, r.id = id → r.Found

instance (id : ParamId) (rows : List Row) : Decidable (AllFound id rows) :=
  inferInstanceAs (Decidable (∀ r ∈ rows, _))

variable {τ : Type} {r : Row} {rows : List Row} {key : ParamId × Nat} {ix jx place : Nat}

/-! ## Nodes -/

/-- The state of a field at the start, and what the node makes of a value. -/
structure FieldNode (τ : Type) where
  init : τ
  step : τ → Timestamp → Rat → τ × Rat

abbrev Table (τ : Type) := ParamId × Nat → τ

namespace FieldNode
variable (n : FieldNode τ)

/-- The loop over the fields. -/
def fields : List Nat → Row → Table τ → Row × Table τ
  | [], r, table => (r, table)
  | ix :: ixs, r, table =>
    match r.index ix with
    | none => fields ixs r table
    | some place =>
      let out := n.step (table (r.id, ix)) r.ts (r.data place)
      fields ixs { r with data := Function.update r.data place out.2 }
        (Function.update table (r.id, ix) out.1)

def put (r : Row) (table : Table τ) : Row × Table τ := n.fields (List.range r.size) r table

/-- The samples that are handed on. -/
def run : List Row → Table τ → List Row
  | [], _ => []
  | r :: rs, table => (n.put r table).1 :: run rs (n.put r table).2

/-- The state of a field after some values, and what becomes of the values. -/
def after (state : τ) (xs : List (Timestamp × Rat)) : τ :=
  xs.foldl (fun state x => (n.step state x.1 x.2).1) state

def trace : τ → List (Timestamp × Rat) → List (Timestamp × Rat)
  | _, [] => []
  | state, x :: xs => (x.1, (n.step state x.1 x.2).2) :: trace (n.step state x.1 x.2).1 xs

theorem trace_getElem? (xs : List (Timestamp × Rat)) (state : τ) (k : Nat) :
    (n.trace state xs)[k]? =
      xs[k]?.map fun x => (x.1, (n.step (n.after state (xs.take k)) x.1 x.2).2) := by
  induction xs generalizing state k with
  | nil => rfl
  | cons x xs ih =>
    cases k with
    | zero => rfl
    | succ k => exact ih _ k

theorem after_concat (state : τ) (xs : List (Timestamp × Rat)) (x : Timestamp × Rat) :
    n.after state (xs ++ [x]) = (n.step (n.after state xs) x.1 x.2).1 := by simp [after]

/-! ### One sample -/

theorem fields_row (ixs : List Nat) (r : Row) (table : Table τ) :
    ∃ data, (n.fields ixs r table).1 = { r with data } := by
  induction ixs generalizing r table with
  | nil => exact ⟨r.data, rfl⟩
  | cons ix ixs ih =>
    rw [fields]
    split
    · exact ih r table
    · exact ih _ _

/-- What no step changes is the same at the end. -/
theorem fields_same {α : Type} (get : (Nat → Rat) → Table τ → α) (ixs : List Nat) (r : Row)
    (table : Table τ) (h : ∀ ix ∈ ixs, ∀ place, r.index ix = some place → ∀ data table x y,
      get (Function.update data place x) (Function.update table (r.id, ix) y) = get data table) :
    get (n.fields ixs r table).1.data (n.fields ixs r table).2 = get r.data table := by
  induction ixs generalizing r table with
  | nil => rfl
  | cons ix ixs ih =>
    obtain ⟨hix, hixs⟩ := forall_mem_cons.mp h
    rw [fields]
    split
    · exact ih r table hixs
    · next place hplace =>
      refine (ih _ _ ?_).trans (hix place hplace _ _ _ _)
      exact hixs

theorem fields_field {ixs : List Nat} (hnodup : ixs.Nodup) (r : Row) (table : Table τ)
    (honly : ∀ jx ∈ ixs, r.index jx = some place → jx = ix) (h : r.index ix = some place) :
    ((n.fields ixs r table).2 (r.id, ix), (n.fields ixs r table).1.data place) =
      if ix ∈ ixs then n.step (table (r.id, ix)) r.ts (r.data place)
      else (table (r.id, ix), r.data place) := by
  induction ixs generalizing r table with
  | nil => rfl
  | cons jx ixs ih =>
    obtain ⟨hjx, hixs⟩ := nodup_cons.mp hnodup
    obtain ⟨hhead, htail⟩ := forall_mem_cons.mp honly
    rw [fields]
    split
    · next hnone =>
      have hne : ix ≠ jx := fun heq => by rw [heq, hnone] at h; cases h
      rw [ih hixs r table htail h]
      simp [hne]
    · next place' hplace =>
      by_cases heq : ix = jx
      · subst heq
        obtain rfl : place = place' := Option.some.inj (h.symm.trans hplace)
        refine (ih hixs _ _ ?_ ?_).trans ?_
        · exact htail
        · exact h
        · simp [hjx]
      · have hne : place ≠ place' := fun he => heq (hhead (he ▸ hplace)).symm
        refine (ih hixs _ _ ?_ ?_).trans ?_
        · exact htail
        · exact h
        · simp [heq, hne]

theorem put_value (key : ParamId × Nat) (table : Table τ) (hr : r.id = key.1 → r.Found) :
    (n.put r table).1.value key =
        (r.value key).map (fun x => (x.1, (n.step (table key) x.1 x.2).2)) ∧ (n.put r table).2 key =
        (r.value key).elim (table key) fun x => (n.step (table key) x.1 x.2).1 := by
  obtain ⟨data, hrow⟩ := n.fields_row (range r.size) r table
  rw [put, hrow, Row.value, Row.value, show Row.field { r with data } key.2 = r.field key.2 from rfl]
  by_cases hid : r.id = key.1
  · have hfound := hr hid
    rw [if_pos hid, if_pos hid]
    cases hfield : r.field key.2 with
    | none =>
      refine ⟨rfl, n.fields_same (fun _ table => table key) _ _ _ fun ix hix place hindex _ _ _ _ =>
        Function.update_of_ne (fun heq => ?_) _ _⟩
      rw [heq, ← hfound ix (mem_range.mp hix), hindex] at hfield
      cases hfield
    | some place =>
      have hix : key.2 < r.size := Row.has_lt (Option.ite_none_right_eq_some.mp hfield).1
      have honly : ∀ jx ∈ range r.size, r.index jx = some place → jx = key.2 := by
        intro jx hjx hindex
        rw [hfound jx (mem_range.mp hjx)] at hindex
        exact Row.field_inj hindex hfield
      have hstep := n.fields_field nodup_range r table honly ((hfound _ hix).trans hfield)
      rw [if_pos (mem_range.mpr hix), hrow, hid] at hstep
      exact ⟨congrArg (fun out : τ × Rat => some (r.ts, out.2)) hstep, congrArg Prod.fst hstep⟩
  · rw [if_neg hid, if_neg hid]
    exact ⟨rfl, n.fields_same (fun _ table => table key) _ _ _ fun ix _ _ _ _ _ _ _ =>
      Function.update_of_ne (fun heq => hid (congrArg Prod.fst heq).symm) _ _⟩

theorem column_run (table : Table τ) (hfound : AllFound key.1 rows) :
    column key (n.run rows table) = n.trace (table key) (column key rows) := by
  induction rows generalizing table with
  | nil => rfl
  | cons r rows ih =>
    obtain ⟨hr, hrows⟩ := forall_mem_cons.mp hfound
    obtain ⟨hrow, htable⟩ := n.put_value key table hr
    rw [run, column, filterMap_cons, hrow, ← column, ih _ hrows, htable, column, column,
      filterMap_cons]
    cases r.value key with
    | none => rfl
    | some x => rfl

theorem getElem?_run {k : Nat} {x : Timestamp × Rat} (hfound : AllFound key.1 rows)
    (h : (column key rows)[k]? = some x) : (column key (n.run rows fun _ => n.init))[k]? =
      some (x.1, (n.step (n.after n.init ((column key rows).take k)) x.1 x.2).2) := by
  rw [column_run _ _ hfound, trace_getElem?, h, Option.map_some]

/-- A value that `operator[]` does not find is handed on as it was. -/
def Misses (n : FieldNode τ) (rows : List Row) : Prop :=
  ∀ (i : Nat) (r : Row) (ix place : Nat), rows[i]? = some r → r.field ix = some place →
    (∀ jx < r.size, r.index jx ≠ some place) →
    (n.run rows fun _ => n.init)[i]?.bind (Row.value (r.id, ix)) = r.value (r.id, ix)

theorem misses (rows : List Row) : n.Misses rows := by
  rw [Misses]
  generalize (fun _ : ParamId × Nat => n.init) = table
  induction rows generalizing table with
  | nil => intro i r ix place h; cases h
  | cons r rows ih =>
    intro i r0 ix place hr hfield hmissed
    cases i with
    | succ i => exact ih _ i r0 ix place hr hfield hmissed
    | zero =>
      cases hr
      obtain ⟨data, hrow⟩ := n.fields_row (range r.size) r table
      have hdata := n.fields_same (fun data _ => data place) (range r.size) r table
        fun jx hjx place' hindex _ _ _ _ => Function.update_of_ne
          (fun heq : place = place' => hmissed jx (mem_range.mp hjx) (heq ▸ hindex)) _ _
      rw [hrow] at hdata
      rw [run, getElem?_cons_zero, Option.bind_some, put, hrow, Row.value, Row.value, if_pos rfl,
        if_pos rfl, show Row.field { r with data } ix = r.field ix from rfl, hfield,
        Option.map_some, Option.map_some, hdata]

end FieldNode

/-! ## The rate -/

/-- The time difference wraps. -/
def simpleRate : FieldNode (Timestamp × Rat) where
  init := (0, 0)
  step old newT newX :=
    ((newT, newX), (newX - old.2) / ((newT - old.1).toNat : Rat) * 1000000000)

variable {k : Nat} {t0 t1 : Timestamp} {x x0 x1 : Rat}

theorem take_succ_of_getElem? {α : Type} {xs : List α} {x : α} (h : xs[k]? = some x) :
    xs.take (k + 1) = xs.take k ++ [x] := by rw [take_add_one, h, Option.toList_some]

theorem toNat_sub_eq_iff : ((t1 - t0).toNat : Int) = (t1.toNat : Int) - t0.toNat ↔ t0 ≤ t1 := by
  have h1 := t1.toNat_lt
  rw [UInt64.toNat_sub, UInt64.le_iff_toNat_le]
  omega

/-- The rate between two values of a field is right when the time has grown, or there is no change
at all. -/
theorem rate_iff (rows : List Row) :
    (∀ key k t0 x0 t1 x1, AllFound key.1 rows → (column key rows)[k]? = some (t0, x0) →
      (column key rows)[k + 1]? = some (t1, x1) → t0 ≠ t1 →
      ((column key (simpleRate.run rows fun _ => simpleRate.init))[k + 1]? =
          some (t1, (x1 - x0) / (((t1.toNat : Int) - t0.toNat : Int) : Rat) * 1000000000) ↔
        t0 < t1 ∨ x1 = x0)) ∧ simpleRate.Misses rows := by
  refine ⟨fun key k t0 x0 t1 x1 hfound h0 h1 hne => ?_, simpleRate.misses rows⟩
  have hA : (((t1 - t0).toNat : Int) : Rat) ≠ 0 := by
    rw [Int.cast_ne_zero, Int.natCast_ne_zero]
    intro h
    exact hne (sub_eq_zero.mp (UInt64.toNat_inj.mp h)).symm
  have hB : (((t1.toNat - t0.toNat : Int)) : Rat) ≠ 0 := by
    rw [Int.cast_ne_zero, sub_ne_zero]
    exact fun h => hne (UInt64.toNat_inj.mp (Int.ofNat.inj h)).symm
  rw [simpleRate.getElem?_run hfound h1, take_succ_of_getElem? h0, FieldNode.after_concat]
  simp only [simpleRate, Option.some.injEq, Prod.mk.injEq, true_and]
  rw [mul_left_inj' (by norm_num), ← Int.cast_natCast, div_eq_div_iff hA hB, mul_eq_mul_left_iff,
    Int.cast_inj, eq_comm, toNat_sub_eq_iff, sub_eq_zero, le_iff_lt_or_eq, or_iff_left hne]

/-- Tuples of two fields, with a sample of another series between them. -/
def tuplePair : List Row :=
  [⟨1, 10, true, true, 0x0800000000000003, fun i => i + 4⟩, .scalar 2 15 0,
    ⟨1, 20, true, true, 0x0800000000000003, fun i => 3 * i + 8⟩]

theorem rate_up : (column (1, 1) (simpleRate.run tuplePair fun _ => simpleRate.init))[1]? =
      some (20, ((11 - 5) / (((20 : Nat) - (10 : Nat) : Int) : Rat) * 1000000000 : Rat)) :=
  ((rate_iff tuplePair).1 (1, 1) 0 10 5 20 11 (by decide +kernel) (by decide +kernel)
    (by decide +kernel) (by decide)).mpr (.inl (by decide))

/-- Two samples of a backward query: the value has grown by 4 in 10 nanoseconds less than
`2 ^ 64`, not fallen by 4 in 10. -/
theorem rate_down :
    (column (1, 0) (simpleRate.run [.scalar 1 20 4, .scalar 1 10 8] fun _ => simpleRate.init))[1]? ≠
      some (10, (8 - 4) / (10 - 20) * 1000000000) := by decide +kernel

/-! ## The cumulative average -/

/-- The value is added to the sum once more when the state is stored. -/
def cmaPrediction : FieldNode (Rat × Nat) where
  init := (0, 0)
  step state _ value :=
    let sum := state.1 + value
    let cnt := state.2 + 1
    ((sum + value, cnt + 1), sum / cnt)

theorem cmaPrediction_after (xs : List (Timestamp × Rat)) :
    cmaPrediction.after cmaPrediction.init xs = (2 * (xs.map Prod.snd).sum, 2 * xs.length) := by
  induction xs using reverseRecOn with
  | nil => simp [FieldNode.after, cmaPrediction]
  | append_singleton xs x ih =>
    rw [FieldNode.after_concat, ih]
    simp only [cmaPrediction, map_append, sum_append, length_append, map_singleton,
      sum_singleton]
    exact Prod.ext (by ring) rfl

/-- The average is right for the first value of a field, and for one that is the average of those
before it. -/
theorem cma_iff (rows : List Row) :
    (∀ key k t x, AllFound key.1 rows → (column key rows)[k]? = some (t, x) →
      ((column key (cmaPrediction.run rows fun _ => cmaPrediction.init))[k]? =
          some (t, (((column key rows).take (k + 1)).map Prod.snd).sum / (k + 1 : Nat)) ↔
        (((column key rows).take k).map Prod.snd).sum = k * x)) ∧ cmaPrediction.Misses rows := by
  refine ⟨fun key k t x hfound h => ?_, cmaPrediction.misses rows⟩
  have hlen : ((column key rows).take k).length = k :=
    length_take_of_le (List.getElem?_eq_some_iff.mp h).1.le
  rw [cmaPrediction.getElem?_run hfound h, take_succ_of_getElem? h, cmaPrediction_after, hlen]
  simp only [cmaPrediction, Option.some.injEq, Prod.mk.injEq, true_and, map_append, sum_append,
    map_singleton, sum_singleton]
  rw [div_eq_div_iff (by positivity) (by positivity)]
  push_cast
  constructor
  · intro he
    linarith
  · intro he
    rw [he]
    ring

/-- The third value is the average of the first two. -/
theorem cma_mean :
    let rows : List Row := [.scalar 1 10 1, .scalar 2 10 7, .scalar 1 20 5, .scalar 1 30 3]
    (column (1, 0) (cmaPrediction.run rows fun _ => cmaPrediction.init))[2]? =
      some (30, (((column (1, 0) rows).take 3).map Prod.snd).sum / (2 + 1 : Nat)) :=
  ((cma_iff _).1 (1, 0) 2 30 3 (by decide +kernel) (by decide +kernel)).mpr (by decide +kernel)

/-- The average of 1 and 4 comes out as 2. -/
theorem cma_second : (column (1, 0) (cmaPrediction.run [.scalar 1 10 1, .scalar 1 20 4] fun _ =>
      cmaPrediction.init))[1]? = some (20, 2) ∧ ((1 : Rat) + 4) / 2 ≠ 2 := by decide +kernel

/-! ## The moving average -/

/-- The buffer has room for `n` values. -/
structure SMA where
  n : Nat
  buffer : List Rat
  sum : Rat

/-- A value is taken out whenever there is one. -/
def SMA.add (sma : SMA) (value : Rat) : SMA :=
  let sma := match sma.buffer with
    | [] => sma
    | old :: rest => { sma with buffer := rest, sum := sma.sum - old }
  { sma with buffer := (sma.buffer ++ [value]).drop (sma.buffer.length + 1 - sma.n)
             sum := sma.sum + value }

def SMA.get (sma : SMA) : Rat := sma.sum / sma.buffer.length

def smaPrediction (width : Nat) (delta : Bool) : FieldNode SMA where
  init := ⟨width, [], 0⟩
  step sma _ value :=
    let exp := sma.get
    (sma.add value, if delta then value - exp else exp)

structure SMAPrediction (ν : Type) where
  width : Nat
  delta : Bool
  next : Option ν

/-- The constructors do not store the next node. -/
def SMAPrediction.new {ν : Type} (width : Nat) (delta : Bool) (_next : ν) : SMAPrediction ν :=
  ⟨width, delta, none⟩

/-- What the next node is given, `none` where it is called and there is none. An irregular
sample ends the stream with an error for the next node. -/
def SMAPrediction.run {ν : Type} (p : SMAPrediction ν) : List Row → Table SMA → Option (List Row)
  | [], _ => some []
  | r :: rs, table =>
    p.next.bind fun _ =>
      if r.regular then
        let out := (smaPrediction p.width p.delta).put r table
        (p.run rs out.2).map (out.1 :: ·)
      else some []

theorem smaPrediction_after {width : Nat} (hwidth : 1 ≤ width) (delta : Bool)
    (xs : List (Timestamp × Rat)) : (smaPrediction width delta).after ⟨width, [], 0⟩ xs =
      match xs.getLast? with
      | none => ⟨width, [], 0⟩
      | some x => ⟨width, [x.2], x.2⟩ := by
  induction xs using reverseRecOn with
  | nil => rfl
  | append_singleton xs x ih =>
    rw [FieldNode.after_concat, ih]
    have hdrop : 0 + 1 - width = 0 := by omega
    cases xs.getLast? with
    | none => simp [smaPrediction, SMA.add, hdrop]
    | some y => simp [smaPrediction, SMA.add, hdrop]

/-- Nothing reaches the next node, and the prediction is the last value, whatever the width. -/
theorem sma_iff {ν : Type} (next : ν) {width : Nat} (hwidth : 1 ≤ width) (rows : List Row) :
    ((SMAPrediction.new width false next).run rows (fun _ => ⟨width, [], 0⟩) =
        some ((smaPrediction width false).run rows fun _ => ⟨width, [], 0⟩) ↔ rows = []) ∧
      (∀ key k t0 x0 t1 x1, AllFound key.1 rows → (column key rows)[k]? = some (t0, x0) →
        (column key rows)[k + 1]? = some (t1, x1) →
        (column key ((smaPrediction width false).run rows fun _ => ⟨width, [], 0⟩))[k + 1]? =
          some (t1, x0)) ∧ (smaPrediction width false).Misses rows := by
  refine ⟨⟨fun h => ?_, ?_⟩, fun key k t0 x0 t1 x1 hfound h0 h1 => ?_,
    (smaPrediction width false).misses rows⟩
  · cases rows with
    | nil => rfl
    | cons r rows => cases h
  · rintro rfl
    rfl
  · refine ((smaPrediction width false).getElem?_run hfound h1).trans ?_
    rw [take_succ_of_getElem? h0, show (smaPrediction width false).init = ⟨width, [], 0⟩ from rfl,
      smaPrediction_after hwidth]
    simp [smaPrediction, SMA.get]

/-- With a window of one value, the second field of the pair is predicted by its first value. -/
theorem sma_pair : (column (1, 1) ((smaPrediction 1 false).run tuplePair fun _ => ⟨1, [], 0⟩))[1]? =
      some (20, 5) := (sma_iff () (le_refl 1) tuplePair).2.1 (1, 1) 0 10 5 20 11 (by decide +kernel)
    (by decide +kernel) (by decide +kernel)

/-- A window of two values: the third prediction is 3 and not the average of 1 and 3, and the
samples do not get that far. -/
theorem sma_third :
    let rows : List Row := [.scalar 1 10 1, .scalar 1 20 3, .scalar 1 30 5]
    (SMAPrediction.new 2 false ()).run rows (fun _ => ⟨2, [], 0⟩) = none ∧
      (column (1, 0) ((smaPrediction 2 false).run rows fun _ => ⟨2, [], 0⟩))[2]? = some (30, 3) ∧
      ((1 : Rat) + 3) / 2 ≠ 3 := ⟨rfl, by decide +kernel, by decide +kernel⟩

end FastSTDB
