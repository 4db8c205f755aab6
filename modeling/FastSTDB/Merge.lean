import FastSTDB.Lib.Merging
import FastSTDB.Operator
import FastSTDB.Sample

/-
  Merge materializers — `MergeMaterializer` and `MergeEventMaterializer`
  (`operators/merge.h`)

  The two classes are the same program over points and over events; `MergeKind`
  holds what differs. A range is what is left in its arrays, `ts` and `xs` from
  `pos` on. The heap is the list of its items in the order of the pushes, and the
  heap of the library (`boost::heap::skew_heap`) is a parameter: `pop` takes an
  item out. With `stable<true>` it is `Merging.stablePop`.

  Correspondence (C++ ↔ Lean):
    `TimeOrderImpl`, `SeriesOrderImpl`, `MergeJoinOrder` ↔ `MergeOrder.comp`
    `Range`, `HeapItem`                  ↔ `Range α`, `HeapItem α`
    `MergeMaterializer`, its fields      ↔ `Merge α σ`
    the first loop of `kway_merge`       ↔ `fillRanges`
    the loop that pushes the ranges      ↔ `pushRanges`
    the main loop                        ↔ `mergeLoop`
    `kway_merge`, `read`                 ↔ `Merge.kwayMerge`, `Merge.read`

  A read that ends with another status than `Ok` and `NoData` returns no sample.
-/
namespace FastSTDB

/-! ## Orders -/

structure MergeKey where
  ts : Timestamp
  id : ParamId
  deriving DecidableEq, Repr

/-- The predicates a merge is instantiated with. -/
inductive MergeOrder where
  | time | series | join
  deriving DecidableEq, Repr

def pairLess (a b : UInt64 × UInt64) : Bool := decide (a.1 < b.1) || a.1 == b.1 && decide (a.2 < b.2)

/-- `CmpPred<dir>::operator()`: `lhs` comes after `rhs`. -/
def MergeOrder.comp (order : MergeOrder) (forward : Bool) (lhs rhs : MergeKey) : Bool :=
  match order with
  | .time =>
    if forward then pairLess (rhs.ts, rhs.id) (lhs.ts, lhs.id)
    else pairLess (lhs.ts, lhs.id) (rhs.ts, rhs.id)
  | .series =>
    if forward then pairLess (rhs.id, rhs.ts) (lhs.id, lhs.ts)
    else pairLess (lhs.id, lhs.ts) (rhs.id, rhs.ts)
  | .join => if forward then decide (rhs.ts < lhs.ts) else decide (lhs.ts < rhs.ts)

/-! ## State -/

variable {α σ Φ : Type}

/-- What the merges do differently. The key is that of an element in a range with an id; the
sample is made of the id in the key. -/
structure MergeKind (α : Type) where
  key : ParamId → α → MergeKey
  sizeRequired : α → Nat
  sample : ParamId → α → Sample

def MergeKind.real : MergeKind Point where
  key id p := ⟨p.ts, id⟩
  sizeRequired _ := sampleSize
  sample id p := ⟨p.ts, id, .float p.value⟩

structure Event where
  ts : Timestamp
  body : List UInt8
  deriving DecidableEq, Repr

/-- `MergeEventMaterializer`; `size_required` is a u16. -/
def MergeKind.event : MergeKind Event where
  key id e := ⟨e.ts, id⟩
  sizeRequired e := (sampleSize + e.body.length) % 2 ^ 16
  sample id e := ⟨e.ts, id, .event e.body⟩

def rangeSize : Nat := 1024

structure Range (α : Type) where
  id : ParamId
  items : List α

structure HeapItem (α : Type) where
  key : MergeKey
  value : α
  index : Nat

structure Merge (α σ : Type) where
  iters : List σ
  ids : List ParamId
  forward : Bool
  ranges : List (Range α)

/-- The constructor; `forward` tells the direction of the first operator. -/
def Merge.new (ids : List ParamId) (iters : List σ) (forward : Bool) : Merge α σ :=
  ⟨iters, ids, forward, []⟩

/-! ## Reading -/

section Read
variable (kind : MergeKind α) (rd : Pull.Reader Status α σ Φ)

/-- Read the first elements of every operator into a range, in order. An operator
without elements gets no range. The status is that of a failed read. -/
def fillRanges : List σ → List ParamId → Φ →
    Option (Option Status × List σ × List (Range α) × Φ)
  | it :: iters, id :: ids, φ =>
    (rd φ it rangeSize).bind fun r =>
      let range : List (Range α) :=
        if r.status = .ok ∨ r.status = .noData ∧ r.out ≠ [] then [⟨id, r.out⟩] else []
      if r.status ≠ .ok ∧ r.status ≠ .noData then
        some (some r.status, r.next :: iters, range, r.env)
      else
        (fillRanges iters ids r.env).map fun (status, iters, ranges, φ) =>
          (status, r.next :: iters, range ++ ranges, φ)
  | iters, _, φ => some (none, iters, [], φ)

def heapItem (index : Nat) (range : Range α) : Option (HeapItem α) :=
  range.items.head?.map fun a => ⟨kind.key range.id a, a, index⟩

/-- The items of all ranges that are not empty, in the order of the ranges; `index` is
that of the first one. -/
def pushRanges : Nat → List (Range α) → List (HeapItem α)
  | _, [] => []
  | index, range :: ranges =>
    (heapItem kind index range).toList ++ pushRanges (index + 1) ranges

/-- The main loop: `out` is what has been put out, `room` the bytes left. -/
def mergeLoop (pop : List (HeapItem α) → Option (HeapItem α × List (HeapItem α))) :
    Nat → Φ → Merge α σ → List (HeapItem α) → Nat → List Sample →
      Option (Reply Sample (Merge α σ) Φ)
  | 0, _, _, _, _, _ => none
  | fuel + 1, φ, st, heap, room, out =>
    match pop heap with
    | none => some ⟨.noData, out, { st with iters := [], ranges := [] }, φ⟩
    | some (item, heap) =>
      if kind.sizeRequired item.value ≤ room then
        let out := out ++ [kind.sample item.key.id item.value]
        let room := room - kind.sizeRequired item.value
        (st.ranges[item.index]?).bind fun range =>
          let items := range.items.tail
          if items = [] then
            (st.iters[item.index]?).bind fun it =>
              (rd φ it rangeSize).bind fun r =>
                let iters := st.iters.set item.index r.next
                if r.status ≠ .ok ∧ r.status ≠ .noData then
                  some ⟨r.status, [], { st with
                    iters := iters, ranges := st.ranges.set item.index ⟨range.id, []⟩ }, r.env⟩
                else
                  let range : Range α := ⟨range.id, r.out⟩
                  mergeLoop pop fuel r.env
                    { st with iters := iters, ranges := st.ranges.set item.index range }
                    (heap ++ (heapItem kind item.index range).toList) room out
          else
            let range : Range α := ⟨range.id, items⟩
            mergeLoop pop fuel φ { st with ranges := st.ranges.set item.index range }
              (heap ++ (heapItem kind item.index range).toList) room out
      else some ⟨.ok, out, st, φ⟩

/-- A heap of the library: how it takes out an item, given the predicate. -/
abbrev HeapPop (α : Type) := (HeapItem α → HeapItem α → Bool) → List (HeapItem α) →
  Option (HeapItem α × List (HeapItem α))

/-- The predicate on the items of a heap. -/
def MergeOrder.worse (order : MergeOrder) (forward : Bool) (lhs rhs : HeapItem α) : Bool :=
  order.comp forward lhs.key rhs.key

/-- The ranges are filled on the first call. -/
def Merge.start (st : Merge α σ) (φ : Φ) : Option (Option Status × List σ × List (Range α) × Φ) :=
  if st.ranges.isEmpty then fillRanges rd st.iters st.ids φ
  else some (none, st.iters, st.ranges, φ)

/-- `kway_merge<dir>`, called by `read`; `size` is in bytes. -/
def Merge.kwayMerge (order : MergeOrder) (pop : HeapPop α) (φ : Φ) (st : Merge α σ) (size : Nat) :
    Option (Reply Sample (Merge α σ) Φ) :=
  if st.iters.isEmpty then some ⟨.noData, [], st, φ⟩
  else
    (st.start rd φ).bind fun (status, iters, ranges, φ) =>
      let st := { st with iters := iters, ranges := ranges }
      match status with
      | some status => some ⟨status, [], st, φ⟩
      | none =>
        mergeLoop kind rd (pop (order.worse st.forward)) (size + 1) φ st
          (pushRanges kind 0 ranges) size []

end Read
end FastSTDB
