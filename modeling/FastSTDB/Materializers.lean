import FastSTDB.EventQuery
import FastSTDB.Join

/-
  The materializers of all plans (`scan.cc`, `aggregate.cc`, `join.h`, `merge.h`)

  Samples of points and of aggregates have a fixed size, and a chain of columns asks
  for as many as the buffer can hold. A tuple has a value for each aggregation
  function of the request, or for each column of a join that has one at its time. Tuples
  are merged by `MergeJoinMaterializer`, which does to buffers of samples what
  `MergeMaterializer` does to arrays of points, with the ids that the samples have.

  Correspondence (C++ ↔ Lean):
    `TupleOutputUtils`                   ↔ `TupleOutputUtils.get`, `.getFlags`, `.getTupleSize`
    `ChainMaterializer`, `SeriesOrderAggregateMaterializer` ↔ `ColumnChain` with a `SampleFormat`
    `AggregateMaterializer`              ↔ `AggregateColumns`
    `JoinConcatMaterializer`             ↔ `JoinConcat`
    `MergeJoinMaterializer`              ↔ `mergeTuples` over a `Merge Sample σ`
    `TimeOrderAggregateMaterializer`     ↔ `mergeTuples` over chains of one column each
    the classes of materializers         ↔ `Materializer Op`

  Operators and heaps are parameters (`Readers`), and so is the bit pattern of a double.
-/
namespace FastSTDB
open Pull

variable {V Op α σ Φ : Type}

/-! ## Values of aggregates -/

namespace TupleOutputUtils

def get [DoubleArith V] (res : AggregationResult V) : AggregationFunction → V
  | .cnt => DoubleArith.ofNat res.cnt
  | .sum => res.sum
  | .min => res.min
  | .minTimestamp => DoubleArith.ofNat res.mints.toNat
  | .max => res.max
  | .maxTimestamp => DoubleArith.ofNat res.maxts.toNat
  | .mean => DoubleArith.div res.sum (DoubleArith.ofNat res.cnt)
  | .last => res.last
  | .first => res.first
  | .lastTimestamp => DoubleArith.ofNat res._end.toNat
  | .firstTimestamp => DoubleArith.ofNat res._begin.toNat

/-- A bit for each element, and their number from bit 58 on. -/
def getFlags (tup : List AggregationFunction) : UInt64 :=
  ((1 <<< UInt64.ofNat tup.length) - (1 : UInt64)) ||| (UInt64.ofNat tup.length <<< 58)

def getTupleSize (tup : List AggregationFunction) : Nat := sampleSize + sizeofDouble * tup.length

end TupleOutputUtils

/-! ## Chaining columns -/

/-- How the elements of a column are written. -/
structure SampleFormat (α : Type) where
  size : Nat
  sample : ParamId → α → Sample

structure ColumnChain (σ : Type) where
  iters : List σ
  ids : List ParamId
  pos : Nat

def ColumnChain.new (ids : List ParamId) (iters : List σ) : ColumnChain σ := ⟨iters, ids, 0⟩

/-- The loop over the columns: `size` is the number of elements there is space for. An operator
that puts out more writes behind the buffer. -/
def columnLoop (rd : Reader Status α σ Φ) : Nat → Φ → ColumnChain σ → Status → Nat →
    List (ParamId × α) → Option (Reply (ParamId × α) (ColumnChain σ) Φ)
  | 0, _, _, _, _, _ => none
  | fuel + 1, φ, st, status, size, out =>
    match st.iters[st.pos]? with
    | none => some ⟨status, out, st, φ⟩
    | some it =>
      (st.ids[st.pos]?).bind fun curr =>
        (rd φ it size).bind fun r =>
          if size < r.out.length then none
          else
            let st := { st with iters := st.iters.set st.pos r.next }
            let out := out ++ r.out.map fun a => (curr, a)
            let size := size - r.out.length
            if size = 0 then some ⟨r.status, out, st, r.env⟩
            else
              let st := { st with pos := st.pos + 1 }
              if r.status ≠ .noData ∧ r.status ≠ .ok then some ⟨r.status, out, st, r.env⟩
              else columnLoop rd fuel r.env st r.status size out

def ColumnChain.read (fmt : SampleFormat α) (rd : Reader Status α σ Φ) :
    Reader Status Sample (ColumnChain σ) Φ := fun φ st destSize =>
  (columnLoop rd (st.iters.length + 1) φ st .noData (destSize / fmt.size) []).map fun r =>
    ⟨r.status, r.out.map fun x => fmt.sample x.1 x.2, r.next, r.env⟩

def SampleFormat.float : SampleFormat Point where
  size := sampleSize
  sample id p := ⟨p.ts, id, .float p.value⟩

def SampleFormat.tuple [DoubleArith V] (toBits : V → UInt64) (fn : List AggregationFunction) :
    SampleFormat (Timestamp × AggregationResult V) where
  size := TupleOutputUtils.getTupleSize fn
  sample id r := ⟨r.1, id, .tuple (TupleOutputUtils.getFlags fn)
    (fn.map fun f => toBits (TupleOutputUtils.get r.2 f))⟩

/-! ## Aggregates -/

structure AggregateColumns (σ : Type) where
  iters : List σ
  ids : List ParamId
  pos : Nat
  func : List AggregationFunction

def aggregateTimestamp (res : AggregationResult V) : AggregationFunction → Timestamp
  | .min | .minTimestamp => res.mints
  | .max | .maxTimestamp => res.maxts
  | .first | .firstTimestamp => res._begin
  | _ => res._end

/-- The samples of the last two functions have no value (`PAYLOAD_NONE`): their `float64` is
what was in the memory. -/
def aggregateSample [DoubleArith V] (toBits : V → UInt64) (uninit : UInt64) (id : ParamId)
    (fn : AggregationFunction) (res : AggregationResult V) : Sample :=
  ⟨aggregateTimestamp res fn, id, .float (match fn with
    | .lastTimestamp | .firstTimestamp => uninit
    | fn => toBits (TupleOutputUtils.get res fn))⟩

/-- The loop of `AggregateMaterializer::read`; a column that answers neither with one result
nor with `NoData` is asked again. More than one result is written behind `destval`. -/
def aggregateLoop [DoubleArith V] (toBits : V → UInt64) (uninit : UInt64)
    (rd : Reader Status (Timestamp × AggregationResult V) σ Φ) : Nat → Φ → AggregateColumns σ →
    Status → Nat → List Sample → Option (Reply Sample (AggregateColumns σ) Φ)
  | 0, _, _, _, _, _ => none
  | fuel + 1, φ, st, status, size, out =>
    match st.iters[st.pos]? with
    | none => some ⟨status, out, st, φ⟩
    | some it =>
      (rd φ it size).bind fun r =>
        let st := { st with iters := st.iters.set st.pos r.next }
        match r.out with
        | [] =>
          let pos := if r.status = .noData then st.pos + 1 else st.pos
          aggregateLoop toBits uninit rd fuel r.env { st with pos } r.status size out
        | [(_, res)] =>
          (st.ids[st.pos]?).bind fun id =>
            (st.func[st.pos]?).bind fun fn =>
              let out := out ++ [aggregateSample toBits uninit id fn res]
              let size := size - sampleSize
              let st := { st with pos := st.pos + 1 }
              if size < sampleSize then some ⟨r.status, out, st, r.env⟩
              else if r.status ≠ .noData ∧ r.status ≠ .ok then some ⟨r.status, out, st, r.env⟩
              else aggregateLoop toBits uninit rd fuel r.env st r.status size out
        | _ => none

/-! ## Joins -/

structure JoinConcat (σ : Type) where
  iters : List (Join σ)
  ix : Nat

def joinConcatLoop (rd : Reader Status Point σ Φ) : Nat → Φ → JoinConcat σ → Nat →
    Option (Reply Sample (JoinConcat σ) Φ)
  | 0, _, _, _ => none
  | fuel + 1, φ, st, size =>
    match st.iters[st.ix]? with
    | none => some ⟨.noData, [], st, φ⟩
    | some it =>
      (it.read rd φ size).bind fun r =>
        let st := { st with iters := st.iters.set st.ix r.next }
        if r.status = .noData then
          let st := { st with ix := st.ix + 1 }
          if r.out ≠ [] then
            some ⟨if st.ix ≠ st.iters.length then .ok else .noData, r.out, st, r.env⟩
          else joinConcatLoop rd fuel r.env st size
        else some ⟨r.status, r.out, st, r.env⟩

/-- What a merge of tuples does: it compares the timestamps and ids of the samples, and copies
them. The id of a range is not used. -/
def MergeKind.tuples : MergeKind Sample where
  key _ s := ⟨s.timestamp, s.paramid⟩
  sizeRequired s := s.payload.size
  sample _ s := s

/-- The constructor; a merge of tuples has no ids. -/
def Merge.tuples (iters : List σ) (forward : Bool) : Merge Sample σ :=
  .new (iters.map fun _ => 0) iters forward

/-- `MergeJoinMaterializer<OrderByTimestamp>::read`; a range is a buffer for 1024 samples of the
smallest size. -/
def mergeTuples (rd : Reader Status Sample σ Φ) (pop : HeapPop Sample) :
    Reader Status Sample (Merge Sample σ) Φ := fun φ st size =>
  st.kwayMerge .tuples (fun φ it n => rd φ it (n * sampleSize)) .time pop φ size

/-! ## All materializers -/

inductive Materializer (Op : Type) where
  | merge (order : MergeOrder) (st : Merge Point (Operator Op))
  | chain (st : ColumnChain (Operator Op))
  | events (m : EventMaterializer Op)
  | aggregate (st : AggregateColumns (AggregateInput Op))
  | seriesOrderAggregate (fn : List AggregationFunction) (st : ColumnChain (AggregateInput Op))
  | timeOrderAggregate (fn : List AggregationFunction)
      (st : Merge Sample (ColumnChain (AggregateInput Op)))
  | joinConcat (st : JoinConcat (Operator Op))
  | mergeJoin (st : Merge Sample (Join (Operator Op)))

/-- The operators and heaps behind the materializers. -/
structure Readers (V Op Φ : Type) where
  real : Reader Status Point (Operator Op) Φ
  aggregate : Reader Status (Timestamp × AggregationResult V) (AggregateInput Op) Φ
  binary : Reader Status Event Op Φ
  pointPop : HeapPop Point
  eventPop : HeapPop Event
  samplePop : HeapPop Sample
  toBits : V → UInt64
  uninit : UInt64

namespace Materializer

def headForward (forward : Op → Bool) (iters : List (Operator Op)) : Bool :=
  (iters.head?.map fun o => forward o.op).getD true

def makeJoin (forward : Op → Bool) (row : JoinInput Op) : Join (Operator Op) :=
  .new (row.ids.map .ofNat) row.iters row.id (headForward forward row.iters)

def make (forward : Op → Bool) : ColumnMaterializer Op → Option (Materializer Op)
  | .merge order .real ids iters =>
    some (.merge (EventMaterializer.mergeOrder order) (.new ids iters (headForward forward iters)))
  | .chain .real ids iters => some (.chain (.new ids iters))
  | .aggregate ids iters fn => some (.aggregate ⟨iters, ids, 0, fn⟩)
  | .seriesOrderAggregate ids iters fn =>
    some (.seriesOrderAggregate fn (.new ids iters))
  | .timeOrderAggregate iters fn forward =>
    some (.timeOrderAggregate fn (.tuples (iters.map fun it => .new [it.1] [it.2]) forward))
  | .joinConcat rows => some (.joinConcat ⟨rows.map (makeJoin forward), 0⟩)
  | .mergeJoin rows fwd =>
    some (.mergeJoin (.tuples (rows.map (makeJoin forward)) fwd))
  | column => (EventMaterializer.make forward column).map .events

/-- Keep a reply, with its state as one of all materializers. -/
def wrap {μ : Type} (f : μ → Materializer Op) (r : Reply Sample μ Φ) :
    Reply Sample (Materializer Op) Φ := ⟨r.status, r.out, f r.next, r.env⟩

/-- `read`, for at most `rounds` rounds of the loop over aggregates. -/
def read [DoubleArith V] (R : Readers V Op Φ) (rounds : Nat) :
    Reader Status Sample (Materializer Op) Φ := fun φ m size =>
  match m with
  | .merge order st =>
    (st.kwayMerge .real R.real order R.pointPop φ size).map (wrap (.merge order))
  | .chain st => (st.read .float R.real φ size).map (wrap .chain)
  | .events m => (m.read R.binary R.eventPop φ size).map (wrap .events)
  | .aggregate st =>
    (aggregateLoop R.toBits R.uninit R.aggregate rounds φ st .noData size []).map (wrap .aggregate)
  | .seriesOrderAggregate fn st =>
    (st.read (.tuple R.toBits fn) R.aggregate φ size).map (wrap (.seriesOrderAggregate fn))
  | .timeOrderAggregate fn st =>
    (mergeTuples (ColumnChain.read (.tuple R.toBits fn) R.aggregate) R.samplePop φ st size).map
      (wrap (.timeOrderAggregate fn))
  | .joinConcat st => (joinConcatLoop R.real (st.iters.length + 1) φ st size).map (wrap .joinConcat)
  | .mergeJoin st =>
    (mergeTuples (fun φ j n => Join.read R.real φ j n) R.samplePop φ st size).map (wrap .mergeJoin)

end Materializer
end FastSTDB
