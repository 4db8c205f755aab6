import Mathlib.Data.List.Perm.Basic
import FastSTDB.Operator
import FastSTDB.Topology

/-
  Query plans — from a reshape request to a materializer (`queryplan.cc`)

  A plan has two stages. The first makes one operator for each selected series;
  the second puts these operators into a materializer together with a list of
  ids, the labels of the samples that come out. With `group_by` the labels are
  the images of the selected ids under `transient_map`, and ids without an image
  are skipped.

  An operator remembers the series it was made for, so that a label can be
  compared with the series behind it. The lists of the column store are a
  parameter: a `SeriesColumn` is what the first stage calls on one of them.

  Correspondence (C++ ↔ Lean):
    `ReshapeRequest`, `Filter`            ↔ `ReshapeRequest V`, `Filter V`
    `ProcessingPrelude` and its steps     ↔ `ProcessingPrelude V`
    `MaterializationStep` and its steps   ↔ `MaterializationStep`
    materializers                         ↔ `ColumnMaterializer Op`
    `std::map<ParamId, std::vector<..>>`  ↔ `Groupings`, sorted by id
    `convert_*`, `layout_*`, `*_query_plan` ↔ the functions of the same names

  What is proved:
    `paired_iff` — with `group_by`, the labels are those of the operators' own
    series exactly when the ids without an image do not shift the others.
-/
namespace FastSTDB
open List

variable {V Op : Type}

/-! ## Requests -/

inductive AggregationFunction where
  | min | max | sum | cnt | minTimestamp | maxTimestamp | mean | last | first
  | lastTimestamp | firstTimestamp
  deriving DecidableEq, Repr

inductive OrderBy where
  | series | time
  deriving DecidableEq, Repr

inductive FilterCombinationRule where
  | all | any
  deriving DecidableEq, Repr

structure Filter (V : Type) where
  enabled : Bool
  flags : Cmp → Bool
  bounds : Cmp → V

structure Aggregation where
  enabled : Bool
  func : List AggregationFunction
  step : UInt64

structure Selection (V : Type) where
  columns : List (List ParamId)
  filters : List (Filter V)
  filterRule : FilterCombinationRule
  beginTs : Timestamp
  endTs : Timestamp
  events : Bool
  eventBodyRegex : String

structure GroupBy where
  enabled : Bool
  transientMap : ParamId → Option ParamId

structure ReshapeRequest (V : Type) where
  agg : Aggregation
  select : Selection V
  groupBy : GroupBy
  orderBy : OrderBy

/-- How building or executing a plan ends without a result. -/
inductive Failure where
  | status (code : QueryCode)
  /-- `LOG(FATAL)` -/
  | fatal (msg : String)
  /-- `vector::at` throws -/
  | outOfRange
  /-- behaviour the language does not define -/
  | undefined
  deriving DecidableEq, Repr

/-! ## First stage -/

/-- What the first stage calls on a list of extents. -/
structure SeriesColumn (V Op : Type) where
  search : Timestamp → Timestamp → Op
  filter : Timestamp → Timestamp → ValueFilter V → Op
  searchBinary : Timestamp → Timestamp → Op
  filterBinary : Timestamp → Timestamp → String → Op
  aggregate : Timestamp → Timestamp → Op
  groupAggregate : Timestamp → Timestamp → UInt64 → Op
  groupAggregateFilter : Timestamp → Timestamp → UInt64 → AggregateFilter V → Op

/-- `columns_`, and the direction of an operator. -/
structure ColumnStore (V Op : Type) where
  columns : ParamId → Option (SeriesColumn V Op)
  forward : Op → Bool

/-- An operator with the series it reads. `converter` is the function of the
`GroupAggregateConverter` around it, if there is one. -/
structure Operator (Op : Type) where
  series : ParamId
  op : Op
  converter : Option AggregationFunction
  deriving DecidableEq, Repr

/-- `iterate`: one operator for each id, in order. -/
def ColumnStore.iterate (cstore : ColumnStore V Op) (ids : List ParamId)
    (fn : ParamId → SeriesColumn V Op → Except Failure Op) : Except Failure (List (Operator Op)) :=
  ids.mapM fun id =>
    match cstore.columns id with
    | none => .error (.status .notFound)
    | some column => (fn id column).map fun op => ⟨id, op, none⟩

/-- `std::map::insert` for each id: the first filter of an id stays. -/
def insertFilters {F : Type} (ids : List ParamId) (flt : List F) : ParamId → Option F :=
  fun id => (ids.zip flt).lookup id

/-- The bits of a mask are all zero. -/
def ValueFilter.isZero (flt : ValueFilter V) : Bool :=
  !(flt.mask .lt || flt.mask .le || flt.mask .gt || flt.mask .ge)

def AggregateFilter.isZero (flt : AggregateFilter V) : Bool :=
  !(flt.bitmap .avg || flt.bitmap .min || flt.bitmap .max || flt.bitmap .first || flt.bitmap .last)

/-- The kinds of operators a second stage can ask for. -/
inductive OperatorKind where
  | real | aggregate | binary
  deriving DecidableEq, Repr

/-- The first stages, with the fields of the `*ProcessingStep` structures. -/
inductive ProcessingPrelude (V : Type) where
  | scan (beginTs endTs : Timestamp) (ids : List ParamId)
  | scanEvents (beginTs endTs : Timestamp) (ids : List ParamId) (regex : String)
  | filter (beginTs endTs : Timestamp) (filters : ParamId → Option (ValueFilter V))
      (ids : List ParamId)
  | aggregate (beginTs endTs : Timestamp) (ids : List ParamId)
  | groupAggregate (beginTs endTs : Timestamp) (step : UInt64) (ids : List ParamId)
      (fn : AggregationFunction)
  | groupAggregateFilter (beginTs endTs : Timestamp) (step : UInt64)
      (filters : ParamId → Option (AggregateFilter V)) (ids : List ParamId)
      (fn : AggregationFunction)

namespace ProcessingPrelude

def ids : ProcessingPrelude V → List ParamId
  | scan _ _ ids | scanEvents _ _ ids _ | filter _ _ _ ids | aggregate _ _ ids
  | groupAggregate _ _ _ ids _ | groupAggregateFilter _ _ _ _ ids _ => ids

section
variable (prelude : ProcessingPrelude V)

/-- The operator made on one column. -/
def operator (id : ParamId) (elist : SeriesColumn V Op) : Except Failure Op :=
  match prelude with
  | scan b e _ => .ok (elist.search b e)
  | scanEvents b e _ regex =>
    if regex.isEmpty then .ok (elist.searchBinary b e) else .ok (elist.filterBinary b e regex)
  | filter b e filters _ =>
    match filters id with
    | none => .error (.status .badArg)
    | some flt => if flt.isZero then .ok (elist.search b e) else .ok (elist.filter b e flt)
  | aggregate b e _ => .ok (elist.aggregate b e)
  | groupAggregate b e step _ _ => .ok (elist.groupAggregate b e step)
  | groupAggregateFilter b e step filters _ _ =>
    match filters id with
    | none => .error (.status .badArg)
    | some flt =>
      if flt.isZero then .ok (elist.groupAggregate b e step)
      else .ok (elist.groupAggregateFilter b e step flt)

def apply (cstore : ColumnStore V Op) : Except Failure (List (Operator Op)) :=
  cstore.iterate prelude.ids prelude.operator

/-- `extract_result`, by the kind of the destination. -/
def extractResult (kind : OperatorKind)
    (list : List (Operator Op)) : Except Failure (List (Operator Op)) :=
  match prelude, kind with
  | scan .., .real | filter .., .real | scanEvents .., .binary | aggregate .., .aggregate
  | groupAggregate .., .aggregate | groupAggregateFilter .., .aggregate =>
    if list.isEmpty then .error (.status .noData) else .ok list
  | groupAggregate _ _ _ _ fn, .real | groupAggregateFilter _ _ _ _ _ fn, .real =>
    if list.isEmpty then .error (.status .noData)
    else .ok (list.map fun o => { o with converter := some fn })
  | _, _ => .error (.status .noData)

end

end ProcessingPrelude

/-! ## Second stage -/

/-- An aggregate operator as a materializer holds it. -/
inductive AggregateInput (Op : Type) where
  | single (op : Operator Op)
  | combine (ops : List (Operator Op))
  | fanIn (ops : List (Operator Op))

namespace AggregateInput

def operators : AggregateInput Op → List (Operator Op)
  | single op => [op]
  | combine ops | fanIn ops => ops

def isForward (forward : Op → Bool) : AggregateInput Op → Bool
  | single op => forward op.op
  | combine ops | fanIn ops => (ops.head?.map (fun o => forward o.op)).getD true

end AggregateInput

/-- `JoinMaterializer`: the operators of one row with their positions, and its id. -/
structure JoinInput (Op : Type) where
  ids : List Nat
  iters : List (Operator Op)
  id : ParamId

inductive ColumnMaterializer (Op : Type) where
  | merge (order : OrderBy) (kind : OperatorKind) (ids : List ParamId) (iters : List (Operator Op))
  | chain (kind : OperatorKind) (ids : List ParamId) (iters : List (Operator Op))
  | aggregate (ids : List ParamId) (iters : List (AggregateInput Op))
      (fn : List AggregationFunction)
  | seriesOrderAggregate (ids : List ParamId) (iters : List (AggregateInput Op))
      (fn : List AggregationFunction)
  | timeOrderAggregate (iters : List (ParamId × AggregateInput Op))
      (fn : List AggregationFunction) (forward : Bool)
  | joinConcat (iters : List (JoinInput Op))
  | mergeJoin (iters : List (JoinInput Op)) (forward : Bool)

/-- The operators of an input, each with the label of the input. -/
def AggregateInput.labels (input : ParamId × AggregateInput Op) : List (ParamId × Operator Op) :=
  input.2.operators.map fun o => (input.1, o)

/-- Each operator of a materializer with the id of the samples it delivers. -/
def ColumnMaterializer.labels : ColumnMaterializer Op → List (ParamId × Operator Op)
  | merge _ _ ids iters => ids.zip iters
  | chain _ ids iters => ids.zip iters
  | aggregate ids iters _ => (ids.zip iters).flatMap AggregateInput.labels
  | seriesOrderAggregate ids iters _ => (ids.zip iters).flatMap AggregateInput.labels
  | timeOrderAggregate iters _ _ => iters.flatMap AggregateInput.labels
  | joinConcat iters => iters.flatMap fun j => j.iters.map fun o => (j.id, o)
  | mergeJoin iters _ => iters.flatMap fun j => j.iters.map fun o => (j.id, o)

inductive MaterializationStep where
  | mergeBy (order : OrderBy) (kind : OperatorKind) (ids : List ParamId)
  | chain (kind : OperatorKind) (ids : List ParamId)
  | aggregate (ids : List ParamId) (fn : List AggregationFunction)
  | aggregateCombiner (ids : List ParamId) (fn : List AggregationFunction)
  | groupAggregateCombiner (order : OrderBy) (ids : List ParamId) (fn : List AggregationFunction)
  | join (ids : List ParamId) (cardinality : Nat) (order : OrderBy) (beginTs endTs : Timestamp)
  | seriesOrderAggregate (ids : List ParamId) (fn : List AggregationFunction)
  | timeOrderAggregate (ids : List ParamId) (fn : List AggregationFunction)

/-- `std::map<ParamId, std::vector<std::unique_ptr<AggregateOperator>>>` -/
abbrev Groupings (Op : Type) := List (ParamId × List (Operator Op))

/-- `groupings[id].push_back(it)` -/
def Groupings.pushBack (id : ParamId) (it : Operator Op) : Groupings Op → Groupings Op
  | [] => [(id, [it])]
  | (key, ops) :: rest =>
    if id < key then (id, [it]) :: (key, ops) :: rest
    else if id = key then (key, ops ++ [it]) :: rest
    else (key, ops) :: Groupings.pushBack id it rest

/-- The loop over `ids_` that fills the groupings; `iters.at(i)` may throw. -/
def groupOperators : List ParamId → List (Operator Op) → Groupings Op →
    Except Failure (Groupings Op)
  | [], _, groupings => .ok groupings
  | _ :: _, [], _ => .error .outOfRange
  | id :: ids, it :: iters, groupings =>
    groupOperators ids iters (.pushBack id it groupings)

/-- The assignments `functions[id] = fn_.at(i)`: the last one of an id stays. -/
def assignFunctions : List ParamId → List AggregationFunction →
    (ParamId → AggregationFunction) → Except Failure (ParamId → AggregationFunction)
  | [], _, functions => .ok functions
  | _ :: _, [], _ => .error .outOfRange
  | id :: ids, fn :: fns, functions =>
    assignFunctions ids fns fun id' => if id' = id then fn else functions id'

/-- The constructor of `MergeMaterializer` and `MergeEventMaterializer`. -/
def makeMerge (order : OrderBy) (kind : OperatorKind) (ids : List ParamId)
    (iters : List (Operator Op)) : Except Failure (ColumnMaterializer Op) :=
  if iters.length ≠ ids.length then .error (.fatal "MergeIterator - broken invariant")
  else .ok (.merge order kind ids iters)

/-- The constructor of `TimeOrderAggregateMaterializer`; it takes the direction of
`it.front()` without looking whether there is one. -/
def makeTimeOrderAggregate (forward : Op → Bool) (ids : List ParamId)
    (iters : List (AggregateInput Op)) (fn : List AggregationFunction) :
    Except Failure (ColumnMaterializer Op) :=
  match iters with
  | [] => .error .undefined
  | it :: _ =>
    if iters.length < ids.length then .error .outOfRange
    else .ok (.timeOrderAggregate (ids.zip iters) fn (it.isForward forward))

/-- The rows of a join: `cardinality` operators for each id. -/
def joinRows (cardinality : Nat) (scanlist : List (Operator Op)) :
    List ParamId → Nat → Except Failure (List (JoinInput Op))
  | [], _ => .ok []
  | id :: ids, i => do
    let positions := (List.range cardinality).map fun j => i * cardinality + j
    let joined ← positions.mapM fun ix =>
      match scanlist[ix]? with
      | some op => .ok op
      | none => .error .outOfRange
    let rows ← joinRows cardinality scanlist ids (i + 1)
    return ⟨positions, joined, id⟩ :: rows

namespace MaterializationStep

/-- The kind of operators a step extracts from the first stage. -/
def kind : MaterializationStep → OperatorKind
  | mergeBy _ kind _ | chain kind _ => kind
  | join .. => .real
  | _ => .aggregate

/-- What a step makes of the operators. -/
def materialize (forward : Op → Bool) (iters : List (Operator Op)) :
    MaterializationStep → Except Failure (ColumnMaterializer Op)
  | mergeBy order kind ids => makeMerge order kind ids iters
  | chain kind ids => .ok (.chain kind ids iters)
  | aggregate ids fn => .ok (.aggregate ids (iters.map .single) fn)
  | aggregateCombiner ids fn => do
    let groupings ← groupOperators ids iters []
    let functions ← assignFunctions ids fn fun _ => .min
    return .aggregate (groupings.map Prod.fst) (groupings.map fun kv => .combine kv.2)
      (groupings.map fun kv => functions kv.1)
  | groupAggregateCombiner order ids fn => do
    let groupings ← groupOperators ids iters []
    let ids := groupings.map Prod.fst
    let agglist := groupings.map fun kv => .fanIn kv.2
    match order with
    | .series => return .seriesOrderAggregate ids agglist fn
    | .time => makeTimeOrderAggregate forward ids agglist fn
  | join ids cardinality order beginTs endTs => do
    let rows ← joinRows cardinality iters ids 0
    match order with
    | .series => return .joinConcat rows
    | .time => return .mergeJoin rows (beginTs < endTs)
  | seriesOrderAggregate ids fn => .ok (.seriesOrderAggregate ids (iters.map .single) fn)
  | timeOrderAggregate ids fn => makeTimeOrderAggregate forward ids (iters.map .single) fn

end MaterializationStep

structure TwoStepQueryPlan (V : Type) where
  prelude : ProcessingPrelude V
  mater : MaterializationStep

namespace TwoStepQueryPlan

section
variable (plan : TwoStepQueryPlan V) (cstore : ColumnStore V Op)

def execute : Except Failure (ColumnMaterializer Op) := do
  let list ← plan.prelude.apply cstore
  let iters ← plan.prelude.extractResult plan.mater.kind list
  plan.mater.materialize cstore.forward iters

/-- The operators the first stage produces; none if it fails. -/
def operators : List (Operator Op) :=
  match plan.prelude.apply cstore with
  | .ok list => list
  | .error _ => []

end

end TwoStepQueryPlan

/-! ## Filters of a request -/

section Builder
variable [DoubleArith V]

def filteringEnabled (flt : List (Filter V)) : Bool := flt.any (·.enabled)

/-- The bounds of a filter as a value filter. -/
def Filter.toValueFilter (filter : Filter V) : ValueFilter V :=
  let flt : ValueFilter V := .empty
  let flt :=
    if filter.flags .gt then flt.greaterThan (filter.bounds .gt)
    else if filter.flags .ge then flt.greaterOrEqual (filter.bounds .ge) else flt
  if filter.flags .lt then flt.lessThan (filter.bounds .lt)
  else if filter.flags .le then flt.lessOrEqual (filter.bounds .le) else flt

def convertFilters (fltlist : List (Filter V)) : Except Failure (List (ValueFilter V)) :=
  fltlist.mapM fun filter =>
    let flt := filter.toValueFilter
    if flt.validate then .ok flt else .error (.status .badArg)

def AggregateFilter.empty : AggregateFilter V := ⟨fun _ => .empty, fun _ => false, .all⟩

def AggregateFilter.setFilter (f : AggregateFilter V) (op : AggFn) (filter : ValueFilter V) :
    AggregateFilter V where
  filters op' := if op' = op then filter else f.filters op'
  bitmap op' := if op' = op then true else f.bitmap op'
  mode := f.mode

/-- The component a function can be filtered by. -/
def AggregationFunction.filtered : AggregationFunction → Option AggFn
  | .min => some .min
  | .max => some .max
  | .mean => some .avg
  | .sum | .cnt | .minTimestamp | .maxTimestamp | .firstTimestamp | .lastTimestamp
  | .first | .last => none

/-- Add the bounds of an enabled filter to an aggregate filter. -/
def addAggregateFilter (aggflt : AggregateFilter V) (filter : Filter V)
    (fun' : AggregationFunction) : Except Failure (AggregateFilter V) :=
  if filter.enabled then
    let flt := filter.toValueFilter
    if flt.validate then
      match fun'.filtered with
      | some op => .ok (aggflt.setFilter op flt)
      | none => .error (.status .badArg)
    else .error (.status .badArg)
  else .ok aggflt

def convertAggregateFilter (filter : Filter V) (fun' : AggregationFunction) :
    Except Failure (AggregateFilter V) :=
  addAggregateFilter .empty filter fun'

/-- One filter with a bound for each enabled filter of the query. -/
def convertAggregateFilters (fltlist : List (Filter V)) (funclst : List AggregationFunction) :
    Except Failure (List (AggregateFilter V)) :=
  if fltlist.length ≠ funclst.length then .error (.status .badArg)
  else do
    let aggflt ← (fltlist.zip funclst).foldlM
      (fun aggflt p => addAggregateFilter aggflt p.1 p.2) .empty
    return [aggflt]

def Selection.firstColumn (select : Selection V) : Except Failure (List ParamId) :=
  match select.columns with
  | [] => .error .outOfRange
  | ids :: _ => .ok ids

/-- The filters of the columns, once for each row; `flt.at(ixcol)` may throw. -/
def layoutRows {F : Type} (flt : List F) (rows columns : Nat) : Except Failure (List F) :=
  if 0 < rows ∧ flt.length < columns then .error .outOfRange
  else .ok (replicate rows (flt.take columns)).flatten

def layoutFilters (req : ReshapeRequest V) : Except Failure (List (ValueFilter V)) := do
  let flt ← convertFilters req.select.filters
  if flt.isEmpty then .error (.status .badArg)
  else
    let ids ← req.select.firstColumn
    layoutRows flt ids.length req.select.columns.length

def FilterCombinationRule.mode : FilterCombinationRule → FilterMode
  | .all => .all
  | .any => .any

def layoutAggregateFilters (req : ReshapeRequest V) :
    Except Failure (List (AggregateFilter V)) := do
  let flt ← convertAggregateFilters req.select.filters req.agg.func
  if flt.isEmpty then .error (.status .badArg)
  else
    let ids ← req.select.firstColumn
    layoutRows (flt.map fun f => { f with mode := req.select.filterRule.mode }) ids.length
      req.select.columns.length

def layoutAggregateJoinFilters (req : ReshapeRequest V) :
    Except Failure (List (AggregateFilter V)) :=
  match req.agg.func with
  | [downsamplingFn] => do
    let colfilters ← req.select.filters.mapM fun it => do
      let flt ← convertAggregateFilter it downsamplingFn
      return { flt with mode := req.select.filterRule.mode }
    if colfilters.isEmpty ∨ colfilters.length ≠ req.select.columns.length then
      .error (.status .badArg)
    else
      let ids ← req.select.firstColumn
      layoutRows colfilters ids.length req.select.columns.length
  | _ => .error (.status .badArg)

/-! ## Plans -/

/-- The labels of the second stage: images of the selected ids, those without one
skipped. -/
def GroupBy.transientIds (groupBy : GroupBy) (ids : List ParamId) : List ParamId :=
  ids.filterMap groupBy.transientMap

section
variable (req : ReshapeRequest V)

def scanQueryPlan : Except Failure (TwoStepQueryPlan V) :=
  if req.agg.enabled ∨ req.select.columns.length ≠ 1 then .error (.status .badArg)
  else do
    let ids ← req.select.firstColumn
    let t1stage ←
      if filteringEnabled req.select.filters then do
        let flt ← layoutFilters req
        pure (.filter req.select.beginTs req.select.endTs (insertFilters ids flt) ids)
      else pure (.scan req.select.beginTs req.select.endTs ids)
    let t2stage :=
      if req.groupBy.enabled then
        .mergeBy req.orderBy .real (req.groupBy.transientIds ids)
      else
        match req.orderBy with
        | .series => .chain .real ids
        | .time => .mergeBy .time .real ids
    return ⟨t1stage, t2stage⟩

def scanEventsQueryPlan : Except Failure (TwoStepQueryPlan V) :=
  if req.agg.enabled ∨ req.select.columns.length ≠ 1 then .error (.status .badArg)
  else do
    let ids ← req.select.firstColumn
    let t1stage := .scanEvents req.select.beginTs req.select.endTs ids req.select.eventBodyRegex
    let t2stage :=
      if req.groupBy.enabled then
        .mergeBy req.orderBy .binary (req.groupBy.transientIds ids)
      else
        match req.orderBy with
        | .series => .chain .binary ids
        | .time => .mergeBy .time .binary ids
    return ⟨t1stage, t2stage⟩

def aggregateQueryPlan : Except Failure (TwoStepQueryPlan V) :=
  if req.orderBy = .time ∨ req.agg.enabled = false ∨ req.agg.step ≠ 0 then
    .error (.status .badArg)
  else do
    let ids ← req.select.firstColumn
    let t1stage := .aggregate req.select.beginTs req.select.endTs ids
    let t2stage :=
      if req.groupBy.enabled then
        .aggregateCombiner (req.groupBy.transientIds ids) req.agg.func
      else .aggregate ids req.agg.func
    return ⟨t1stage, t2stage⟩

end

/-- The ids of a join, row by row; `ids.at(i)` may throw. -/
def joinIds (columns : List (List ParamId)) (rows : Nat) : Except Failure (List ParamId) := do
  let ids ← (List.range rows).mapM fun i =>
    columns.mapM fun ids =>
      match ids[i]? with
      | some id => .ok id
      | none => .error .outOfRange
  return ids.flatten

section
variable (req : ReshapeRequest V)

def joinQueryPlan : Except Failure (TwoStepQueryPlan V) :=
  if req.groupBy.enabled ∨ req.select.columns.length < 2 then .error (.status .badArg)
  else do
    let ids ← req.select.firstColumn
    let t1ids ← joinIds req.select.columns ids.length
    let t2stage := .join ids req.select.columns.length req.orderBy
      req.select.beginTs req.select.endTs
    if req.agg.enabled = false then
      if filteringEnabled req.select.filters then do
        let flt ← layoutFilters req
        return ⟨.filter req.select.beginTs req.select.endTs (insertFilters t1ids flt) t1ids,
          t2stage⟩
      else return ⟨.scan req.select.beginTs req.select.endTs t1ids, t2stage⟩
    else if filteringEnabled req.select.filters then do
      let flt ← layoutAggregateJoinFilters req
      match req.agg.func with
      | [] => .error .undefined
      | fn :: _ =>
        return ⟨.groupAggregateFilter req.select.beginTs req.select.endTs req.agg.step
          (insertFilters t1ids flt) t1ids fn, t2stage⟩
    else
      match req.agg.func with
      | [] => .error .undefined
      | fn :: _ =>
        return ⟨.groupAggregate req.select.beginTs req.select.endTs req.agg.step t1ids fn, t2stage⟩

def groupAggregateQueryPlan : Except Failure (TwoStepQueryPlan V) :=
  if req.agg.enabled = false ∨ req.agg.step = 0 then .error (.status .badArg)
  else do
    let ids ← req.select.firstColumn
    let t1stage ←
      if filteringEnabled req.select.filters then do
        let flt ← layoutAggregateFilters req
        pure (.groupAggregateFilter req.select.beginTs req.select.endTs req.agg.step
          (insertFilters ids flt) ids .first)
      else pure (.groupAggregate req.select.beginTs req.select.endTs req.agg.step ids .first)
    let t2stage :=
      if req.groupBy.enabled then
        .groupAggregateCombiner req.orderBy (req.groupBy.transientIds ids)
          req.agg.func
      else
        match req.orderBy with
        | .series => .seriesOrderAggregate ids req.agg.func
        | .time => .timeOrderAggregate ids req.agg.func
    return ⟨t1stage, t2stage⟩

def QueryPlanBuilder.create : Except Failure (TwoStepQueryPlan V) :=
  if req.agg.enabled ∧ req.agg.step = 0 then aggregateQueryPlan req
  else if req.agg.enabled ∧ req.agg.step ≠ 0 then
    if req.select.columns.length = 1 then groupAggregateQueryPlan req else joinQueryPlan req
  else if req.agg.enabled = false ∧ 1 < req.select.columns.length then joinQueryPlan req
  else if req.select.events then scanEventsQueryPlan req
  else scanQueryPlan req

end

end Builder

/-! ## Pairing of labels and operators -/

section Pairing
variable {map : ParamId → Option ParamId} {ops : List (Operator Op)} {ids : List ParamId}

section
variable (map : ParamId → Option ParamId)

/-- Each operator whose series is mapped, labelled with the image. -/
def wanted (ops : List (Operator Op)) : List (ParamId × Operator Op) :=
  ops.filterMap fun o => (map o.series).map fun label => (label, o)

/-- The outcome for `ops` is as wanted: their labels are right, or there is an error
status and nothing to label. -/
def Labelled (ops : List (Operator Op)) : Except Failure (ColumnMaterializer Op) → Prop
  | .ok mat => mat.labels.Perm (wanted map ops)
  | .error (.status _) => ops = []
  | .error _ => False

/-- No unmapped id stands before a mapped one. -/
def MappedFirst (ids : List ParamId) : Prop :=
  ids.Pairwise fun a b => (map b).isSome → (map a).isSome

end

instance : Decidable (MappedFirst map ids) := inferInstanceAs (Decidable (Pairwise _ _))

theorem wanted_eq_nil_iff : wanted map ops = [] ↔ ∀ o ∈ ops, map o.series = none := by simp [wanted]

theorem mem_wanted {label : ParamId} {o : Operator Op} :
    (label, o) ∈ wanted map ops ↔ o ∈ ops ∧ map o.series = some label := by
  simp only [wanted, mem_filterMap, Option.map_eq_some_iff, Prod.mk.injEq]
  constructor
  · rintro ⟨o', ho', l, hl, rfl, rfl⟩
    exact ⟨ho', hl⟩
  · rintro ⟨ho, hl⟩
    exact ⟨o, ho, label, hl, rfl, rfl⟩

/-- Zipping the mapped ids with the operators pairs them rightly exactly if the mapped
ids come first. -/
theorem zip_perm_wanted_iff : (((ops.map (·.series)).filterMap map).zip ops).Perm (wanted map ops) ↔
      MappedFirst map (ops.map (·.series)) := by
  induction ops with
  | nil => simp [wanted, MappedFirst]
  | cons o ops ih =>
    cases hm : map o.series with
    | some label =>
      -- both lists start with this operator and its image
      have hw : wanted map (o :: ops) = (label, o) :: wanted map ops := by simp [wanted, hm]
      rw [hw]
      simp only [MappedFirst, map_cons, filterMap_cons, hm, zip_cons_cons,
        perm_cons, pairwise_cons, Option.isSome_some, implies_true, true_and]
      exact ih
    | none =>
      have hw : wanted map (o :: ops) = wanted map ops := by simp [wanted, hm]
      rw [hw]
      simp only [MappedFirst, map_cons, filterMap_cons, hm, pairwise_cons]
      constructor
      · intro hperm
        -- a label would go to the unmapped operator, so there is none
        have hnone : (ops.map (·.series)).filterMap map = [] := by
          by_contra hne
          obtain ⟨label, labels, hl⟩ := exists_cons_of_ne_nil hne
          rw [hl] at hperm
          have hmem := mem_wanted.mp (hperm.mem_iff.mp mem_cons_self)
          rw [hm] at hmem
          cases hmem.2
        rw [filterMap_eq_nil_iff] at hnone
        refine ⟨fun b hb => by simp [hnone b hb], ?_⟩
        apply pairwise_of_forall_mem_list
        intro a _ b hb hsome
        rw [hnone b hb] at hsome
        cases hsome
      · rintro ⟨hall, -⟩
        have hnone : ∀ b ∈ ops.map (·.series), map b = none := by
          intro b hb
          simpa using hall b hb
        rw [filterMap_eq_nil_iff.mpr hnone, zip_nil_left, wanted_eq_nil_iff.mpr]
        intro o' ho'
        exact hnone _ (mem_map_of_mem ho')

/-! ### Groupings -/

namespace Groupings

def labels (groupings : Groupings Op) : List (ParamId × Operator Op) :=
  groupings.flatMap fun kv => kv.2.map fun o => (kv.1, o)

theorem labels_pushBack (id : ParamId) (it : Operator Op) (groupings : Groupings Op) :
    (labels (pushBack id it groupings)).Perm ((id, it) :: labels groupings) := by
  induction groupings with
  | nil => simp [pushBack, labels]
  | cons kv rest ih =>
    simp only [pushBack]
    split
    · simp [labels]
    · split
      next heq =>
        subst heq
        simp only [labels, flatMap_cons, map_append, append_assoc]
        exact perm_middle
      next => exact (ih.append_left _).trans perm_middle

end Groupings

/-- The groups hold the first operators, each under the id at its position. -/
theorem groupOperators_ok (iters : List (Operator Op)) (ids : List ParamId)
    (groupings : Groupings Op) (hlen : ids.length ≤ iters.length) :
    ∃ result, groupOperators ids iters groupings = .ok result ∧
      result.labels.Perm (groupings.labels ++ ids.zip iters) := by
  induction iters generalizing ids groupings with
  | nil =>
    obtain rfl := length_eq_zero_iff.mp (Nat.le_zero.mp hlen)
    exact ⟨groupings, rfl, by simp⟩
  | cons it iters ih =>
    cases ids with
    | nil => exact ⟨groupings, rfl, by simp⟩
    | cons id ids =>
      obtain ⟨result, hresult, hperm⟩ :=
        ih ids (.pushBack id it groupings) (Nat.le_of_succ_le_succ hlen)
      refine ⟨result, hresult, hperm.trans ?_⟩
      refine ((Groupings.labels_pushBack id it groupings).append_right _).trans ?_
      exact perm_middle.symm

theorem assignFunctions_spec (fns : List AggregationFunction)
    (functions : ParamId → AggregationFunction) :
    (ids.length ≤ fns.length → ∃ result, assignFunctions ids fns functions = .ok result) ∧
    (fns.length < ids.length → assignFunctions ids fns functions = .error .outOfRange) := by
  induction ids generalizing fns functions with
  | nil => exact ⟨fun _ => ⟨functions, by simp [assignFunctions]⟩, fun h => absurd h (by simp)⟩
  | cons id ids ih =>
    cases fns with
    | nil => exact ⟨fun h => absurd h (by simp), fun _ => rfl⟩
    | cons fn fns =>
      simp only [length_cons, Nat.add_le_add_iff_right, Nat.add_lt_add_iff_right]
      exact ih fns _

/-- The labels of a list of inputs made from groups are those of the groups. -/
theorem flatMap_labels_groupings (groupings : Groupings Op)
    (input : List (Operator Op) → AggregateInput Op) (hinput : ∀ os, (input os).operators = os) :
    ((groupings.map Prod.fst).zip (groupings.map fun kv => input kv.2)).flatMap
      AggregateInput.labels = groupings.labels := by
  rw [zip_map', flatMap_map]
  simp [AggregateInput.labels, hinput, Groupings.labels]

theorem length_transient_le {m : ParamId → Option ParamId} (ops : List (Operator Op)) :
    ((ops.map (·.series)).filterMap m).length ≤ ops.length := by
  have hle := length_filterMap_le m (ops.map (·.series))
  rwa [length_map] at hle

theorem exists_mapped_iff : (∃ id ∈ ids, (map id).isSome) ↔ ids.filterMap map ≠ [] := by
  simp [Option.isSome_iff_ne_none]

/-! ### The steps of the plans with `group_by` -/

theorem labelled_merge_iff (order : OrderBy) (kind : OperatorKind) :
    Labelled map ops (makeMerge order kind ((ops.map (·.series)).filterMap map) ops) ↔
      ∀ id ∈ ops.map (·.series), (map id).isSome := by
  have hlen : ops.length = ((ops.map (·.series)).filterMap map).length ↔
      ∀ id ∈ ops.map (·.series), (map id).isSome := by
    rw [← filterMap_length_eq_length, length_map, eq_comm]
  rw [makeMerge]
  split
  next hne => exact iff_of_false id fun hall => hne (hlen.mpr hall)
  next heq =>
    have hall := hlen.mp (not_not.mp heq)
    refine iff_of_true (zip_perm_wanted_iff.mpr ?_) hall
    exact pairwise_of_forall_mem_list fun a ha b _ _ => hall a ha

theorem labelled_aggregateCombiner_iff (forward : Op → Bool) (fn : List AggregationFunction) :
    Labelled map ops ((MaterializationStep.aggregateCombiner
        ((ops.map (·.series)).filterMap map) fn).materialize forward ops) ↔
      MappedFirst map (ops.map (·.series)) ∧
        ((ops.map (·.series)).filterMap map).length ≤ fn.length := by
  obtain ⟨groupings, hgroup, hperm⟩ :=
    groupOperators_ok ops ((ops.map (·.series)).filterMap map) [] (length_transient_le ops)
  obtain ⟨hok, hthrow⟩ := assignFunctions_spec fn fun _ => .min
  simp only [MaterializationStep.materialize, hgroup]
  rcases lt_or_ge fn.length ((ops.map (·.series)).filterMap map).length with hlt | hge
  · rw [show assignFunctions _ _ _ = _ from hthrow hlt]
    exact iff_of_false id fun h => absurd h.2 (not_le.mpr hlt)
  · obtain ⟨functions, hfunctions⟩ := hok hge
    rw [show assignFunctions _ _ _ = _ from hfunctions]
    show Perm (flatMap _ _) _ ↔ _
    rw [flatMap_labels_groupings groupings .combine fun _ => rfl]
    rw [hperm.congr_left, ← zip_perm_wanted_iff]
    exact (and_iff_left hge).symm

theorem labelled_groupAggregateCombiner_iff (forward : Op → Bool) (order : OrderBy)
    (fn : List AggregationFunction) :
    Labelled map ops ((MaterializationStep.groupAggregateCombiner order
        ((ops.map (·.series)).filterMap map) fn).materialize forward ops) ↔
      MappedFirst map (ops.map (·.series)) ∧
        (order = .time → ∃ id ∈ ops.map (·.series), (map id).isSome) := by
  obtain ⟨groupings, hgroup, hperm⟩ :=
    groupOperators_ok ops ((ops.map (·.series)).filterMap map) [] (length_transient_le ops)
  have hlabels := flatMap_labels_groupings groupings .fanIn fun _ => rfl
  simp only [MaterializationStep.materialize, hgroup]
  cases order with
  | series =>
    show Perm (flatMap _ _) _ ↔ _
    rw [hlabels, hperm.congr_left, ← zip_perm_wanted_iff]
    simp [Groupings.labels]
  | time =>
    show Labelled map ops (makeTimeOrderAggregate _ _ _ _) ↔ _
    rcases groupings with - | ⟨kv, rest⟩
    · -- no group: the constructor looks at the first of no operators
      refine iff_of_false id fun h => ?_
      have hpos := length_pos_of_ne_nil (exists_mapped_iff.mp (h.2 rfl))
      have hlen := hperm.length_eq
      have hle := length_transient_le (m := map) ops
      simp only [Groupings.labels, flatMap_nil, length_nil, nil_append, length_zip] at hlen
      omega
    · have hmake : makeTimeOrderAggregate forward ((kv :: rest).map Prod.fst)
          ((kv :: rest).map fun kv => .fanIn kv.2) fn = .ok (.timeOrderAggregate _ fn _) :=
        if_neg (by simp)
      rw [hmake]
      show Perm (flatMap _ _) _ ↔ _
      rw [hlabels, hperm.congr_left, Groupings.labels, flatMap_nil, nil_append, zip_perm_wanted_iff]
      -- there is a group, so some id has an image
      refine (and_iff_left fun _ => exists_mapped_iff.mpr fun hids => ?_).symm
      rw [hids] at hgroup
      cases hgroup

end Pairing

/-! ### Plans with `group_by` -/

theorem ok_bind {α β : Type} (a : α) (f : α → Except Failure β) : Except.ok a >>= f = f a := rfl

theorem bind_eq_ok {ε α β : Type} {r : Except ε α} {f : α → Except ε β} {b : β}
    (h : r >>= f = .ok b) : ∃ a, r = .ok a ∧ f a = .ok b := by
  cases r with
  | ok a => exact ⟨a, rfl, h⟩
  | error e => cases h

/-- The only errors of a computation are statuses. -/
def Benign {α : Type} (r : Except Failure α) : Prop := ∀ e, r = .error e → ∃ c, e = .status c

namespace Benign
variable {α β : Type}

theorem ok (a : α) : Benign (.ok a : Except Failure α) := by
  intro e he
  cases he

theorem status (c : QueryCode) : Benign (.error (.status c) : Except Failure α) := by
  intro e he
  cases he
  exact ⟨c, rfl⟩

variable {f : α → Except Failure β}

theorem bind {r : Except Failure α} (hr : Benign r)
    (hf : ∀ a, r = .ok a → Benign (f a)) : Benign (r >>= f) := by
  cases r with
  | ok a => exact hf a rfl
  | error e =>
    obtain ⟨c, rfl⟩ := hr e rfl
    exact status c

theorem mapM (hf : ∀ a, Benign (f a)) (as : List α) : Benign (as.mapM f) := by
  induction as with
  | nil => exact ok []
  | cons a as ih =>
    rw [mapM_cons]
    refine bind (hf a) fun b _ => bind ih fun bs _ => ok (b :: bs)

theorem foldlM {f : β → α → Except Failure β} (hf : ∀ b a, Benign (f b a)) (as : List α) (b : β) :
    Benign (as.foldlM f b) := by
  induction as generalizing b with
  | nil => exact ok b
  | cons a as ih => exact bind (hf b a) fun b' _ => ih b'

end Benign

section Plans
variable [DoubleArith V] {req : ReshapeRequest V} {ids : List ParamId}

theorem convertFilters_benign (fltlist : List (Filter V)) : Benign (convertFilters fltlist) := by
  apply Benign.mapM
  intro filter
  dsimp only
  split
  · exact .ok _
  · exact .status _

theorem addAggregateFilter_benign (aggflt : AggregateFilter V) (filter : Filter V)
    (fun' : AggregationFunction) : Benign (addAggregateFilter aggflt filter fun') := by
  simp only [addAggregateFilter]
  split
  · split
    · split
      · exact .ok _
      · exact .status _
    · exact .status _
  · exact .ok _

theorem layoutRows_benign {F : Type} {flt : List F} {rows columns : Nat}
    (h : columns ≤ flt.length) : Benign (layoutRows flt rows columns) := by
  rw [layoutRows, if_neg fun hc => absurd hc.2 (not_lt.mpr h)]
  exact .ok _

section
variable (hsel : req.select.columns.head? = some ids)
include hsel

omit [DoubleArith V] in
theorem firstColumn_eq :
    req.select.firstColumn = .ok ids := by
  obtain ⟨rest, hrest⟩ := head?_eq_some_iff.mp hsel
  simp [Selection.firstColumn, hrest]

/-- With a single column the filters are laid out or the query is refused. -/
theorem layoutFilters_benign
    (hone : req.select.columns.length = 1) : Benign (layoutFilters req) := by
  refine .bind (convertFilters_benign _) fun flt _ => ?_
  cases flt with
  | nil => exact .status _
  | cons f flt =>
    refine .bind (firstColumn_eq hsel ▸ .ok ids) fun _ _ => ?_
    exact layoutRows_benign (by simp [hone])

theorem layoutAggregateFilters_benign
    (hone : req.select.columns.length = 1) : Benign (layoutAggregateFilters req) := by
  unfold layoutAggregateFilters convertAggregateFilters
  split
  · exact .status _
  · rw [bind_assoc]
    refine .bind ?_ fun aggflt _ => ?_
    · exact .foldlM (fun a (p : Filter V × AggregationFunction) =>
        addAggregateFilter_benign a p.1 p.2) _ _
    · rw [pure_bind]
      refine .bind (firstColumn_eq hsel ▸ .ok ids) fun _ _ => ?_
      exact layoutRows_benign (by simp [hone])

end

/-- The second stage of a plan with `group_by`. -/
def groupedStep (req : ReshapeRequest V) (ids : List ParamId) : MaterializationStep :=
  let labels := req.groupBy.transientIds ids
  if req.agg.enabled then
    if req.agg.step = 0 then .aggregateCombiner labels req.agg.func
    else .groupAggregateCombiner req.orderBy labels req.agg.func
  else .mergeBy req.orderBy (if req.select.events then .binary else .real) labels

/-- The first stage makes the kind of operators the second one asks for. -/
def ProcessingPrelude.Makes (Op : Type) (prelude : ProcessingPrelude V) (kind : OperatorKind) :
    Prop :=
  ∀ list : List (Operator Op), prelude.extractResult kind list =
    if list.isEmpty then .error (.status .noData) else .ok list

/-- A builder refuses the request, or makes a plan over `ids` with the second stage
`step`. -/
def Builds (Op : Type) (r : Except Failure (TwoStepQueryPlan V)) (ids : List ParamId)
    (step : MaterializationStep) : Prop :=
  (∃ c, r = .error (.status c)) ∨
    ∃ t1stage : ProcessingPrelude V, r = .ok ⟨t1stage, step⟩ ∧ t1stage.ids = ids ∧
      t1stage.Makes Op step.kind

variable {step : MaterializationStep} {cstore : ColumnStore V Op}

omit [DoubleArith V] in
theorem Builds.of_filters {F : Type} {layout : Except Failure F} (t1stage : F → ProcessingPrelude V)
    (hlayout : Benign layout) (hids : ∀ flt, (t1stage flt).ids = ids)
    (hmakes : ∀ flt, (t1stage flt).Makes Op step.kind) :
    Builds Op (layout >>= fun flt => pure ⟨t1stage flt, step⟩) ids step := by
  cases hr : layout with
  | error e =>
    obtain ⟨c, rfl⟩ := hlayout e hr
    exact .inl ⟨c, rfl⟩
  | ok flt => exact .inr ⟨t1stage flt, rfl, hids flt, hmakes flt⟩

section
variable (hgroup : req.groupBy.enabled = true) (hsel : req.select.columns.head? = some ids)
include hgroup hsel

theorem scanQueryPlan_builds (hagg : req.agg.enabled = false)
    (hevents : req.select.events = false) :
    Builds Op (scanQueryPlan req) ids (groupedStep req ids) := by
  unfold scanQueryPlan
  split
  · exact .inl ⟨_, rfl⟩
  next hc =>
    have hone := not_not.mp (not_or.mp hc).2
    rw [show groupedStep req ids = .mergeBy req.orderBy .real (req.groupBy.transientIds ids) by
      simp [groupedStep, hagg, hevents]]
    simp only [firstColumn_eq hsel]
    split
    · exact .of_filters (fun flt => .filter _ _ (insertFilters ids flt) ids)
        (layoutFilters_benign hsel hone) (fun _ => rfl) fun _ _ => rfl
    · exact .inr ⟨_, rfl, rfl, fun _ => rfl⟩

omit [DoubleArith V] in
theorem scanEventsQueryPlan_builds (hagg : req.agg.enabled = false)
    (hevents : req.select.events = true) :
    Builds Op (scanEventsQueryPlan req) ids (groupedStep req ids) := by
  unfold scanEventsQueryPlan
  split
  · exact .inl ⟨_, rfl⟩
  · rw [show groupedStep req ids = .mergeBy req.orderBy .binary (req.groupBy.transientIds ids) by
      simp [groupedStep, hagg, hevents]]
    simp only [firstColumn_eq hsel, ok_bind]
    exact .inr ⟨_, rfl, rfl, fun _ => rfl⟩

omit [DoubleArith V] in
theorem aggregateQueryPlan_builds (hagg : req.agg.enabled = true) (hzero : req.agg.step = 0) :
    Builds Op (aggregateQueryPlan req) ids (groupedStep req ids) := by
  unfold aggregateQueryPlan
  split
  · exact .inl ⟨_, rfl⟩
  · rw [show groupedStep req ids = .aggregateCombiner (req.groupBy.transientIds ids) req.agg.func by
      simp [groupedStep, hagg, hzero]]
    simp only [firstColumn_eq hsel, ok_bind]
    exact .inr ⟨_, rfl, rfl, fun _ => rfl⟩

theorem groupAggregateQueryPlan_builds (hone : req.select.columns.length = 1)
    (hagg : req.agg.enabled = true) (hne : req.agg.step ≠ 0) :
    Builds Op (groupAggregateQueryPlan req) ids (groupedStep req ids) := by
  unfold groupAggregateQueryPlan
  split
  · exact .inl ⟨_, rfl⟩
  · rw [show groupedStep req ids =
        .groupAggregateCombiner req.orderBy (req.groupBy.transientIds ids) req.agg.func by
      simp [groupedStep, hagg, hne]]
    simp only [firstColumn_eq hsel]
    split
    · exact .of_filters (fun flt => .groupAggregateFilter _ _ _ (insertFilters ids flt) ids .first)
        (layoutAggregateFilters_benign hsel hone) (fun _ => rfl) fun _ _ => rfl
    · exact .inr ⟨_, rfl, rfl, fun _ => rfl⟩

end

theorem joinQueryPlan_refuses (hgroup : req.groupBy.enabled = true) :
    joinQueryPlan req = .error (.status .badArg) := by rw [joinQueryPlan, if_pos (.inl hgroup)]

/-- What the builder makes of a request with `group_by`. -/
theorem create_builds (hgroup : req.groupBy.enabled = true)
    (hsel : req.select.columns.head? = some ids) :
    Builds Op (QueryPlanBuilder.create req) ids (groupedStep req ids) := by
  unfold QueryPlanBuilder.create
  split
  next h => exact aggregateQueryPlan_builds hgroup hsel h.1 h.2
  next hzero =>
    split
    next h =>
      split
      next hone => exact groupAggregateQueryPlan_builds hgroup hsel hone h.1 h.2
      next => exact .inl ⟨_, joinQueryPlan_refuses hgroup⟩
    next hstep =>
      have hagg : req.agg.enabled = false := by
        by_contra hc
        have htrue : req.agg.enabled = true := by simpa using hc
        exact hstep ⟨htrue, fun h => hzero ⟨htrue, h⟩⟩
      split
      next => exact .inl ⟨_, joinQueryPlan_refuses hgroup⟩
      next =>
        split
        next hevents => exact scanEventsQueryPlan_builds hgroup hsel hagg hevents
        next hevents => exact scanQueryPlan_builds hgroup hsel hagg (by simpa using hevents)

/-! ### Executing a plan -/

section
omit [DoubleArith V]

theorem iterate_series {fn : ParamId → SeriesColumn V Op → Except Failure Op}
    {list : List (Operator Op)}
    (h : cstore.iterate ids fn = .ok list) : list.map (·.series) = ids := by
  induction ids generalizing list with
  | nil =>
    cases h
    rfl
  | cons id ids ih =>
    rw [ColumnStore.iterate, mapM_cons] at h
    obtain ⟨o, ho, h⟩ := bind_eq_ok h
    obtain ⟨rest, hrest, h⟩ := bind_eq_ok h
    cases h
    have hid : o.series = id := by
      split at ho
      · cases ho
      · obtain ⟨op, -, ho⟩ := bind_eq_ok ho
        cases ho
        rfl
    rw [map_cons, hid, ih hrest]

/-- Executing a plan: nothing is labelled if the first stage makes no operator;
otherwise the second stage decides. -/
theorem labelled_execute_iff (map : ParamId → Option ParamId) {t1stage : ProcessingPrelude V}
    (hmakes : t1stage.Makes Op step.kind) (happly : Benign (t1stage.apply cstore)) :
    let plan : TwoStepQueryPlan V := ⟨t1stage, step⟩
    Labelled map (plan.operators cstore) (plan.execute cstore) ↔
      (plan.operators cstore ≠ [] → Labelled map (plan.operators cstore)
          (step.materialize cstore.forward (plan.operators cstore))) := by
  intro plan
  cases hr : t1stage.apply cstore with
  | error e =>
    obtain ⟨c, rfl⟩ := happly e hr
    have hops : plan.operators cstore = [] := by simp [plan, TwoStepQueryPlan.operators, hr]
    have hexec : plan.execute cstore = .error (.status c) := by
      simp only [plan, TwoStepQueryPlan.execute, hr]
      rfl
    rw [hexec, hops]
    exact iff_of_true rfl (absurd rfl)
  | ok list =>
    have hops : plan.operators cstore = list := by simp [plan, TwoStepQueryPlan.operators, hr]
    have hexec : plan.execute cstore =
        t1stage.extractResult step.kind list >>= step.materialize cstore.forward := by
      simp only [plan, TwoStepQueryPlan.execute, hr, ok_bind]
    rw [hexec, hops, hmakes list]
    cases list with
    | nil => exact iff_of_true rfl (absurd rfl)
    | cons o list => exact ⟨fun h _ => h, fun h => h (cons_ne_nil o list)⟩

theorem apply_benign (t1stage : ProcessingPrelude V) (cstore : ColumnStore V Op) :
    Benign (t1stage.apply cstore) := by
  apply Benign.mapM
  intro id
  split
  · exact .status _
  · have hop : ∀ column : SeriesColumn V Op, Benign (t1stage.operator id column) := by
      intro column
      unfold ProcessingPrelude.operator
      repeat' split
      all_goals first | exact .ok _ | exact .status _
    exact .bind (hop _) fun op _ => .ok _

end

/-- In a request with `group_by`, the selected ids in `ids` do not shift the labels. -/
def Aligned (req : ReshapeRequest V) (ids : List ParamId) : Prop :=
  if req.agg.enabled then
    MappedFirst req.groupBy.transientMap ids ∧
      (req.agg.step = 0 → (req.groupBy.transientIds ids).length ≤ req.agg.func.length) ∧
      (req.agg.step ≠ 0 → req.orderBy = .time → ∃ id ∈ ids, (req.groupBy.transientMap id).isSome)
  else ∀ id ∈ ids, (req.groupBy.transientMap id).isSome

omit [DoubleArith V] in
theorem labelled_groupedStep_iff (req : ReshapeRequest V) (forward : Op → Bool) (ops : List (Operator Op)) :
    Labelled req.groupBy.transientMap ops
        ((groupedStep req (ops.map (·.series))).materialize forward ops) ↔
      Aligned req (ops.map (·.series)) := by
  unfold groupedStep Aligned GroupBy.transientIds
  split
  · split
    next hzero =>
      rw [labelled_aggregateCombiner_iff]
      simp [hzero]
    next hne =>
      rw [labelled_groupAggregateCombiner_iff]
      simp [hne]
  · exact labelled_merge_iff _ _

/-- Building and executing the plan of a request pairs the operators of the first stage
with the images of their own series. -/
def Paired (cstore : ColumnStore V Op) (req : ReshapeRequest V) : Prop :=
  match QueryPlanBuilder.create req with
  | .ok plan =>
    Labelled req.groupBy.transientMap (plan.operators cstore) (plan.execute cstore)
  | .error (.status _) => True
  | .error _ => False

/-- With `group_by`, every operator of the first stage is labelled with the image of its
own series and no assertion fails exactly if there is no operator, or: in a query
without aggregation every selected id is mapped; in one with aggregation no unmapped
id stands before a mapped one (and there is a function for each mapped id, and, in
a grouped query ordered by time, a mapped id at all). -/
theorem paired_iff (cstore : ColumnStore V Op) (hgroup : req.groupBy.enabled = true)
    (hsel : req.select.columns.head? = some ids) :
    Paired cstore req ↔ ∀ plan, QueryPlanBuilder.create req = .ok plan →
      plan.operators cstore ≠ [] → Aligned req ids := by
  unfold Paired
  have hbuilds : Builds Op (QueryPlanBuilder.create req) ids (groupedStep req ids) :=
    create_builds hgroup hsel
  rcases hbuilds with ⟨c, hc⟩ | ⟨t1stage, hc, hids, hmakes⟩
  · rw [hc]
    refine iff_of_true trivial fun plan hplan => ?_
    cases hplan
  · rw [hc]
    have hexec := labelled_execute_iff req.groupBy.transientMap hmakes (apply_benign t1stage cstore)
    let plan : TwoStepQueryPlan V := ⟨t1stage, groupedStep req ids⟩
    have hiff := labelled_groupedStep_iff req cstore.forward (plan.operators cstore)
    -- the operators are those of the selected ids, unless there are none
    have hseries : plan.operators cstore ≠ [] → (plan.operators cstore).map (·.series) = ids := by
      intro hne
      cases hlist : t1stage.apply cstore with
      | ok list =>
        simp only [plan, TwoStepQueryPlan.operators, hlist]
        exact (iterate_series hlist).trans hids
      | error e => exact absurd (by simp [plan, TwoStepQueryPlan.operators, hlist]) hne
    refine hexec.trans ⟨?_, ?_⟩
    · rintro h _ ⟨⟩ hne
      exact (hseries hne ▸ hiff).mp (h hne)
    · intro h hne
      exact (hseries hne ▸ hiff).mpr (h plan rfl hne)

end Plans

/-! ### Requests over two series -/

/-- A store with a column for every id; an operator is its own name. -/
def namedStore : ColumnStore Rat String where
  columns id := some
    { search := fun _ _ => "search " ++ toString id
      filter := fun _ _ _ => "filter " ++ toString id
      searchBinary := fun _ _ => "search_binary " ++ toString id
      filterBinary := fun _ _ _ => "filter_binary " ++ toString id
      aggregate := fun _ _ => "aggregate " ++ toString id
      groupAggregate := fun _ _ _ => "group_aggregate " ++ toString id
      groupAggregateFilter := fun _ _ _ _ => "group_aggregate_filter " ++ toString id }
  forward _ := true

/-- A query over the series 1 and 2, of which `mapped` belong to the group 7. -/
def twoSeries (agg : Aggregation) (mapped : List ParamId) : ReshapeRequest Rat where
  agg := agg
  select := ⟨[[1, 2]], [], .all, 0, 100, false, ""⟩
  groupBy := ⟨true, fun id => if id ∈ mapped then some 7 else none⟩
  orderBy := .series

/-- With both series in the group the labels of an aggregate query are right. -/
theorem paired_aggregate : Paired namedStore (twoSeries ⟨true, [.max, .max], 0⟩ [1, 2]) := by
  have hsel : (twoSeries ⟨true, [.max, .max], 0⟩ [1, 2]).select.columns.head? = some [1, 2] := rfl
  refine (paired_iff namedStore rfl hsel).mpr fun _ _ _ => ?_
  exact ⟨by decide, fun _ => by decide, absurd rfl⟩

/-- With only series 2 in the group, a scan fails an assertion and an aggregate query
puts series 1 into the group. -/
theorem paired_shifted : ¬ Paired namedStore (twoSeries ⟨false, [], 0⟩ [2]) ∧
    ¬ Paired namedStore (twoSeries ⟨true, [.max, .max], 0⟩ [2]) ∧
    (∃ plan, QueryPlanBuilder.create (twoSeries ⟨false, [], 0⟩ [2]) = .ok plan ∧
      plan.execute namedStore = .error (.fatal "MergeIterator - broken invariant")) ∧
    ∃ plan mat, QueryPlanBuilder.create (twoSeries ⟨true, [.max, .max], 0⟩ [2]) = .ok plan ∧
      plan.execute namedStore = .ok mat ∧ mat.labels = [(7, ⟨1, "aggregate 1", none⟩)] := by
  refine ⟨id, ?_, ⟨_, rfl, rfl⟩, _, _, rfl, rfl, rfl⟩
  intro h
  have hmem := (Perm.mem_iff h).mp (mem_singleton.mpr rfl)
  have := (mem_wanted.mp hmem).2
  exact absurd this (by decide)

end FastSTDB
