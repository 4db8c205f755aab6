import FastSTDB.EventDelivery

/-
  The samples that reach the query processor, and its buffer
  (`queryprocessor_framework.cc`, `queryprocessor.cc`)

  `ScanQueryProcessor::put` copies each sample into a `MutableSample`, whose buffer has
  1056 bytes. Samples of single values take 32 bytes. A tuple takes eight more for each
  value, one for every function of a group-aggregate request and at most one for
  every column of a join. An event takes 32 bytes more than its text. Nothing compares
  these sizes with the buffer: a request with more than 128 functions and an event
  with more than 1024 bytes of text write behind it.

  Correspondence (C++ ↔ Lean):
    `MutableSample::MAX_SIZE`             ↔ `MutableSample.maxSize`
    `MutableSample(const Sample*)`        ↔ `MutableSample.new`; `none` if the copy leaves
                                            the buffer
    `ScanQueryProcessor::put`             ↔ `ScanQueryProcessor.put`

  1. `create_stepFor`, `materialize_columnFor`, `make_kept`: what the materializer of a
     request is made of.
  2. `Materializer.read_keeps`, `execute_answers`: what its samples are.
  3. `sample_in_buffer_iff`: which of them fit.
-/
namespace FastSTDB
open List Option Pull Merging QueryPlanExecutor
open QueryPlanExecutor (destSize)

variable {V Op Φ : Type}
variable {forward : Op → Bool} {column : ColumnMaterializer Op} {cstore : ColumnStore V Op}

/-! ## The processor -/

/-- A copy of a sample; `size` and `bitmap` are those of a tuple. -/
structure MutableSample where
  sample : Sample
  size : Nat
  bitmap : Nat
  istuple : Bool

namespace MutableSample

def maxSize : Nat := 1024 + sampleSize

/-- `TupleOutputUtils::get_size_and_bitmap`; the bitmap is cut off to 32 bits. -/
def getSizeAndBitmap (float64 : UInt64) : Nat × Nat :=
  (float64.toNat / 2 ^ 58, float64.toNat % 2 ^ 58 % 2 ^ 32)

def new (source : Sample) : Option MutableSample :=
  if maxSize < max sampleSize source.payload.size then none
  else
    match source.payload with
    | .tuple float64 _ =>
      some ⟨source, (getSizeAndBitmap float64).1, (getSizeAndBitmap float64).2, true⟩
    | _ => some ⟨source, 1, 1, false⟩

theorem isSome_new (source : Sample) : (new source).isSome = true ↔ source.payload.size ≤ maxSize := by
  have hhead : sampleSize ≤ maxSize := le_add_self
  rw [new]
  by_cases hlarge : maxSize < max sampleSize source.payload.size
  · rw [if_pos hlarge]
    constructor
    · intro h
      cases h
    · omega
  · rw [if_neg hlarge]
    constructor
    · omega
    · intro _
      split
      next => rfl
      next => rfl

end MutableSample

/-- `put`, with the first node of the pipeline. -/
def ScanQueryProcessor.put {ν : Type} (root : ν → MutableSample → Bool × ν) (node : ν)
    (sample : Sample) : Option (Bool × ν) :=
  (MutableSample.new sample).map (root node)

/-! ## Plans -/

section
variable (req : ReshapeRequest V)

/-- The request is a group-aggregate query. -/
def ReshapeRequest.GroupAggregates : Prop :=
  req.agg.enabled = true ∧ req.agg.step ≠ 0 ∧ req.select.columns.length = 1

/-- The second stage of a plan for the request. -/
def StepFor : MaterializationStep → Prop
  | .mergeBy .. | .chain .. | .aggregate .. | .aggregateCombiner .. => ¬ req.GroupAggregates
  | .join _ cardinality _ _ _ =>
    ¬ req.GroupAggregates ∧ cardinality = req.select.columns.length
  | .groupAggregateCombiner _ _ fn | .seriesOrderAggregate _ fn | .timeOrderAggregate _ fn =>
    req.GroupAggregates ∧ fn = req.agg.func

/-- The materializer of a plan for the request; `I` holds of its operators for events. -/
def ColumnFor (I : Op → Prop) : ColumnMaterializer Op → Prop
  | .merge _ kind _ iters | .chain kind _ iters =>
    ¬ req.GroupAggregates ∧ (kind = .binary → ∀ o ∈ iters, I o.op)
  | .aggregate .. => ¬ req.GroupAggregates
  | .seriesOrderAggregate _ _ fn | .timeOrderAggregate _ fn _ =>
    req.GroupAggregates ∧ fn = req.agg.func
  | .joinConcat rows | .mergeJoin rows _ =>
    ¬ req.GroupAggregates ∧ ∀ row ∈ rows, row.ids.length ≤ req.select.columns.length

end

section Plans
variable [DoubleArith V] {req : ReshapeRequest V} {plan : TwoStepQueryPlan V}

omit [DoubleArith V] in
theorem stepFor_choice {grouped series time : MaterializationStep} (hgrouped : StepFor req grouped)
    (hseries : StepFor req series) (htime : StepFor req time) :
    StepFor req (if req.groupBy.enabled = true then grouped else
      match req.orderBy with
      | .series => series
      | .time => time) := by
  split
  next => exact hgrouped
  next =>
    split
    next => exact hseries
    next => exact htime

theorem scanQueryPlan_stepFor (h : scanQueryPlan req = .ok plan) (hno : ¬ req.GroupAggregates) :
    StepFor req plan.mater := by
  rw [scanQueryPlan] at h
  split at h
  next => cases h
  next =>
    obtain ⟨ids, -, h⟩ := bind_eq_ok h
    by_cases hflt : filteringEnabled req.select.filters = true
    · rw [if_pos hflt] at h
      obtain ⟨flt, -, h⟩ := bind_eq_ok h
      cases h
      exact stepFor_choice hno hno hno
    · rw [if_neg hflt] at h
      cases h
      exact stepFor_choice hno hno hno

omit [DoubleArith V] in
theorem scanEventsQueryPlan_stepFor (h : scanEventsQueryPlan req = .ok plan)
    (hno : ¬ req.GroupAggregates) : StepFor req plan.mater := by
  rw [scanEventsQueryPlan] at h
  split at h
  next => cases h
  next =>
    obtain ⟨ids, -, h⟩ := bind_eq_ok h
    cases h
    exact stepFor_choice hno hno hno

omit [DoubleArith V] in
theorem aggregateQueryPlan_stepFor (h : aggregateQueryPlan req = .ok plan)
    (hno : ¬ req.GroupAggregates) : StepFor req plan.mater := by
  rw [aggregateQueryPlan] at h
  split at h
  next => cases h
  next =>
    obtain ⟨ids, -, h⟩ := bind_eq_ok h
    cases h
    split
    next => exact hno
    next => exact hno

theorem joinQueryPlan_stepFor (h : joinQueryPlan req = .ok plan) (hno : ¬ req.GroupAggregates) :
    StepFor req plan.mater := by
  rw [joinQueryPlan] at h
  split at h
  next => cases h
  next =>
    obtain ⟨ids, -, h⟩ := bind_eq_ok h
    obtain ⟨t1ids, -, h⟩ := bind_eq_ok h
    split at h
    next =>
      split at h
      next =>
        obtain ⟨flt, -, h⟩ := bind_eq_ok h
        cases h
        exact ⟨hno, rfl⟩
      next =>
        cases h
        exact ⟨hno, rfl⟩
    next =>
      split at h
      next =>
        obtain ⟨flt, -, h⟩ := bind_eq_ok h
        split at h
        next => cases h
        next =>
          cases h
          exact ⟨hno, rfl⟩
      next =>
        split at h
        next => cases h
        next =>
          cases h
          exact ⟨hno, rfl⟩

theorem groupAggregateQueryPlan_stepFor (h : groupAggregateQueryPlan req = .ok plan)
    (hyes : req.GroupAggregates) : StepFor req plan.mater := by
  rw [groupAggregateQueryPlan] at h
  split at h
  next => cases h
  next =>
    obtain ⟨ids, -, h⟩ := bind_eq_ok h
    have hstep : req.GroupAggregates ∧ req.agg.func = req.agg.func := ⟨hyes, rfl⟩
    by_cases hflt : filteringEnabled req.select.filters = true
    · rw [if_pos hflt] at h
      obtain ⟨flt, -, h⟩ := bind_eq_ok h
      cases h
      exact stepFor_choice hstep hstep hstep
    · rw [if_neg hflt] at h
      cases h
      exact stepFor_choice hstep hstep hstep

theorem create_stepFor (h : QueryPlanBuilder.create req = .ok plan) : StepFor req plan.mater := by
  rw [QueryPlanBuilder.create] at h
  split at h
  next hagg => exact aggregateQueryPlan_stepFor h fun hg => hg.2.1 hagg.2
  next =>
    split at h
    next hgroup =>
      split at h
      next hone => exact groupAggregateQueryPlan_stepFor h ⟨hgroup.1, hgroup.2, hone⟩
      next hmany => exact joinQueryPlan_stepFor h fun hg => hmany hg.2.2
    next hno =>
      have hno' : ¬ req.GroupAggregates := fun hg => hno ⟨hg.1, hg.2.1⟩
      split at h
      next => exact joinQueryPlan_stepFor h hno'
      next =>
        split at h
        next => exact scanEventsQueryPlan_stepFor h hno'
        next => exact scanQueryPlan_stepFor h hno'

end Plans

variable {rows : List (JoinInput Op)}

section Columns
variable {req : ReshapeRequest V} {I : Op → Prop}

theorem joinRows_length {cardinality : Nat} {scanlist : List (Operator Op)} (ids : List ParamId)
    (i : Nat) (h : joinRows cardinality scanlist ids i = .ok rows) :
    ∀ row ∈ rows, row.ids.length = cardinality := by
  induction ids generalizing i rows with
  | nil =>
    cases h
    exact forall_mem_nil _
  | cons id ids ih =>
    obtain ⟨joined, -, h⟩ := bind_eq_ok h
    obtain ⟨rest, hrest, h⟩ := bind_eq_ok h
    cases h
    intro row hrow
    rcases mem_cons.mp hrow with rfl | hrow
    · rw [length_map, length_range]
    · exact ih (i + 1) hrest row hrow

variable {ids : List ParamId}

theorem makeTimeOrderAggregate_columnFor {iters : List (AggregateInput Op)}
    {fn : List AggregationFunction} (h : makeTimeOrderAggregate forward ids iters fn = .ok column)
    (hfor : req.GroupAggregates ∧ fn = req.agg.func) : ColumnFor req I column := by
  cases iters with
  | nil => cases h
  | cons it iters =>
    rw [makeTimeOrderAggregate] at h
    split at h
    next => cases h
    next =>
      cases h
      exact hfor

theorem materialize_columnFor {iters : List (Operator Op)} {step : MaterializationStep}
    (h : step.materialize forward iters = .ok column) (hstep : StepFor req step)
    (hops : step.kind = .binary → ∀ o ∈ iters, I o.op) : ColumnFor req I column := by
  cases step with
  | mergeBy order kind ids =>
    simp only [MaterializationStep.materialize, makeMerge] at h
    split at h
    next => cases h
    next =>
      cases h
      exact ⟨hstep, hops⟩
  | chain kind ids =>
    cases h
    exact ⟨hstep, hops⟩
  | aggregate ids fn =>
    cases h
    exact hstep
  | aggregateCombiner ids fn =>
    obtain ⟨groupings, -, h⟩ := bind_eq_ok h
    obtain ⟨functions, -, h⟩ := bind_eq_ok h
    cases h
    exact hstep
  | groupAggregateCombiner order ids fn =>
    obtain ⟨groupings, -, h⟩ := bind_eq_ok h
    cases order with
    | series =>
      cases h
      exact hstep
    | time => exact makeTimeOrderAggregate_columnFor h hstep
  | join ids cardinality order beginTs endTs =>
    obtain ⟨hno, hcard⟩ := hstep
    obtain ⟨rows, hrows, h⟩ := bind_eq_ok h
    have hle : ∀ row ∈ rows, row.ids.length ≤ req.select.columns.length := by
      intro row hrow
      rw [joinRows_length ids 0 hrows row hrow, hcard]
    cases order with
    | series =>
      cases h
      exact ⟨hno, hle⟩
    | time =>
      cases h
      exact ⟨hno, hle⟩
  | seriesOrderAggregate ids fn =>
    cases h
    exact hstep
  | timeOrderAggregate ids fn => exact makeTimeOrderAggregate_columnFor h hstep

theorem iterate_operator {fn : ParamId → SeriesColumn V Op → Except Failure Op}
    {list : List (Operator Op)} (h : cstore.iterate ids fn = .ok list) :
    ∀ o ∈ list, ∃ id column, cstore.columns id = some column ∧ fn id column = .ok o.op := by
  induction ids generalizing list with
  | nil =>
    cases h
    exact forall_mem_nil _
  | cons id ids ih =>
    rw [ColumnStore.iterate, mapM_cons] at h
    obtain ⟨first, hfirst, h⟩ := bind_eq_ok h
    obtain ⟨rest, hrest, h⟩ := bind_eq_ok h
    cases h
    intro o ho
    rcases mem_cons.mp ho with rfl | ho
    · split at hfirst
      next => cases hfirst
      next column hcolumn =>
        cases hop : fn id column with
        | error e =>
          rw [hop] at hfirst
          cases hfirst
        | ok op =>
          rw [hop] at hfirst
          cases hfirst
          exact ⟨id, column, hcolumn, hop⟩
    · exact ih hrest o ho

/-- The operators of the columns that read events have a property. -/
def ColumnStore.EventOperators (cstore : ColumnStore V Op) (I : Op → Prop) : Prop :=
  ∀ id column, cstore.columns id = some column →
    (∀ b e, I (column.searchBinary b e)) ∧ ∀ b e regex, I (column.filterBinary b e regex)

/-- The operators the first stage makes for events are such operators. -/
theorem extractResult_binary {prelude : ProcessingPrelude V} {list iters : List (Operator Op)}
    (hI : cstore.EventOperators I) (happly : prelude.apply cstore = .ok list)
    (hextract : prelude.extractResult .binary list = .ok iters) : ∀ o ∈ iters, I o.op := by
  cases prelude with
  | scanEvents b e ids regex =>
    have heq : iters = list := by
      rw [ProcessingPrelude.extractResult] at hextract
      split at hextract
      next => cases hextract
      next =>
        cases hextract
        rfl
    subst heq
    intro o ho
    obtain ⟨id, column, hcolumn, hop⟩ := iterate_operator happly o ho
    obtain ⟨hsearch, hfilter⟩ := hI id column hcolumn
    rw [ProcessingPrelude.operator] at hop
    split at hop
    next =>
      rw [← Except.ok.inj hop]
      exact hsearch b e
    next =>
      rw [← Except.ok.inj hop]
      exact hfilter b e regex
  | _ => cases hextract

end Columns
/-! ## Materializers -/

/-- Every event the operator ever delivers is one `append` accepts. -/
def DeliversAccepted (rd : Reader Status Event Op Φ) (op : Op) : Prop :=
  ∃ I : Op → Prop, I op ∧ ∀ n, Keeps rd n I Event.Valid

theorem deliversAccepted_keeps (rd : Reader Status Event Op Φ) (n : Nat) :
    Keeps rd n (DeliversAccepted rd) Event.Valid := by
  rintro φ op r ⟨I, hop, hkeeps⟩ hr
  obtain ⟨hnext, hout⟩ := hkeeps n φ op r hop hr
  exact ⟨⟨I, hnext, hkeeps⟩, hout⟩

/-- The heaps of the merges give out what was put into them. -/
structure Readers.Heaps (R : Readers V Op Φ) : Prop where
  points : ∀ worse, FromHeap (R.pointPop worse)
  events : ∀ worse, FromHeap (R.eventPop worse)
  samples : ∀ worse, FromHeap (R.samplePop worse)

/-- A tuple with a value for each function; its size fits into the u16. -/
def PData.AggregateOf (fn : List AggregationFunction) (p : PData) : Prop :=
  ∃ bits data, p = .tuple bits data ∧ data.length = fn.length ∧
    TupleOutputUtils.getTupleSize fn < 2 ^ 16

/-- What the payload of a sample for the request is. -/
def ReshapeRequest.Answers (req : ReshapeRequest V) (p : PData) : Prop :=
  (req.GroupAggregates ∧ p.AggregateOf req.agg.func) ∨
  (¬ req.GroupAggregates ∧
    (p.IsFloat ∨ p.TupleOf req.select.columns.length ∨ p.EventOf Event.Valid))

/-- The materializers for a request, in any state they can reach. -/
def Materializer.KeptFor (req : ReshapeRequest V) (I : Op → Prop) : Materializer Op → Prop
  | .merge .. | .chain .. | .aggregate .. => ¬ req.GroupAggregates
  | .events m => ¬ req.GroupAggregates ∧ m.Kept I Event.Valid
  | .seriesOrderAggregate fn _ => req.GroupAggregates ∧ fn = req.agg.func
  | .timeOrderAggregate fn st => req.GroupAggregates ∧ fn = req.agg.func ∧
    st.Kept (fun _ => True) (fun s => s.payload.AggregateOf fn)
  | .joinConcat st => ¬ req.GroupAggregates ∧
    ∀ j ∈ st.iters, j.origIds.length ≤ req.select.columns.length
  | .mergeJoin st => ¬ req.GroupAggregates ∧
    st.Kept (fun j => j.origIds.length ≤ req.select.columns.length)
      (fun s => s.payload.TupleOf req.select.columns.length)

section Materializers
variable {req : ReshapeRequest V} {I : Op → Prop}

theorem makeJoin_kept {n : Nat} (h : ∀ row ∈ rows, row.ids.length ≤ n) :
    ∀ j ∈ rows.map (Materializer.makeJoin forward), j.origIds.length ≤ n := by
  intro j hj
  obtain ⟨row, hrow, rfl⟩ := mem_map.mp hj
  show (row.ids.map UInt64.ofNat).length ≤ n
  rw [length_map]
  exact h row hrow

theorem EventMaterializer.make_kept {m : EventMaterializer Op}
    (h : EventMaterializer.make forward column = some m) (hcolumn : ColumnFor req I column) :
    ¬ req.GroupAggregates ∧ m.Kept I Event.Valid := by
  rw [EventMaterializer.make.eq_def] at h
  split at h
  next order ids iters =>
    cases h
    refine ⟨hcolumn.1, Merge.kept_new ?_⟩
    intro it hit
    obtain ⟨o, ho, rfl⟩ := mem_map.mp hit
    exact hcolumn.2 rfl o ho
  next ids iters =>
    cases h
    refine ⟨hcolumn.1, ?_, by intro x hx; cases hx⟩
    intro it hit
    obtain ⟨o, ho, rfl⟩ := mem_map.mp hit
    exact hcolumn.2 rfl o ho
  next => cases h

theorem make_kept {m : Materializer Op} (h : Materializer.make forward column = some m)
    (hcolumn : ColumnFor req I column) : m.KeptFor req I := by
  rw [Materializer.make.eq_def] at h
  split at h
  next =>
    cases h
    exact hcolumn.1
  next =>
    cases h
    exact hcolumn.1
  next =>
    cases h
    exact hcolumn
  next =>
    cases h
    exact hcolumn
  next =>
    cases h
    exact ⟨hcolumn.1, hcolumn.2, Merge.kept_new fun _ _ => trivial⟩
  next =>
    cases h
    exact ⟨hcolumn.1, makeJoin_kept hcolumn.2⟩
  next =>
    cases h
    exact ⟨hcolumn.1, Merge.kept_new (makeJoin_kept hcolumn.2)⟩
  next =>
    obtain ⟨m', hm', rfl⟩ := map_eq_some_iff.mp h
    exact EventMaterializer.make_kept hm' hcolumn

/-- A column of a group-aggregate query puts out tuples that fit into its buffer. -/
theorem aggregateColumn_keeps {σ : Type} [DoubleArith V] (toBits : V → UInt64)
    (fn : List AggregationFunction)
    (rd : Reader Status (Timestamp × AggregationResult V) σ Φ) {n : Nat} (hn : n < 2 ^ 16) :
    Keeps (ColumnChain.read (.tuple toBits fn) rd) n (fun _ => True)
      (fun s => s.payload.AggregateOf fn) := by
  intro φ st r _ h
  obtain ⟨hsamples, hlen⟩ := ColumnChain.read_spec h
  refine ⟨trivial, ?_⟩
  intro s hs
  obtain ⟨id, a, rfl⟩ := hsamples s hs
  refine ⟨_, _, rfl, length_map _, ?_⟩
  have hpos : 0 < n / TupleOutputUtils.getTupleSize fn := (length_pos_of_mem hs).trans_le hlen
  exact (Nat.div_pos_iff.mp hpos).2.trans_lt hn

variable {R : Readers V Op Φ}

/-- The samples of a materializer answer the request. -/
theorem Materializer.read_keeps [DoubleArith V] (hbinary : ∀ n, Keeps R.binary n I Event.Valid)
    (hheaps : R.Heaps) (rounds : Nat) :
    Keeps (Materializer.read R rounds) destSize (Materializer.KeptFor req I)
      (fun s => req.Answers s.payload) := by
  intro φ m r hm h
  have hdest : destSize < 2 ^ 16 := by decide
  cases m
  all_goals obtain ⟨r', hr', rfl⟩ := map_eq_some_iff.mp h
  case merge order st =>
    have hout := kwayMerge_fits hr'
    refine ⟨hm, ?_⟩
    intro s hs
    obtain ⟨id, p, rfl, -⟩ := hout s hs
    exact .inr ⟨hm, .inl ⟨_, rfl⟩⟩
  case chain st =>
    refine ⟨hm, ?_⟩
    intro s hs
    obtain ⟨id, p, rfl⟩ := (ColumnChain.read_spec hr').1 s hs
    exact .inr ⟨hm, .inl ⟨_, rfl⟩⟩
  case events m =>
    obtain ⟨hno, hkept⟩ := hm
    obtain ⟨hnext, hout⟩ := EventMaterializer.read_keeps hbinary hheaps.events _ _ _ _ hkept hr'
    exact ⟨⟨hno, hnext⟩, fun s hs => .inr ⟨hno, .inr (.inr (hout s hs))⟩⟩
  case aggregate st =>
    have hout := aggregateLoop_float _ hr' (forall_mem_nil _)
    exact ⟨hm, fun s hs => .inr ⟨hm, .inl (hout s hs)⟩⟩
  case seriesOrderAggregate fn st =>
    obtain ⟨hyes, rfl⟩ := hm
    obtain ⟨-, hout⟩ := aggregateColumn_keeps _ _ _ hdest _ _ _ trivial hr'
    exact ⟨⟨hyes, rfl⟩, fun s hs => .inl ⟨hyes, hout s hs⟩⟩
  case timeOrderAggregate fn st =>
    obtain ⟨hyes, rfl, hkept⟩ := hm
    have hinner := aggregateColumn_keeps R.toBits req.agg.func R.aggregate
      (show rangeSize * sampleSize < 2 ^ 16 by decide)
    obtain ⟨hnext, hout⟩ := kwayMerge_keeps (hinner) .time
      (FromHeap.keeps (hheaps.samples _)) _ _ _ _ hkept hr'
    refine ⟨⟨hyes, rfl, hnext⟩, ?_⟩
    intro s hs
    obtain ⟨id, s', rfl, hs', -⟩ := hout s hs
    exact .inl ⟨hyes, hs'⟩
  case joinConcat st =>
    obtain ⟨hno, hkept⟩ := hm
    obtain ⟨hnext, hout⟩ := joinConcat_keeps _ hr' hkept
    exact ⟨⟨hno, hnext⟩, fun s hs => .inr ⟨hno, .inr (.inl (hout s hs))⟩⟩
  case mergeJoin st =>
    obtain ⟨hno, hkept⟩ := hm
    obtain ⟨hnext, hout⟩ := kwayMerge_keeps
      (Join.read_keeps (rangeSize * sampleSize)) .time
      (FromHeap.keeps (hheaps.samples _)) _ _ _ _ hkept hr'
    refine ⟨⟨hno, hnext⟩, ?_⟩
    intro s hs
    obtain ⟨id, s', rfl, hs', -⟩ := hout s hs
    exact .inr ⟨hno, .inr (.inl hs')⟩

/-- Every sample a plan delivers answers its request, whenever the client stops. -/
theorem execute_answers [DoubleArith V] {plan : TwoStepQueryPlan V}
    (hplan : QueryPlanBuilder.create req = .ok plan)
    (hevents : cstore.EventOperators (DeliversAccepted R.binary)) (hheaps : R.Heaps)
    {more : List Call → Bool} {rounds reads : Nat} {φ : Φ} {calls : List Call}
    (hrun : execute cstore plan Materializer.make (Materializer.read R rounds)
      (recording more) reads φ [] = some calls) :
    ∀ s ∈ putSamples calls, req.Answers s.payload := by
  rw [execute] at hrun
  split at hrun
  next column hcolumn =>
    obtain ⟨m, hm, hloop⟩ := bind_eq_some_iff.mp hrun
    obtain ⟨list, happly, hcolumn⟩ := bind_eq_ok hcolumn
    obtain ⟨iters, hextract, hmater⟩ := bind_eq_ok hcolumn
    have hops : plan.mater.kind = .binary → ∀ o ∈ iters, DeliversAccepted R.binary o.op := by
      intro hkind
      rw [hkind] at hextract
      exact extractResult_binary hevents happly hextract
    have hkept := make_kept hm (materialize_columnFor hmater (create_stepFor hplan) hops)
    exact executeLoop_keeps
      (Materializer.read_keeps (deliversAccepted_keeps R.binary) hheaps rounds) more reads hkept
      hloop (forall_mem_nil _)
  next code _ =>
    cases hrun
    exact forall_mem_nil _
  next => cases hrun

end Materializers

/-! ## Columns with one event -/

section OneEvent
variable {n : Nat}

def eventReaders : Readers Rat (EventOp Rat) Unit where
  real _ _ _ := none
  aggregate _ _ _ := none
  binary := EventOp.read 600
  pointPop worse := stablePop worse
  eventPop worse := stablePop worse
  samplePop worse := stablePop worse
  toBits _ := 0
  uninit := 0

theorem fromHeap_stablePop {α : Type} (worse : α → α → Bool) : FromHeap (stablePop worse) := by
  intro items a rest h
  obtain ⟨before, after, rfl, rfl, -⟩ := popFirst_some h
  refine ⟨mem_append_right _ mem_cons_self, ?_⟩
  exact forall_mem_append.mpr ⟨fun b hb => mem_append_left _ hb,
    fun b hb => mem_append_right _ (mem_cons_of_mem _ hb)⟩

theorem eventReaders_heaps : eventReaders.Heaps :=
  ⟨fromHeap_stablePop, fromHeap_stablePop, fromHeap_stablePop⟩

theorem EventOp.Has.deliversAccepted {op : EventOp V} [DoubleArith V] {rounds : Nat}
    {events : List Event} (h : op.Has rounds events) (hvalid : ∀ e ∈ events, e.Valid) :
    DeliversAccepted (EventOp.read rounds) op := by
  refine ⟨fun op => ∃ events, op.Has rounds events ∧ ∀ e ∈ events, e.Valid, ⟨events, h, hvalid⟩, ?_⟩
  rintro n φ op r ⟨events, hop, hall⟩ hr
  obtain ⟨op', φ', hread, hnext⟩ := hop.read φ n
  rw [hread] at hr
  cases hr
  exact ⟨⟨events.drop n, hnext, fun e he => hall e (mem_of_mem_drop he)⟩,
    fun e he => hall e (mem_of_mem_take he)⟩

/-- A query for an event that fits into the buffer of the executor delivers it. -/
theorem zeroEvent_delivered (hpos : 0 < n) (hfits : n ≤ 4064) : ∃ op : EventOp Rat,
    EventColumn (oneColumn 1 op) 0 9999 1 [zeroEvent n] ∧
    (oneColumn 1 op).EventOperators (DeliversAccepted eventReaders.binary) ∧
    ∃ plan, QueryPlanBuilder.create (eventsOfOne .series) = .ok plan ∧ ∃ reads,
      execute (oneColumn 1 op) plan Materializer.make
        (Materializer.read eventReaders 0) (recording fun _ => true) reads () [] =
      some [.put ⟨1000, 1, .event (replicate n 0)⟩] := by
  have hle : n ≤ maxEventLen := hfits.trans (by decide)
  obtain ⟨op, hcol, hscan, haccs, iters, hlen, hne, happly, hscans⟩ := zeroEvent_scan hpos hle
  have hdel : DeliversAccepted eventReaders.binary op :=
    hscan.has.deliversAccepted (haccs _ mem_cons_self).valid
  have hops : (oneColumn 1 op).EventOperators (DeliversAccepted eventReaders.binary) := by
    intro id column hcolumn
    obtain ⟨-, heq⟩ := ite_none_right_eq_some.mp hcolumn
    cases heq
    exact ⟨fun _ _ => hdel, fun _ _ _ => hdel⟩
  refine ⟨op, hcol, hops, _, (eventsOfOne_request .series).create, 3, ?_⟩
  have hloop := executeLoop_series hscans haccs hlen (stablePop) le_rfl
  have htext : (zeroEvent n).fits = true := by
    rw [Event.fits, decide_eq_true_iff, zeroEvent, length_replicate]
    exact Nat.add_le_add_left hfits sampleSize
  have hfirst : (labelled [1] ([[zeroEvent n]].map (scanOrder 0 9999))).takeWhile (·.2.fits) =
      [(1, zeroEvent n)] := takeWhile_cons_of_pos htext
  rw [hfirst] at hloop
  rw [execute]
  erw [scanEvents_execute happly hne (eventsStep .series [1]) rfl rfl]
  -- the materializer of events, among all of them
  refine Eq.trans ?_ hloop
  exact executeLoop_map Materializer.events (fun _ _ _ => rfl) recorder 3 () _ []

end OneEvent

/-! ## The bound -/

def PData.text : PData → List UInt8
  | event data => data
  | _ => []

theorem Answers.size_le_iff {req : ReshapeRequest V} {p : PData} (h : req.Answers p)
    (hcols : req.select.columns.length ≤ 58) : p.size ≤ MutableSample.maxSize ↔
      p.text.length ≤ 1024 ∧ (req.GroupAggregates → req.agg.func.length ≤ 128) := by
  rcases h with ⟨hyes, bits, data, rfl, hlen, hsmall⟩ | ⟨hno, hp⟩
  · -- a tuple of aggregates
    have hsize : (PData.tuple bits data).size = 32 + data.length * 8 := by
      refine Nat.mod_eq_of_lt ?_
      rw [TupleOutputUtils.getTupleSize, ← hlen, mul_comm] at hsmall
      exact hsmall
    rw [hsize, hlen]
    show 32 + req.agg.func.length * 8 ≤ 1056 ↔ 0 ≤ 1024 ∧ (_ → _)
    constructor
    · omega
    · rintro ⟨-, hfn⟩
      have hfn := hfn hyes
      omega
  · have himp : req.GroupAggregates → req.agg.func.length ≤ 128 := fun hyes => absurd hyes hno
    rcases hp with ⟨bits, rfl⟩ | ⟨bits, data, rfl, hlen⟩ | ⟨e, hvalid, rfl⟩
    · -- a single value
      refine ⟨fun _ => ⟨zero_le, himp⟩, fun _ => ?_⟩
      show 32 % 2 ^ 16 ≤ 1056
      decide
    · -- a tuple of a join
      refine ⟨fun _ => ⟨zero_le, himp⟩, fun _ => ?_⟩
      show (32 + data.length * 8) % 2 ^ 16 ≤ 1056
      omega
    · -- an event
      have hmax : e.body.length ≤ 4096 := hvalid.2
      show (32 + e.body.length) % 2 ^ 16 ≤ 1056 ↔ e.body.length ≤ 1024 ∧ _
      constructor
      · intro hle
        exact ⟨by omega, himp⟩
      · omega

/-- A sample that a query delivers stays inside the buffer of the processor exactly if the text of
an event has at most 1024 bytes and a group-aggregate request at most 128 functions. -/
theorem sample_in_buffer_iff {ν : Type} [DoubleArith V] {req : ReshapeRequest V}
    {plan : TwoStepQueryPlan V} {cstore : ColumnStore V Op} {R : Readers V Op Φ}
    (hplan : QueryPlanBuilder.create req = .ok plan) (hcols : req.select.columns.length ≤ 58)
    (hevents : cstore.EventOperators (DeliversAccepted R.binary)) (hheaps : R.Heaps)
    {more : List Call → Bool} {rounds reads : Nat} {φ : Φ} {calls : List Call}
    (hrun : execute cstore plan Materializer.make (Materializer.read R rounds)
      (recording more) reads φ [] = some calls)
    {sample : Sample} (hsample : sample ∈ putSamples calls)
    (root : ν → MutableSample → Bool × ν) (node : ν) :
    (ScanQueryProcessor.put root node sample).isSome = true ↔ sample.payload.text.length ≤ 1024 ∧
        (req.GroupAggregates → req.agg.func.length ≤ 128) := by
  rw [ScanQueryProcessor.put, isSome_map, MutableSample.isSome_new]
  exact Answers.size_le_iff (execute_answers hplan hevents hheaps hrun sample hsample) hcols

/-- The column with an event of 1025 bytes: the event is delivered, and its sample is larger than
the buffer it is copied to. -/
theorem sample_behind_buffer : (zeroEvent 1025).Valid ∧ ∃ op : EventOp Rat,
    EventColumn (oneColumn 1 op) 0 9999 1 [zeroEvent 1025] ∧
    ∃ plan, QueryPlanBuilder.create (eventsOfOne .series) = .ok plan ∧ ∃ reads sample,
      execute (oneColumn 1 op) plan Materializer.make
        (Materializer.read eventReaders 0) (recording fun _ => true) reads () [] =
          some [.put sample] ∧
      sample.payload.size = MutableSample.maxSize + 1 ∧ MutableSample.new sample = none := by
  obtain ⟨op, hcol, -, plan, hplan, reads, hrun⟩ :=
    zeroEvent_delivered (show 0 < 1025 by decide) (by decide)
  have hsize : (PData.event (replicate 1025 0)).size = MutableSample.maxSize + 1 := by
    rw [PData.size, PData.space, length_replicate]
    decide
  refine ⟨zeroEvent_valid (by decide) (by decide), op, hcol, plan, hplan, reads, _, hrun, hsize, ?_⟩
  rw [← not_isSome_iff_eq_none, MutableSample.isSome_new, hsize]
  omega

/-- An event of five bytes is copied. -/
theorem sample_in_buffer_short : ∃ (op : EventOp Rat) (plan : TwoStepQueryPlan Rat) (reads : Nat),
    QueryPlanBuilder.create (eventsOfOne .series) = .ok plan ∧
    execute (oneColumn 1 op) plan Materializer.make
      (Materializer.read eventReaders 0) (recording fun _ => true) reads () [] =
        some [.put ⟨1000, 1, .event [0, 0, 0, 0, 0]⟩] ∧
    (ScanQueryProcessor.put (fun count _ => (true, count + 1)) 0
      ⟨1000, 1, .event [0, 0, 0, 0, 0]⟩).isSome = true := by
  obtain ⟨op, -, hops, plan, hplan, reads, hrun⟩ :=
    zeroEvent_delivered (show 0 < 5 by decide) (by decide)
  refine ⟨op, plan, reads, hplan, hrun, ?_⟩
  refine (sample_in_buffer_iff hplan (by decide) hops eventReaders_heaps hrun
    mem_cons_self _ 0).mpr ⟨by decide, ?_⟩
  intro hgroup
  cases hgroup.1

end FastSTDB
