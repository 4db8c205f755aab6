import FastSTDB.MaterializerKeeps

/-
  Event queries — from the columns to the processor

  The columns are trees that have accepted events. A request for all of them is planned
  and executed, and what arrives at the processor is compared with what the trees
  have accepted. `append` takes texts of up to 4096 bytes; the executor can deliver
  those of up to 4064 bytes.

  1. `scanEvents_apply`: the first stage makes an operator for each column.
  2. `executeLoop_series`, `executeLoop_time`: what the second stage delivers.
  3. `events_complete`: all events are delivered exactly if all of them fit and, when
     they are ordered by time, no empty column stands before one with more than
     1024 events.
-/
namespace FastSTDB
open List Pull Merging QueryPlanExecutor ProcessingPrelude MergeKind MergeOrder

variable {V Op Φ : Type}
variable {events : List Event} {iters : List (Operator (EventOp V))} {e : Event}

/-! ## Columns and requests -/

section Columns
variable [DoubleArith V] {cstore : ColumnStore V (EventOp V)} {beginTs endTs : Timestamp}
  {ids : List ParamId} {xss : List (List Event)} {rounds : Nat}

/-- The column of the id is a tree that has accepted `events`, and its blocks are kept. -/
def EventColumn (cstore : ColumnStore V (EventOp V)) (beginTs endTs : Timestamp) (id : ParamId)
    (events : List Event) : Prop :=
  ∃ bs input t, bs.removedBelow = 0 ∧
    feedEvents input (.new id [] bs) = some (events, t) ∧
    ∃ column t', cstore.columns id = some column ∧
      t.searchBinary beginTs endTs = some (column.searchBinary beginTs endTs, t')

structure Accepted (events : List Event) : Prop where
  valid : ∀ e ∈ events, e.Valid
  increasing : events.Pairwise fun e e' => e.ts < e'.ts

/-- What an operator of an events query delivers. -/
structure EventScan (rounds : Nat) (beginTs endTs : Timestamp) (op : EventOp V)
    (events : List Event) : Prop where
  forward : op.it.forward = decide (beginTs < endTs)
  has : op.Has rounds (scanOrder beginTs endTs events)

theorem EventColumn.scan {id : ParamId} (h : EventColumn cstore beginTs endTs id events)
    (hrange : ∀ p ∈ eventPoints events, inRange beginTs endTs p = true)
    (hrounds : (eventPoints events).length + 3 ≤ rounds) :
    Accepted events ∧ ∃ column, cstore.columns id = some column ∧
      EventScan rounds beginTs endTs (column.searchBinary beginTs endTs) events := by
  obtain ⟨bs, input, t, hkeep, hfeed, column, t', hcolumn, hsearch⟩ := h
  obtain ⟨t1, last, hfeed', hholds, hrec⟩ := feedEvents_holds bs id input
  cases hfeed.symm.trans hfeed'
  obtain ⟨op, t'', hop, hforward, hhas⟩ := searchBinary_has hkeep hholds hrec.valid hrange hrounds
  cases hsearch.symm.trans hop
  exact ⟨⟨hrec.valid, hrec.increasing.imp lt_of_basets_lt⟩, column, hcolumn, hforward, hhas⟩

theorem scanEvents_apply (hcols : Forall₂ (EventColumn cstore beginTs endTs) ids xss)
    (hrange : ∀ xs ∈ xss, ∀ p ∈ eventPoints xs, inRange beginTs endTs p = true)
    (hrounds : ∀ xs ∈ xss, (eventPoints xs).length + 3 ≤ rounds) :
    (∀ xs ∈ xss, Accepted xs) ∧ ∃ iters : List (Operator (EventOp V)),
      (scanEvents beginTs endTs ids "").apply cstore = .ok iters ∧
      Forall₂ (fun o xs => EventScan rounds beginTs endTs o.op xs) iters xss := by
  induction hcols with
  | nil => exact ⟨by simp, [], rfl, .nil⟩
  | @cons id xs ids xss hcol _ ih =>
    obtain ⟨haccs, iters, happly, hscans⟩ := ih (forall_mem_cons.mp hrange).2
      (forall_mem_cons.mp hrounds).2
    obtain ⟨hacc, column, hcolumn, hscan⟩ :=
      hcol.scan (hrange xs mem_cons_self) (hrounds xs mem_cons_self)
    refine ⟨?_, ⟨id, column.searchBinary beginTs endTs, none⟩ :: iters, ?_, .cons hscan hscans⟩
    · exact forall_mem_cons.mpr ⟨hacc, haccs⟩
    · simp only [apply, ColumnStore.iterate, ProcessingPrelude.ids] at happly ⊢
      simp only [mapM_cons, hcolumn]
      erw [happly]
      rfl

/-- The request of an events query, without group-by and without a filter on the texts. -/
structure EventsRequest (req : ReshapeRequest V) (ids : List ParamId) : Prop where
  agg : req.agg.enabled = false
  events : req.select.events = true
  columns : req.select.columns = [ids]
  regex : req.select.eventBodyRegex = ""
  groupBy : req.groupBy.enabled = false

/-- The second stage by the order of the result. -/
def eventsStep (orderBy : OrderBy) (ids : List ParamId) : MaterializationStep :=
  match orderBy with
  | .series => .chain .binary ids
  | .time => .mergeBy .time .binary ids

theorem EventsRequest.create {req : ReshapeRequest V} (h : EventsRequest req ids) :
    QueryPlanBuilder.create req =
      .ok ⟨.scanEvents req.select.beginTs req.select.endTs ids "", eventsStep req.orderBy ids⟩ := by
  have hcol : req.select.firstColumn = .ok ids := by rw [Selection.firstColumn, h.columns]
  simp only [QueryPlanBuilder.create, scanEventsQueryPlan, h.agg, h.events, h.columns, h.regex,
    h.groupBy, hcol]
  rfl

def eventSamples (ids : List ParamId) (xss : List (List Event)) : List Sample :=
  event.samples (labelled ids xss)

/-- No column without events stands before one that takes a second read of the merge. -/
def EmptyLast (xss : List (List Event)) : Prop :=
  xss.Pairwise fun a b => a = [] → b.length ≤ rangeSize

def executeEvents (cstore : ColumnStore V (EventOp V)) (plan : TwoStepQueryPlan V)
    (pop : HeapPop Event) (rounds reads : Nat) : Option (List Call) :=
  execute cstore plan EventMaterializer.make
    (EventMaterializer.read (EventOp.read rounds) pop) recorder reads () []

theorem exact_eventOp : Exact (EventOp.read rounds) (fun (op : EventOp V) xs => op.Has rounds xs) :=
  fun _ _ h φ n => h.read φ n

theorem putSamples_map_put (samples : List Sample) : putSamples (samples.map .put) = samples := by
  rw [putSamples, filterMap_map]
  exact filterMap_some

theorem labelled_scanOrder (b e : Timestamp) (ids : List ParamId) (xss : List (List Event)) :
    (labelled ids (xss.map (scanOrder b e))).Perm (labelled ids xss) := by
  induction ids generalizing xss with
  | nil => simp [labelled]
  | cons id ids ih =>
    cases xss with
    | nil => simp [labelled]
    | cons xs xss => exact Perm.append ((scanOrder_perm b e xs).map _) (ih xss)

theorem mem_scanOrder (he : e ∈ (xss.map (scanOrder beginTs endTs)).flatten) :
    ∃ xs ∈ xss, e ∈ xs := by
  obtain ⟨ys, hys, he⟩ := mem_flatten.mp he
  obtain ⟨xs, hxs, rfl⟩ := mem_map.mp hys
  exact ⟨xs, hxs, (scanOrder_perm _ _ xs).mem_iff.mp he⟩

theorem valid_scanOrder (haccs : ∀ xs ∈ xss, Accepted xs)
    (he : e ∈ (xss.map (scanOrder beginTs endTs)).flatten) : e.Valid := by
  obtain ⟨xs, hxs, hmem⟩ := mem_scanOrder he
  exact (haccs xs hxs).valid e hmem

/-- The first reads of a merge, when the operators are read as lists are. -/
theorem firstReads_exact {rd : Reader Status Event Op Φ} {R : Op → List Event → Prop}
    (hexact : Exact rd R) {iters : List Op} (h : Forall₂ R iters xss) (φ : Φ) :
    firstReads rd iters φ = xss.map (·.take rangeSize) := by
  induction h generalizing φ with
  | nil => rfl
  | cons hit _ ih =>
    obtain ⟨it', φ', hr, -⟩ := hexact _ _ hit φ rangeSize
    rw [firstReads, hr, map_cons, ← ih φ']

/-- An operator behind an empty one needs no second read if it has few events. -/
theorem shortAfterEmpty_iff (b e : Timestamp) (xss : List (List Event)) :
    ShortAfterEmpty (xss.map (scanOrder b e))
      ((xss.map (scanOrder b e)).map (·.take rangeSize)) ↔ EmptyLast xss := by
  have hzip : (xss.map (scanOrder b e)).zip ((xss.map (scanOrder b e)).map (·.take rangeSize)) =
      xss.map fun xs => (scanOrder b e xs, (scanOrder b e xs).take rangeSize) := by
    rw [map_map, zip_map']
    rfl
  have hlen : ∀ xs : List Event, (scanOrder b e xs).length = xs.length := fun xs =>
    (scanOrder_perm b e xs).length_eq
  rw [ShortAfterEmpty, hzip, pairwise_map]
  have hpair : ∀ xs ys : List Event, (scanOrder b e xs = [] →
      (scanOrder b e ys).take rangeSize = scanOrder b e ys) ↔ (xs = [] → ys.length ≤ rangeSize) := by
    intro xs ys
    rw [take_eq_self_iff, hlen, ← length_eq_zero_iff, hlen, length_eq_zero_iff]
  exact ⟨fun h => h.imp fun {xs ys} => (hpair xs ys).mp, fun h => h.imp fun {xs ys} => (hpair xs ys).mpr⟩

theorem exists_labelled (hlen : ids.length = xss.length) {xs : List Event} (hxs : xs ∈ xss)
    (he : e ∈ xs) : ∃ x ∈ labelled ids xss, x.2 = e := by
  rw [← mem_map, labelled_snd hlen]
  exact mem_flatten.mpr ⟨xs, hxs, he⟩

def AllFit (xss : List (List Event)) : Prop := ∀ xs ∈ xss, ∀ e ∈ xs, e.fits = true

theorem Event.Valid.sizeRequired (h : e.Valid) :
    event.sizeRequired e = sampleSize + e.body.length := by
  obtain ⟨-, hle⟩ := h
  unfold maxEventLen at hle
  exact Nat.mod_eq_of_lt (by rw [sampleSize]; omega)

theorem Event.Valid.fits_iff (h : e.Valid) : e.fits = true ↔ event.sizeRequired e ≤ destSize := by
  rw [h.sizeRequired, Event.fits, decide_eq_true_iff]

section Scans
variable
  (hscans : Forall₂ (fun o xs => EventScan rounds beginTs endTs o.op xs) iters xss)
  (haccs : ∀ xs ∈ xss, Accepted xs) (hlen : ids.length = iters.length)

omit [DoubleArith V] in
include hscans in
theorem eventOps_has :
    Forall₂ (fun (op : EventOp V) xs => op.Has rounds xs) (iters.map (·.op))
      (xss.map (scanOrder beginTs endTs)) := by
  rw [forall₂_map_left_iff, forall₂_map_right_iff]
  exact hscans.imp fun _ _ h => h.has

include hscans haccs hlen

theorem executeLoop_series (pop : HeapPop Event) {reads : Nat}
    (hreads : (labelled ids (xss.map (scanOrder beginTs endTs))).length + 2 ≤ reads) :
    executeLoop (EventMaterializer.read (EventOp.read rounds) pop) recorder reads
        () (.chain (.new ids (iters.map (·.op)))) [] =
      some ((event.samples ((labelled ids (xss.map (scanOrder beginTs endTs))).takeWhile
        (·.2.fits))).map .put) := by
  have hops := eventOps_has hscans
  rw [executeLoop_map EventMaterializer.chain (fun _ _ _ => rfl)]
  rw [executeLoop_chain exact_eventOp reads () []
    (EventChain.has_new hops (by rw [length_map]; exact hlen))
    (fun x hx => valid_scanOrder haccs (mem_labelled hx)) hreads, nil_append]

/-- Through a chain of columns, all events arrive exactly if all of them fit. -/
theorem series_complete (pop : HeapPop Event) : (∃ reads calls, executeLoop
        (EventMaterializer.read (EventOp.read rounds) pop) recorder reads ()
        (.chain (.new ids (iters.map (·.op)))) [] = some calls ∧
      (putSamples calls).Perm (eventSamples ids xss)) ↔ AllFit xss := by
  have hlen' : ids.length = xss.length := hlen.trans hscans.length_eq
  have hperm := labelled_scanOrder beginTs endTs ids xss
  have hrun := executeLoop_series hscans haccs hlen pop le_rfl
  constructor
  · rintro ⟨reads, calls, hcalls, hput⟩ xs hxs e he
    obtain rfl := executeLoop_unique hcalls hrun
    rw [putSamples_map_put] at hput
    -- nothing is dropped, so every event passes the test
    have hcount := hput.length_eq
    rw [eventSamples, samples, samples, length_map, length_map, ← hperm.length_eq] at hcount
    have hall := takeWhile_eq_self_iff.mp ((takeWhile_sublist _).eq_of_length hcount)
    obtain ⟨x, hx, rfl⟩ := exists_labelled hlen' hxs he
    exact hall x (hperm.mem_iff.mpr hx)
  · intro hfit
    refine ⟨_, _, hrun, ?_⟩
    have hall : ∀ x ∈ labelled ids (xss.map (scanOrder beginTs endTs)), x.2.fits = true := by
      intro x hx
      obtain ⟨xs, hxs, hmem⟩ := mem_scanOrder (mem_labelled hx)
      exact hfit xs hxs _ hmem
    rw [putSamples_map_put, takeWhile_eq_self_iff.mpr hall]
    exact hperm.map _

variable {pop : HeapPop Event}

theorem executeLoop_time (hids : ids.Nodup) {forward : Bool}
    (hforward : forward = decide (beginTs < endTs))
    (hpop : LawfulPop (time.worse forward) (pop (time.worse forward))) :
    (∃ reads calls, executeLoop (EventMaterializer.read (EventOp.read rounds) pop) recorder reads ()
        (.merge .time (.new ids (iters.map (·.op)) forward)) [] = some calls ∧
      (putSamples calls).Perm (eventSamples ids xss)) ↔ AllFit xss ∧ EmptyLast xss := by
  have hlen' : ids.length = xss.length := hlen.trans hscans.length_eq
  have hhas := eventOps_has hscans
  have hops := forall₂_ranged (hhas.imp fun _ _ h => h.delivers)
  have hlen1 : ids.length = (iters.map (·.op)).length := by rw [length_map, hlen]
  have hshort := shortAfterEmpty_iff beginTs endTs xss
  rw [← firstReads_exact exact_eventOp hhas ()] at hshort
  have hsamples : (event.samples (labelled ids (xss.map (scanOrder beginTs endTs)))).Perm
      (eventSamples ids xss) := (labelled_scanOrder beginTs endTs ids xss).map _
  -- what the merge asks of the sizes
  have hpos : ∀ e ∈ (xss.map (scanOrder beginTs endTs)).flatten, 0 < event.sizeRequired e := by
    intro e he
    rw [(valid_scanOrder haccs he).sizeRequired, sampleSize]
    omega
  have hsizes : AllFit xss → ∀ _ : Nat, ∀ e ∈ (xss.map (scanOrder beginTs endTs)).flatten,
      event.sizeRequired e ≤ destSize := by
    intro hfit _ e he
    obtain ⟨xs, hxs, he⟩ := mem_scanOrder he
    exact ((haccs xs hxs).valid e he).fits_iff.mp (hfit xs hxs e he)
  constructor
  · rintro ⟨reads, calls, hrun, hperm⟩
    rw [executeLoop_map (EventMaterializer.merge .time) (fun _ _ _ => rfl)] at hrun
    have hfit : AllFit xss := by
      intro xs hxs e he
      obtain ⟨x, hx, rfl⟩ := exists_labelled hlen' hxs he
      have hread := executeLoop_keeps (I := fun _ => True)
        (fun _ _ _ _ h => ⟨trivial, kwayMerge_fits h⟩) (fun _ => true) reads trivial hrun
        (by intro s hs; cases hs) _ (hperm.mem_iff.mpr (mem_map_of_mem hx))
      obtain ⟨id', a, heq, -, hle⟩ := hread
      -- the sample determines the text
      simp only [event, Sample.mk.injEq, PData.event.injEq] at heq
      refine ((haccs xs hxs).valid _ he).fits_iff.mpr ?_
      simpa only [event, heq.2.2] using hle
    refine ⟨hfit, ?_⟩
    obtain ⟨lefts, chunks, b', hparts, hreads, hdrain⟩ := drain_new hpop hops hlen1 hpos
      (hsizes hfit) ()
    have hchunks : ∀ x ∈ chunks.flatten, x.2.Valid := by
      intro x hx
      have helem := hparts.elements_perm ids (hlen1.trans hhas.length_eq)
      exact valid_scanOrder haccs (helem.mem_iff.mp (hreads.elements_perm.mem_iff.mpr
        (mem_append_left _ (mem_map_of_mem hx))))
    have hexec := executeLoop_drain [] (hdrain _ (lt_add_one _)) (small_samples hchunks)
    have hcalls := executeLoop_unique hrun hexec
    rw [hcalls, nil_append, putSamples_map_put] at hperm
    exact hshort.mp (short_of_drained hpop hops hlen1 hpos (hsizes hfit) hids ()
      (fun _ _ => rfl) (hdrain _ (lt_add_one _)) (hperm.trans hsamples.symm))
  · rintro ⟨hfit, hempty⟩
    have hsorted : ∀ p ∈ ids.zip (xss.map (scanOrder beginTs endTs)),
        (p.2.map fun a => (p.1, a)).Pairwise
          fun x y => ¬ event.worse .time forward x y := by
      intro p hp
      obtain ⟨xs, hxs, hxs'⟩ := mem_map.mp (of_mem_zip hp).2
      have hinc := (haccs xs hxs).increasing
      refine sorted_by_time (fun _ => rfl) ?_
      rw [← hxs', hforward]
      unfold scanOrder inOrder
      by_cases hbe : beginTs < endTs
      · simp only [if_pos hbe, decide_eq_true hbe]
        exact hinc.imp le_of_lt
      · simp only [if_neg hbe, decide_eq_false hbe, pairwise_reverse]
        exact hinc.imp le_of_lt
    obtain ⟨taken, hperm, -, hdrain⟩ := drained_of_short hpop hops hlen1 hpos
      (hsizes hfit) () hsorted (hshort.mpr hempty)
    have hvalid : ∀ x ∈ taken, x.2.Valid := fun x hx =>
      valid_scanOrder haccs (mem_labelled (hperm.mem_iff.mp hx))
    have hexec := executeLoop_drain [] (hdrain _ (lt_add_one _)) (small_samples hvalid)
    refine ⟨_, _, (executeLoop_map (EventMaterializer.merge .time) (fun _ _ _ => rfl) ..).trans
      hexec, ?_⟩
    rw [nil_append, putSamples_map_put]
    exact (hperm.map _).trans hsamples

/-- If no event fits, the merge is read for ever. -/
theorem executeLoop_time_stuck {forward : Bool}
    (hpop : LawfulPop (time.worse forward) (pop (time.worse forward)))
    (hlong : ∀ xs ∈ xss, xs ≠ [] ∧ ∀ e ∈ xs, e.fits = false) (hne : iters ≠ []) (reads : Nat) :
    executeLoop (EventMaterializer.read (EventOp.read rounds) pop) recorder reads
      () (.merge .time (.new ids (iters.map (·.op)) forward)) [] = none := by
  have hhas := eventOps_has hscans
  have hlen1 : ids.length = (iters.map (·.op)).length := by rw [length_map, hlen]
  obtain ⟨iters', lefts, φ', hfill, hserves, hparts⟩ :=
    fillRanges_spec (forall₂_ranged (hhas.imp fun _ _ h => h.delivers)) ids () hlen1
  rw [firstReads_exact exact_eventOp hhas ()] at hfill
  -- a range holds events of one column
  have hitem : ∀ range ∈ filled ids ((xss.map (scanOrder beginTs endTs)).map (·.take rangeSize)),
      ∀ e ∈ range.items, ∃ xs ∈ xss, e ∈ xs := by
    intro range hrange e he
    obtain ⟨⟨id, out⟩, hmem, hout⟩ := mem_filterMap.mp hrange
    obtain ⟨xs, hxs, rfl⟩ := mem_map.mp (of_mem_zip hmem).2
    by_cases hnil : (xs.take rangeSize).isEmpty
    · simp [hnil] at hout
    · obtain rfl : .mk id (xs.take rangeSize) = range := by simpa [hnil] using hout
      exact mem_scanOrder (mem_flatten.mpr ⟨xs, hxs, mem_of_mem_take he⟩)
  have hpush : pushRanges event 0 (filled ids
      ((xss.map (scanOrder beginTs endTs)).map (·.take rangeSize))) ≠ [] := by
    cases hscans with
    | nil => exact absurd rfl hne
    | @cons o xs iters xss hscan _ =>
      obtain ⟨id, ids, rfl⟩ : ∃ id ids', ids = id :: ids' := exists_cons_of_length_eq_add_one hlen
      obtain ⟨e, rest, hrest⟩ : ∃ e rest, scanOrder beginTs endTs xs = e :: rest := by
        refine exists_cons_of_ne_nil fun hnil => (hlong xs mem_cons_self).1 ?_
        exact nil_perm.mp (hnil ▸ scanOrder_perm beginTs endTs xs)
      rw [map_cons, hrest]
      exact cons_ne_nil _ _
  have hstart : (Merge.new ids (iters.map (·.op)) forward).start (EventOp.read rounds) () = _ := hfill
  rw [executeLoop_map (EventMaterializer.merge .time) (fun _ _ _ => rfl)]
  refine executeLoop_merge_stuck hpop (by simpa [Merge.new] using hne) ?_ hstart hpush ?_ recorder
    reads []
  · intro hnil
    have hlen2 := hparts.lengths.2.trans hhas.length_eq.symm
    rw [hnil, forall₂_nil_left_iff] at hserves
    rw [hserves, length_map] at hlen2
    exact hne (length_eq_zero_iff.mp hlen2.symm)
  · intro item hit
    obtain ⟨i, range, hr, hhead⟩ := mem_pushRanges.mp hit
    obtain ⟨e, he, rfl⟩ := Option.map_eq_some_iff.mp hhead
    obtain ⟨xs, hxs, hmem⟩ := hitem range (mem_of_getElem? hr) e (mem_of_head? he)
    have hfit := (hlong xs hxs).2 e hmem
    exact not_le.mp fun hle =>
      Bool.false_ne_true (hfit.symm.trans (((haccs xs hxs).valid e hmem).fits_iff.mpr hle))

end Scans

/-! ## Plans of events -/

omit [DoubleArith V] in
/-- Without columns there is nothing to read, and the processor is told so. -/
theorem execute_nil (step : MaterializationStep) (hstep : step.kind = .binary) (pop : HeapPop Event)
    (reads : Nat) : executeEvents cstore ⟨.scanEvents beginTs endTs [] "", step⟩ pop rounds reads =
      some [.setError (.inl .noData)] := by
  simp only [executeEvents, execute, TwoStepQueryPlan.execute, hstep]
  rfl

variable {column : ColumnMaterializer (EventOp V)}

section
variable (happly : (scanEvents beginTs endTs ids "").apply cstore = .ok iters) (hne : iters ≠ [])
  (step : MaterializationStep) (hstep : step.kind = .binary)
  (hcolumn : step.materialize cstore.forward iters = .ok column)
include happly hne step hstep hcolumn
omit [DoubleArith V]

/-- The plan of an events query makes the materializer of its second stage. -/
theorem scanEvents_execute :
    TwoStepQueryPlan.execute ⟨.scanEvents beginTs endTs ids "", step⟩ cstore = .ok column := by
  have hempty : iters.isEmpty = false := by simpa using hne
  have hextract : (scanEvents (V := V) beginTs endTs ids "").extractResult .binary
      iters = .ok iters := by
    simp [extractResult, hempty]
  simp only [TwoStepQueryPlan.execute, hstep, happly]
  show (extractResult _ _ iters).bind _ = _
  rw [hextract]
  exact hcolumn

theorem execute_cons (pop : HeapPop Event) (rounds reads : Nat) :
    executeEvents cstore ⟨.scanEvents beginTs endTs ids "", step⟩ pop rounds reads =
      (EventMaterializer.make cstore.forward column).bind fun m =>
        executeLoop (EventMaterializer.read (EventOp.read rounds) pop) recorder reads () m [] := by
  rw [executeEvents, execute, scanEvents_execute happly hne step hstep hcolumn]

end

omit [DoubleArith V] in
theorem materialize_time (hlen : ids.length = iters.length) (forward : EventOp V → Bool) :
    (eventsStep .time ids).materialize forward iters =
      .ok (.merge .time .binary ids iters) := by
  simp only [eventsStep, MaterializationStep.materialize, makeMerge]
  rw [if_neg (by rw [hlen]; exact fun h => h rfl)]

/-- A request for all the events of some columns is planned, and executing the plan ends
with every event delivered once and with its text exactly if all events fit into the buffer of the
executor and, ordered by time, no column without events stands before one with
more than 1024. -/
theorem events_complete {req : ReshapeRequest V} (hreq : EventsRequest req ids)
    (hforward : cstore.forward = fun op => op.it.forward)
    (hcols : Forall₂ (EventColumn cstore req.select.beginTs req.select.endTs) ids xss)
    (hids : ids.Nodup) (hrange : ∀ xs ∈ xss, ∀ p ∈ eventPoints xs,
      inRange req.select.beginTs req.select.endTs p = true) {pop : HeapPop Event}
    (hpop : ∀ forward, LawfulPop (time.worse forward) (pop (time.worse forward)))
    (hrounds : ∀ xs ∈ xss, (eventPoints xs).length + 3 ≤ rounds) :
    ∃ plan, QueryPlanBuilder.create req = .ok plan ∧
      ((∃ reads calls, executeEvents cstore plan pop rounds reads = some calls ∧
          (putSamples calls).Perm (eventSamples ids xss)) ↔
        AllFit xss ∧ (req.orderBy = .time → EmptyLast xss)) := by
  refine ⟨_, hreq.create, ?_⟩
  obtain ⟨haccs, iters, happly, hscans⟩ := scanEvents_apply hcols hrange hrounds
  have hlen : ids.length = iters.length := hcols.length_eq.trans hscans.length_eq.symm
  cases iters with
  | nil =>
    -- no columns
    obtain rfl := length_eq_zero_iff.mp hlen
    obtain rfl : xss = [] := forall₂_nil_left_iff.mp hscans
    have hkind : (eventsStep req.orderBy []).kind = .binary := by cases req.orderBy <;> rfl
    refine ⟨fun _ => ⟨by simp [AllFit], fun _ => .nil⟩, fun _ => ⟨0, _, execute_nil _ hkind pop 0, ?_⟩⟩
    exact Perm.refl _
  | cons it iters =>
    have hne : it :: iters ≠ [] := cons_ne_nil _ _
    cases horder : req.orderBy with
    | series =>
      have hexec := execute_cons happly hne (eventsStep .series ids) rfl rfl pop rounds
      simp only [hexec, reduceCtorEq, false_implies, and_true]
      exact series_complete hscans haccs hlen pop
    | time =>
      have hdir : cstore.forward it.op = decide (req.select.beginTs < req.select.endTs) := by
        cases hscans with
        | cons hscan _ =>
          rw [hforward]
          exact hscan.forward
      have hexec := execute_cons happly hne (eventsStep .time ids) rfl (materialize_time hlen _)
        pop rounds
      simp only [hexec, forall_const]
      exact executeLoop_time hscans haccs hlen hids hdir (hpop _)

end Columns

/-! ## A column with one event -/

/-- A store with one column, whose scans of events are made with `op`. -/
def oneColumn (id : ParamId) (op : EventOp V) : ColumnStore V (EventOp V) where
  columns id' :=
    if id' = id then
      some ⟨fun _ _ => op, fun _ _ _ => op, fun _ _ => op, fun _ _ _ => op, fun _ _ => op,
        fun _ _ _ => op, fun _ _ _ _ => op⟩
    else none
  forward op := op.it.forward

/-- A tree that has accepted the events can be the column of a store. -/
theorem exists_column [DoubleArith V] {bs : BlockStore V} (hkeep : bs.removedBelow = 0)
    (id : ParamId) (hevents : acceptedEvents 0 events = events) {b e : Timestamp}
    (hrange : ∀ p ∈ eventPoints events, inRange b e p = true) :
    ∃ op : EventOp V, EventColumn (oneColumn id op) b e id events := by
  obtain ⟨t, last, hfeed, hholds, hrec⟩ := feedEvents_holds bs id events
  rw [hevents] at hfeed hholds hrec
  obtain ⟨op, t', hop, -⟩ := searchBinary_has hkeep hholds hrec.valid hrange le_rfl
  exact ⟨op, bs, events, t, hkeep, hfeed, _, t', if_pos rfl, hop⟩

/-- A request for the events of series 1 up to timestamp 9999. -/
def eventsOfOne (orderBy : OrderBy) : ReshapeRequest Rat where
  agg := ⟨false, [], 0⟩
  select := ⟨[[1]], [], .all, 0, 9999, true, ""⟩
  groupBy := ⟨false, fun _ => none⟩
  orderBy := orderBy

theorem eventsOfOne_request (orderBy : OrderBy) : EventsRequest (eventsOfOne orderBy) [1] :=
  ⟨rfl, rfl, rfl, rfl, rfl⟩

def zeroEvent (length : Nat) : Event := ⟨1000, replicate length 0⟩

theorem zeroEvent_valid {n : Nat} (hpos : 0 < n) (hle : n ≤ maxEventLen) : (zeroEvent n).Valid := by
  unfold Event.Valid zeroEvent
  rw [length_replicate]
  exact ⟨hpos, hle⟩

/-- The column with such an event, and the operator the first stage makes on it. -/
theorem zeroEvent_scan {n : Nat} (hpos : 0 < n) (hle : n ≤ maxEventLen) : ∃ op : EventOp Rat,
    EventColumn (oneColumn 1 op) 0 9999 1 [zeroEvent n] ∧
    EventScan 600 0 9999 op [zeroEvent n] ∧ (∀ xs ∈ [[zeroEvent n]], Accepted xs) ∧
    ∃ iters : List (Operator (EventOp Rat)), ([1] : List ParamId).length = iters.length ∧
      iters ≠ [] ∧ (scanEvents 0 9999 [1] "").apply (oneColumn 1 op) = .ok iters ∧
      Forall₂ (fun o xs => EventScan 600 0 9999 o.op xs) iters [[zeroEvent n]] := by
  have hvalid := zeroEvent_valid hpos hle
  have hrange : ∀ p ∈ eventPoints [zeroEvent n], inRange 0 9999 p = true := by
    refine inRange_eventPoints (by decide) ?_
    intro x hx
    obtain rfl := mem_singleton.mp hx
    refine ⟨hvalid, by show 0 ≤ basets 1000; decide, ?_⟩
    rw [UInt64.lt_iff_toNat_lt, hvalid.toNat_lastTs]
    simp only [zeroEvent, length_replicate]
    have hts : (basets 1000).toNat ≤ 1000 := by decide
    have hend : (9999 : Timestamp).toNat = 9999 := rfl
    rw [maxEventLen] at hle
    omega
  have hkeep : (memStore Rat).removedBelow = 0 := rfl
  have haccepted : acceptedEvents 0 [zeroEvent n] = [zeroEvent n] :=
    if_pos ⟨hvalid, by show 0 < basets 1000; decide⟩
  obtain ⟨op, hcol⟩ := exists_column hkeep 1 haccepted hrange
  have hrounds : (eventPoints [zeroEvent n]).length + 3 ≤ 600 := by
    rw [eventPoints, flatMap_cons, flatMap_nil, append_nil, Event.length_points,
      zeroEvent, length_replicate]
    rw [maxEventLen] at hle
    omega
  obtain ⟨-, column, hcolumn, hscan⟩ := hcol.scan hrange hrounds
  cases hcolumn
  obtain ⟨haccs, iters, happly, hscans⟩ := scanEvents_apply (.cons hcol .nil)
    (forall_mem_singleton.mpr hrange) (forall_mem_singleton.mpr hrounds)
  have hlen : ([1]).length = iters.length := hscans.length_eq.symm
  refine ⟨op, hcol, hscan, haccs, iters, hlen, ?_, happly, hscans⟩
  rintro rfl
  cases hlen

/-- An event `append` accepts and no buffer of the executor holds. -/
def longEvent : Event := ⟨1000, replicate 4065 0⟩

/-- The column with the long event: ordered by series, the query ends and the event is missing;
ordered by time, it does not end. -/
theorem events_complete_long : longEvent.Valid ∧ ∃ op : EventOp Rat,
    EventColumn (oneColumn 1 op) 0 9999 1 [longEvent] ∧
    (∃ plan, QueryPlanBuilder.create (eventsOfOne .series) = .ok plan ∧
      ∃ reads, executeEvents (oneColumn 1 op) plan (fun w => stablePop w) 600 reads = some []) ∧
    ∃ plan, QueryPlanBuilder.create (eventsOfOne .time) = .ok plan ∧
      ∀ reads, executeEvents (oneColumn 1 op) plan (fun w => stablePop w) 600 reads = none := by
  have hfits : longEvent.fits = false := by
    rw [Event.fits, longEvent, length_replicate]
    decide
  have hpos : 0 < 4065 := by decide
  have hle : 4065 ≤ maxEventLen := by decide
  obtain ⟨op, hcol, -, haccs, iters, hlen, hne, happly, hscans⟩ := zeroEvent_scan hpos hle
  refine ⟨zeroEvent_valid hpos hle, op, hcol, ⟨_, (eventsOfOne_request .series).create, 3, ?_⟩,
    ⟨_, (eventsOfOne_request .time).create, fun reads => ?_⟩⟩
  · refine (execute_cons happly hne (eventsStep .series [1]) rfl rfl _ 600 3).trans ?_
    refine (executeLoop_series hscans haccs hlen _ le_rfl).trans ?_
    have hnone : (labelled [1] ([[longEvent]].map (scanOrder 0 9999))).takeWhile (·.2.fits) = [] :=
      takeWhile_cons_of_neg (by rw [hfits]; exact Bool.false_ne_true)
    erw [hnone]
    rfl
  · refine (execute_cons happly hne (eventsStep .time [1]) rfl (materialize_time hlen _) _ 600
      reads).trans ?_
    refine executeLoop_time_stuck hscans haccs hlen (stablePop_merge .time _) ?_ hne reads
    exact forall_mem_singleton.mpr ⟨cons_ne_nil _ _, forall_mem_singleton.mpr hfits⟩

def shortEvents : List Event := [⟨1500, [1, 2, 3]⟩, ⟨2700, [4]⟩]

/-- Two short events of one column arrive, in either order. -/
theorem events_complete_short : ∃ op : EventOp Rat,
    EventColumn (oneColumn 1 op) 0 9999 1 shortEvents ∧ ∀ orderBy,
    ∃ plan, QueryPlanBuilder.create (eventsOfOne orderBy) = .ok plan ∧ ∃ reads calls,
      executeEvents (oneColumn 1 op) plan (fun w => stablePop w) 20 reads = some calls ∧
      (putSamples calls).Perm [⟨1500, 1, .event [1, 2, 3]⟩, ⟨2700, 1, .event [4]⟩] := by
  have hrange : ∀ p ∈ eventPoints shortEvents, inRange 0 9999 p = true := by decide +kernel
  have hkeep : (memStore Rat).removedBelow = 0 := rfl
  obtain ⟨op, hcol⟩ := exists_column hkeep 1 (by decide +kernel) hrange
  have hall : ∀ xs ∈ [shortEvents], ∀ p ∈ eventPoints xs, inRange 0 9999 p = true := by
    simpa using hrange
  have hrounds : ∀ xs ∈ [shortEvents], (eventPoints xs).length + 3 ≤ 20 := by decide +kernel
  refine ⟨op, hcol, ?_⟩
  intro orderBy
  obtain ⟨plan, hplan, hiff⟩ := events_complete (eventsOfOne_request orderBy) rfl (.cons hcol .nil)
    (by decide) hall (stablePop_merge .time) hrounds
  exact ⟨plan, hplan, hiff.mpr ⟨by unfold AllFit; decide, fun _ => pairwise_singleton _ _⟩⟩

end FastSTDB
