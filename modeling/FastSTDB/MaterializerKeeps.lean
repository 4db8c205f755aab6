import FastSTDB.Materializers

/-
  Materializers — what the samples are made of

  Every materializer keeps what is true of its operators and of the elements they
  deliver: a merge puts out elements of its operators, a chain of columns as many as
  fit, a join tuples with at most one value for each column. Each lemma here says so for
  one read from any state (`Keeps`), with an invariant of the state where there is one.

  1. `kwayMerge_keeps`: merges of points, events and tuples.
  2. `ColumnChain.read_spec`, `aggregateLoop_float`: columns one after the other.
  3. `Join.read_keeps`, `joinConcat_keeps`: joins.
  4. `EventMaterializer.read_keeps`: events.
  5. `mergeTuples_drain`: when a merge of tuples puts out all tuples in order.
-/
namespace FastSTDB
open List Option Pull Merging

variable {V Op α σ Φ : Type} {size : Nat} {φ : Φ} {out : List Sample} {status : Status}

/-! ## Merges -/

section Merge
variable {kind : MergeKind α} {rd : Reader Status α σ Φ} {I : σ → Prop} {Q : α → Prop}
  {pop : List (HeapItem α) → Option (HeapItem α × List (HeapItem α))}

/-- What a heap gives out was in it. -/
def FromHeap {β : Type} (pop : List β → Option (β × List β)) : Prop :=
  ∀ {items a rest}, pop items = some (a, rest) → a ∈ items ∧ ∀ b ∈ rest, b ∈ items

theorem FromHeap.keeps (h : FromHeap pop) {heap rest : List (HeapItem α)} {item : HeapItem α}
    (hpop : pop heap = some (item, rest)) (hheap : ∀ x ∈ heap, Q x.value) :
    Q item.value ∧ ∀ x ∈ rest, Q x.value :=
  ⟨hheap _ (h hpop).1, fun x hx => hheap x ((h hpop).2 x hx)⟩

structure Merge.Kept (I : σ → Prop) (Q : α → Prop) (st : Merge α σ) : Prop where
  iters : ∀ it ∈ st.iters, I it
  ranges : ∀ range ∈ st.ranges, ∀ a ∈ range.items, Q a

theorem heapItem_kept {index : Nat} {range : Range α} (h : ∀ a ∈ range.items, Q a) :
    ∀ item ∈ (heapItem kind index range).toList, Q item.value := by
  intro item hitem
  rw [mem_toList] at hitem
  obtain ⟨a, ha, rfl⟩ := map_eq_some_iff.mp hitem
  exact h a (mem_of_mem_head? ha)

theorem pushRanges_kept : ∀ {ranges : List (Range α)} (index : Nat),
    (∀ range ∈ ranges, ∀ a ∈ range.items, Q a) → ∀ item ∈ pushRanges kind index ranges, Q item.value
  | [], _, _, item, hitem => by cases hitem
  | range :: ranges, index, h, item, hitem => by
    rw [pushRanges, mem_append] at hitem
    rcases hitem with hitem | hitem
    · exact heapItem_kept (h range mem_cons_self) item hitem
    · exact pushRanges_kept (index + 1) (forall_mem_cons.mp h).2 item hitem

variable {st : Merge α σ} {r : Reply Sample (Merge α σ) Φ}

theorem Merge.Kept.set (h : st.Kept I Q) (i : Nat) {it : σ} (hit : I it) {range : Range α}
    (hrange : ∀ a ∈ range.items, Q a) :
    Merge.Kept I Q { st with iters := st.iters.set i it, ranges := st.ranges.set i range } := by
  constructor
  · exact forall_mem_set h.iters hit _
  · exact forall_mem_set h.ranges hrange _

/-- An element with the property, for which there is room. -/
def Fitting (kind : MergeKind α) (Q : α → Prop) (size : Nat) (s : Sample) : Prop :=
  ∃ id a, s = kind.sample id a ∧ Q a ∧ kind.sizeRequired a ≤ size

theorem mergeLoop_keeps (hrd : Keeps rd rangeSize I Q)
    (hpop : ∀ {heap item rest}, pop heap = some (item, rest) → (∀ x ∈ heap, Q x.value) →
      Q item.value ∧ ∀ x ∈ rest, Q x.value) (fuel : Nat) {heap : List (HeapItem α)} {room : Nat}
    (h : mergeLoop kind rd pop fuel φ st heap room out = some r) : st.Kept I Q → room ≤ size →
    (∀ item ∈ heap, Q item.value) → (∀ s ∈ out, Fitting kind Q size s) →
    r.next.Kept I Q ∧ ∀ s ∈ r.out, Fitting kind Q size s := by
  induction fuel generalizing φ st heap room out r with
  | zero => cases h
  | succ fuel ih =>
    intro hst hroom hheap hout
    rw [mergeLoop] at h
    cases hpopped : pop heap with
    | none =>
      rw [hpopped] at h
      cases h
      exact ⟨⟨forall_mem_nil _, forall_mem_nil _⟩, hout⟩
    | some popped =>
      obtain ⟨item, rest⟩ := popped
      obtain ⟨hitem, hrest⟩ := hpop hpopped hheap
      rw [hpopped] at h
      dsimp only at h
      by_cases hfit : kind.sizeRequired item.value ≤ room
      · rw [if_pos hfit] at h
        have hout' : ∀ s ∈ out ++ [kind.sample item.key.id item.value], Fitting kind Q size s := by
          exact forall_mem_append.mpr ⟨hout,
            fun s hs => ⟨_, _, mem_singleton.mp hs, hitem, hfit.trans hroom⟩⟩
        have hroom' : room - kind.sizeRequired item.value ≤ size := (Nat.sub_le _ _).trans hroom
        have hheap' : ∀ {range : Range α}, (∀ a ∈ range.items, Q a) →
            ∀ x ∈ rest ++ (heapItem kind item.index range).toList, Q x.value := by
          intro range hrange x hx
          rcases mem_append.mp hx with hx | hx
          · exact hrest x hx
          · exact heapItem_kept hrange x hx
        obtain ⟨range, hrange, h⟩ := bind_eq_some_iff.mp h
        have hitems : ∀ a ∈ range.items.tail, Q a := fun a ha =>
          hst.ranges range (mem_of_getElem? hrange) a (mem_of_mem_tail ha)
        by_cases hnil : range.items.tail = []
        · rw [if_pos hnil] at h
          obtain ⟨it, hit, h⟩ := bind_eq_some_iff.mp h
          obtain ⟨r', hr', h⟩ := bind_eq_some_iff.mp h
          obtain ⟨hnext, hQ⟩ := hrd _ _ _ (hst.iters it (mem_of_getElem? hit)) hr'
          split at h
          next =>
            cases h
            exact ⟨hst.set _ hnext (forall_mem_nil _), forall_mem_nil _⟩
          next => exact ih h (hst.set _ hnext hQ) hroom' (hheap' hQ) hout'
        · rw [if_neg hnil] at h
          refine ih h ⟨hst.iters, ?_⟩ hroom' (hheap' hitems) hout'
          exact forall_mem_set hst.ranges hitems _
      · rw [if_neg hfit] at h
        cases h
        exact ⟨hst, hout⟩

theorem fillRanges_keeps (hrd : Keeps rd rangeSize I Q) (iters : List σ) (ids : List ParamId)
    {φ' : Φ} {status : Option Status} {iters' : List σ} {ranges : List (Range α)}
    (h : fillRanges rd iters ids φ = some (status, iters', ranges, φ')) (hI : ∀ it ∈ iters, I it) :
    (∀ it ∈ iters', I it) ∧ ∀ range ∈ ranges, ∀ a ∈ range.items, Q a := by
  induction iters generalizing ids φ φ' status iters' ranges with
  | nil =>
    cases h
    exact ⟨forall_mem_nil _, forall_mem_nil _⟩
  | cons it iters ih =>
    cases ids with
    | nil =>
      cases h
      exact ⟨hI, forall_mem_nil _⟩
    | cons id ids =>
      obtain ⟨r, hr, h⟩ := bind_eq_some_iff.mp h
      obtain ⟨hnext, hQ⟩ := hrd _ _ _ (hI it mem_cons_self) hr
      have hrange : ∀ range ∈ (if r.status = .ok ∨ r.status = .noData ∧ r.out ≠ [] then
          [(⟨id, r.out⟩ : Range α)] else []), ∀ a ∈ range.items, Q a := by
        intro range hmem
        split at hmem
        next =>
          rw [mem_singleton.mp hmem]
          exact hQ
        next => cases hmem
      dsimp only at h
      split at h
      next =>
        cases h
        refine ⟨?_, hrange⟩
        exact forall_mem_cons.mpr ⟨hnext, (forall_mem_cons.mp hI).2⟩
      next =>
        obtain ⟨⟨status1, iters1, ranges1, φ1⟩, hfill, heq⟩ := map_eq_some_iff.mp h
        cases heq
        obtain ⟨hiters, hranges⟩ := ih ids hfill (forall_mem_cons.mp hI).2
        constructor
        · exact forall_mem_cons.mpr ⟨hnext, hiters⟩
        · exact forall_mem_append.mpr ⟨hrange, hranges⟩

/-- A merge puts out elements of its operators that fit into the buffer. -/
theorem kwayMerge_keeps (hrd : Keeps rd rangeSize I Q) (order : MergeOrder) {pop : HeapPop α}
    (hpop : ∀ {worse heap item rest}, pop worse heap = some (item, rest) →
      (∀ x ∈ heap, Q x.value) → Q item.value ∧ ∀ x ∈ rest, Q x.value) (size : Nat) :
    Keeps (fun φ st size => Merge.kwayMerge kind rd order pop φ st size) size (Merge.Kept I Q)
      (Fitting kind Q size) := by
  intro φ st r hst h
  dsimp only at h
  rw [Merge.kwayMerge] at h
  split at h
  next =>
    cases h
    exact ⟨hst, forall_mem_nil _⟩
  next =>
    obtain ⟨⟨status, iters, ranges, φ'⟩, hstart, h⟩ := bind_eq_some_iff.mp h
    have hkept : Merge.Kept I Q { st with iters := iters, ranges := ranges } := by
      rw [Merge.start] at hstart
      split at hstart
      next =>
        obtain ⟨hiters, hranges⟩ := fillRanges_keeps hrd _ _ hstart hst.iters
        exact ⟨hiters, hranges⟩
      next =>
        cases hstart
        exact hst
    cases status with
    | some status =>
      cases h
      exact ⟨hkept, forall_mem_nil _⟩
    | none =>
      exact mergeLoop_keeps hrd hpop _ h hkept le_rfl (pushRanges_kept 0 hkept.ranges)
        (forall_mem_nil _)

theorem kwayMerge_fits {order : MergeOrder} {pop : HeapPop α}
    (h : Merge.kwayMerge kind rd order pop φ st size = some r) :
    ∀ s ∈ r.out, Fitting kind (fun _ => True) size s :=
  (kwayMerge_keeps (fun _ _ _ _ _ => ⟨trivial, fun _ _ => trivial⟩) order
    (fun _ _ => ⟨trivial, fun _ _ => trivial⟩) size φ st r
    ⟨fun _ _ => trivial, fun _ _ _ _ => trivial⟩ h).2

theorem Merge.kept_new {ids : List ParamId} {iters : List σ} {forward : Bool}
    (h : ∀ it ∈ iters, I it) : Merge.Kept I Q (.new ids iters forward : Merge α σ) :=
  ⟨h, forall_mem_nil _⟩

end Merge

/-! ## Columns one after the other -/

section Columns
variable {rd : Reader Status α σ Φ} {st : ColumnChain σ}

theorem columnLoop_length (fuel : Nat) {out : List (ParamId × α)}
    {r : Reply (ParamId × α) (ColumnChain σ) Φ}
    (h : columnLoop rd fuel φ st status size out = some r) : r.out.length ≤ out.length + size := by
  induction fuel generalizing φ st status size out r with
  | zero => cases h
  | succ fuel ih =>
    rw [columnLoop] at h
    split at h
    next =>
      cases h
      exact le_self_add
    next it _ =>
      obtain ⟨curr, -, h⟩ := bind_eq_some_iff.mp h
      obtain ⟨r', hr', h⟩ := bind_eq_some_iff.mp h
      have hlen : (out ++ r'.out.map fun a => (curr, a)).length = out.length + r'.out.length := by
        rw [length_append, length_map]
      split at h
      next => cases h
      next hle =>
        dsimp only at h
        split at h
        next =>
          cases h
          show (out ++ r'.out.map fun a => (curr, a)).length ≤ _
          omega
        next =>
          split at h
          next =>
            cases h
            show (out ++ r'.out.map fun a => (curr, a)).length ≤ _
            omega
          next =>
            have hrest := ih h
            omega

/-- A chain puts out samples of its format, and as many as fit. -/
theorem ColumnChain.read_spec {fmt : SampleFormat α} {r : Reply Sample (ColumnChain σ) Φ}
    (h : ColumnChain.read fmt rd φ st size = some r) :
    (∀ s ∈ r.out, ∃ id a, s = fmt.sample id a) ∧ r.out.length ≤ size / fmt.size := by
  obtain ⟨r', hr', rfl⟩ := map_eq_some_iff.mp h
  constructor
  · intro s hs
    obtain ⟨x, -, rfl⟩ := mem_map.mp hs
    exact ⟨x.1, x.2, rfl⟩
  · have hlen := columnLoop_length _ hr'
    simpa using hlen

def PData.IsFloat (p : PData) : Prop := ∃ bits, p = .float bits

theorem aggregateLoop_float [DoubleArith V] {toBits : V → UInt64} {uninit : UInt64}
    {rd : Reader Status (Timestamp × AggregationResult V) σ Φ} (fuel : Nat)
    {st : AggregateColumns σ} {r : Reply Sample (AggregateColumns σ) Φ}
    (h : aggregateLoop toBits uninit rd fuel φ st status size out = some r) :
    (∀ s ∈ out, s.payload.IsFloat) → ∀ s ∈ r.out, s.payload.IsFloat := by
  induction fuel generalizing φ st status size out r with
  | zero => cases h
  | succ fuel ih =>
    intro hout
    rw [aggregateLoop] at h
    split at h
    next =>
      cases h
      exact hout
    next it _ =>
      obtain ⟨r', -, h⟩ := bind_eq_some_iff.mp h
      dsimp only at h
      split at h
      next => exact ih h hout
      next ts res _ =>
        obtain ⟨id, -, h⟩ := bind_eq_some_iff.mp h
        obtain ⟨fn, -, h⟩ := bind_eq_some_iff.mp h
        have hout' : ∀ s ∈ out ++ [aggregateSample toBits uninit id fn res], s.payload.IsFloat :=
          forall_mem_append.mpr ⟨hout, forall_mem_singleton.mpr ⟨_, rfl⟩⟩
        split at h
        next =>
          cases h
          exact hout'
        next =>
          split at h
          next =>
            cases h
            exact hout'
          next => exact ih h hout'
      next => cases h

end Columns

/-! ## Joins -/

section Join
variable {rd : Reader Status Point σ Φ} {k : Nat}

def PData.TupleOf (k : Nat) (p : PData) : Prop := ∃ bits data, p = .tuple bits data ∧ data.length ≤ k

theorem fillBuffer_origIds {φ' : Φ} {j j' : Join σ}
    (h : j.fillBuffer rd φ = some (status, j', φ')) : j'.origIds = j.origIds := by
  obtain ⟨r, -, heq⟩ := map_eq_some_iff.mp h
  cases heq
  rfl

/-- The state in which the inner loop ends, with the values of a tuple. -/
def TupleEnd.Of (ids : List ParamId) (k : Nat) : TupleEnd σ Φ → Prop
  | .tuple j _ _ values => j.origIds = ids ∧ values.length ≤ k
  | .noData j _ => j.origIds = ids
  | .failed _ j _ => j.origIds = ids

theorem joinTuple_length (ids : List ParamId) (i : Nat) {j : Join σ} {ctrl : UInt64}
    {values : List UInt64} {e : TupleEnd σ Φ} (h : joinTuple rd ids i φ j ctrl values = some e) :
    e.Of j.origIds (values.length + ids.length) := by
  induction ids generalizing i φ j ctrl values e with
  | nil =>
    cases h
    exact ⟨rfl, le_rfl⟩
  | cons id ids ih =>
    obtain ⟨⟨status, j1, φ1⟩, hfill, h⟩ := bind_eq_some_iff.mp h
    have horig : j1.origIds = j.origIds := by
      split at hfill
      next => exact fillBuffer_origIds hfill
      next =>
        cases hfill
        rfl
    have hmono : ∀ {e : TupleEnd σ Φ} {ids' : List ParamId} {n n' : Nat}, n ≤ n' →
        e.Of ids' n → e.Of ids' n' := by
      intro e ids' n n' hle he
      cases e with
      | tuple j φ ctrl values => exact ⟨he.1, he.2.trans hle⟩
      | noData j φ => exact he
      | failed status j φ => exact he
    dsimp only at h
    split at h
    next =>
      cases h
      exact horig
    next =>
      split at h
      next =>
        cases h
        exact horig
      next s buffer _ =>
        split at h
        next =>
          have hrest := ih (i + 1) h
          rw [horig] at hrest
          exact hmono (by rw [length_cons]; omega) hrest
        next =>
          split at h
          next =>
            cases h
            exact ⟨horig, le_self_add⟩
          next =>
            have hrest := ih (i + 1) h
            rw [show ({ j1 with curr := s.timestamp, buffer := buffer } : Join σ).origIds =
              j.origIds from horig] at hrest
            exact hmono (by simp only [length_append, length_cons, length_nil]; omega) hrest

theorem joinLoop_keeps (fuel : Nat) {j : Join σ} {pos : Nat} {r : Reply Sample (Join σ) Φ}
    (h : joinLoop rd fuel φ j size pos out = some r) :
    j.origIds.length ≤ k → (∀ s ∈ out, s.payload.TupleOf k) →
    r.next.origIds.length ≤ k ∧ ∀ s ∈ r.out, s.payload.TupleOf k := by
  induction fuel generalizing φ j size pos out r with
  | zero => cases h
  | succ fuel ih =>
    intro hj hout
    rw [joinLoop] at h
    split at h
    next =>
      obtain ⟨e, he, h⟩ := bind_eq_some_iff.mp h
      have hend := joinTuple_length _ _ he
      rw [length_nil, zero_add] at hend
      cases e with
      | failed status j' φ' =>
        cases h
        have horig : j'.origIds = j.origIds := hend
        exact ⟨by rw [horig]; exact hj, forall_mem_nil _⟩
      | noData j' φ' =>
        cases h
        have horig : j'.origIds = j.origIds := hend
        exact ⟨by rw [horig]; exact hj, hout⟩
      | tuple j' φ' ctrl values =>
        obtain ⟨horig, hlen⟩ := hend
        refine ih h (by rw [horig]; exact hj) ?_
        exact forall_mem_append.mpr ⟨hout, forall_mem_singleton.mpr ⟨_, _, rfl, hlen.trans hj⟩⟩
    next =>
      cases h
      exact ⟨hj, hout⟩

/-- A join of at most `k` columns puts out tuples of at most `k` values. -/
theorem Join.read_keeps (n : Nat) : Keeps (fun φ (j : Join σ) n => Join.read rd φ j n) n
    (fun j => j.origIds.length ≤ k) (fun s => s.payload.TupleOf k) := by
  intro φ j r hj h
  dsimp only at h
  rw [Join.read] at h
  split at h
  next => cases h
  next => exact joinLoop_keeps _ h hj (forall_mem_nil _)

theorem joinConcat_keeps (fuel : Nat) {st : JoinConcat σ}
    {r : Reply Sample (JoinConcat σ) Φ} (h : joinConcatLoop rd fuel φ st size = some r) :
    (∀ j ∈ st.iters, j.origIds.length ≤ k) →
    (∀ j ∈ r.next.iters, j.origIds.length ≤ k) ∧ ∀ s ∈ r.out, s.payload.TupleOf k := by
  induction fuel generalizing φ st size r with
  | zero => cases h
  | succ fuel ih =>
    intro hst
    rw [joinConcatLoop] at h
    split at h
    next =>
      cases h
      exact ⟨hst, forall_mem_nil _⟩
    next it hit =>
      obtain ⟨r', hr', h⟩ := bind_eq_some_iff.mp h
      obtain ⟨hnext, hout⟩ := Join.read_keeps _ _ _ _ (hst it (mem_of_getElem? hit)) hr'
      have hset := forall_mem_set hst hnext st.ix
      dsimp only at h
      split at h
      next =>
        split at h
        next =>
          cases h
          exact ⟨hset, hout⟩
        next => exact ih h hset
      next =>
        cases h
        exact ⟨hset, hout⟩

end Join

/-! ## Events -/

section Events
variable {rd : Reader Status Event Op Φ} {I : Op → Prop} {Q : Event → Prop}

/-- The operators of a chain of event columns, and the event it holds back. -/
structure EventChain.Kept (I : Op → Prop) (Q : Event → Prop) (st : EventChain Op) : Prop where
  iters : ∀ it ∈ st.iters, I it
  available : ∀ x, st.available = some x → Q x.2

/-- The payload is the text of an event with a property. -/
def PData.EventOf (Q : Event → Prop) (p : PData) : Prop := ∃ e, Q e ∧ p = .event e.body

theorem chainEvents_keeps (hrd : Keeps rd 1 I Q) (fuel : Nat) {st : EventChain Op} {room : Nat}
    {r : Reply Sample (EventChain Op) Φ} (h : chainEvents rd fuel φ st status room out = some r) :
    st.Kept I Q →
    (∀ s ∈ out, s.payload.EventOf Q) → r.next.Kept I Q ∧ ∀ s ∈ r.out, s.payload.EventOf Q := by
  induction fuel generalizing φ st status room out r with
  | zero => cases h
  | succ fuel ih =>
    intro hst hout
    rw [chainEvents] at h
    split at h
    next =>
      cases h
      exact ⟨hst, hout⟩
    next it hit =>
      split at h
      next id e hav =>
        split at h
        next =>
          cases h
          exact ⟨hst, hout⟩
        next =>
          refine ih h ⟨hst.iters, by intro x hx; cases hx⟩ ?_
          exact forall_mem_append.mpr ⟨hout, forall_mem_singleton.mpr ⟨e, hst.available _ hav, rfl⟩⟩
      next hav =>
        obtain ⟨id, -, h⟩ := bind_eq_some_iff.mp h
        obtain ⟨r', hr', h⟩ := bind_eq_some_iff.mp h
        obtain ⟨hnext, hQ⟩ := hrd _ _ _ (hst.iters it (mem_of_getElem? hit)) hr'
        have hset := forall_mem_set hst.iters hnext st.pos
        split at h
        next => exact ih h ⟨hset, hst.available⟩ hout
        next e rest heq =>
          split at h
          next =>
            cases h
            exact ⟨⟨hset, hst.available⟩, hout⟩
          next =>
            refine ih h ⟨hset, ?_⟩ hout
            intro x hx
            cases hx
            exact hQ e (by rw [heq]; exact mem_cons_self)

/-- The operators and the events of an event materializer. -/
def EventMaterializer.Kept (I : Op → Prop) (Q : Event → Prop) : EventMaterializer Op → Prop
  | .chain st => st.Kept I Q
  | .merge _ st => st.Kept I Q

/-- Event materializers put out events of their operators. -/
theorem EventMaterializer.read_keeps (hrd : ∀ n, Keeps rd n I Q) {pop : HeapPop Event}
    (hpop : ∀ worse, FromHeap (pop worse)) (size : Nat) :
    Keeps (EventMaterializer.read rd pop) size (EventMaterializer.Kept I Q)
      (fun s => s.payload.EventOf Q) := by
  intro φ m r hm h
  cases m with
  | chain st =>
    obtain ⟨r', hr', rfl⟩ := map_eq_some_iff.mp h
    exact chainEvents_keeps (hrd 1) _ hr' hm (forall_mem_nil _)
  | merge order st =>
    obtain ⟨r', hr', rfl⟩ := map_eq_some_iff.mp h
    obtain ⟨hnext, hout⟩ := kwayMerge_keeps (hrd rangeSize) order (FromHeap.keeps (hpop _)) size φ st r' hm hr'
    refine ⟨hnext, ?_⟩
    intro s hs
    obtain ⟨id, e, rfl, hQ, -⟩ := hout s hs
    exact ⟨e, hQ, rfl⟩

end Events

/-! ## Draining a merge of tuples -/

/-- How a merge of tuples reads an input into a range. -/
def readTuples (rd : Reader Status Sample σ Φ) : Reader Status Sample σ Φ :=
  fun φ it n => rd φ it (n * sampleSize)

/-- What the operators have left after their first reads. -/
def leftOver (xss outs : List (List α)) : List (List α) :=
  zipWith (fun xs out => xs.drop out.length) xss outs

/-- What comes out of each range: the first read of an operator with elements, followed by what
the operator at the index of the range has left. -/
def refilled (xss outs : List (List α)) : List (List α) :=
  zipWith (· ++ ·) (outs.filter (! ·.isEmpty)) (leftOver xss outs)

theorem Parts.lefts_eq {xss outs lefts : List (List α)} (h : Parts xss outs lefts) :
    lefts = leftOver xss outs := by
  induction h with
  | nil => rfl
  | cons _ _ ih => simp [leftOver, ih]

theorem filled_items {ids : List ParamId} {outs : List (List α)} (hlen : ids.length = outs.length) :
    (filled ids outs).map (·.items) = outs.filter (! ·.isEmpty) := by
  induction ids generalizing outs with
  | nil => simp [filled, length_eq_zero_iff.mp hlen.symm]
  | cons id ids ih =>
    obtain ⟨out, outs, rfl⟩ := exists_cons_of_length_eq_add_one hlen.symm
    have := ih (Nat.succ.inj hlen)
    cases out with
    | nil => simpa [filled_cons_nil] using this
    | cons a out => simp [filled_cons, this]

theorem Buffers.streams_items (b : Buffers α) :
    b.streams.map (·.map Prod.snd) = zipWith (· ++ ·) (b.ranges.map (·.items)) b.pends := by
  rw [streams, zipWith_map_left]
  simp [Function.comp_def]

theorem flatten_zipWith_append (xss yss : List (List α)) (h : xss.length ≤ yss.length) :
    (xss.flatten ++ yss.flatten).Perm
      ((zipWith (· ++ ·) xss yss).flatten ++ (yss.drop xss.length).flatten) := by
  induction xss generalizing yss with
  | nil => exact .refl _
  | cons xs xss ih =>
    obtain ⟨ys, yss, rfl⟩ := exists_cons_of_length_pos (Nat.zero_lt_of_lt h)
    have hperm := (ih yss (by simpa using h)).append_left (xs ++ ys)
    simp only [flatten_cons, zipWith_cons_cons, append_assoc] at hperm ⊢
    exact ((perm_append_comm_assoc _ _ _).append_left xs).trans hperm

/-- Every tuple of every input comes out once, in the order of `(timestamp, id)`, exactly if no
input behind the last range has tuples left, and what comes out of each range is in order. -/
theorem mergeTuples_drain {rd : Reader Status Sample σ Φ} {pop : HeapPop Sample} {forward : Bool}
    (hpop : LawfulPop (MergeOrder.time.worse forward) (pop (MergeOrder.time.worse forward)))
    {iters : List σ} {xss : List (List Sample)}
    (hiters : Forall₂ (Delivers (readTuples rd) (ranged Sample)) iters xss)
    (hpos : ∀ s ∈ xss.flatten, 0 < s.payload.size) (φ : Φ) (sizes : Nat → Nat)
    (hsizes : ∀ i, ∀ s ∈ xss.flatten, s.payload.size ≤ sizes i) :
    let outs := firstReads (readTuples rd) iters φ
    (∃ fuel out, drain (mergeTuples rd pop) .ok fuel φ (.tuples iters forward) sizes =
        some (out, .noData) ∧
      out.Perm xss.flatten ∧ out.Pairwise fun s t => inOrder forward s.key t.key) ↔
    (∀ left ∈ (leftOver xss outs).drop (outs.filter (! ·.isEmpty)).length, left = []) ∧
      ∀ xs ∈ refilled xss outs, xs.Pairwise fun s t => inOrder forward s.key t.key := by
  intro outs
  have hids : (iters.map fun _ => (0 : ParamId)).length = iters.length := length_map _
  change ∀ s ∈ xss.flatten, 0 < MergeKind.tuples.sizeRequired s at hpos
  obtain ⟨lefts, chunks, b', hparts, hreads, hdrain⟩ := drain_new hpop hiters hids hpos hsizes φ
  obtain ⟨rest, hrest, htakes⟩ := hreads.takes hpop (hparts.sound _)
  obtain rfl := hparts.lefts_eq
  have hlen : outs.length = xss.length ∧ (leftOver xss outs).length = xss.length := hparts.lengths
  have hitems := filled_items (hids.trans (hiters.length_eq.trans hlen.1.symm))
  have hstreams := (Buffers.mk (filled (iters.map fun _ => 0) outs) (leftOver xss outs)).streams_items
  rw [hitems] at hstreams
  have hperm : xss.flatten.Perm (MergeKind.tuples.samples chunks.flatten ++
      ((leftOver xss outs).drop (outs.filter (! ·.isEmpty)).length).flatten) := by
    have hle : (outs.filter (! ·.isEmpty)).length ≤ (leftOver xss outs).length :=
      (length_filter_le _ _).trans_eq (hlen.1.trans hlen.2.symm)
    have hall := hparts.elements_perm _ (hids.trans hiters.length_eq)
    rw [Buffers.elements, hitems] at hall
    refine hall.symm.trans ((flatten_zipWith_append _ _ hle).trans (.append_right _ ?_))
    have htaken := htakes.perm.map Prod.snd
    rwa [hrest, append_nil, map_flatten, hstreams] at htaken
  have hsorted : (MergeKind.tuples.samples chunks.flatten).Pairwise
        (fun s t => inOrder forward s.key t.key) ↔
      ∀ xs ∈ refilled xss outs, xs.Pairwise fun s t => inOrder forward s.key t.key := by
    rw [refilled, ← hstreams, List.forall_mem_map]
    constructor
    · intro h s hs
      exact h.sublist ((htakes.sublist hrest s hs).map Prod.snd)
    · intro h
      rw [samples_sorted fun _ _ => rfl]
      refine htakes.sorted ?_ fun s hs => (samples_sorted fun _ _ => rfl).mp (h s hs)
      intro x y z hxy hyz
      simp only [MergeKind.worse, Bool.not_eq_true] at hxy hyz ⊢
      exact MergeOrder.time.comp_trans forward hxy hyz
  rw [← hsorted, ← flatten_eq_nil_iff]
  constructor
  · rintro ⟨fuel, out, hout, hall, hordered⟩
    obtain rfl : out = MergeKind.tuples.samples chunks.flatten :=
      congrArg Prod.fst (drain_unique hout (hdrain _ (lt_add_one _)))
    have hlength := (hall.trans hperm).length_eq
    rw [length_append] at hlength
    exact ⟨length_eq_zero_iff.mp (by omega), hordered⟩
  · rintro ⟨hnil, hordered⟩
    rw [hnil, append_nil] at hperm
    exact ⟨_, _, hdrain _ (lt_add_one _), hperm.symm, hordered⟩

def longTuples (n : Nat) : List Sample :=
  (List.range n).map fun i => ⟨.ofNat i, 2, .tuple 0 (replicate 58 0)⟩

def readSized (bytes : Nat) : Reader Status Sample (List Sample) Unit :=
  fun φ it n => listRead φ it (n / bytes)

theorem readSized_delivers {bytes : Nat} (hlow : sampleSize ≤ bytes)
    (hhigh : bytes ≤ rangeSize * sampleSize) (xs : List Sample) :
    Delivers (readTuples (readSized bytes)) (ranged Sample) xs xs := by
  refine .coinduct (Delivers listRead (.same Sample)) ?_ listRead_delivers
  intro s xs h φ n hn
  have hpos : 0 < n * sampleSize / bytes :=
    Nat.div_pos (hhigh.trans (Nat.mul_le_mul_right _ (Nat.le_of_pred_lt hn)))
      (Nat.lt_of_lt_of_le (by decide) hlow)
  have hle : n * sampleSize / bytes ≤ n :=
    Nat.div_le_of_le_mul ((Nat.mul_comm _ _).trans_le (Nat.mul_le_mul_right n hlow))
  obtain ⟨r, xs1, xs2, hr, hx, he, hout, hnext, hstatus⟩ := h.step φ _ hpos
  refine ⟨r, xs1, xs2, hr, hx, he, hout.trans hle, hnext, hstatus.imp id ?_⟩
  exact fun h => ⟨h.1, h.2.1, h.2.2.trans_le hle⟩

/-- An input that needs two reads, one without tuples, and one with tuples at the same times. -/
theorem mergeTuples_three :
    let xss := [longTuples 67, [], [⟨5, 1, .tuple 0 [7]⟩, ⟨66, 9, .tuple 0 [8]⟩]]
    ∃ fuel out, drain (mergeTuples (readSized 496) stablePop) .ok fuel ()
        (.tuples xss true) (fun _ => 40000) = some (out, .noData) ∧
      out.Perm xss.flatten ∧ out.Pairwise fun s t => inOrder true s.key t.key := by
  refine (mergeTuples_drain (stablePop_merge .time true)
    (forall₂_same.mpr fun xs _ => readSized_delivers (by decide) (by decide) xs) (by decide +kernel)
    () (fun _ => 40000) (fun _ => by decide +kernel)).mpr ⟨by decide +kernel, ?_⟩
  unfold inOrder
  decide +kernel

/-- An input of 67 tuples of 58 values behind one without tuples: the last tuple is missing. -/
theorem mergeTuples_behind_empty : (drain (mergeTuples (readSized 496) stablePop) .ok 3 ()
      (.tuples [[], longTuples 67] true) fun _ => 40000).map (fun p => (p.1.length, p.2)) =
      some (66, .noData) := by decide +kernel

end FastSTDB
