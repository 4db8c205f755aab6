import FastSTDB.EventColumn
import FastSTDB.Execute
import FastSTDB.MergeDrain

/-
  Event queries — the materializers and the executor (`scan.cc`, `merge.h`)

  An event takes 32 bytes more than its text, and the executor's buffer has 4096. An
  event with more than 4064 bytes of text never fits: the chain of columns keeps it
  and says `NoData` when it is asked again, the merge says `Ok` for ever.

  Correspondence (C++ ↔ Lean):
    `EventChainMaterializer`, its fields  ↔ `EventChain Op`
    `curr_id_`, `curr_ts_`, `curr_` while `available_` ↔ `available`
    `EventChainMaterializer::read`        ↔ `EventChain.read`
    the materializers of event plans      ↔ `EventMaterializer Op`

  1. `executeLoop_chain`: through a chain, the events before the first one that does
     not fit are delivered.
  2. `executeLoop_merge_stuck`: a merge whose first events do not fit is read for ever.
-/
namespace FastSTDB
open List Option Pull Merging QueryPlanExecutor MergeKind

variable {V Op μ π Φ : Type}
variable {room size : Nat} {iters : List Op} {evs : List (ParamId × Event)} {order : MergeOrder}

/-! ## Chaining event columns -/

structure EventChain (Op : Type) where
  iters : List Op
  ids : List ParamId
  pos : Nat
  available : Option (ParamId × Event)

def EventChain.new (ids : List ParamId) (iters : List Op) : EventChain Op := ⟨iters, ids, 0, none⟩

def spaceNeeded (e : Event) : Nat := (sampleSize + e.body.length) % 2 ^ 32

/-- The loop of `read`. A round that fetches an event leaves it to the next one to write it. -/
def chainEvents (rd : Reader Status Event Op Φ) : Nat → Φ → EventChain Op → Status → Nat →
    List Sample → Option (Reply Sample (EventChain Op) Φ)
  | 0, _, _, _, _, _ => none
  | fuel + 1, φ, st, status, room, out =>
    match st.iters[st.pos]? with
    | none => some ⟨status, out, st, φ⟩
    | some it =>
      match st.available with
      | some (id, e) =>
        if room < spaceNeeded e then some ⟨status, out, st, φ⟩
        else
          chainEvents rd fuel φ { st with available := none } status (room - spaceNeeded e)
            (out ++ [event.sample id e])
      | none =>
        (st.ids[st.pos]?).bind fun id =>
          (rd φ it 1).bind fun r =>
            let st := { st with iters := st.iters.set st.pos r.next }
            match r.out with
            | [] => chainEvents rd fuel r.env { st with pos := st.pos + 1 } r.status room out
            | e :: _ =>
              if r.status ≠ .noData ∧ r.status ≠ .ok then some ⟨r.status, out, st, r.env⟩
              else
                chainEvents rd fuel r.env { st with available := some (id, e) } r.status room out

/-- `EventChainMaterializer::read`. Each event takes two rounds and some bytes of the buffer. -/
def EventChain.read (rd : Reader Status Event Op Φ) : Reader Status Sample (EventChain Op) Φ :=
  fun φ st size => chainEvents rd (2 * size + st.iters.length + 3) φ st .noData size []

/-! ## The materializers of event queries -/

/-- `EventChainMaterializer` or `MergeEventMaterializer`. -/
inductive EventMaterializer (Op : Type) where
  | chain (st : EventChain Op)
  | merge (order : MergeOrder) (st : Merge Event Op)

namespace EventMaterializer

/-- The predicate of `MergeMaterializerTraits`. -/
def mergeOrder : OrderBy → MergeOrder
  | .series => .series
  | .time => .time

/-- The constructors, for the materializers that take `BinaryDataOperator`. -/
def make (forward : Op → Bool) : ColumnMaterializer Op → Option (EventMaterializer Op)
  | .merge order .binary ids iters =>
    some (.merge (mergeOrder order) (.new ids (iters.map (·.op))
      ((iters.head?.map fun o => forward o.op).getD true)))
  | .chain .binary ids iters => some (.chain (.new ids (iters.map (·.op))))
  | _ => none

def read (rd : Reader Status Event Op Φ) (pop : HeapPop Event) :
    Reader Status Sample (EventMaterializer Op) Φ := fun φ m size =>
  match m with
  | .chain st => (EventChain.read rd φ st size).map fun r => ⟨r.status, r.out, .chain r.next, r.env⟩
  | .merge order st =>
    (Merge.kwayMerge .event rd order pop φ st size).map
      fun r => ⟨r.status, r.out, .merge order r.next, r.env⟩

end EventMaterializer

/-! ## What a chain puts out -/

/-- The operators `R` describes are read as lists are: a read of `n` events delivers the first
`n`, and says `NoData` if there are fewer. -/
def Exact (rd : Reader Status Event Op Φ) (R : Op → List Event → Prop) : Prop :=
  ∀ it xs, R it xs → ∀ φ n, ∃ it' φ',
    rd φ it n = some ⟨if xs.length < n then .noData else .ok, xs.take n, it', φ'⟩ ∧
      R it' (xs.drop n)

/-- The events that go into a buffer with some room left, and those behind them. -/
def takeFit : Nat → List (ParamId × Event) → List (ParamId × Event) × List (ParamId × Event)
  | _, [] => ([], [])
  | room, x :: xs =>
    if spaceNeeded x.2 ≤ room then
      (x :: (takeFit (room - spaceNeeded x.2) xs).1, (takeFit (room - spaceNeeded x.2) xs).2)
    else ([], x :: xs)

theorem takeFit_append (room : Nat) (xs : List (ParamId × Event)) :
    (takeFit room xs).1 ++ (takeFit room xs).2 = xs := by
  induction xs generalizing room with
  | nil => rfl
  | cons x xs ih =>
    rw [takeFit]
    split
    · rw [cons_append, ih]
    · rfl

theorem takeFit_fits {xs : List (ParamId × Event)} :
    ∀ x ∈ (takeFit room xs).1, spaceNeeded x.2 ≤ room := by
  induction xs generalizing room with
  | nil =>
    intro x hx
    cases hx
  | cons y xs ih =>
    intro x hx
    rw [takeFit] at hx
    split at hx
    next hfit =>
      rcases mem_cons.mp hx with rfl | hx
      · exact hfit
      · exact (ih x hx).trans (Nat.sub_le _ _)
    next => cases hx

variable {x : ParamId × Event}

theorem takeFit_eq_nil {xs rest : List (ParamId × Event)} (hnone : (takeFit room xs).1 = [])
    (hrest : (takeFit room xs).2 = x :: rest) : room < spaceNeeded x.2 := by
  cases xs with
  | nil => cases hrest
  | cons y xs =>
    rw [takeFit] at hnone hrest
    split at hnone
    next => cases hnone
    next hfit =>
      rw [if_neg hfit] at hrest
      obtain ⟨rfl, -⟩ := cons.inj hrest
      omega

namespace EventChain
variable {rd : Reader Status Event Op Φ} {R : Op → List Event → Prop}

/-- The chain has `evs` left, the event that is kept first. -/
structure Has (R : Op → List Event → Prop) (st : EventChain Op) (evs : List (ParamId × Event)) :
    Prop where
  parts : ∃ xss, Forall₂ R (st.iters.drop st.pos) xss ∧
    (st.ids.drop st.pos).length = xss.length ∧
    evs = st.available.toList ++ labelled (st.ids.drop st.pos) xss
  inside : st.available ≠ none → st.pos < st.iters.length

theorem has_new {ids : List ParamId} {xss : List (List Event)} (h : Forall₂ R iters xss)
    (hlen : ids.length = iters.length) : (EventChain.new ids iters).Has R (labelled ids xss) :=
  ⟨⟨xss, h, hlen.trans h.length_eq, rfl⟩, absurd rfl⟩

variable {st : EventChain Op}

/-- A chain without an event at hand: it is at its end, or it asks the operator it is at. -/
theorem Has.fetch (hexact : Exact rd R) (h : st.Has R evs) (hnone : st.available = none)
    (φ : Φ) : (st.iters[st.pos]? = none ∧ evs = []) ∨
    ∃ it id it' φ', st.iters[st.pos]? = some it ∧ st.ids[st.pos]? = some id ∧
      ((rd φ it 1 = some ⟨.noData, [], it', φ'⟩ ∧
          ({ st with iters := st.iters.set st.pos it', pos := st.pos + 1 } : EventChain Op).Has R
            evs) ∨ ∃ e, rd φ it 1 = some ⟨.ok, [e], it', φ'⟩ ∧
          ({ st with iters := st.iters.set st.pos it', available := some (id, e) } :
            EventChain Op).Has R evs) := by
  obtain ⟨⟨xss, hall, hlen, hevs⟩, -⟩ := h
  rw [hnone] at hevs
  by_cases hpos : st.pos < st.iters.length
  · have hlens := hall.length_eq
    rw [← hlen, length_drop, length_drop] at hlens
    have hids : st.pos < st.ids.length := by omega
    rw [drop_eq_getElem_cons hpos] at hall
    rw [drop_eq_getElem_cons hids] at hlen hevs
    cases hall with
    | @cons _ xs _ xss hit hrest =>
      have hlen' : (st.ids.drop (st.pos + 1)).length = xss.length := Nat.succ.inj hlen
      obtain ⟨it', φ', hr, hnext⟩ := hexact _ _ hit φ 1
      refine .inr ⟨_, _, it', φ', getElem?_eq_getElem hpos, getElem?_eq_getElem hids, ?_⟩
      -- the operator's rest and what follows it
      have hset : Forall₂ R ((st.iters.set st.pos it').drop st.pos) (xs.drop 1 :: xss) := by
        rw [drop_set_self hpos]
        exact .cons hnext hrest
      cases xs with
      | nil =>
        refine .inl ⟨hr, ⟨xss, ?_, hlen', ?_⟩, absurd hnone⟩
        · rw [drop_set, if_pos (lt_add_one _)]
          exact hrest
        · rw [hevs, hnone]
          rfl
      | cons e xs =>
        have hdrop : st.ids.drop st.pos = st.ids[st.pos] :: st.ids.drop (st.pos + 1) :=
          drop_eq_getElem_cons hids
        have hlen'' : (st.ids.drop st.pos).length = (xs :: xss).length := by
          rw [hdrop, length_cons, hlen', length_cons]
        refine .inr ⟨e, hr, ⟨xs :: xss, hset, hlen'', ?_⟩, fun _ => ?_⟩
        · rw [hevs]
          rw [hdrop]
          rfl
        · rw [length_set]
          exact hpos
  · have hnil : st.iters.drop st.pos = [] := drop_eq_nil_of_le (not_lt.mp hpos)
    rw [hnil] at hall
    cases hall
    refine .inl ⟨getElem?_eq_none (not_lt.mp hpos), ?_⟩
    rw [hevs, labelled, zip_nil_right]
    rfl

/-- How a read of a chain ends: everything is out, or an event that does not fit is kept. -/
structure Ends (R : Op → List Event → Prop) (evs : List (ParamId × Event)) (room : Nat)
    (out : List Sample) (r : Reply Sample (EventChain Op) Φ) (status full : Status) : Prop where
  out_eq : r.out = out ++ event.samples (takeFit room evs).1
  has : r.next.Has R (takeFit room evs).2
  cases : ((takeFit room evs).2 = [] ∧ r.status = status) ∨
    ∃ x rest, (takeFit room evs).2 = x :: rest ∧ r.next.available = some x ∧ r.status = full

variable {out : List Sample} {r : Reply Sample (EventChain Op) Φ} {status full : Status}

theorem Ends.cons (hfit : spaceNeeded x.2 ≤ room)
    (h : Ends R evs (room - spaceNeeded x.2) (out ++ [event.sample x.1 x.2]) r status full) :
    Ends R (x :: evs) room out r status full := by
  have htake : takeFit room (x :: evs) = (x :: (takeFit (room - spaceNeeded x.2) evs).1,
      (takeFit (room - spaceNeeded x.2) evs).2) := by rw [takeFit, if_pos hfit]
  refine ⟨?_, ?_, ?_⟩
  · rw [h.out_eq, htake, append_assoc]
    rfl
  · rw [htake]
    exact h.has
  · rw [htake]
    exact h.cases

theorem Has.written (h : st.Has R evs) (hav : st.available = some x) :
    ∃ rest, evs = x :: rest ∧ ({ st with available := none } : EventChain Op).Has R rest := by
  obtain ⟨⟨xss, hall, hlen, hevs⟩, -⟩ := h
  rw [hav] at hevs
  exact ⟨_, hevs, ⟨xss, hall, hlen, rfl⟩, absurd rfl⟩

/-- The loop of a read. The status tells an event that was kept before from one that was read
just now. -/
theorem chainEvents_spec (hexact : Exact rd R) (fuel : Nat) (φ : Φ) (status : Status) (room : Nat)
    (out : List Sample) (h : st.Has R evs) (hpos : ∀ x ∈ evs, 0 < spaceNeeded x.2)
    (hfuel : 2 * room + (st.iters.length - st.pos) + (if st.available = none then 2 else 1) ≤ fuel) :
    ∃ r, chainEvents rd fuel φ st status room out = some r ∧
      Ends R evs room out r (if st.pos < st.iters.length then .noData else status)
        (if st.available ≠ none ∧ (takeFit room evs).1 = [] then status else .ok) := by
  induction fuel generalizing φ st status room out evs with
  | zero => split at hfuel <;> omega
  | succ fuel ih =>
    rw [chainEvents]
    cases hav : st.available with
    | some x =>
      -- an event is at hand, and is written or kept
      obtain ⟨rest, rfl, hwritten⟩ := h.written hav
      have hlt := h.inside (by rw [hav]; exact some_ne_none _)
      rw [getElem?_eq_getElem hlt]
      simp only
      by_cases hroom : room < spaceNeeded x.2
      · have htake : takeFit room (x :: rest) = ([], x :: rest) := by
          rw [takeFit, if_neg (not_le.mpr hroom)]
        rw [if_pos hroom, htake]
        refine ⟨_, rfl, ?_, ?_, .inr ⟨x, rest, ?_, hav, rfl⟩⟩
        · simp [htake, samples]
        · rw [htake]
          exact h
        · rw [htake]
      · have hspace : 0 < spaceNeeded x.2 := hpos x mem_cons_self
        rw [hav, if_neg (some_ne_none _)] at hfuel
        obtain ⟨r, hloop, hends⟩ := ih φ status (room - spaceNeeded x.2)
          (out ++ [event.sample x.1 x.2]) hwritten (forall_mem_cons.mp hpos).2
          (by rw [if_pos rfl]; simp only; omega)
        rw [if_neg hroom]
        refine ⟨r, hloop, .cons (not_lt.mp hroom) ?_⟩
        rw [takeFit, if_pos (not_lt.mp hroom)]
        simpa [hlt] using hends
    | none =>
      rw [hav, if_pos rfl] at hfuel
      obtain ⟨hend, rfl⟩ | ⟨it, id, it', φ', hit, hid, hcase⟩ := h.fetch hexact hav φ
      · -- the end of the chain
        rw [hend, if_neg (not_lt.mpr (getElem?_eq_none_iff.mp hend))]
        exact ⟨_, rfl, by simp [takeFit, samples], h, .inl ⟨rfl, rfl⟩⟩
      · have hlt : st.pos < st.iters.length := lt_of_getElem? hit
        rw [hit, hid, if_pos hlt]
        rcases hcase with ⟨hr, hnext⟩ | ⟨e, hr, hkept⟩
        · -- the operator has no more events
          obtain ⟨r, hloop, hends⟩ := ih φ' .noData room out hnext hpos
            (by simp only [length_set, hav, if_pos]; omega)
          simp only [hr]
          rw [hav] at hloop
          exact ⟨r, hloop, by simpa [hav] using hends⟩
        · obtain ⟨r, hloop, hends⟩ := ih φ' .ok room out hkept hpos
            (by simp only [length_set, reduceCtorEq, if_false]; omega)
          simp only [hr]
          exact ⟨r, hloop, by simpa [hlt] using hends⟩

theorem Has.read (hexact : Exact rd R) (h : st.Has R evs) (hpos : ∀ x ∈ evs, 0 < spaceNeeded x.2)
    (φ : Φ) (size : Nat) : ∃ r, EventChain.read rd φ st size = some r ∧ Ends R evs size [] r .noData
        (if st.available ≠ none ∧ (takeFit size evs).1 = [] then .noData else .ok) := by
  obtain ⟨r, hloop, hends⟩ := chainEvents_spec hexact (2 * size + st.iters.length + 3) φ .noData
    size [] h hpos (by split <;> omega)
  rw [ite_self] at hends
  exact ⟨r, hloop, hends⟩

end EventChain

/-! ## Executing a chain -/

theorem Event.Valid.spaceNeeded_eq {e : Event} (h : e.Valid) :
    spaceNeeded e = sampleSize + e.body.length := by
  obtain ⟨-, hle⟩ := h
  unfold maxEventLen at hle
  rw [spaceNeeded, sampleSize]
  omega

/-- The event fits into the buffer of the executor. -/
def Event.fits (e : Event) : Bool := decide (sampleSize + e.body.length ≤ destSize)

theorem small_samples (h : ∀ x ∈ evs, x.2.Valid) :
    ∀ s ∈ event.samples evs, s.payload.space < 2 ^ 16 := by
  intro s hs
  obtain ⟨x, hx, rfl⟩ := mem_map.mp hs
  obtain ⟨-, hle⟩ := h x hx
  unfold maxEventLen at hle
  show sampleSize + x.2.body.length < 2 ^ 16
  rw [sampleSize]
  omega

namespace QueryPlanExecutor
variable {rd : Reader Status Event Op Φ} {R : Op → List Event → Prop}

/-- Through a chain, the executor delivers the events before the first one that does not fit. -/
theorem executeLoop_chain (hexact : Exact rd R) (reads : Nat) (φ : Φ) {st : EventChain Op}
    (calls : List Call) (h : st.Has R evs) (hvalid : ∀ x ∈ evs, x.2.Valid)
    (hreads : evs.length + (if st.available = none then 2 else 1) ≤ reads) :
    executeLoop (EventChain.read rd) recorder reads φ st calls =
    some (calls ++ (event.samples (evs.takeWhile (·.2.fits))).map .put) := by
  induction reads generalizing φ st calls evs with
  | zero => split at hreads <;> omega
  | succ reads ih =>
    have hspace : ∀ x ∈ evs, 0 < spaceNeeded x.2 := by
      intro x hx
      rw [(hvalid x hx).spaceNeeded_eq, sampleSize]
      omega
    obtain ⟨r, hr, hout, hhas, hcases⟩ := h.read hexact hspace φ destSize
    -- what goes into the buffer, and what is left
    have happend := takeFit_append destSize evs
    have hfits : ∀ x ∈ (takeFit destSize evs).1, _ := takeFit_fits
    have hlarge : ∀ x rest, (takeFit destSize evs).1 = [] → (takeFit destSize evs).2 = x :: rest →
        _ := fun _ _ => takeFit_eq_nil
    generalize takeFit destSize evs = parts at hout hhas hcases happend hfits hlarge
    obtain ⟨now, later⟩ := parts
    obtain rfl : now ++ later = evs := happend
    simp only [nil_append] at hout hcases
    rw [length_append] at hreads
    obtain ⟨hnow, hlater⟩ := forall_mem_append.mp hvalid
    have hsmall : ∀ s ∈ r.out, s.payload.space < 2 ^ 16 := by
      rw [hout]
      exact small_samples hnow
    -- what is in the buffer fits, so only the rest is cut
    have hall : ∀ x ∈ now, x.2.fits = true := fun x hx =>
      decide_eq_true (by rw [← (hnow x hx).spaceNeeded_eq]; exact hfits x hx)
    rw [takeWhile_append_of_pos hall]
    rcases hcases with ⟨hnil, hstatus⟩ | ⟨x, rest, hcons, hav, hstatus⟩
    · rw [executeLoop_step hr (.inr hstatus) hsmall, if_neg (by rw [hstatus]; decide), hnil,
        takeWhile_nil, append_nil, hout]
    · subst hcons
      by_cases hkept : st.available ≠ none ∧ now = []
      · -- the event was kept before and does not fit now: the chain gives up
        rw [if_pos hkept] at hstatus
        have hlarge' := hlarge x rest hkept.2 rfl
        rw [(hlater x mem_cons_self).spaceNeeded_eq] at hlarge'
        have hnofit : x.2.fits = false := decide_eq_false (not_le.mpr hlarge')
        rw [executeLoop_step hr (.inr hstatus) hsmall, if_neg (by rw [hstatus]; decide),
          takeWhile_cons_of_neg (by rw [hnofit]; exact Bool.false_ne_true), append_nil, hout]
      · rw [if_neg hkept] at hstatus
        have hreads' : (x :: rest).length + (if r.next.available = none then 2 else 1) ≤ reads := by
          rw [hav, if_neg (some_ne_none _)]
          by_cases hnone : st.available = none
          · rw [if_pos hnone] at hreads
            omega
          · rw [if_neg hnone] at hreads
            have hpos := length_pos_iff.mpr fun hnil => hkept ⟨hnone, hnil⟩
            omega
        have hih := ih r.env (calls ++ r.out.map .put) hhas hlater hreads'
        rw [executeLoop_step hr (.inl hstatus) hsmall, if_pos hstatus, hih, hout]
        simp [samples]

end QueryPlanExecutor

/-! ## Executing a merge -/

section Merge
variable {α : Type} {kind : MergeKind α} {rd : Reader Status α Op Φ} {ranges : List (Range α)}

/-- A merge whose ranges start with elements that do not fit says `Ok` and puts out nothing. -/
theorem kwayMerge_stuck {pop : HeapPop α} {st : Merge α Op}
    (hpop : LawfulPop (order.worse st.forward) (pop (order.worse st.forward)))
    (hiters : st.iters ≠ []) {φ φ' : Φ} (hstart : st.start rd φ = some (none, iters, ranges, φ'))
    (hranges : pushRanges kind 0 ranges ≠ [])
    (hlarge : ∀ item ∈ pushRanges kind 0 ranges, size < kind.sizeRequired item.value) :
    Merge.kwayMerge kind rd order pop φ st size =
      some ⟨.ok, [], { st with iters := iters, ranges := ranges }, φ'⟩ := by
  rw [Merge.kwayMerge, if_neg (by simpa using hiters), hstart]
  show mergeLoop kind rd (pop (order.worse st.forward)) (size + 1) φ' _
    (pushRanges kind 0 ranges) size [] = _
  rw [mergeLoop]
  cases hpopped : pop (order.worse st.forward) (pushRanges kind 0 ranges) with
  | none => exact absurd (hpop.none hpopped) hranges
  | some popped =>
    obtain ⟨item, heap⟩ := popped
    have hmem : item ∈ pushRanges kind 0 ranges := (hpop.some hpopped).1.mem_iff.mpr mem_cons_self
    simp only
    rw [if_neg (not_le.mpr (hlarge item hmem))]

/-- A materializer that says `Ok` again and again without a sample is read for ever. -/
theorem executeLoop_stuck {rd : Reader Status Sample μ Φ} {m : μ}
    (hstuck : ∀ φ, rd φ m destSize = some ⟨.ok, [], m, φ⟩)
    (proc : StreamProcessor π) (reads : Nat) (φ : Φ) (p : π) :
    executeLoop rd proc reads φ m p = none := by
  induction reads generalizing φ p with
  | zero => rfl
  | succ reads ih =>
    rw [executeLoop, hstuck]
    exact ih φ p

theorem executeLoop_merge_stuck {pop : HeapPop α} {st : Merge α Op}
    (hpop : LawfulPop (order.worse st.forward) (pop (order.worse st.forward)))
    (hiters : st.iters ≠ []) (hne : iters ≠ []) {φ φ' : Φ}
    (hstart : st.start rd φ = some (none, iters, ranges, φ'))
    (hranges : pushRanges kind 0 ranges ≠ [])
    (hlarge : ∀ item ∈ pushRanges kind 0 ranges, destSize < kind.sizeRequired item.value)
    (proc : StreamProcessor π) (reads : Nat) (p : π) :
    executeLoop (fun φ st size => Merge.kwayMerge kind rd order pop φ st size)
      proc reads φ st p = none := by
  have hempty : ranges.isEmpty = false := by
    cases hr : ranges with
    | nil => exact absurd (by rw [hr]; rfl) hranges
    | cons _ _ => rfl
  cases reads with
  | zero => rfl
  | succ reads =>
    rw [executeLoop, kwayMerge_stuck hpop hiters hstart hranges hlarge]
    refine executeLoop_stuck ?_ proc reads φ' _
    intro φ''
    have hpop' : LawfulPop (order.worse { st with iters := iters, ranges := ranges }.forward)
        (pop (order.worse { st with iters := iters, ranges := ranges }.forward)) := hpop
    refine kwayMerge_stuck hpop' hne ?_ hranges hlarge
    rw [Merge.start, hempty, if_neg Bool.false_ne_true]

end Merge

end FastSTDB
