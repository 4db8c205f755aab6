import FastSTDB.EventCodec
import FastSTDB.TreeSearch

/-
  Event columns — appending events to a tree and searching them (`nbtree.cc`)

  Correspondence (C++ ↔ Lean):
    `NBTreeExtentsList::append(ts, blob, size)` ↔ `NBTreeExtentsList.appendEvent`
    its loop over the blob                      ↔ `appendElements`
    a `BinaryDataIterator` over a tree          ↔ `EventOp V`

  An event is refused if its text is empty or too long, or if its head is late;
  otherwise all its points are accepted, since their timestamps count up from that
  of the head (`TreeHolds.appendEvent`). So a tree that was filled with events holds
  the points of the accepted ones (`TreeHolds.feedEvents`), and a search over all of
  them has exactly these events to deliver (`searchBinary_has`).
-/
namespace FastSTDB
open List Option Pull OpenTree

variable {V : Type} [DoubleArith V]
variable {bs : BlockStore V} {t : NBTreeExtentsList V} {pts : List Point} {last e b : Timestamp}
  {events : List Event} {rounds : Nat}

/-! ## Appending -/

/-- The loop over the blob: one `append` for each element. -/
def appendElements : List UInt64 → Timestamp → NBTreeAppendResult → NBTreeExtentsList V →
    Option (NBTreeAppendResult × NBTreeExtentsList V)
  | [], _, outres, t => some (outres, t)
  | x :: xs, ts, outres, t =>
    (t.append ⟨ts, x⟩ false).bind fun (res, t) =>
      match res with
      | .ok => appendElements xs (ts + 1) outres t
      | .okFlushNeeded => appendElements xs (ts + 1) .okFlushNeeded t
      | res => some (res, t)

/-- An event or a point was accepted. -/
def NBTreeAppendResult.isOk : NBTreeAppendResult → Bool
  | ok | okFlushNeeded => true
  | failLateWrite | failBadId | failBadValue => false

namespace NBTreeExtentsList

def appendEvent (t : NBTreeExtentsList V) (e : Event) :
    Option (NBTreeAppendResult × NBTreeExtentsList V) :=
  if e.body.length = 0 ∨ maxEventLen < e.body.length then some (.failBadValue, t)
  else
    (t.append ⟨basets e.ts, e.head⟩ false).bind fun (outres, t) =>
      if outres = .failBadId ∨ outres = .failBadValue ∨ outres = .failLateWrite then
        some (outres, t)
      else appendElements (elements e.body) (basets e.ts + 1) outres t

end NBTreeExtentsList

def feedEvents : List Event → NBTreeExtentsList V → Option (List Event × NBTreeExtentsList V)
  | [], t => some ([], t)
  | e :: events, t =>
    (t.appendEvent e).bind fun (r, t) =>
      (feedEvents events t).map fun (acc, t) => (if r.isOk then e :: acc else acc, t)

/-! ## Searching -/

/-- `BinaryDataIterator` over the operator of a search, with the store the tree is in. -/
structure EventOp (V : Type) where
  bstore : BlockStore V
  it : BinaryDataIterator (RealOp V)

/-- `read`, with a bound for the rounds of its loop. -/
def EventOp.read (rounds : Nat) : Reader Status Event (EventOp V) Unit := fun φ op n =>
  (BinaryDataIterator.read (RealOp.read op.bstore (RealOp.depth op.bstore)) rounds φ op.it n).map
    fun r => ⟨r.status, r.out, { op with it := r.next }, r.env⟩

def NBTreeExtentsList.searchBinary (t : NBTreeExtentsList V) (beginTs endTs : Timestamp) :
    Option (EventOp V × NBTreeExtentsList V) :=
  (t.search beginTs endTs).map fun (op, t) =>
    (⟨t.bstore, .new op (decide (beginTs < endTs))⟩, t)

/-! ## What a tree holds after appending events -/

/-- A tree over the store `bs` that was filled by appends holds `pts`, the newest at `last`. -/
def TreeHolds (bs : BlockStore V) (t : NBTreeExtentsList V) (pts : List Point)
    (last : Timestamp) : Prop :=
  ∃ s leaves tail, Shows t s ∧ s.Holds leaves tail ∧ Filled bs s leaves tail ∧
    points leaves ++ tail = pts ∧ s.last = last

theorem treeHolds_new (id : ParamId) : TreeHolds bs (.new id [] bs) [] 0 :=
  ⟨.fresh bs id, [], [], shows_new bs, fresh_holds bs, filled_fresh id, rfl, rfl⟩

theorem TreeHolds.append (h : TreeHolds bs t pts last) (p : Point) :
    ∃ r t', t.append p false = some (r, t') ∧
      (p.ts ≤ last ∧ r = .failLateWrite ∧ TreeHolds bs t' pts last ∨
       last < p.ts ∧ (r = .ok ∨ r = .okFlushNeeded) ∧ TreeHolds bs t' (pts ++ [p]) p.ts) := by
  obtain ⟨s, leaves, tail, hsh, hholds, hfilled, hpts, rfl⟩ := h
  obtain ⟨r, t', s', new, tail', hstep, hsh', happ, -⟩ := hsh.append_step hholds p false
  refine ⟨r, t', happ, ?_⟩
  have hpoints : points (leaves ++ new) ++ tail' =
      pts ++ if r = .failLateWrite then [] else [p] := by
    rw [points_append, append_assoc, hstep.points_eq, ← append_assoc, hpts]
  rcases hstep.accepts with ⟨hlate, hr, hlast⟩ | ⟨hlate, hr, hlast⟩
  · rw [if_pos hr, append_nil] at hpoints
    refine .inl ⟨by simpa [late] using hlate, hr, s', leaves ++ new, tail', hsh',
      hstep.holds hholds, hfilled.step hstep, hpoints, hlast⟩
  · rw [if_neg hr] at hpoints
    have hok : r = .ok ∨ r = .okFlushNeeded := by
      cases hstep with
      | late _ => exact absurd rfl hr
      | pushed _ _ _ _ => exact .inl rfl
      | spilled _ _ _ _ _ _ _ => exact .inr rfl
    exact .inr ⟨by simpa [late] using hlate, hok, s', leaves ++ new, tail', hsh',
      hstep.holds hholds, hfilled.step hstep, hpoints, hlast⟩

theorem TreeHolds.appendElements : ∀ (xs : List UInt64) {ts : Timestamp}
    {outres : NBTreeAppendResult} {t : NBTreeExtentsList V} {pts : List Point} {last : Timestamp},
    TreeHolds bs t pts last → last < ts → ts.toNat + xs.length ≤ 2 ^ 64 → outres.isOk = true →
    ∃ r t', appendElements xs ts outres t = some (r, t') ∧ r.isOk = true ∧
      TreeHolds bs t' (pts ++ pointsFrom ts xs)
        (if xs = [] then last else .ofNat (ts.toNat + xs.length - 1))
  | [], ts, outres, t, pts, last, h, _, _, hok => by
    refine ⟨outres, t, rfl, hok, ?_⟩
    rw [pointsFrom, append_nil]
    exact h
  | x :: xs, ts, outres, t, pts, last, h, hlt, hwrap, hok => by
    rw [length_cons] at hwrap
    obtain ⟨r, t', happ, ⟨hle, -, -⟩ | ⟨-, hr, h'⟩⟩ := h.append ⟨ts, x⟩
    · exact absurd hlt (not_lt.mpr hle)
    · -- whatever `append` says, the loop goes on
      obtain ⟨outres', hok', hloop⟩ : ∃ outres', outres'.isOk = true ∧
          FastSTDB.appendElements (x :: xs) ts outres t =
            FastSTDB.appendElements xs (ts + 1) outres' t' := by
        rw [FastSTDB.appendElements, happ]
        rcases hr with rfl | rfl
        · exact ⟨outres, hok, rfl⟩
        · exact ⟨.okFlushNeeded, rfl, rfl⟩
      rw [hloop]
      cases xs with
      | nil =>
        refine ⟨outres', t', rfl, hok', ?_⟩
        have hlast : .ofNat (ts.toNat + [x].length - 1) = ts := by simp
        rw [hlast]
        exact h'
      | cons y ys =>
        rw [length_cons] at hwrap
        have hsucc : (ts + 1).toNat = ts.toNat + 1 := by
          show (ts.toNat + 1) % 2 ^ 64 = ts.toNat + 1
          omega
        have hlt' : ts < ts + 1 := by
          rw [UInt64.lt_iff_toNat_lt]
          omega
        obtain ⟨r', t'', hloop', hr', h''⟩ := TreeHolds.appendElements (y :: ys) h' hlt'
          (by rw [length_cons]; omega) hok'
        refine ⟨r', t'', hloop', hr', ?_⟩
        rw [hsucc, append_assoc] at h''
        have hcount : ts.toNat + 1 + (y :: ys).length - 1 = ts.toNat + ((y :: ys).length + 1) - 1 := by
          omega
        rw [hcount] at h''
        exact h''

def Event.lastTs (e : Event) : Timestamp :=
  .ofNat ((basets e.ts).toNat + (e.body.length + 7) / 8)

theorem Event.Valid.toNat_lastTs {e : Event} (h : e.Valid) :
    e.lastTs.toNat = (basets e.ts).toNat + (e.body.length + 7) / 8 := by
  have hwrap := (h.basets_add_le e.ts).1
  rw [length_cons, elements, length_elementsFrom] at hwrap
  rw [Event.lastTs, UInt64.toNat_ofNat']
  omega

/-- The points of an event stand from its head to its last point. -/
theorem Event.Valid.mem_points {e : Event} (h : e.Valid) {p : Point} (hp : p ∈ e.points) :
    basets e.ts ≤ p.ts ∧ p.ts ≤ e.lastTs := by
  obtain ⟨hlow, hhigh⟩ := mem_pointsFrom hp (h.basets_add_le e.ts).1
  rw [length_cons, elements, length_elementsFrom] at hhigh
  rw [UInt64.le_iff_toNat_le, UInt64.le_iff_toNat_le, h.toNat_lastTs]
  omega

theorem TreeHolds.appendEvent (h : TreeHolds bs t pts last) (e : Event) :
    ∃ r t', t.appendEvent e = some (r, t') ∧
      (r.isOk = false ∧ ¬ (e.Valid ∧ last < basets e.ts) ∧ TreeHolds bs t' pts last ∨
       r.isOk = true ∧ (e.Valid ∧ last < basets e.ts) ∧
         TreeHolds bs t' (pts ++ e.points) e.lastTs) := by
  by_cases hsize : e.body.length = 0 ∨ maxEventLen < e.body.length
  · refine ⟨.failBadValue, t, if_pos hsize, .inl ⟨rfl, ?_, h⟩⟩
    rintro ⟨⟨hpos, hle⟩, -⟩
    omega
  · have hvalid : e.Valid := by
      unfold Event.Valid
      omega
    obtain ⟨r, t', happ, ⟨hle, rfl, h'⟩ | ⟨hlt, hr, h'⟩⟩ := h.append ⟨basets e.ts, e.head⟩
    · refine ⟨.failLateWrite, t', ?_, .inl ⟨rfl, fun hc => absurd hc.2 (not_lt.mpr hle), h'⟩⟩
      rw [NBTreeExtentsList.appendEvent, if_neg hsize, happ]
      rfl
    · have hgo : ¬ (r = .failBadId ∨ r = .failBadValue ∨ r = .failLateWrite) := by
        rcases hr with rfl | rfl <;> simp
      have hok : r.isOk = true := by rcases hr with rfl | rfl <;> rfl
      have hsucc := hvalid.basets_succ e.ts
      have hwrap := (hvalid.basets_add_le e.ts).1
      rw [length_cons] at hwrap
      have hlt' : basets e.ts < basets e.ts + 1 := by
        rw [UInt64.lt_iff_toNat_lt]
        omega
      obtain ⟨r', t'', hloop, hr', h''⟩ := h'.appendElements (elements e.body) hlt'
        (by rw [hsucc]; omega) hok
      refine ⟨r', t'', ?_, .inr ⟨hr', ⟨hvalid, hlt⟩, ?_⟩⟩
      · rw [NBTreeExtentsList.appendEvent, if_neg hsize, happ, bind_some]
        simp only [hgo]
        exact hloop
      · have hne : elements e.body ≠ [] := by
          intro hnil
          have hlen := congrArg length hnil
          rw [elements, length_elementsFrom, length_nil] at hlen
          omega
        have hlast : .ofNat ((basets e.ts + 1).toNat + (elements e.body).length - 1) =
            e.lastTs := by
          rw [elements, length_elementsFrom]
          congr 1
          omega
        rw [if_neg hne, hlast, append_assoc] at h''
        exact h''

/-- What holds of the events accepted by a tree whose newest timestamp is `last`. -/
structure Recorded (events : List Event) (last : Timestamp) : Prop where
  valid : ∀ e ∈ events, e.Valid
  newest : ∀ e ∈ events, basets e.ts ≤ last
  increasing : events.Pairwise fun e e' => basets e.ts < basets e'.ts

theorem Recorded.concat (h : Recorded events last) {e : Event} (he : e.Valid)
    (hlt : last < basets e.ts) : Recorded (events ++ [e]) e.lastTs := by
  have hle : basets e.ts ≤ e.lastTs := by
    rw [UInt64.le_iff_toNat_le, he.toNat_lastTs]
    omega
  refine ⟨?_, ?_, ?_⟩
  · exact forall_mem_append.mpr ⟨h.valid, forall_mem_singleton.mpr he⟩
  · exact forall_mem_append.mpr ⟨fun e' he' => (h.newest e' he').trans (hlt.le.trans hle),
      forall_mem_singleton.mpr hle⟩
  · refine pairwise_append.mpr ⟨h.increasing, pairwise_singleton _ _, ?_⟩
    intro e' he' e'' he''
    rw [mem_singleton.mp he'']
    exact lt_of_le_of_lt (h.newest e' he') hlt

theorem lt_of_basets_lt {ts ts' : Timestamp} (h : basets ts < basets ts') : ts < ts' := by
  rw [UInt64.lt_iff_toNat_lt, toNat_basets, toNat_basets] at h
  rw [UInt64.lt_iff_toNat_lt]
  omega

theorem inRange_eventPoints (hbe : b < e)
    (h : ∀ x ∈ events, x.Valid ∧ b ≤ basets x.ts ∧ x.lastTs < e) :
    ∀ p ∈ eventPoints events, inRange b e p = true := by
  intro p hp
  obtain ⟨x, hx, hp⟩ := mem_flatMap.mp hp
  obtain ⟨hvalid, hlow, hhigh⟩ := h x hx
  obtain ⟨hb, he⟩ := hvalid.mem_points hp
  rw [inRange, if_pos hbe, Bool.and_eq_true, decide_eq_true_iff, decide_eq_true_iff]
  exact ⟨hlow.trans hb, lt_of_le_of_lt he hhigh⟩

def acceptedEvents : Timestamp → List Event → List Event
  | _, [] => []
  | last, e :: events =>
    if e.Valid ∧ last < basets e.ts then e :: acceptedEvents e.lastTs events
    else acceptedEvents last events

theorem TreeHolds.feedEvents : ∀ (events : List Event)
    {t : NBTreeExtentsList V} {before : List Event} {last : Timestamp},
    TreeHolds bs t (eventPoints before) last → Recorded before last →
    ∃ t' last', FastSTDB.feedEvents events t = some (acceptedEvents last events, t') ∧
      TreeHolds bs t' (eventPoints (before ++ acceptedEvents last events)) last' ∧
      Recorded (before ++ acceptedEvents last events) last'
  | [], t, before, last, h, hrec => by
    refine ⟨t, last, rfl, ?_, ?_⟩
    · rw [acceptedEvents, append_nil]
      exact h
    · rw [acceptedEvents, append_nil]
      exact hrec
  | e :: events, t, before, last, h, hrec => by
    rw [FastSTDB.feedEvents]
    obtain ⟨r, t', happ, ⟨hr, hno, h'⟩ | ⟨hr, hyes, h'⟩⟩ := h.appendEvent e
    · obtain ⟨t'', last', hfeed, hholds, hrec'⟩ := TreeHolds.feedEvents events h' hrec
      refine ⟨t'', last', ?_, ?_, ?_⟩
      · rw [happ, acceptedEvents, if_neg hno]
        simp [hfeed, hr]
      · rw [acceptedEvents, if_neg hno]
        exact hholds
      · rw [acceptedEvents, if_neg hno]
        exact hrec'
    · have hpoints : eventPoints before ++ e.points = eventPoints (before ++ [e]) := by
        simp [eventPoints]
      rw [hpoints] at h'
      obtain ⟨t'', last', hfeed, hholds, hrec'⟩ :=
        TreeHolds.feedEvents events h' (hrec.concat hyes.1 hyes.2)
      rw [append_assoc] at hholds hrec'
      refine ⟨t'', last', ?_, ?_, ?_⟩
      · rw [happ, acceptedEvents, if_pos hyes]
        simp [hfeed, hr]
      · rw [acceptedEvents, if_pos hyes]
        exact hholds
      · rw [acceptedEvents, if_pos hyes]
        exact hrec'

theorem feedEvents_holds (bs : BlockStore V) (id : ParamId) (input : List Event) : ∃ t last,
    feedEvents input (.new id [] bs) = some (acceptedEvents 0 input, t) ∧
      TreeHolds bs t (eventPoints (acceptedEvents 0 input)) last ∧
      Recorded (acceptedEvents 0 input) last := by
  have hrecorded : Recorded [] 0 := ⟨by simp, by simp, .nil⟩
  have hnew : TreeHolds bs (.new id [] bs) (eventPoints []) 0 := treeHolds_new id
  exact TreeHolds.feedEvents input hnew hrecorded

theorem lt_basets_of_accepted {x : Event} : ∀ {input : List Event} {last : Timestamp},
    x ∈ acceptedEvents last input → x ∈ input ∧ last < basets x.ts
  | [], _, h => by cases h
  | e :: input, last, h => by
    rw [acceptedEvents] at h
    by_cases hyes : e.Valid ∧ last < basets e.ts
    · rw [if_pos hyes] at h
      rcases mem_cons.mp h with rfl | h
      · exact ⟨mem_cons_self, hyes.2⟩
      · obtain ⟨hmem, hlt⟩ := lt_basets_of_accepted h
        have hlast : basets e.ts ≤ e.lastTs := by
          rw [UInt64.le_iff_toNat_le, hyes.1.toNat_lastTs]
          exact le_self_add
        exact ⟨mem_cons_of_mem _ hmem, hyes.2.trans (lt_of_le_of_lt hlast hlt)⟩
    · rw [if_neg hyes] at h
      obtain ⟨hmem, hlt⟩ := lt_basets_of_accepted h
      exact ⟨mem_cons_of_mem _ hmem, hlt⟩

/-! ## What a search over events delivers -/

theorem scan_of_inRange (h : ∀ p ∈ pts, inRange b e p = true) :
    scan b e pts = if b < e then pts else pts.reverse := by rw [scan, filter_eq_self.mpr h]

def EventOp.Has (rounds : Nat) (op : EventOp V) (xs : List Event) : Prop :=
  BinaryDataIterator.Has (RealOp.read op.bstore (RealOp.depth op.bstore)) rounds op.it xs

omit [DoubleArith V] in
theorem EventOp.Has.read {op : EventOp V} {xs : List Event} (h : op.Has rounds xs) (φ : Unit)
    (n : Nat) : ∃ op' φ', EventOp.read rounds φ op n =
        some ⟨if xs.length < n then .noData else .ok, xs.take n, op', φ'⟩ ∧
      op'.Has rounds (xs.drop n) := by
  obtain ⟨it', φ', hr, hnext⟩ := BinaryDataIterator.Has.read h φ n
  refine ⟨⟨op.bstore, it'⟩, φ', ?_, hnext⟩
  rw [EventOp.read, hr, map_some]

omit [DoubleArith V] in
theorem EventOp.Has.delivers {op : EventOp V} {xs : List Event} (h : op.Has rounds xs) :
    Delivers (EventOp.read rounds) (.same Event) op xs :=
  (BinaryDataIterator.Has.delivers h).map_state (EventOp.mk op.bstore) fun _ _ _ => rfl

/-- Under the operator of a search for events is one that delivers the points of the range. -/
theorem searchBinary_base (hkeep : bs.removedBelow = 0) (h : TreeHolds bs t pts last) :
    ∃ base t', t.searchBinary b e = some (⟨t'.bstore, .new base (decide (b < e))⟩, t') ∧
      Delivers (RealOp.read t'.bstore (RealOp.depth t'.bstore)) Same base (scan b e pts) := by
  obtain ⟨s, leaves, tail, hsh, hholds, hfilled, hpts, -⟩ := h
  have hkeep' : s.bstore.removedBelow = 0 := hfilled.expired.trans hkeep
  obtain ⟨op, t', hop, hbs, hdel⟩ := hsh.search_delivers hholds
    (BlockStore.aged_of_keeps hkeep') (searchable_of_sorted hfilled.sorted)
  rw [BlockStore.live_of_keeps hkeep', hpts, ← hbs] at hdel
  exact ⟨op, t', by rw [NBTreeExtentsList.searchBinary, hop, map_some], hdel⟩

/-- A search of a tree filled with events, over a range that covers them, delivers the accepted
events in the order of the scan. -/
theorem searchBinary_has (hkeep : bs.removedBelow = 0)
    (h : TreeHolds bs t (eventPoints events) last) (hvalid : ∀ e ∈ events, e.Valid)
    (hrange : ∀ p ∈ eventPoints events, inRange b e p = true)
    (hrounds : (eventPoints events).length + 3 ≤ rounds) :
    ∃ op t', t.searchBinary b e = some (op, t') ∧ op.it.forward = decide (b < e) ∧
      op.Has rounds (scanOrder b e events) := by
  obtain ⟨base, t', hop, hdel⟩ := searchBinary_base hkeep h
  rw [scan_of_inRange hrange] at hdel
  refine ⟨_, t', hop, rfl, ?_⟩
  have hbase : Delivers (RealOp.read t'.bstore (RealOp.depth t'.bstore)) Same base
      (if decide (b < e) = true then eventPoints events else (eventPoints events).reverse) := by
    simpa only [decide_eq_true_eq] using hdel
  have hhas := BinaryDataIterator.has_new hvalid hbase hrounds
  simp only [decide_eq_true_eq] at hhas
  exact hhas

end FastSTDB
