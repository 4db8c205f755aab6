import FastSTDB.EventColumn

/-
  Events under a range — what `search_binary` delivers

  The points of an event stand at the timestamps from `basets` (the event's own
  timestamp rounded down to a microsecond) on, one for each eight bytes. A search
  looks at the points, not at the event's timestamp, so what it delivers are the
  events all of whose points are in the range. `curr_size_` is not set before the
  first head: a forward search that starts among the points of an event reads it.

  1. `event_round_trip`: over the full range every accepted event is delivered.
  2. `searchBinary_whole`: the events with all points in the range are delivered.
  3. `searchBinary_cut`: a forward search that starts inside an event fails.
  4. `event_range`: the events with a timestamp in the range are delivered exactly
     if they are the ones with all their points in it and no event is cut.
-/
namespace FastSTDB
open List Option Pull Bounds BinaryDataIterator Event NBTreeExtentsList

variable {V σ Φ : Type} [DoubleArith V]

/-! ## Events and ranges -/

namespace Event

def wanted (b e : Timestamp) (x : Event) : Bool :=
  if b < e then decide (b ≤ x.ts) && decide (x.ts < e) else decide (e < x.ts) && decide (x.ts ≤ b)

/-- All points of the event lie in the range. -/
def whole (b e : Timestamp) (x : Event) : Bool :=
  if b < e then decide (b ≤ basets x.ts) && decide (x.lastTs < e)
  else decide (e < basets x.ts) && decide (x.lastTs ≤ b)

/-- The range starts behind the head of the event and not behind its last point. -/
def Cut (b : Timestamp) (x : Event) : Prop := basets x.ts < b ∧ b ≤ x.lastTs

instance (b : Timestamp) (x : Event) : Decidable (x.Cut b) := inferInstanceAs (Decidable (_ ∧ _))

end Event

/-- What a search for the events of a range should deliver. -/
def eventScan (b e : Timestamp) (events : List Event) : List Event :=
  scanOrder b e (events.filter (Event.wanted b e))

/-! ## Points of an event in a range -/

theorem pairwise_pointsFrom : ∀ {xs : List UInt64} {ts : Timestamp},
    ts.toNat + xs.length ≤ 2 ^ 64 → (pointsFrom ts xs).Pairwise fun p q => p.ts < q.ts
  | [], _, _ => .nil
  | [x], _, _ => pairwise_singleton _ _
  | x :: y :: xs, ts, hle => by
    rw [length_cons, length_cons] at hle
    have hsucc := toNat_add_one ts (by omega)
    have hle' : (ts + 1).toNat + (y :: xs).length ≤ 2 ^ 64 := by
      rw [length_cons]
      omega
    apply Pairwise.cons
    · intro q hq
      have hrange := mem_pointsFrom hq hle'
      show ts.toNat < q.ts.toNat
      omega
    · exact pairwise_pointsFrom hle'

theorem exists_mem_pointsFrom : ∀ {xs : List UInt64} {ts t : Timestamp}, ts.toNat ≤ t.toNat →
    t.toNat < ts.toNat + xs.length → ∃ p ∈ pointsFrom ts xs, p.ts = t
  | [], ts, t, hle, hlt => by
    rw [length_nil] at hlt
    omega
  | x :: xs, ts, t, hle, hlt => by
    rw [length_cons] at hlt
    by_cases heq : ts.toNat = t.toNat
    · exact ⟨⟨ts, x⟩, mem_cons_self, UInt64.toNat_inj.mp heq⟩
    · have hsucc := toNat_add_one ts (lt_of_le_of_lt (by omega) t.toNat_lt)
      have hlow : (ts + 1).toNat ≤ t.toNat := by omega
      have hhigh : t.toNat < (ts + 1).toNat + xs.length := by omega
      obtain ⟨p, hp, hts⟩ := exists_mem_pointsFrom hlow hhigh
      exact ⟨p, mem_cons_of_mem _ hp, hts⟩

namespace Event.Valid
variable {x y : Event}

section
variable (h : x.Valid)
include h

theorem pairwise_points : x.points.Pairwise fun p q => p.ts < q.ts :=
  pairwise_pointsFrom (h.basets_add_le x.ts).1

theorem exists_mem_points {t : Timestamp} (hlow : basets x.ts ≤ t)
    (hhigh : t ≤ x.lastTs) : ∃ p ∈ x.points, p.ts = t := by
  rw [UInt64.le_iff_toNat_le] at hlow hhigh
  rw [h.toNat_lastTs] at hhigh
  apply exists_mem_pointsFrom hlow
  rw [length_cons, elements, length_elementsFrom]
  omega

theorem basets_le_lastTs : basets x.ts ≤ x.lastTs := by
  rw [UInt64.le_iff_toNat_le, h.toNat_lastTs]
  exact le_self_add

theorem lastTs_lt (hlt : basets x.ts < basets y.ts) : x.lastTs < basets y.ts := by
  obtain ⟨-, hle⟩ := h.basets_add_le x.ts
  rw [length_cons, elements, length_elementsFrom] at hle
  rw [UInt64.lt_iff_toNat_lt, toNat_basets, toNat_basets] at hlt
  have hstep : x.ts.toNat / 1000 + 1 ≤ y.ts.toNat / 1000 := Nat.lt_of_mul_lt_mul_right hlt
  rw [UInt64.lt_iff_toNat_lt, h.toNat_lastTs, toNat_basets, toNat_basets]
  calc x.ts.toNat / 1000 * 1000 + (x.body.length + 7) / 8
      < x.ts.toNat / 1000 * 1000 + 1000 := Nat.add_lt_add_left (Nat.lt_of_succ_le hle) _
    _ = (x.ts.toNat / 1000 + 1) * 1000 := (Nat.succ_mul _ _).symm
    _ ≤ y.ts.toNat / 1000 * 1000 := Nat.mul_le_mul_right _ hstep

/-- A predicate that holds up to some timestamp keeps a front part of the points, all of them if it
holds of the last. -/
theorem filter_front {q : Point → Bool}
    (hq : ∀ p p' : Point, p.ts < p'.ts → q p' = true → q p = true)
    (hts : ∀ p p' : Point, p.ts = p'.ts → q p = q p') : ∃ k, x.points.filter q = x.points.take k ∧
      (x.points.length ≤ k ↔ q ⟨x.lastTs, 0⟩ = true) := by
  have hfront : Front q x.points := h.pairwise_points.imp fun {p p'} hlt => hq p p' hlt
  refine ⟨(x.points.takeWhile q).length, ?_, ?_⟩
  · rw [take_takeWhile_length, hfront.takeWhile_eq_filter]
  · obtain ⟨p, hp, hpts⟩ := h.exists_mem_points h.basets_le_lastTs le_rfl
    constructor
    · intro hle
      have heq : x.points.takeWhile q = x.points := ( takeWhile_prefix q).eq_of_length_le hle
      rw [← hts p ⟨x.lastTs, 0⟩ hpts]
      exact takeWhile_eq_self_iff.mp heq p hp
    · intro hlast
      have hall : ∀ p' ∈ x.points, q p' = true := by
        intro p' hp'
        rcases lt_or_eq_of_le (h.mem_points hp').2 with hlt | heq
        · exact hq p' ⟨x.lastTs, 0⟩ hlt hlast
        · rw [hts p' ⟨x.lastTs, 0⟩ heq]
          exact hlast
      rw [takeWhile_eq_self_iff.mpr hall]

/-- The points in a range that does not start inside the event are a front part of them. -/
theorem filter_inRange {b e : Timestamp} (hcut : b < e → ¬ x.Cut b)
    (hold : ¬ b < e → e < basets x.ts) : ∃ k, x.points.filter (inRange b e) = x.points.take k ∧
      (x.points.length ≤ k ↔ x.whole b e = true) := by
  have hbase := h.basets_le_lastTs
  by_cases hbe : b < e
  · by_cases hlast : x.lastTs < b
    · -- the event ends before the range
      refine ⟨0, ?_, ?_⟩
      · rw [take_zero, filter_eq_nil_iff]
        intro p hp
        have hlt := lt_of_le_of_lt (h.mem_points hp).2 hlast
        simp [inRange, hbe, not_le.mpr hlt]
      · have hno : ¬ b ≤ basets x.ts := not_le.mpr (lt_of_le_of_lt hbase hlast)
        simp [whole, hbe, hno, x.length_points]
    · have hfrom : b ≤ basets x.ts := not_lt.mp fun hlt => hcut hbe ⟨hlt, not_lt.mp hlast⟩
      obtain ⟨k, hk, hall⟩ := h.filter_front (q := fun p => decide (p.ts < e))
        (fun p p' hlt hp' => decide_eq_true (hlt.trans (of_decide_eq_true hp')))
        (fun p p' heq => by rw [heq])
      refine ⟨k, ?_, ?_⟩
      · rw [← hk]
        apply filter_congr
        intro p hp
        simp [inRange, hbe, hfrom.trans (h.mem_points hp).1]
      · rw [hall]
        simp [whole, hbe, hfrom]
  · have hfrom := hold hbe
    obtain ⟨k, hk, hall⟩ := h.filter_front (q := fun p => decide (p.ts ≤ b))
      (fun p p' hlt hp' => decide_eq_true (hlt.le.trans (of_decide_eq_true hp')))
      (fun p p' heq => by rw [heq])
    refine ⟨k, ?_, ?_⟩
    · rw [← hk]
      apply filter_congr
      intro p hp
      simp [inRange, hbe, lt_of_lt_of_le hfrom (h.mem_points hp).1]
    · rw [hall]
      simp [whole, hbe, hfrom]

end

end Event.Valid

/-- The points of some events in a range decode to the events that are whole in it. -/
theorem decode_inRange {b e : Timestamp} {events : List Event}
    (h : ∀ x ∈ events, x.Valid ∧ (b < e → ¬ x.Cut b) ∧ (¬ b < e → e < basets x.ts))
    (c : Option Partial) : ∃ c', decode (events.flatMap fun x => x.points.filter (inRange b e)) c =
      some (events.filter (Event.whole b e), c') := by
  induction events generalizing c with
  | nil => exact ⟨c, rfl⟩
  | cons x events ih =>
    obtain ⟨hvalid, hcut, hold⟩ := h x mem_cons_self
    obtain ⟨k, hk, hall⟩ := hvalid.filter_inRange hcut hold
    obtain ⟨c1, hx⟩ := decode_take hvalid k
    obtain ⟨c2, hrest⟩ := ih (forall_mem_cons.mp h).2 c1
    refine ⟨c2, ?_⟩
    rw [flatMap_cons, hk, decode_append, hx, bind_some, hrest]
    by_cases hw : x.whole b e = true
    · rw [if_pos (hall.mpr hw), filter_cons_of_pos hw]
      rfl
    · rw [if_neg (fun hle => hw (hall.mp hle)), filter_cons_of_neg hw]
      rfl

/-! ## Backward: runs and the points before the first head -/

theorem turned_filter (runs : List (List Point)) :
    turned (runs.filter fun r => !r.isEmpty) = turned runs := by
  induction runs with
  | nil => rfl
  | cons r runs ih =>
    cases r with
    | nil => exact ih
    | cons p r =>
      simp only [turned, filter_cons, isEmpty_cons, Bool.not_false, if_true, flatMap_cons] at ih ⊢
      rw [ih]

theorem IsRun.take {run : List Point} (h : IsRun run) {k : Nat} (hne : run.take k ≠ []) :
    IsRun (run.take k) := by
  obtain ⟨⟨p, body, rfl, hp, hbody⟩, hlen⟩ := h
  cases k with
  | zero => exact absurd rfl hne
  | succ k =>
    refine ⟨⟨p, body.take k, take_succ_cons, hp, ?_⟩, ?_⟩
    · intro q hq
      exact hbody q (mem_of_mem_take hq)
    · exact (length_take_le' _ _).trans hlen

section Backward
variable {b e : Timestamp} {events : List Event} {last : Timestamp}

/-- The events whose heads are behind the end of a backward range come first. -/
theorem Recorded.split (h : Recorded events last) (e : Timestamp) : ∃ old new,
    events = old ++ new ∧ (∀ x ∈ old, basets x.ts ≤ e) ∧ ∀ x ∈ new, e < basets x.ts := by
  have hfront : Front (fun x : Event => decide (basets x.ts ≤ e)) events :=
    h.increasing.imp fun {x y} hlt hy => decide_eq_true (hlt.le.trans (of_decide_eq_true hy))
  refine ⟨_, _, (take_append_drop (events.takeWhile fun x => decide (basets x.ts ≤ e)).length
    events).symm, ?_, ?_⟩
  · intro x hx
    rw [take_takeWhile_length, hfront.takeWhile_eq_filter, mem_filter] at hx
    exact of_decide_eq_true hx.2
  · intro x hx
    rw [hfront.drop_eq_filter, mem_filter] at hx
    simpa using hx.2

/-- Of the events before the first head in the range, only the newest has points in it. -/
theorem rest_spec {old : List Event} (hvalid : ∀ x ∈ old, x.Valid)
    (hinc : old.Pairwise fun x y => basets x.ts < basets y.ts) (hbe : ¬ b < e)
    (hold : ∀ x ∈ old, basets x.ts ≤ e) : Headless ((eventPoints old).filter (inRange b e)) ∧
      ((eventPoints old).filter (inRange b e)).length < bufSize := by
  have hlate : ∀ p, inRange b e p = true → e < p.ts := by
    intro p hp
    simp only [inRange, hbe, if_false, Bool.and_eq_true, decide_eq_true_eq] at hp
    exact hp.1
  constructor
  · intro p hp
    obtain ⟨hmem, hin⟩ := mem_filter.mp hp
    obtain ⟨x, hx, hpx⟩ := mem_flatMap.mp hmem
    rcases mem_cons.mp hpx with rfl | hbody
    · exact absurd (hlate _ hin) (not_lt.mpr (hold x hx))
    · exact (hvalid x hx).body_not_head hbody
  · rcases eq_nil_or_concat old with rfl | ⟨older, y, rfl⟩
    · exact Nat.succ_pos _
    · rw [concat_eq_append] at hvalid hinc hold ⊢
      have hy : y ∈ older ++ [y] := mem_append_right _ mem_cons_self
      have hnone : (eventPoints older).filter (inRange b e) = [] := by
        rw [filter_eq_nil_iff]
        intro p hp hin
        obtain ⟨x, hx, hpx⟩ := mem_flatMap.mp hp
        have hvx := hvalid x (mem_append_left _ hx)
        have hlt := (pairwise_append.mp hinc).2.2 x hx y mem_cons_self
        have hend : p.ts < basets y.ts := lt_of_le_of_lt (hvx.mem_points hpx).2 (hvx.lastTs_lt hlt)
        exact absurd (hlate p hin) (not_lt.mpr (hend.le.trans (hold y hy)))
      have hhead : inRange b e ⟨basets y.ts, y.head⟩ = false := by
        rw [← Bool.not_eq_true]
        intro hin
        exact absurd (hlate _ hin) (not_lt.mpr (hold y hy))
      have hpoints : eventPoints (older ++ [y]) = eventPoints older ++ y.points := by
        simp [eventPoints]
      have hle := (hvalid y hy).length_points_le
      rw [hpoints, filter_append, hnone]
      rw [y.points_cons] at hle ⊢
      rw [filter_cons_of_neg (by rw [hhead]; exact Bool.false_ne_true)]
      exact (length_filter_le _ _).trans_lt hle

/-- The runs of the events with their heads in the range, the newest first. -/
def runsOf (b e : Timestamp) (new : List Event) : List (List Point) :=
  (new.reverse.map fun x => x.points.filter (inRange b e)).filter fun r => !r.isEmpty

theorem turned_runsOf (new : List Event) :
    turned (runsOf b e new) = ((eventPoints new).filter (inRange b e)).reverse := by
  rw [runsOf, turned_filter, turned, flatMap_map, eventPoints, filter_flatMap, reverse_flatMap]
  rfl

theorem flatten_runsOf (new : List Event) : (runsOf b e new).flatten =
    new.reverse.flatMap fun x => x.points.filter (inRange b e) := by
  rw [runsOf, flatten_filter_not_isEmpty, flatMap_def]

theorem isRun_runsOf {new : List Event} (hbe : ¬ b < e)
    (h : ∀ x ∈ new, x.Valid ∧ e < basets x.ts) : ∀ r ∈ runsOf b e new, IsRun r := by
  intro r hr
  obtain ⟨hmem, hne⟩ := mem_filter.mp hr
  obtain ⟨x, hx, rfl⟩ := mem_map.mp hmem
  obtain ⟨hvalid, hlt⟩ := h x (mem_reverse.mp hx)
  obtain ⟨k, hk, -⟩ := hvalid.filter_inRange (fun hlt => absurd hlt hbe) (fun _ => hlt)
  rw [hk] at hne ⊢
  apply hvalid.isRun.take
  simpa using hne

end Backward

/-! ## What a search delivers -/

section Search
variable {bs : BlockStore V} {t : NBTreeExtentsList V} {events : List Event} {last : Timestamp}
  {b e : Timestamp}

/-- Unless a forward search starts inside an event, it delivers the events that are whole in the
range. -/
theorem searchBinary_whole (hkeep : bs.removedBelow = 0)
    (h : TreeHolds bs t (eventPoints events) last) (hrec : Recorded events last)
    (hcut : b < e → ∀ x ∈ events, ¬ x.Cut b) {rounds : Nat}
    (hrounds : 2 * (eventPoints events).length + 3 ≤ rounds) :
    ∃ op t', t.searchBinary b e = some (op, t') ∧
      op.Has rounds (scanOrder b e (events.filter (Event.whole b e))) := by
  obtain ⟨base, t', hop, hdel⟩ := searchBinary_base hkeep h
  refine ⟨_, t', hop, ?_⟩
  have hlen : ((eventPoints events).filter (inRange b e)).length ≤ (eventPoints events).length :=
    length_filter_le _ _
  by_cases hbe : b < e
  · rw [scan, if_pos hbe] at hdel
    rw [decide_eq_true hbe, scanOrder, if_pos hbe]
    have hevents : ∀ x ∈ events, x.Valid ∧ (b < e → ¬ x.Cut b) ∧ (¬ b < e → e < basets x.ts) :=
      fun x hx => ⟨hrec.valid x hx, fun _ => hcut hbe x hx, absurd hbe⟩
    obtain ⟨c, hdec⟩ := decode_inRange hevents none
    rw [← filter_flatMap] at hdec
    exact has_new_forward hdec hdel ((Nat.add_le_add_right hlen 3).trans (by omega))
  · obtain ⟨old, new, rfl, hold, hnew⟩ := hrec.split e
    obtain ⟨hheadless, hrest⟩ := rest_spec (forall_mem_append.mp hrec.valid).1
      (pairwise_append.mp hrec.increasing).1 hbe hold
    have hevents : ∀ x ∈ new.reverse,
        x.Valid ∧ (b < e → ¬ x.Cut b) ∧ (¬ b < e → e < basets x.ts) := by
      intro x hx
      have hx' := mem_reverse.mp hx
      exact ⟨hrec.valid x (mem_append_right _ hx'), fun hlt => absurd hlt hbe, fun _ => hnew x hx'⟩
    obtain ⟨c, hdec⟩ := decode_inRange hevents none
    -- the events behind the end of the range are not whole
    have hwhole : (old ++ new).filter (Event.whole b e) = new.filter (Event.whole b e) := by
      have hnone : old.filter (Event.whole b e) = [] := by
        rw [filter_eq_nil_iff]
        intro x hx hw
        simp only [Event.whole, hbe, if_false, Bool.and_eq_true, decide_eq_true_eq] at hw
        exact absurd hw.1 (not_lt.mpr (hold x hx))
      rw [filter_append, hnone, nil_append]
    rw [scan, if_neg hbe, eventPoints, flatMap_append, filter_append, reverse_append] at hdel
    rw [eventPoints, flatMap_append, length_append] at hrounds
    have hlen1 : ((eventPoints old).filter (inRange b e)).length ≤ (eventPoints old).length :=
      length_filter_le _ _
    have hlen2 : ((eventPoints new).filter (inRange b e)).length ≤ (eventPoints new).length :=
      length_filter_le _ _
    rw [decide_eq_false hbe, scanOrder, if_neg hbe, hwhole, ← filter_reverse]
    rw [← flatten_runsOf] at hdec
    refine has_new_backward (isRun_runsOf hbe fun x hx => ?_)
      (fun p hp => hheadless p (mem_reverse.mp hp)) ?_ hdec ?_ ?_
    · exact ⟨hrec.valid x (mem_append_right _ hx), hnew x hx⟩
    · rw [length_reverse]
      exact hrest
    · rw [turned_runsOf]
      exact hdel
    · rw [turned_runsOf, length_append, length_reverse, length_reverse]
      simp only [eventPoints] at hlen1 hlen2 ⊢
      omega

theorem Recorded.pairwise_points (h : Recorded events last) :
    (eventPoints events).Pairwise fun p q => p.ts < q.ts := by
  rw [eventPoints, pairwise_flatMap]
  refine ⟨fun x hx => (h.valid x hx).pairwise_points, ?_⟩
  refine (Pairwise.and_mem.mp h.increasing).imp ?_
  intro x y hxy p hp q hq
  obtain ⟨hx, hy, hlt⟩ := hxy
  calc p.ts ≤ x.lastTs := ((h.valid x hx).mem_points hp).2
    _ < basets y.ts := (h.valid x hx).lastTs_lt hlt
    _ ≤ q.ts := ((h.valid y hy).mem_points hq).1

/-- A forward range that starts inside an event starts with a point that is no head. -/
theorem exists_cut_point (hrec : Recorded events last) (hbe : b < e) {x : Event} (hx : x ∈ events)
    (hcut : x.Cut b) : ∃ p ps, scan b e (eventPoints events) = p :: ps ∧ isHead p.ts = false := by
  rw [scan, if_pos hbe]
  have hvx := hrec.valid x hx
  obtain ⟨q, hq, hqts⟩ := hvx.exists_mem_points hcut.1.le hcut.2
  have hq' : q ∈ (eventPoints events).filter (inRange b e) := by
    refine mem_filter.mpr ⟨mem_flatMap.mpr ⟨x, hx, hq⟩, ?_⟩
    simp [inRange, hbe, hqts]
  have hsorted := hrec.pairwise_points.filter (inRange b e)
  cases hl : (eventPoints events).filter (inRange b e) with
  | nil =>
    rw [hl] at hq'
    cases hq'
  | cons p ps =>
    refine ⟨p, ps, rfl, ?_⟩
    obtain ⟨hmem, hin⟩ := mem_filter.mp (hl ▸ mem_cons_self)
    obtain ⟨y, hy, hpy⟩ := mem_flatMap.mp hmem
    rcases mem_cons.mp hpy with rfl | hbody
    · -- a head at the start of the range would stand inside the event that is cut
      have hb : b ≤ basets y.ts := by
        simp only [inRange, hbe, if_true, Bool.and_eq_true, decide_eq_true_eq] at hin
        exact hin.1
      have hle : basets y.ts ≤ b := by
        rw [hl] at hq' hsorted
        rcases mem_cons.mp hq' with rfl | hrest
        · exact hqts.le
        · exact ((pairwise_cons.mp hsorted).1 q hrest).le.trans hqts.le
      have hlt : x.lastTs < basets y.ts := hvx.lastTs_lt (lt_of_lt_of_le hcut.1 hb)
      exact absurd hcut.2 (not_le.mpr (lt_of_lt_of_le hlt hle))
    · exact (hrec.valid y hy).body_not_head hbody

/-- A forward search that starts inside an event reads what was not set. -/
theorem searchBinary_cut (hkeep : bs.removedBelow = 0)
    (h : TreeHolds bs t (eventPoints events) last) (hrec : Recorded events last) (hbe : b < e)
    {x : Event} (hx : x ∈ events) (hcut : x.Cut b) : ∃ op t', t.searchBinary b e = some (op, t') ∧
      ∀ rounds φ n, 0 < n → EventOp.read rounds φ op n = none := by
  obtain ⟨base, t', hop, hdel⟩ := searchBinary_base hkeep h
  obtain ⟨p, ps, hscan, hp⟩ := exists_cut_point hrec hbe hx hcut
  rw [hscan] at hdel
  refine ⟨_, t', hop, ?_⟩
  intro rounds φ n hn
  rw [decide_eq_true hbe, EventOp.read, read_new_none hp hdel φ hn, map_none]

end Search

/-- Drain `search_binary(begin, end)`, reading with the given buffer sizes. -/
def NBTreeExtentsList.drainBinary (t : NBTreeExtentsList V) (beginTs endTs : Timestamp)
    (rounds fuel : Nat) (sizes : Nat → Nat) : Option (List Event × Status) :=
  (t.searchBinary beginTs endTs).bind fun (op, _) =>
    drain (EventOp.read rounds) .ok fuel () op sizes

theorem drainBinary_of_has {t t' : NBTreeExtentsList V} {op : EventOp V} {b e : Timestamp}
    (hop : t.searchBinary b e = some (op, t')) {rounds : Nat} {xs : List Event}
    (h : op.Has rounds xs) {fuel : Nat} (hfuel : xs.length < fuel) {sizes : Nat → Nat}
    (hsizes : ∀ i, 0 < sizes i) : t.drainBinary b e rounds fuel sizes = some (xs, .noData) := by
  rw [drainBinary, hop]
  exact h.delivers.drain_eq fuel () sizes hfuel hsizes

/-- Events appended to a fresh tree come back over the full range, each with its timestamp and its
text: forward in the order they were appended, backward in reverse order. -/
theorem event_round_trip (bs : BlockStore V) (hkeep : bs.removedBelow = 0) (id : ParamId)
    (input : List Event) (hts : ∀ x ∈ input, x.ts.toNat ≤ 2 ^ 63) : ∃ acc t,
      feedEvents input (.new id [] bs) = some (acc, t) ∧
      ∀ (rounds fuel : Nat) (sizes : Nat → Nat), (eventPoints acc).length + 3 ≤ rounds →
        acc.length < fuel → (∀ i, 0 < sizes i) →
        t.drainBinary minTimestamp maxTimestamp rounds fuel sizes = some (acc, .noData) ∧
        t.drainBinary maxTimestamp minTimestamp rounds fuel sizes = some (acc.reverse, .noData) := by
  obtain ⟨t, last, hfeed, hholds, hrec⟩ := feedEvents_holds bs id input
  refine ⟨_, t, hfeed, ?_⟩
  intro rounds fuel sizes hrounds hfuel hsizes
  -- the points stand between 1000 and 2^63 + 512
  have hrange : ∀ p ∈ eventPoints (acceptedEvents 0 input),
      inRange minTimestamp maxTimestamp p = true ∧ inRange maxTimestamp minTimestamp p = true := by
    intro p hp
    obtain ⟨x, hx, hpx⟩ := mem_flatMap.mp hp
    obtain ⟨hmem, hpos⟩ := lt_basets_of_accepted hx
    have hvx := hrec.valid x hx
    obtain ⟨hlow, hhigh⟩ := hvx.mem_points hpx
    have hle := (hvx.basets_add_le x.ts).2
    have hx63 := hts x hmem
    have hend : x.lastTs < maxTimestamp := by
      rw [length_cons, elements, length_elementsFrom] at hle
      rw [UInt64.lt_iff_toNat_lt, hvx.toNat_lastTs, toNat_basets]
      show _ < 18446744073709551615
      omega
    have hmin : minTimestamp < p.ts := lt_of_lt_of_le hpos hlow
    have hmax : p.ts < maxTimestamp := lt_of_le_of_lt hhigh hend
    rw [inRange, inRange, if_pos (by decide), if_neg (by decide)]
    simp [hmin, hmax, hmin.le, hmax.le]
  obtain ⟨op, t1, hop, -, hhas⟩ := searchBinary_has hkeep hholds hrec.valid
    (fun p hp => (hrange p hp).1) hrounds
  obtain ⟨op', t2, hop', -, hhas'⟩ := searchBinary_has hkeep hholds hrec.valid
    (fun p hp => (hrange p hp).2) hrounds
  exact ⟨drainBinary_of_has hop hhas hfuel hsizes,
    drainBinary_of_has hop' hhas' (length_reverse.trans_lt hfuel) hsizes⟩

/-- The second event comes too late. -/
theorem event_round_trip_memStore : ∃ acc t, feedEvents
      [⟨1500, [1, 2, 3]⟩, ⟨1700, [9]⟩, ⟨2700, [4, 5, 6, 7, 8, 9, 10, 11, 12]⟩]
      (.new 7 [] (memStore Rat)) = some (acc, t) ∧
    acc = [⟨1500, [1, 2, 3]⟩, ⟨2700, [4, 5, 6, 7, 8, 9, 10, 11, 12]⟩] ∧
    t.drainBinary maxTimestamp minTimestamp 20 5 (fun _ => 1) = some (acc.reverse, .noData) := by
  obtain ⟨acc, t, hfeed, h⟩ := event_round_trip (memStore Rat) rfl 7
    [⟨1500, [1, 2, 3]⟩, ⟨1700, [9]⟩, ⟨2700, [4, 5, 6, 7, 8, 9, 10, 11, 12]⟩] (by decide)
  obtain ⟨t', last, hfeed', -⟩ := feedEvents_holds (memStore Rat) 7
    [⟨1500, [1, 2, 3]⟩, ⟨1700, [9]⟩, ⟨2700, [4, 5, 6, 7, 8, 9, 10, 11, 12]⟩]
  rw [hfeed] at hfeed'
  obtain ⟨hacc, -⟩ := Prod.mk.inj (some.inj hfeed')
  have hevents : acc = [⟨1500, [1, 2, 3]⟩, ⟨2700, [4, 5, 6, 7, 8, 9, 10, 11, 12]⟩] := by
    rw [hacc]
    decide +kernel
  refine ⟨acc, t, hfeed, hevents, ?_⟩
  rw [hevents] at h ⊢
  exact (h 20 5 (fun _ => 1) (by decide) (by decide) (fun _ => one_pos)).2

/-- Draining a search for the events of a range gives the events with a timestamp in the range,
in the order of the scan, exactly if they are the events with all their points in it
and, forward, the range does not start inside an event. -/
theorem event_range (bs : BlockStore V) (hkeep : bs.removedBelow = 0) (id : ParamId)
    (input : List Event) : ∃ acc t, feedEvents input (.new id [] bs) = some (acc, t) ∧
      ∀ (b e : Timestamp) (rounds : Nat) (sizes : Nat → Nat),
        2 * (eventPoints acc).length + 3 ≤ rounds → (∀ i, 0 < sizes i) →
        ((∃ fuel, t.drainBinary b e rounds fuel sizes = some (eventScan b e acc, .noData)) ↔
          (∀ x ∈ acc, x.whole b e = x.wanted b e) ∧ (b < e → ∀ x ∈ acc, ¬ x.Cut b)) := by
  obtain ⟨t, last, hfeed, hholds, hrec⟩ := feedEvents_holds bs id input
  refine ⟨_, t, hfeed, ?_⟩
  intro b e rounds sizes hrounds hsizes
  by_cases hcut : b < e → ∀ x ∈ acceptedEvents 0 input, ¬ x.Cut b
  · obtain ⟨op, t', hop, hhas⟩ := searchBinary_whole hkeep hholds hrec hcut hrounds
    have hdrain := drainBinary_of_has hop hhas (lt_add_one _) hsizes
    constructor
    · intro ⟨fuel, hfound⟩
      refine ⟨?_, hcut⟩
      rw [drainBinary, hop] at hdrain hfound
      have heq : eventScan b e (acceptedEvents 0 input) = _ :=
        congrArg Prod.fst (drain_unique hfound hdrain)
      have hfilter : (acceptedEvents 0 input).filter (Event.wanted b e) =
          (acceptedEvents 0 input).filter (Event.whole b e) := scanOrder_inj heq
      intro x hx
      have hmem := congrArg (x ∈ ·) hfilter
      simp only [mem_filter, hx, true_and, eq_iff_iff] at hmem
      exact (Bool.eq_iff_iff.mpr hmem).symm
    · intro ⟨hsame, _⟩
      refine ⟨_, hdrain.trans ?_⟩
      rw [eventScan, filter_congr hsame]
  · constructor
    · intro ⟨fuel, hfound⟩
      simp only [not_forall, not_not] at hcut
      obtain ⟨hbe, x, hx, hxcut⟩ := hcut
      obtain ⟨op, t', hop, hnone⟩ := searchBinary_cut hkeep hholds hrec hbe hx hxcut
      rw [drainBinary, hop, bind_some] at hfound
      cases fuel with
      | zero => cases hfound
      | succ fuel =>
        simp only [drain, hnone rounds () (sizes 0) (hsizes 0), bind_none, reduceCtorEq] at hfound
    · intro ⟨_, hno⟩
      exact absurd hno hcut

/-- An event at 1500, stored at 1000 and 1001. A search from 1200 misses it, one that ends before
1500 delivers it, and one that starts at 1001 fails. -/
theorem event_range_missed : ∃ t, feedEvents [⟨1500, [1, 2, 3]⟩]
      (.new 7 [] (memStore Rat)) = some ([⟨1500, [1, 2, 3]⟩], t) ∧
    t.drainBinary 1200 2000 20 5 (fun _ => 1) = some ([], .noData) ∧
    t.drainBinary 1000 1500 20 5 (fun _ => 1) = some ([⟨1500, [1, 2, 3]⟩], .noData) ∧
    ∀ rounds fuel, t.drainBinary 1001 2000 rounds fuel (fun _ => 1) = none := by
  have hkeep : (memStore Rat).removedBelow = 0 := rfl
  obtain ⟨t, last, hfeed, hholds, hrec⟩ := feedEvents_holds (memStore Rat) 7 [⟨1500, [1, 2, 3]⟩]
  refine ⟨t, hfeed, ?_, ?_, ?_⟩
  · obtain ⟨op, t', hop, hhas⟩ := searchBinary_whole (b := 1200) (e := 2000) hkeep hholds hrec
      (by decide +kernel) (by decide : _ ≤ 20)
    exact drainBinary_of_has hop hhas (by decide +kernel) (fun _ => one_pos)
  · obtain ⟨op, t', hop, hhas⟩ := searchBinary_whole (b := 1000) (e := 1500) hkeep hholds hrec
      (by decide +kernel) (by decide : _ ≤ 20)
    exact drainBinary_of_has hop hhas (by decide +kernel) (fun _ => one_pos)
  · obtain ⟨op, t', hop, hnone⟩ := searchBinary_cut (b := 1001) (e := 2000) hkeep hholds hrec
      (by decide) mem_cons_self (by decide +kernel)
    intro rounds fuel
    rw [drainBinary, hop]
    cases fuel with
    | zero => rfl
    | succ fuel => simp [drain, hnone rounds () 1 one_pos]

/-- A range between the points of events. -/
theorem event_range_between : ∃ acc t, feedEvents [⟨1500, [1, 2, 3]⟩, ⟨2700, [4]⟩]
      (.new 7 [] (memStore Rat)) = some (acc, t) ∧
    ∃ fuel, t.drainBinary 1000 2000 20 fuel (fun _ => 1) =
      some (eventScan 1000 2000 acc, .noData) := by
  obtain ⟨acc, t, hfeed, h⟩ := event_range (memStore Rat) rfl 7 [⟨1500, [1, 2, 3]⟩, ⟨2700, [4]⟩]
  obtain ⟨t', last, hfeed', -⟩ := feedEvents_holds (memStore Rat) 7 [⟨1500, [1, 2, 3]⟩, ⟨2700, [4]⟩]
  rw [hfeed] at hfeed'
  obtain ⟨hacc, -⟩ := Prod.mk.inj (some.inj hfeed')
  have hevents : acc = [⟨1500, [1, 2, 3]⟩, ⟨2700, [4]⟩] := by
    rw [hacc]
    decide +kernel
  refine ⟨acc, t, hfeed, ?_⟩
  rw [hevents] at h ⊢
  exact (h 1000 2000 20 (fun _ => 1) (by decide) (fun _ => one_pos)).mpr (by decide +kernel)

end FastSTDB
