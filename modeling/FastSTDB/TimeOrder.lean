import FastSTDB.CrashRuns

/-
  Time order over the life of a tree

  The only guard of the time order is `last_`, a variable in memory. `append`
  refuses what is before it; `open` reads it back from the topmost extent; `repair`
  leaves it zero. So a tree that was repaired takes any first point.

  What is proved:
    1. `time_order_run` — over appends, reopenings and crashes, as long as the links
       are in step (`inStep`) and no point is appended to a tree without `last_`
       that is older than its stored points (`inTime`), a search over all time
       returns the points in the order of time, and once `last_` is set every point
       older than a stored one is refused.
    2. `time_order_broken` — a leaf, a crash, and a point older than the leaf: it is
       accepted, and the search returns it last.

  Correspondence (C++ ↔ Lean):
    `NBTreeExtentsList::append` (guard)            ↔ `OpenTree.late`
    `NBTreeExtentsList::open` (restore `last_`)    ↔ `Opened.last`
    `NBTreeExtentsList::repair` (no restore)       ↔ `LastRestored`
-/
namespace FastSTDB
open List Option OpenTree

variable {V : Type} [DoubleArith V]
variable {s : OpenTree V} {leaves : List StoredLeaf} {bs : BlockStore V} {t : NBTreeExtentsList V}
  {tail : List Point}

/-! ## Appends in time -/

/-- The points of a tree whose leaves are the blocks from the `n`-th on: those of the
stored leaves, and those of the open one. -/
def NBTreeExtentsList.storedPoints (t : NBTreeExtentsList V) (n : Nat) : List Point :=
  points (t.bstore.leavesFrom n) ++ t.openPoints

/-- A point appended while `last_` is zero is not older than the stored ones. -/
def SessionOp.inTime (n : Nat) (op : SessionOp) (t : NBTreeExtentsList V) : Bool :=
  match op with
  | .append p _ => decide (t.last ≠ 0) || decide (newest (t.storedPoints n) ≤ p.ts)
  | .reopen => true
  | .crash => true

def inTime (n : Nat) : List SessionOp → NBTreeExtentsList V → Bool
  | [], _ => true
  | op :: ops, t =>
    op.inTime n t &&
      match op.step t with
      | some (_, t) => inTime n ops t
      | none => true

namespace OpenTree

/-- The points are in the order of time, and `last_` is the newest of their
timestamps, or zero. -/
structure Ordered (s : OpenTree V) (pts : List Point) : Prop where
  sorted : Sorted pts
  last : s.last = newest pts ∨ s.last = 0

omit [DoubleArith V] in
theorem Ordered.of_restored (hs : Sorted (points leaves)) (h : s.LastRestored leaves) :
    s.Ordered (points leaves) := by
  refine ⟨hs, ?_⟩
  rcases h with h | h
  · exact .inr h
  · exact .inl (h hs)

theorem Recoverable.storedPoints (hrec : Recoverable bs s leaves tail) (hsh : Shows t s)
    (h : s.Holds leaves tail) : t.storedPoints bs.blocks.length = points leaves ++ tail := by
  rw [NBTreeExtentsList.storedPoints, hsh.bstore, hrec.written, hsh.openPoints h]

omit [DoubleArith V] in
theorem Ordered.append {s' : OpenTree V} {pts : List Point} {p : Point} (h : s.Ordered pts)
    (hnew : newest pts ≤ p.ts) (hlast : s'.last = p.ts) : s'.Ordered (pts ++ [p]) := by
  constructor
  · refine pairwise_append.mpr ⟨h.sorted, pairwise_singleton _ _, ?_⟩
    intro q hq q' hq'
    rw [mem_singleton.mp hq']
    exact (le_newest hq).trans hnew
  · left
    rw [newest_append, hlast, max_eq_right hnew]

theorem Ordered.move {op : SessionOp} {s' : OpenTree V} {leaves' : List StoredLeaf}
    {tail' : List Point} (hord : s.Ordered (points leaves ++ tail))
    (hrec : Recoverable bs s leaves tail) (hsh : Shows t s) (h : s.Holds leaves tail)
    (hop : op.inTime bs.blocks.length t = true) (hm : s.Moved leaves tail op s' leaves' tail') :
    s'.Ordered (points leaves' ++ tail') := by
  cases hm with
  | @append p allowDup r _ new _ ha =>
    rw [points_append, append_assoc, ha.points_eq, ← append_assoc]
    rcases ha.last with ⟨hr, hl⟩ | ⟨hr, hl, hle⟩
    · rw [if_pos hr, append_nil]
      exact ⟨hord.sorted, by rw [hl]; exact hord.last⟩
    · rw [if_neg hr]
      apply hord.append _ hl
      -- without `last_` the condition says what the guard does not
      rw [SessionOp.inTime, hrec.storedPoints hsh h, hsh.last, Bool.or_eq_true,
        decide_eq_true_iff, decide_eq_true_iff] at hop
      rcases hord.last with heq | hzero
      · rw [← heq]
        exact hle
      · exact hop.resolve_left (fun hne => hne hzero)
  | reopen ho =>
    have hpts : points (leaves ++ s.lastLeaf tail) = points leaves ++ tail := by
      rw [points_append, points_lastLeaf]
    have hs : Sorted (points (leaves ++ s.lastLeaf tail)) := by
      rw [hpts]
      exact hord.sorted
    rw [append_nil]
    exact ⟨hs, .inl (ho.last hs)⟩
  | crash hlast =>
    rw [append_nil]
    exact .of_restored (hord.sorted.sublist (sublist_append_left _ _)) hlast

/-- A point older than a stored one is refused, once `last_` is set. -/
theorem Ordered.refuses (hord : s.Ordered (points leaves ++ tail)) (hsh : Shows t s)
    (h : s.Holds leaves tail) (hset : t.last ≠ 0) {p q : Point} (hq : q ∈ points leaves ++ tail)
    (hlt : p.ts < q.ts) (allowDup : Bool) :
    ∃ t', t.append p allowDup = some (.failLateWrite, t') := by
  have hlast : s.last = newest (points leaves ++ tail) := by
    apply hord.last.resolve_right
    rw [← hsh.last]
    exact hset
  have hold : p.ts < s.last := by
    rw [hlast]
    exact hlt.trans_le (le_newest hq)
  obtain ⟨r, t', s', new, tail', ha, -, happ, -⟩ := hsh.append_step h p allowDup
  rcases ha.last with ⟨rfl, -⟩ | ⟨-, -, hle⟩
  · exact ⟨t', happ⟩
  · exact absurd hold (not_lt.mpr hle)

end OpenTree

/-- A run whose appends are in step and in time keeps the order. -/
theorem runOps_ordered (hkeep : bs.removedBelow = 0) (ops : List SessionOp)
    (hin : inStep ops t = true) (htime : inTime bs.blocks.length ops t = true)
    (hsh : Shows t s) (h : s.Holds leaves tail)
    (hrec : Recoverable bs s leaves tail) (hord : s.Ordered (points leaves ++ tail)) :
    ∃ acc t' s' leaves' tail', runOps ops t = some (acc, t') ∧ Shows t' s' ∧
      s'.Holds leaves' tail' ∧ Recoverable bs s' leaves' tail' ∧
      s'.Ordered (points leaves' ++ tail') := by
  induction ops generalizing t s leaves tail with
  | nil => exact ⟨[], t, s, leaves, tail, rfl, hsh, h, hrec, hord⟩
  | cons op ops ih =>
    rw [inStep, Bool.and_eq_true] at hin
    rw [inTime, Bool.and_eq_true] at htime
    obtain ⟨acc1, t1, s1, leaves1, tail1, hstep, hsh1, h1, hrec1, hm⟩ := hrec.move hkeep hsh h hin.1
    have hord1 := hord.move hrec hsh h htime.1 hm
    have hin1 := hin.2
    have htime1 := htime.2
    rw [hstep] at hin1 htime1
    obtain ⟨acc, t', s', leaves', tail', hrun, hrest⟩ := ih hin1 htime1 hsh1 h1 hrec1 hord1
    refine ⟨acc1 ++ acc, t', s', leaves', tail', ?_, hrest⟩
    simp [runOps, hstep, hrun]

/-- After a run all of whose appends are in step and in time, a search over all time
returns the stored points in the order of time, and a point older than a stored one
is refused unless `last_` was lost. -/
theorem time_order_run (bs : BlockStore V) (hkeep : bs.removedBelow = 0) (id : ParamId)
    (ops : List SessionOp) (hin : inStep ops (.new id [] bs) = true)
    (htime : inTime bs.blocks.length ops (.new id [] bs) = true) :
    ∃ acc t found, runOps ops (.new id [] bs) = some (acc, t) ∧
      (∀ sizes : Nat → Nat, (∀ i, 0 < sizes i) → ∀ fuel,
        (t.storedPoints bs.blocks.length).length < fuel →
        t.drainSearch minTimestamp maxTimestamp fuel sizes = some (found, .noData)) ∧
      found.Pairwise (fun p q => p.ts ≤ q.ts) ∧
      (t.last ≠ 0 → ∀ q ∈ t.storedPoints bs.blocks.length, ∀ p : Point, p.ts < q.ts →
        ∀ allowDup, ∃ t', t.append p allowDup = some (.failLateWrite, t')) := by
  obtain ⟨acc, t, s, leaves, tail, hrun, hsh, h, hrec, hord⟩ := runOps_ordered hkeep ops hin htime
    (shows_new bs) (fresh_holds bs) recoverable_fresh ⟨.nil, .inr rfl⟩
  have hkeep' : s.bstore.removedBelow = 0 := hrec.expired.trans hkeep
  rw [← hrec.storedPoints hsh h] at hord
  refine ⟨acc, t, (t.storedPoints bs.blocks.length).filter (fun p => decide (p.ts < maxTimestamp)),
    hrun, ?_, hord.sorted.filter _, ?_⟩
  · intro sizes hsizes fuel hfuel
    rw [hrec.storedPoints hsh h] at hord hfuel ⊢
    rw [hsh.drainSearch_kept h hkeep' hord.sorted hsizes hfuel, scan_all]
  · intro hset q hq p hlt allowDup
    rw [hrec.storedPoints hsh h] at hord hq
    exact hord.refuses hsh h hset hq hlt allowDup

theorem time_order_run_memStore :
    inStep [.append ⟨10, 1⟩ false, .reopen, .crash, .append ⟨20, 2⟩ false]
      (.new 7 [] (memStore Rat)) = true ∧
    inTime 0 [.append ⟨10, 1⟩ false, .reopen, .crash, .append ⟨20, 2⟩ false]
      (.new 7 [] (memStore Rat)) = true ∧ ∃ acc t found,
    runOps [.append ⟨10, 1⟩ false, .reopen, .crash, .append ⟨20, 2⟩ false]
      (.new 7 [] (memStore Rat)) = some (acc, t) ∧ (∀ fuel, (t.storedPoints 0).length < fuel →
      t.drainSearch minTimestamp maxTimestamp fuel (fun _ => 2) = some (found, .noData)) ∧
    found.Pairwise (fun p q => p.ts ≤ q.ts) := by
  have hin : inStep [.append ⟨10, 1⟩ false, .reopen, .crash, .append ⟨20, 2⟩ false]
      (.new 7 [] (memStore Rat)) = true := by decide +kernel
  have htime : inTime 0 [.append ⟨10, 1⟩ false, .reopen, .crash, .append ⟨20, 2⟩ false]
      (.new 7 [] (memStore Rat)) = true := by decide +kernel
  obtain ⟨acc, t, found, hrun, hsearch, hsorted, -⟩ := time_order_run (memStore Rat) rfl 7 _ hin htime
  exact ⟨hin, htime, acc, t, found, hrun, hsearch (fun _ => 2) (fun _ => by decide), hsorted⟩

/-! ## A point from the past -/

namespace OpenTree

theorem repaired_append {ls : List (Level V)} {w : Nat} (h : (s.repaired ls w).Holds leaves [])
    (p : Point) :
    ∃ s' : OpenTree V, (s.repaired ls w).list.append p true = some (.ok, s'.list) ∧ s'.Holds leaves [p] ∧
      s'.bstore = s.bstore := by
  obtain ⟨r, s', new, tail', ha, happ⟩ := append_step h p true
  have hholds := ha.holds h
  cases ha with
  | late hl => exact absurd hl Bool.false_ne_true
  | pushed _ _ _ _ =>
    rw [append_nil] at hholds
    exact ⟨_, happ, hholds, rfl⟩
  | spilled _ hne _ _ _ _ _ => exact absurd rfl hne

end OpenTree

/-- A leaf of points at time 100 is written, the tree crashes, and a point at time 1
is accepted: the search returns it after the others. -/
theorem time_order_broken : ∃ (ps acc found : List Point) (t : NBTreeExtentsList Rat),
    runOps (ps.map (.append · true) ++ [.crash, .append ⟨1, 0⟩ true])
      (.new 7 [] (memStore Rat)) = some (acc, t) ∧
    (∀ sizes : Nat → Nat, (∀ i, 0 < sizes i) → ∀ fuel, found.length < fuel →
      t.drainSearch minTimestamp maxTimestamp fuel sizes = some (found, .noData)) ∧
    ¬ found.Pairwise (fun p q => p.ts ≤ q.ts) := by
  let p : Point := ⟨100, 0⟩
  let old : Point := ⟨1, 0⟩
  obtain ⟨n, s1, block, w, v, hr, hfirst, hkeep, hinit⟩ := exists_crashed p
  -- the point from the past
  obtain ⟨s2, happ, hholds, hbs⟩ := repaired_append
    (repaired_holds hr.holds.levels.reset hr.holds.top.reset v) old
  rw [nil_append] at hholds
  have hkeep2 : s2.bstore.removedBelow = 0 := by rw [hbs, hkeep]
  have hsorted : Sorted (replicate n p) := pairwise_replicate.mpr (.inr le_rfl)
  have hpoints : ∀ addr, points [⟨addr, replicate n p⟩] ++ [old] = replicate n p ++ [old] := by
    simp [points]
  have hfilter : (replicate n p ++ [old]).filter (fun p => decide (p.ts < maxTimestamp)) =
      replicate n p ++ [old] := by
    rw [filter_append, filter_replicate_of_pos (by decide)]
    rfl
  refine ⟨replicate (n + 1) p, replicate (n + 1) p ++ [old], replicate n p ++ [old], s2.list, ?_, ?_,
    ?_⟩
  · rw [runOps_append, hfirst]
    have happ' : (list _).append ⟨1, 0⟩ true = _ := happ
    simp only [runOps, SessionOp.step, hinit, happ', map_some, bind_some]
    rfl
  · intro sizes hsizes fuel hfuel
    rw [Shows.drainSearch (.inl rfl) hholds (BlockStore.aged_of_keeps hkeep2)
      ⟨⟨forall_mem_singleton.mpr hsorted, Or.inr (by decide)⟩, pairwise_singleton _ _⟩ hsizes
      (by rw [hpoints]; exact hfuel), BlockStore.live_of_keeps hkeep2, hpoints, scan_all, hfilter]
  · intro hc
    have hmem : p ∈ replicate n p :=
      mem_replicate.mpr ⟨fun hzero => hr.ne (by rw [hzero]; rfl), rfl⟩
    have hle := (pairwise_append.mp hc).2.2 p hmem old (mem_singleton_self _)
    exact absurd hle (by decide)

end FastSTDB
