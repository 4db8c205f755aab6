import FastSTDB.RescueRecords

/-
  Data recovery — the points of the log go back to the trees (`storage.cc`)

  The log is read once more, for the points of the series that need it. A tree may have
  some of them: it takes no equal timestamps until it has taken a point.

  Correspondence (C++ ↔ Lean):
    `Visitor` of the recovery   ↔ `DataRecovery`, `visit`; it also keeps `proceed`
    `run_inputlog_recovery`     ↔ `runInputlogRecovery`; the columns are closed behind it
  The numbers of samples are for messages only and left out.

  What is proved: `recovery_advances` — whatever the log has, a tree only gains blocks,
  and only the trees of the series to restore change.
-/
namespace FastSTDB
open List Option ColumnTrees

variable {V : Type} [DoubleArith V]

/-- There are no trees after an abort. -/
structure DataRecovery (V : Type) where
  trees : Option (ColumnTrees V)
  updatedIds : List ParamId
  proceed : Bool

namespace DataRecovery

def visitPoint (id : ParamId) (point : Point) (s : DataRecovery V) : DataRecovery V :=
  match s.trees.bind (recoveryWrite id point (decide (id ∈ s.updatedIds))) with
  | none => { s with trees := none, proceed := false }
  | some (.failBadValue, c) => { s with trees := c, proceed := false }
  | some (.ok, c) | some (.okFlushNeeded, c) => ⟨c, id :: s.updatedIds, true⟩
  | some (.failBadId, c) | some (.failLateWrite, c) => { s with trees := c, proceed := true }

/-- A record of another series leaves `proceed` as it is. -/
def visit (ids2restore : List ParamId) (row : InputLogRow) (s : DataRecovery V) :
    DataRecovery V :=
  if row.id ∈ ids2restore then
    match row.payload with
    | .dataPoint point => s.visitPoint row.id point
    | .seriesName _ | .recoveryInfo _ => { s with proceed := true }
  else s

end DataRecovery

def runInputlogRecovery {ρ : Type} (rd : Pull.Reader Status InputLogRow ρ Unit) (fuel : Nat)
    (log : ρ) (ids2restore : List ParamId) (c : ColumnTrees V) : Option (ColumnTrees V) :=
  (replayLog rd (fun row s => let s := s.visit ids2restore row; (s.proceed, s)) fuel log
    ⟨some c, [], true⟩).bind DataRecovery.trees

/-- What each visit preserves holds at the end. -/
theorem replayLog_preserves {ρ τ : Type} {rd : Pull.Reader Status InputLogRow ρ Unit}
    {visit : InputLogRow → τ → Bool × τ} {P : τ → Prop}
    (hvisit : ∀ row s, P s → P (visit row s).2) : ∀ (fuel : Nat) {log : ρ} {s s' : τ}, P s →
    replayLog rd visit fuel log s = some s' → P s'
  | fuel + 1, log, s, s', hs, h => by
    obtain ⟨r, -, h⟩ := bind_eq_some_iff.mp h
    have hfold : P (r.out.foldl (fun seen row => visit row seen.2) (true, s)).2 :=
      foldlRecOn (motive := fun seen : Bool × τ => P seen.2) r.out _ hs
        fun seen h row _ => hvisit row seen.2 h
    dsimp only at h
    split at h
    · split at h
      · exact replayLog_preserves hvisit fuel hfold h
      · cases h
        exact hfold
    · cases h
      exact hs

/-- The trees of `ids` may have advanced, and no others have changed. -/
def TreesGrow (ids : List ParamId) (c c' : ColumnTrees V) : Prop :=
  ∀ id, c'.columns.lookup id = c.columns.lookup id ∨ id ∈ ids ∧ ∃ u u',
    c.columns.lookup id = some u ∧ c'.columns.lookup id = some u' ∧ u.Advances u'

section
variable {ids : List ParamId} {c c' c'' : ColumnTrees V} {id : ParamId}
  (hkeep : ∀ id u, c.columns.lookup id = some u → u.bstore.removedBelow = 0)
include hkeep

theorem TreesGrow.recoveryWrite (h : TreesGrow ids c c') (hid : id ∈ ids) {p : Point}
    {allowDup : Bool} {r : NBTreeAppendResult}
    (hw : c'.recoveryWrite id p allowDup = some (r, c'')) : TreesGrow ids c c'' := by
  rw [ColumnTrees.recoveryWrite] at hw
  split at hw
  · cases hw
    exact h
  · next u' hu' =>
    obtain ⟨⟨r, u''⟩, happ, hw⟩ := map_eq_some_iff.mp hw
    cases hw
    obtain ⟨u, hu, hadv⟩ : ∃ u, c.columns.lookup id = some u ∧ u.Advances u' := by
      rcases h id with heq | ⟨-, u, u₁, hu, hu₁, hadv⟩
      · exact ⟨u', heq ▸ hu', .refl u'⟩
      · cases hu'.symm.trans hu₁
        exact ⟨u, hu, hadv⟩
    have hstep := (NBTreeExtentsList.append_advances (hadv.kept.trans (hkeep id u hu)) happ).1
    intro id'
    by_cases heq : id' = id
    · subst heq
      exact .inr ⟨hid, u, u'', hu, AList.lookup_insert _, hadv.trans hstep⟩
    · rw [ColumnTrees.set, AList.lookup_insert_ne heq]
      exact h id'

theorem TreesGrow.visit (row : InputLogRow) {s : DataRecovery V}
    (h : ∀ c' ∈ s.trees, TreesGrow ids c c') :
    ∀ c' ∈ (s.visit ids row).trees, TreesGrow ids c c' := by
  rw [DataRecovery.visit]
  split
  case isFalse => exact h
  case isTrue hid =>
    split
    case h_1 p _ =>
      -- whatever the tree has answered, its table is the new one
      have htrees : (s.visitPoint row.id p).trees = (s.trees.bind
          (ColumnTrees.recoveryWrite row.id p (decide (row.id ∈ s.updatedIds)))).map Prod.snd := by
        rw [DataRecovery.visitPoint]
        split <;> simp [*]
      rw [htrees]
      intro c'' hc''
      obtain ⟨⟨r, _⟩, hw, rfl⟩ := map_eq_some_iff.mp hc''
      obtain ⟨c', hc', hw⟩ := bind_eq_some_iff.mp hw
      exact (h c' hc').recoveryWrite hkeep hid hw
    all_goals exact h

end

/-- Recovery loses nothing that is stored: whatever the log is, the trees of the series to restore
may have new blocks behind the old ones and new rescue points, and the others are the same. -/
theorem recovery_advances {ρ : Type} (rd : Pull.Reader Status InputLogRow ρ Unit) (fuel : Nat)
    (log : ρ) (ids : List ParamId) {c c' : ColumnTrees V}
    (hkeep : ∀ id u, c.columns.lookup id = some u → u.bstore.removedBelow = 0)
    (h : runInputlogRecovery rd fuel log ids c = some c') : TreesGrow ids c c' := by
  obtain ⟨s, hrun, hs⟩ := bind_eq_some_iff.mp h
  have hstart : ∀ c' ∈ (⟨some c, [], true⟩ : DataRecovery V).trees, TreesGrow ids c c' := by
    rintro _ ⟨⟩
    exact fun _ => .inl rfl
  exact replayLog_preserves (P := fun s => ∀ c' ∈ s.trees, TreesGrow ids c c')
    (fun row _ h => TreesGrow.visit hkeep row h) fuel hstart hrun c' hs

/-- The series 7 gets its point back; the record of the series 8 is skipped. -/
theorem recovery_advances_point :
    let rows : List InputLogRow := [⟨7, .dataPoint ⟨10, 20⟩⟩, ⟨8, .dataPoint ⟨10, 20⟩⟩]
    let rd : Pull.Reader Status InputLogRow (List InputLogRow) Unit := fun φ log _ =>
      some ⟨if log = [] then .noData else .ok, log, [], φ⟩
    let c : ColumnTrees Rat :=
      ⟨fun _ => memStore Rat, AList.singleton 7 (newColumn 7 (memStore Rat))⟩
    ∃ c', runInputlogRecovery rd 3 rows [7] c = some c' ∧ TreesGrow [7] c c' ∧
      (c'.columns.lookup 7).map (·.last) = some 10 := by
  intro rows rd c
  have hrun : ((runInputlogRecovery rd 3 rows [7] c).bind fun c' =>
      (c'.columns.lookup 7).map (·.last)) = some 10 := by decide +kernel
  obtain ⟨c', hrun, hlast⟩ := bind_eq_some_iff.mp hrun
  refine ⟨c', hrun, recovery_advances rd 3 rows [7] (fun id u hu => ?_) hrun, hlast⟩
  cases mem_singleton.mp (AList.mem_lookup_iff.mp hu)
  rfl

end FastSTDB
